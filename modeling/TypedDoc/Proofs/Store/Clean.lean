/-
  TypedDoc.Proofs.Store.Clean — a document that is not modified is in its source.

  A run of a store is any number of calls, each of which may fail, of changes to the root
  object, and of closings; the rest of the world may change between them, but not what the
  source shows (`Runs`). In every state a run leads to, the content of the source gives the
  unmodified document again, as it was collapsed (`clean_persisted`), with one exception.
  A document that was read through a stream that broke off, or came in smaller pieces, need
  not be there for a stream without faults, if the source still has what it had before the
  first call and that is a gzip member whose deflate stream never ends. It is met
  (`clean_not_read_again`).
-/

import TypedDoc.Proofs.Document.RoundTrip
import TypedDoc.Proofs.Store.Failure

namespace TypedDoc.Store

open Wire

/-! ## Runs -/

/-- Calls, whether they succeed or not, changes to the root object, and closings; a commit
    that fails does so before anything shows. `via` is the stream that the last document to
    be read was read of, if none was written since. -/
inductive Runs (codec : Gzip.Codec) (s₀ : Store) (h₀ : Host) : (via : Option Supply) → Store → Host → Prop
  | start : Runs codec s₀ h₀ none s₀ h₀
  /-- Another process, or a fault that comes or goes. -/
  | elsewhere {via : Option Supply} {s : Store} {h g : Host} : Runs codec s₀ h₀ via s h →
      s.source.content g = s.source.content h → Runs codec s₀ h₀ via s g
  | taken {via : Option Supply} {s s' : Store} {h h' : Host} {force : Bool} {stream : Supply} : Runs codec s₀ h₀ via s h →
      s.source.openRead h = .ok stream → s.callBy codec (.read force) h = (s', .ok true h') →
      Runs codec s₀ h₀ (some stream) s' h'
  | written {via : Option Supply} {s s' : Store} {h h' : Host} {force : Bool} : Runs codec s₀ h₀ via s h →
      s.callBy codec (.write force) h = (s', .ok true h') → Runs codec s₀ h₀ none s' h'
  | skipped {via : Option Supply} {s s' : Store} {h h' : Host} {c : Call} : Runs codec s₀ h₀ via s h →
      s.callBy codec c h = (s', .ok false h') → Runs codec s₀ h₀ via s' h'
  | failed {via : Option Supply} {s s' : Store} {h h' : Host} {c : Call} {e : Error} : Runs codec s₀ h₀ via s h →
      s.source.settles h = true → s.callBy codec c h = (s', .error e h') → Runs codec s₀ h₀ via s' h'
  | edited {via : Option Supply} {s : Store} {h : Host} {α : Type}
      (f : List (String × Value) → List (String × Value) × α) : Runs codec s₀ h₀ via s h → Runs codec s₀ h₀ via (s.edit f) h
  | closed {via : Option Supply} {s : Store} {h : Host} : Runs codec s₀ h₀ via s h → Runs codec s₀ h₀ via s.close.1 h

/-! ## The invariant -/

/-- A stream without faults over the content gives the document, as it was collapsed; or only
    another stream does, through which it was read of what the source had before the first
    call, a member whose deflate stream never ends. -/
def Persisted (codec : Gzip.Codec) (via : Option Supply) (initial content : Option (List UInt8)) (d : Document) : Prop :=
  ∃ bs, content = some bs ∧
    (Document.readBy codec .standard (.ofBytes bs) = .ok d.collapse ∨
      ∃ chunk fault, via = some (.limited bs chunk fault) ∧ Supply.limited bs chunk fault ≠ .ofBytes bs ∧
        Document.readBy codec .standard (.limited bs chunk fault) = .ok d.collapse ∧
        initial = some bs ∧ Gzip.unfinished bs = true)

/-- `initial` is what the source showed before the first call. -/
structure Inv (codec : Gzip.Codec) (initial : Option (List UInt8)) (via : Option Supply) (s : Store) (h : Host) : Prop where
  registry : s.registry = .standard
  content : s.source.content h = initial ∨ ∃ bs, s.source.content h = some bs ∧ Gzip.unfinished bs = false
  clean : ∀ d, s.document = some d → d.modified = false → Persisted codec via initial (s.source.content h) d

variable {codec : Gzip.Conforming} {initial : Option (List UInt8)} {via : Option Supply} {s s' : Store} {h h' : Host}

/-! ## Each event keeps it -/

theorem Inv.of_kept (hi : Inv codec initial via s h) (hk : Kept s h s' h') : Inv codec initial via s' h' := by
  have hcontent : s'.source.content h' = s.source.content h := by rw [hk.source, hk.content]
  refine ⟨hk.registry.trans hi.registry, hcontent ▸ hi.content, fun d' hd' hm' => ?_⟩
  rw [hcontent]
  have hdoc := hk.document
  rw [hd'] at hdoc
  cases hd : s.document with
  | none => rw [hd] at hdoc; cases hdoc
  | some d =>
    rw [hd] at hdoc
    injection hdoc with hc
    have hm : d.modified = false := by
      cases hm : d.modified with
      | false => rfl
      | true =>
        obtain ⟨d'', hd'', -, hm''⟩ := hk.exists_document hd hm
        rw [hd'] at hd''
        cases hd''
        rw [hm'] at hm''
        cases hm''
    have hclean := hi.clean d hd hm
    unfold Persisted at hclean ⊢
    rw [Document.collapse_of_clear_eq hc]
    exact hclean

/-- What comes of a stream over the content is there again, but for a member whose deflate
    stream never ends; and such a one was there from the start. -/
theorem Inv.of_taken {force : Bool} {stream : Supply} (hi : Inv codec initial via s h) (ho : s.source.openRead h = .ok stream)
    (hr : s.readBy codec force h = (s', .ok true)) : Inv codec initial (some stream) s' h := by
  have hreads := readBy_reads codec force s h
  rw [hr] at hreads
  cases hreads with
  | taken ho' ht =>
    rw [ho] at ho'
    cases ho'
    rw [hi.registry] at ht
    rcases Source.openRead_ok ho with hnil | ⟨bs, chunk, fault, hbs, rfl⟩
    · exact absurd ht (Document.readBy_ne_ok hnil)
    · obtain ⟨-, hc, hagain⟩ := Document.readBy_ok (Supply.limited_parting _ _ _) (Supply.flatten_limited _ _ _) ht
      refine ⟨hi.registry, hi.content, fun d' hd' _ => ⟨bs, hbs, ?_⟩⟩
      cases hd'
      rw [hc]
      cases hu : Gzip.unfinished bs with
      | false => exact Or.inl (hagain hu)
      | true =>
        by_cases hsame : Supply.limited bs chunk fault = .ofBytes bs
        · exact Or.inl (hsame ▸ ht)
        · refine Or.inr ⟨chunk, fault, rfl, hsame, ht, ?_, rfl⟩
          rcases hi.content with hinitial | ⟨bs', hbs', hu'⟩
          · exact hinitial.symm.trans hbs
          · rw [hbs] at hbs'
            cases hbs'
            rw [hu] at hu'
            cases hu'

theorem Inv.of_written {force : Bool} (hi : Inv codec initial via s h) (hw : s.writeBy codec force h = (s', .ok true h')) :
    Inv codec initial none s' h' := by
  have hwrote := writeBy_wrote codec force s h
  rw [hw] at hwrote
  cases hwrote with
  | written hd he hb hwritten hc =>
    rename_i d w g
    have hcontent : s.source.content h' = some (s.config.wrapBy codec d.bytes) := by rw [hb.content_commit hc, hwritten]
    have hread := (Document.readBy_wrapBy codec.toLossless s.config.gzipLevel.toNat he s.config.envelope []).2
    rw [List.append_nil] at hread
    have hcollapse : Document.collapse { d.clear with envelope := s.config.envelope } =
        { d.collapse with envelope := s.config.envelope } := by
      rw [← Document.collapse_of_clear_eq (Document.clear_clear d)]
      rfl
    refine ⟨hi.registry, Or.inr ⟨_, hcontent, Document.unfinished_wrapBy codec _ d s.config.envelope⟩,
      fun d' hd' _ => ⟨_, hcontent, Or.inl ?_⟩⟩
    cases hd'
    rw [hcollapse]
    exact hread

theorem Inv.of_skipped {c : Call} (hi : Inv codec initial via s h) (hc : s.callBy codec c h = (s', .ok false h')) :
    Inv codec initial via s' h' := by
  unfold callBy at hc
  cases c with
  | read force =>
    have hreads := readBy_reads codec force s h
    simp only at hc
    split at hc
    · rename_i hr
      cases hc
      rw [hr] at hreads
      cases hreads with
      | skipped => exact hi
    · cases hc
  | write force =>
    have hc : s.writeBy codec force h = (s', .ok false h') := hc
    have hwrote := writeBy_wrote codec force s h
    rw [hc] at hwrote
    cases hwrote with
    | skipped => exact hi

theorem Runs.inv {s₀ : Store} {h₀ : Host} (hr : Runs codec s₀ h₀ via s h) (hi : Inv codec initial none s₀ h₀) :
    Inv codec initial via s h := by
  induction hr with
  | start => exact hi
  | elsewhere _ hg ih => exact ih.of_kept (.of_content hg)
  | taken _ ho hc ih =>
    unfold callBy at hc
    simp only at hc
    split at hc
    · rename_i hr
      cases hc
      exact ih.of_taken ho hr
    · cases hc
  | written _ hc ih => exact ih.of_written hc
  | skipped _ hc ih => exact ih.of_skipped hc
  | failed _ hs hc ih => exact ih.of_kept (kept_of_call hs hc)
  | edited f _ ih =>
    rename_i s h α _
    refine ⟨ih.registry, ih.content, fun d hd hm => ?_⟩
    unfold edit at hd
    cases hs : s.document with
    | none => rw [hs] at hd; cases hd
    | some d₀ => rw [hs] at hd; cases hd; cases hm
  | closed _ ih => exact ⟨ih.registry, ih.content, fun d hd _ => by cases hd⟩

/-- Before the first call a store has no document, or one that is modified. -/
theorem Inv.start {source : Source} {config : Config} {s₀ : Store}
    (hs : Store.ofSource source config .standard = .ok s₀ ∨ Store.fresh source config .standard = .ok s₀) (h₀ : Host) :
    Inv codec (s₀.source.content h₀) none s₀ h₀ := by
  unfold ofSource fresh at hs
  cases hc : config.validated with
  | error e => rw [hc] at hs; rcases hs with hs | hs <;> cases hs
  | ok config' =>
    rw [hc] at hs
    rcases hs with hs | hs
    · cases hs
      exact ⟨rfl, Or.inl rfl, fun d hd _ => by cases hd⟩
    · cases hs
      exact ⟨rfl, Or.inl rfl, fun d hd hm => by cases hd; cases hm⟩

/-! ## Clean documents -/

/-- However a store came to a document that is not modified, the source has it. So a write
    that is skipped leaves nothing unwritten. -/
theorem clean_persisted (codec : Gzip.Conforming) {source : Source} {config : Config} {s₀ : Store} {h₀ : Host}
    (hs : Store.ofSource source config .standard = .ok s₀ ∨ Store.fresh source config .standard = .ok s₀)
    (hr : Runs codec s₀ h₀ via s h) :
    (∀ d, s.document = some d → d.modified = false → Persisted codec via (s₀.source.content h₀) (s.source.content h) d) ∧
      ∀ s' h', s.writeBy codec false h = (s', .ok false h') →
        ∃ d, s.document = some d ∧ Persisted codec via (s₀.source.content h₀) (s.source.content h) d := by
  have hi := hr.inv (Inv.start hs h₀)
  refine ⟨hi.clean, fun s' h' hw => ?_⟩
  have hwrote := writeBy_wrote codec false s h
  rw [hw] at hwrote
  cases hwrote with
  | skipped hd _ hm => exact ⟨_, hd, hi.clean _ hd hm⟩

/-- A new document is written, and there it is. -/
theorem clean_persisted_fresh :
    let cell (content : Option (List UInt8)) : Host := ⟨[("s", .memory content)], .empty⟩
    let d : Document := ⟨.standard, "", [], false, .plain⟩
    let s : Store := ⟨.cell "s", .standard, .standard, some d⟩
    let bs : List UInt8 := [0x4D, 0x4F, 0x42, 0x46, 1, 1, 0, 0, 1, 0, 0, 0, 0, 0]
    Store.fresh (.cell "s") .standard .standard = .ok { s with document := some d.markModified } ∧
      Runs .stored { s with document := some d.markModified } (cell none) none s (cell (some bs)) ∧
      Persisted .stored none none (some bs) d := by
  intro cell d s bs
  have hs : Store.fresh (.cell "s") .standard .standard = .ok { s with document := some d.markModified } := rfl
  have hw : Store.callBy .stored (.write false) (cell none) { s with document := some d.markModified } =
      (s, .ok true (cell (some bs))) := by cbv
  have hr : Runs .stored { s with document := some d.markModified } (cell none) none s (cell (some bs)) := .written .start hw
  exact ⟨hs, hr, (clean_persisted .stored (Or.inr hs) hr).1 d rfl rfl⟩

set_option maxRecDepth 4000 in
/-- A member whose second block is no block: a stream that breaks off behind the first one
    gives the document in it, a stream that goes on fails. -/
theorem clean_not_read_again :
    let bs : List UInt8 := Gzip.plainHeader ++ Gzip.stored false [0x4D, 0x4F, 0x42, 0x46, 1, 1, 0, 0, 1, 0, 0, 0, 0, 0] ++
      [7, 0, 0, 0, 0, 0, 0, 0, 0]
    let cell (faults : Host.Faults) : Host := ⟨[("s", ⟨some bs, none, faults⟩)], .empty⟩
    let d : Document := ⟨.standard, "", [], false, .gzip⟩
    let s : Store := ⟨.cell "s", .standard, .standard, none⟩
    let fault : Nat × Error := (29, .ioOther "read fault")
    let breaking := cell { Host.Faults.none with chunk := some 28, cut := some fault }
    Store.ofSource (.cell "s") .standard .standard = .ok s ∧
      Runs .stored s breaking (some (.limited bs (some 28) (some fault))) { s with document := some d } (cell .none) ∧
      d.modified = false ∧ s.source.content (cell .none) = some bs ∧
      Document.readBy .stored .standard (.ofBytes bs) = .error (.damaged .contents) := by
  intro bs cell d s fault breaking
  have hopen : s.source.openRead breaking = .ok (.limited bs (some 28) (some fault)) := rfl
  have hread : s.callBy .stored (.read false) breaking = ({ s with document := some d }, .ok true breaking) := by cbv
  have hsame : s.source.content (cell .none) = s.source.content breaking := rfl
  refine ⟨rfl, .elsewhere (.taken .start hopen hread) hsame, rfl, rfl, ?_⟩
  cbv

end TypedDoc.Store
