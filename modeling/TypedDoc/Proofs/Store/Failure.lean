/-
  TypedDoc.Proofs.Store.Failure — what is left of a call that failed: nothing but flags.

  A failed call keeps the document up to its flags, keeps the root modified if it was, and
  keeps what the source shows (`Kept`), if a commit that fails does so before anything shows
  (`Source.settles`). So any number of them does (`Fails.kept`), and a write that comes after
  them goes as it would have gone without them (`failure_atomic`).
-/

import TypedDoc.Proofs.Store.Calls

namespace TypedDoc.Store

open Wire

/-- The root of an installed document is modified. -/
def dirty (s : Store) : Bool := s.document.any Document.modified

/-- All that a failed call keeps. -/
structure Kept (s : Store) (h : Host) (s' : Store) (h' : Host) : Prop where
  source : s'.source = s.source
  config : s'.config = s.config
  registry : s'.registry = s.registry
  document : s'.document.map Document.clear = s.document.map Document.clear
  dirty : s.dirty = true → s'.dirty = true
  content : s.source.content h' = s.source.content h

namespace Kept

theorem refl (s : Store) (h : Host) : Kept s h s h := ⟨rfl, rfl, rfl, rfl, id, rfl⟩

theorem trans {s s' s'' : Store} {h h' h'' : Host} (k : Kept s h s' h') (k' : Kept s' h' s'' h'') : Kept s h s'' h'' :=
  ⟨k'.source.trans k.source, k'.config.trans k.config, k'.registry.trans k.registry, k'.document.trans k.document,
    fun hd => k'.dirty (k.dirty hd), by rw [← k.source, k'.content, k.source, k.content]⟩

/-- The rest of the world may change while no call is made. -/
theorem of_content {s : Store} {h h' : Host} (hc : s.source.content h' = s.source.content h) : Kept s h s h' :=
  ⟨rfl, rfl, rfl, rfl, id, hc⟩

theorem exists_document {s s' : Store} {h h' : Host} {d : Document} (k : Kept s h s' h') (hd : s.document = some d)
    (hm : d.modified = true) : ∃ d', s'.document = some d' ∧ d'.clear = d.clear ∧ d'.modified = true := by
  have hc := k.document
  have hk := k.dirty
  unfold Store.dirty at hk
  rw [hd] at hc hk
  cases hd' : s'.document with
  | none => rw [hd'] at hc; cases hc
  | some d' =>
    rw [hd'] at hc hk
    injection hc with hc
    exact ⟨d', rfl, hc, hk hm⟩

theorem of_document {s : Store} {h h' : Host} {d d' : Document} (hd : s.document = some d) (hc : d'.clear = d.clear)
    (hm : d.modified = true → d'.modified = true) (hs : s.source.content h' = s.source.content h) :
    Kept s h { s with document := some d' } h' := by
  refine ⟨rfl, rfl, rfl, ?_, ?_, hs⟩
  · rw [hd]
    exact congrArg some hc
  · unfold Store.dirty
    rw [hd]
    exact hm

end Kept

variable {codec : Gzip.Codec}

theorem kept_of_read {force : Bool} {s s' : Store} {h : Host} {e : Error} (hr : s.readBy codec force h = (s', .error e)) :
    s' = s := by
  have := readBy_reads codec force s h
  rw [hr] at this
  cases this
  rfl

theorem kept_of_write {force : Bool} {s s' : Store} {h h' : Host} {e : Error} (hs : s.source.settles h = true)
    (hw : s.writeBy codec force h = (s', .error e h')) : Kept s h s' h' := by
  have := writeBy_wrote codec force s h
  rw [hw] at this
  cases this with
  | absent hd => exact .refl _ _
  | refused hd ho => exact .of_content (Source.content_openWrite ho)
  | unwritten hd hb hc hm => exact .of_document hd hc hm hb.content_discard
  | uncommitted hd he hb hwritten hc =>
    have hclear : ∀ d : Document, d.clear.markModified.clear = d.clear := fun d => by
      rw [Document.clear_markModified, Document.clear_clear]
    rcases hb.content_commit_error hc with hsame | ⟨hno, -⟩
    · exact .of_document hd (hclear _) (fun _ => rfl) hsame
    · rw [hs] at hno
      cases hno

theorem kept_of_call {c : Call} {s s' : Store} {h h' : Host} {e : Error} (hs : s.source.settles h = true)
    (hc : s.callBy codec c h = (s', .error e h')) : Kept s h s' h' := by
  unfold callBy at hc
  cases c with
  | read force =>
    simp only at hc
    split at hc
    · cases hc
    · rename_i s₁ e₁ hr
      cases hc
      rw [kept_of_read hr]
      exact .refl _ _
  | write force => exact kept_of_write hs hc

/-- Calls that fail, one after another; a commit does so before anything shows. Before each,
    anything but what the source shows may change. -/
inductive Fails (codec : Gzip.Codec) : Store → Host → Store → Host → Prop
  | none (s : Store) (h : Host) : Fails codec s h s h
  | more {s s' s'' : Store} {h h' g h'' : Host} {c : Call} {e : Error} : Fails codec s h s' h' →
      s'.source.content g = s'.source.content h' → s'.source.settles g = true → s'.callBy codec c g = (s'', .error e h'') →
      Fails codec s h s'' h''

theorem Fails.kept {s s' : Store} {h h' : Host} (hf : Fails codec s h s' h') : Kept s h s' h' := by
  induction hf with
  | none => exact .refl _ _
  | more _ hg hs hc ih => exact ih.trans ((Kept.of_content hg).trans (kept_of_call hs hc))

/-! ## Trying again -/

/-- A modified document that can be encoded: what a write comes to is a matter of the rest. -/
theorem writeBy_of_encodable {s : Store} {d : Document} (hd : s.document = some d) (hm : d.modified = true)
    (he : d.Encodable) (force : Bool) (g : Host) :
    (s.writeBy codec force g).2 =
      match s.source.openWrite g with
      | .error e g => .error e g
      | .ok w g =>
        match s.config.envelope.writeBy codec s.config.gzipLevel.toNat d.bytes (w, g) with
        | .error e (w, g) => .error e (w.discard g)
        | .ok _ (w, g) =>
          match w.commit g with
          | .error e g => .error e g
          | .ok _ g => .ok true g := by
  unfold writeBy
  simp only [hd, hm, Bool.not_true, Bool.and_false, Bool.false_eq_true, if_false]
  cases s.source.openWrite g with
  | error e g => rfl
  | ok w g =>
    simp only [Document.writeBy_of_encodable codec _ he]
    rcases s.config.envelope.writeBy codec s.config.gzipLevel.toNat d.bytes (w, g) with ⟨_, w, g⟩ | ⟨e, w, g⟩
    · simp only
      cases w.commit g with
      | error e g => rfl
      | ok _ g => rfl
    · rfl

/-- Where nothing is in the way, a document that can be encoded is written if it is modified
    or the write is forced. -/
theorem writeBy_of_accepts (codec : Gzip.Codec) {s : Store} {d : Document} {g : Host} {force : Bool} (hd : s.document = some d)
    (hm : force = true ∨ d.modified = true) (he : d.Encodable) (ha : s.source.accepts g = true) :
    ∃ s' g', s.writeBy codec force g = (s', .ok true g') ∧ s.source.content g' = some (s.config.wrapBy codec d.bytes) := by
  obtain ⟨w, g₁, ho, hr⟩ := Source.begun_of_accepts ha
  have hb := Source.begun_openWrite ho
  obtain ⟨st, hput⟩ := Draft.put_flush_of_roomy hb.of.1 hr (s.config.wrapBy codec d.bytes)
  have hleft := begun_left ho codec s.config.gzipLevel.toNat s.config.envelope d.bytes
  have hwrite : s.config.envelope.writeBy codec s.config.gzipLevel.toNat d.bytes (w, g₁) = .ok () st := hput
  rw [hwrite] at hleft
  have hleft : s.source.Begun g st.1 st.2 := hleft
  obtain ⟨g', hc⟩ := hleft.commit_of_accepts ha
  have hskip : (!force && !d.modified) = false := by rcases hm with rfl | hm <;> simp [*]
  refine ⟨{ s with document := some { d.clear with envelope := s.config.envelope } }, g', ?_, ?_⟩
  · unfold writeBy
    simp only [hd, hskip, Bool.false_eq_true, if_false, ho, Document.writeBy_of_encodable codec _ he, hwrite, hc]
  · have hwritten := Draft.written_put_flush hput
    rw [(Source.openWrite_ok ho).2.1, List.nil_append] at hwritten
    rw [hleft.content_commit hc, hwritten]

/-- What a write comes to is the same after any number of failed calls as before them. -/
theorem writeBy_of_kept {s s' : Store} {h h' : Host} {d : Document} (hk : Kept s h s' h') (hd : s.document = some d)
    (hm : d.modified = true) (he : d.Encodable) (force : Bool) (g : Host) :
    (s'.writeBy codec force g).2 = (s.writeBy codec force g).2 := by
  obtain ⟨d', hd', hc, hm'⟩ := hk.exists_document hd hm
  have he' : d'.Encodable := by
    rw [← Document.encodable_clear, hc, Document.encodable_clear]
    exact he
  have hb : d'.bytes = d.bytes := by rw [← Document.bytes_clear d', hc, Document.bytes_clear]
  rw [writeBy_of_encodable hd hm he, writeBy_of_encodable hd' hm' he', hb, hk.source, hk.config]

/-- A call that fails keeps all but flags, and a modified root modified, if a commit that
    fails does so before anything shows. So calls that fail, however many, do not show in
    what a later write comes to, and one that nothing is in the way of puts the document in
    the source. -/
theorem failure_atomic (codec : Gzip.Codec) :
    (∀ (c : Call) (s s' : Store) (h h' : Host) (e : Error), s.source.settles h = true →
      s.callBy codec c h = (s', .error e h') → Kept s h s' h') ∧
    ∀ {α : Type} (f : List (String × Value) → List (String × Value) × α) (s s' : Store) (h h' : Host)
      (d d' : Document) (bs : List UInt8), s.document = some d → (d.editEntries f).1.encode = (d', .ok bs) →
      Fails codec (s.edit f) h s' h' →
      Kept (s.edit f) h s' h' ∧
      ∀ g, s.source.accepts g = true → ∃ g',
        (s'.writeBy codec false g).2 = .ok true g' ∧ ((s.edit f).writeBy codec false g).2 = .ok true g' ∧
        s.source.content g' = some (s.config.wrapBy codec bs) := by
  refine ⟨fun c s s' h h' e => kept_of_call, ?_⟩
  intro α f s s' h h' d d' bs hd hencode hfails
  obtain ⟨he, -, rfl⟩ := Document.encode_ok hencode
  have hk := hfails.kept
  have hd' : (s.edit f).document = some (d.editEntries f).1 := by
    unfold edit
    rw [hd]
    rfl
  refine ⟨hk, fun g ha => ?_⟩
  obtain ⟨s'', g', hw, hc⟩ := writeBy_of_accepts codec hd' (Or.inr rfl) he ha
  have hw' : ((s.edit f).writeBy codec false g).2 = .ok true g' := by rw [hw]
  exact ⟨g', (writeBy_of_kept hk hd' rfl he false g).trans hw', hw', hc⟩

/-- A commit fails, then a read; the next write puts the same bytes in the source. -/
theorem failure_atomic_commit :
    let host (faults : Host.Faults) : Host := ⟨[("s", ⟨none, none, faults⟩)], .empty⟩
    let full := host { Host.Faults.none with commit := some Sink.writeFault }
    let gone := host { Host.Faults.none with openRead := some .hostOther }
    let s : Store := ⟨.cell "s", .standard, .standard, some (.ofHeader .standard)⟩
    let add (es : List (String × Value)) := (es ++ [("a", ⟨some "a", .scalar (.boolean true), true⟩)], ())
    let bs : List UInt8 := [0x4D, 0x4F, 0x42, 0x46, 1, 1, 0, 0, 1, 0, 0, 0, 0, 3, 0, 0, 0, 1, 97, 1, 0]
    ∃ s' g', (s.edit add).callBy .stored (.write false) full = (s', .error Sink.writeFault full) ∧
      s'.callBy .stored (.read true) gone = (s', .error .hostOther gone) ∧ Kept (s.edit add) full s' gone ∧
      (s'.write false (host .none)).2 = .ok true g' ∧ s.source.content g' = some bs := by
  intro host full gone s add bs
  let s' : Store :=
    ⟨.cell "s", .standard, .standard, some ⟨.standard, "", [("a", ⟨some "a", .scalar (.boolean true), false⟩)], true, .plain⟩⟩
  have hw : (s.edit add).callBy .stored (.write false) full = (s', .error Sink.writeFault full) := rfl
  have hr : s'.callBy .stored (.read true) gone = (s', .error .hostOther gone) := rfl
  have hk : Kept (s.edit add) full s' full := (failure_atomic .stored).1 _ _ _ _ _ _ rfl hw
  have henc : ((Document.ofHeader .standard).editEntries add).1.encode =
      (⟨.standard, "", [("a", ⟨some "a", .scalar (.boolean true), false⟩)], false, .plain⟩, .ok bs) := by cbv
  have hg : s'.source.content gone = s'.source.content full := rfl
  have hf : Fails .stored (s.edit add) full s' gone := .more (.more (.none _ _) rfl rfl hw) hg rfl hr
  obtain ⟨hkept, hretry⟩ := (failure_atomic .stored).2 add s s' full gone _ _ bs rfl henc hf
  obtain ⟨g', hw', -, hc⟩ := hretry (host .none) rfl
  exact ⟨s', g', hw, hr, hkept, hw', hc⟩

end TypedDoc.Store
