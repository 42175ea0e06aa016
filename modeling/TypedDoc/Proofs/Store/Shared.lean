/-
  TypedDoc.Proofs.Store.Shared — any number of stores on one source.

  Each store has a document of its own, a configuration and a registry. Their calls come
  in any order, each as a whole, with changes to the documents and closings in between
  (`run`). A change may be any: children renamed in place, several under one name, lists
  and arrays that were never checked.

  Beside the stores the scene keeps what the last write that was answered `true` had at
  that call, its configuration and its document. At every moment the source shows what it
  showed at first, if there was no such write, and else the whole envelope of that
  document, which can be read (`content_of_run`). Where a commit can fail once it shows, it
  is the whole envelope of some document all the same. Of the codec nothing is known but
  that what it packs inflates to what was packed.
-/

import Mathlib.Logic.Function.Basic
import TypedDoc.Proofs.Document.RoundTrip
import TypedDoc.Proofs.Store.Calls

namespace TypedDoc

open Wire

namespace Store

/-! ## What a call leaves -/

theorem source_readBy (codec : Gzip.Codec) (force : Bool) (h : Host) (s : Store) :
    (s.readBy codec force h).1.source = s.source := by
  unfold readBy
  split
  · rfl
  · split <;> rfl

theorem source_writeBy (codec : Gzip.Codec) (force : Bool) (h : Host) (s : Store) :
    (s.writeBy codec force h).1.source = s.source := by
  have hw := writeBy_wrote codec force s h
  generalize s.writeBy codec force h = r at hw ⊢
  obtain ⟨s', r⟩ := r
  cases hw <;> rfl

theorem faults_writeBy (codec : Gzip.Codec) (force : Bool) (h : Host) (s : Store) :
    s.source.faults (left (s.writeBy codec force h).2) = s.source.faults h := by
  have hw := writeBy_wrote codec force s h
  generalize s.writeBy codec force h = r at hw ⊢
  obtain ⟨s', r⟩ := r
  have hcommitted : ∀ {w : Draft} {h' : Host} {r : EStateM.Result Error Host Unit}, s.source.Begun h w h' → w.commit h' = r →
      s.source.faults (left r) = s.source.faults h := fun hb hc => by
    rw [← hc, hb.of.faults_commit, hb.faults]
  cases hw with
  | absent => rfl
  | skipped => rfl
  | refused hd ho => exact congrArg (Source.faults _) (Source.openWrite_error ho)
  | unwritten hd hb => exact (Draft.faults_discard _ _ _).trans hb.faults
  | uncommitted hd he hb hw hc => exact hcommitted hb hc
  | written hd he hb hw hc => exact hcommitted hb hc

/-- Either all of the document is shown, or what was shown before. -/
theorem content_writeBy (codec : Gzip.Codec) (force : Bool) (h : Host) (s : Store) :
    let all (h' : Host) := ∃ d, s.document = some d ∧ d.Encodable ∧ s.source.content h' = some (s.config.wrapBy codec d.bytes)
    match (s.writeBy codec force h).2 with
    | .ok true h' => all h'
    | .ok false h' => s.source.content h' = s.source.content h
    | .error _ h' => s.source.content h' = s.source.content h ∨ s.source.settles h = false ∧ all h' := by
  have hw := writeBy_wrote codec force s h
  generalize s.writeBy codec force h = r at hw ⊢
  obtain ⟨s', r⟩ := r
  cases hw with
  | absent => exact .inl rfl
  | skipped => rfl
  | refused hd ho => exact .inl (Source.content_openWrite ho)
  | unwritten hd hb => exact .inl hb.content_discard
  | uncommitted hd he hb hwritten hc =>
    exact (hb.content_commit_error hc).imp_right fun ⟨hno, hshown⟩ => ⟨hno, _, hd, he, hshown.trans (congrArg some hwritten)⟩
  | written hd he hb hwritten hc => exact ⟨_, hd, he, (hb.content_commit hc).trans (congrArg some hwritten)⟩

/-! ## Scenes -/

/-- What is done with one of the stores. -/
inductive Op where
  | read (force : Bool)
  | write (force : Bool)
  /-- Any change to the document, if there is one. -/
  | mutate (f : Document → Document)
  | close

/-- Stores told apart by `ι`, and where their sources are. -/
structure Scene (ι : Type) where
  stores : ι → Store
  host : Host
  /-- The configuration and the document that the last write answered `true` had. -/
  last : Option (Config × Document)

variable {ι : Type} [DecidableEq ι]

def Scene.put (sc : Scene ι) (i : ι) (s : Store) : Scene ι := { sc with stores := Function.update sc.stores i s }

def Scene.step (codec : Gzip.Codec) (sc : Scene ι) : ι × Op → Scene ι
  | (i, .read force) => sc.put i ((sc.stores i).readBy codec force sc.host).1
  | (i, .write force) =>
    match (sc.stores i).writeBy codec force sc.host with
    | (s, .ok true h) =>
      { sc.put i s with host := h, last := (sc.stores i).document.map fun d => ((sc.stores i).config, d) }
    | (s, .ok false h) | (s, .error _ h) => { sc.put i s with host := h }
  | (i, .mutate f) => sc.put i { sc.stores i with document := (sc.stores i).document.map f }
  | (i, .close) => sc.put i (sc.stores i).close.1

/-- Some operations on some stores, in a row. -/
def Scene.run (codec : Gzip.Codec) (sc : Scene ι) (ops : List (ι × Op)) : Scene ι := ops.foldl (Scene.step codec) sc

/-! ## What the source shows -/

/-- All of a document in the envelope that a configuration asks for, which can be read again. -/
def Shows (codec : Gzip.Codec) (content : Option (List UInt8)) (config : Config) (d : Document) : Prop :=
  ∃ d' bs, d.encode = (d', .ok bs) ∧ content = some (config.wrapBy codec bs) ∧
    Document.readBy codec .standard (.ofBytes (config.wrapBy codec bs)) = .ok { d.collapse with envelope := config.envelope }

/-- `host` is what there was before the first operation. -/
structure Scene.Inv (codec : Gzip.Codec) (source : Source) (host : Host) (sc : Scene ι) : Prop where
  sources : ∀ i, (sc.stores i).source = source
  settles : source.settles sc.host = source.settles host
  whole : source.content sc.host = source.content host ∨ ∃ config d, Shows codec (source.content sc.host) config d
  untouched : source.settles host = true → sc.last = none → source.content sc.host = source.content host
  written : source.settles host = true → ∀ config d, sc.last = some (config, d) → Shows codec (source.content sc.host) config d

theorem shows_wrapBy (codec : Gzip.Lossless) (config : Config) {d : Document} (h : d.Encodable) :
    Shows codec (some (config.wrapBy codec d.bytes)) config d := by
  refine ⟨d.clear, d.bytes, Document.encode_of_encodable h, rfl, ?_⟩
  have hread := (Document.readBy_wrapBy codec config.gzipLevel.toNat h config.envelope []).2
  rw [List.append_nil] at hread
  exact hread

variable {codec : Gzip.Lossless} {source : Source} {host : Host} {sc : Scene ι}

theorem Scene.sources_put (h : ∀ i, (sc.stores i).source = source) {i : ι} {s : Store}
    (hs : s.source = (sc.stores i).source) (j : ι) : ((sc.put i s).stores j).source = source := by
  show (Function.update sc.stores i s j).source = source
  by_cases hj : j = i
  · rw [hj, Function.update_self, hs, h i]
  · rw [Function.update_of_ne hj, h j]

namespace Scene.Inv

/-- The content and the last write stay. -/
theorem put (hi : sc.Inv codec source host) (i : ι) (s : Store) (hs : s.source = (sc.stores i).source) {h : Host}
    (hf : source.faults h = source.faults sc.host) (hc : source.content h = source.content sc.host) :
    ({ sc.put i s with host := h } : Scene ι).Inv codec source host where
  sources := sources_put hi.sources hs
  settles := (Source.settles_congr hf).trans hi.settles
  whole := hc ▸ hi.whole
  untouched hsettles hl := hc.trans (hi.untouched hsettles hl)
  written hsettles config d hl := hc ▸ hi.written hsettles config d hl

theorem write (hi : sc.Inv codec source host) (i : ι) (force : Bool) :
    (sc.step codec (i, .write force)).Inv codec source host := by
  have hs := hi.sources i
  have hsource := source_writeBy codec force sc.host (sc.stores i)
  have hfaults := faults_writeBy codec force sc.host (sc.stores i)
  have hcontent := content_writeBy codec force sc.host (sc.stores i)
  unfold step
  dsimp only
  rcases hw : (sc.stores i).writeBy codec force sc.host with ⟨s, ⟨_ | _, h⟩ | ⟨e, h⟩⟩ <;> rw [hw] at hsource hcontent hfaults <;>
    dsimp only at hsource hcontent ⊢ <;> rw [hs] at hcontent hfaults
  · exact hi.put i s hsource hfaults hcontent
  · obtain ⟨d, hd, he, hshown⟩ := hcontent
    have hshows := hshown ▸ shows_wrapBy codec (sc.stores i).config he
    refine ⟨sources_put hi.sources hsource, (Source.settles_congr hfaults).trans hi.settles, .inr ⟨_, d, hshows⟩, fun _ hl => ?_,
      fun _ config d' hl => ?_⟩
    · rw [hd] at hl
      cases hl
    · rw [hd] at hl
      cases hl
      exact hshows
  · rcases hcontent with hsame | ⟨hno, d, hd, he, hshown⟩
    · exact hi.put i s hsource hfaults hsame
    · have hshows := hshown ▸ shows_wrapBy codec (sc.stores i).config he
      have hnever : source.settles host ≠ true := by
        rw [← hi.settles, hno]
        exact Bool.false_ne_true
      exact ⟨sources_put hi.sources hsource, (Source.settles_congr hfaults).trans hi.settles, .inr ⟨_, d, hshows⟩,
        fun hs => absurd hs hnever, fun hs => absurd hs hnever⟩

theorem step (hi : sc.Inv codec source host) : ∀ op : ι × Op, (sc.step codec op).Inv codec source host
  | (i, .read force) => hi.put i _ (source_readBy codec force sc.host (sc.stores i)) rfl rfl
  | (i, .write force) => hi.write i force
  | (i, .mutate f) => hi.put i { sc.stores i with document := (sc.stores i).document.map f } rfl rfl rfl
  | (i, .close) => hi.put i (sc.stores i).close.1 rfl rfl rfl

theorem run (hi : sc.Inv codec source host) (ops : List (ι × Op)) : (sc.run codec ops).Inv codec source host := by
  induction ops generalizing sc with
  | nil => exact hi
  | cons op ops ih => exact ih (hi.step op)

end Scene.Inv

/-- Whatever stores on one source do in turn, it shows what it showed at first or all of a
    document, in an envelope that a store asks for, and that can be read. If a commit that
    fails does so before anything shows, as that of a cell always does, this is the last
    document that a write was answered `true` for, in the envelope its store asked for, and
    there was one unless what it showed at first is there. -/
theorem content_of_run (codec : Gzip.Lossless) {source : Source} {stores : ι → Store} (hs : ∀ i, (stores i).source = source)
    (host : Host) (ops : List (ι × Op)) :
    let sc := Scene.run codec ⟨stores, host, none⟩ ops
    (source.content sc.host = source.content host ∨ ∃ config d, Shows codec (source.content sc.host) config d) ∧
    (source.settles host = true →
      (sc.last = none ∧ source.content sc.host = source.content host) ∨
        ∃ config d, sc.last = some (config, d) ∧ Shows codec (source.content sc.host) config d) := by
  intro sc
  have hinit : (⟨stores, host, none⟩ : Scene ι).Inv codec source host :=
    ⟨hs, rfl, .inl rfl, fun _ _ => rfl, fun _ _ _ hl => by cases hl⟩
  have hi := hinit.run ops
  refine ⟨hi.whole, fun hsettles => ?_⟩
  cases hl : sc.last with
  | none => exact .inl ⟨rfl, hi.untouched hsettles hl⟩
  | some last => exact .inr ⟨last.1, last.2, rfl, hi.written hsettles _ _ hl⟩

set_option maxRecDepth 4000 in
/-- One store makes a document; another reads it, has two children of one name, and packs it;
    the first writes again in vain. -/
theorem content_of_run_renamed :
    let stores (packs : Bool) : Store :=
      if packs then ⟨.cell "s", { Config.standard with envelope := .gzip }, .standard, none⟩
      else ⟨.cell "s", .standard, .standard, some (.ofHeader .standard)⟩
    let rename (d : Document) : Document :=
      { d with
        entries := [("a", ⟨some "n", .scalar (.byte 1), true⟩), ("b", ⟨some "n", .scalar (.byte 2), true⟩)]
        modified := true }
    let ops : List (Bool × Op) :=
      [(false, .write false), (true, .read false), (true, .mutate rename), (true, .write false), (false, .write false),
        (false, .close), (false, .write true)]
    ∃ bs, (Source.cell "s").content (Scene.run .stored ⟨stores, ⟨[("s", .memory none)], .empty⟩, none⟩ ops).host = some bs ∧
      Document.ofBytes bs = .ok ⟨.standard, "", [("n", ⟨some "n", .scalar (.byte 2), false⟩)], false, .gzip⟩ := by
  intro stores rename ops
  have hs : ∀ i, (stores i).source = .cell "s" := by decide
  let host : Host := ⟨[("s", .memory none)], .empty⟩
  have hlast : (Scene.run Gzip.Lossless.stored ⟨stores, host, none⟩ ops).last =
      some ({ Config.standard with envelope := .gzip }, rename (.ofHeader .standard)) := by cbv
  obtain ⟨hnone, -⟩ | ⟨config, d, hsome, d', bs, -, hcontent, hread⟩ :=
    (content_of_run .stored hs host ops).2 rfl
  · rw [hlast] at hnone
    cases hnone
  · rw [hlast] at hsome
    cases hsome
    exact ⟨_, hcontent, hread⟩

end Store

end TypedDoc
