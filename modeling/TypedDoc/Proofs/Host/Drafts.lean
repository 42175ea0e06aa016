/-
  TypedDoc.Proofs.Host.Drafts — any number of drafts of one source, open at once.

  Drafts are opened, written to, flushed, committed and given up in any order, while faults
  come and go (`Desk.run`). All drafts of a file have one file. Opening one empties it, the
  bytes of each go into it, and the first that is committed or given up takes its path away.

  Beside the drafts the desk keeps
  - which of them were `touched`: another draft emptied the file when it had bytes of theirs,
    wrote into it, or took it away;
  - whether one that was touched sent bytes all the same, or got the path (`late`);
  - whether a commit failed though it showed already (`unsettled`).
  Until one of the latter two, the source shows what it showed at first, or all that the last
  draft that was committed had. Both never come about with a cell, and the first does not
  with one draft at a time (`late_of_alone`).

  Whatever was touched, `Effects` says what a draft that writes, is committed or given up
  shows. `content_of_moves` puts this together for every run; `content_of_overlap` has runs
  in which the document is overwritten, or emptied, by a draft that was never committed. A
  large write is enough for the latter (`content_of_emptied`).
-/

import Mathlib.Logic.Function.Basic
import TypedDoc.Proofs.Host.Draft

namespace TypedDoc

open Wire Host

/-! ## Moves -/

namespace Source

/-- From now on it fails in these ways. -/
def withFaults (s : Source) (f : Faults) (h : Host) : Host :=
  match s with
  | .cell name => h.setCell name { h.cell name with faults := f }
  | .file _ => { h with directory := { h.directory with faults := f } }

theorem content_withFaults (s : Source) (f : Faults) (h : Host) : s.content (s.withFaults f h) = s.content h := by
  cases s with
  | cell name =>
    show ((h.setCell name _).cell name).content = _
    rw [Host.cell_setCell]
    rfl
  | file p =>
    show ({ h.directory with faults := f } : Directory).contentAt p = h.directory.contentAt p
    exact Directory.contentAt_congr rfl fun _ _ => rfl

end Source

theorem Draft.Of.withFaults {s : Source} {h : Host} {w : Draft} {touched : Bool} (ho : w.Of s touched h) (f : Faults) :
    w.Of s touched (s.withFaults f h) := by
  cases s with
  | cell name => exact ho
  | file p => exact ho

/-- What is done with one draft. -/
inductive Move where
  | openWrite
  | write (bs : List UInt8)
  | flush
  | commit
  | discard
  /-- Faults that come or go, be it this draft's turn or not. -/
  | faults (f : Faults)

/-- Drafts told apart by `ι`, where their source is, and what became of it. -/
structure Desk (ι : Type) where
  host : Host
  drafts : ι → Option Draft
  /-- Another draft changed the file since this one was opened, and not only emptied it before
      this one had bytes there. -/
  touched : ι → Bool
  /-- A draft sent bytes or got the path after it was touched. -/
  late : Bool
  /-- A commit failed once it showed. -/
  unsettled : Bool
  /-- All that the last draft that was committed had, or what the source showed at first. -/
  last : Option (List UInt8)

namespace Desk

variable {ι : Type}

def clear (source : Source) (host : Host) : Desk ι :=
  ⟨host, fun _ => none, fun _ => false, false, false, source.content host⟩

variable [DecidableEq ι]

/-- A new draft has the file empty. -/
def opened (desk : Desk ι) (i : ι) (w : Draft) (host : Host) : Desk ι :=
  { desk with
    host
    drafts := Function.update desk.drafts i (some w)
    touched := Function.update (fun j => desk.touched j || (desk.drafts j).any fun w => decide (w.passed ≠ 0)) i false }

/-- A draft was written to, and some bytes may have gone to the file. -/
def wrote (desk : Desk ι) (i : ι) (w : Draft) : Draft × Host → Desk ι
  | (w', host) =>
    { desk with
      host
      drafts := Function.update desk.drafts i (some w')
      touched := if w'.passed = w.passed then desk.touched else fun j => desk.touched j || decide (j ≠ i)
      late := desk.late || desk.touched i && decide (w'.passed ≠ w.passed) }

/-- A draft is no more. It `acted` if it sent bytes or got the path. -/
def ended (source : Source) (desk : Desk ι) (i : ι) (acted : Bool) (host : Host) : Desk ι :=
  { desk with
    host
    drafts := Function.update desk.drafts i none
    touched := fun _ => source.shared
    late := desk.late || desk.touched i && acted }

def step (source : Source) (desk : Desk ι) : ι × Move → Desk ι
  | (i, move) =>
    match move, desk.drafts i with
    | .openWrite, none =>
      match source.openWrite desk.host with
      | .error _ h => { desk with host := h }
      | .ok w h => desk.opened i w h
    | .write bs, some w => desk.wrote i w (left (Draft.put bs (w, desk.host)))
    | .flush, some w => desk.wrote i w (left (Draft.flush (w, desk.host)))
    | .commit, some w =>
      match w.commit desk.host with
      | .ok _ h => { desk.ended source i true h with last := some w.written }
      | .error _ h =>
        match w.publish desk.host with
        | .ok _ _ => { desk.ended source i true h with unsettled := true }
        | .error _ _ => desk.ended source i (!(w.fitting desk.host).isEmpty) h
    | .discard, some w => desk.ended source i (!(w.fitting desk.host).isEmpty) (w.discard desk.host)
    | .faults f, _ => { desk with host := source.withFaults f desk.host }
    | .openWrite, some _ | .write _, none | .flush, none | .commit, none | .discard, none => desk

/-- Some moves, in a row. -/
def run (source : Source) (desk : Desk ι) (moves : List (ι × Move)) : Desk ι := moves.foldl (step source) desk

/-! ## What every run keeps -/

variable {source : Source} {desk : Desk ι} {i : ι} {w : Draft} {h : Host}

/-- What holds of a draft that is new in its slot, and of those in other slots, holds of all. -/
theorem forall_update {drafts : ι → Option Draft} {draft : Option Draft} {P : ι → Draft → Prop}
    (hnew : ∀ w, draft = some w → P i w) (hothers : ∀ j w, j ≠ i → drafts j = some w → P j w) (j : ι) (w : Draft)
    (hd : Function.update drafts i draft j = some w) : P j w := by
  by_cases hj : j = i
  · subst hj
    rw [Function.update_self] at hd
    exact hnew w hd
  · rw [Function.update_of_ne hj] at hd
    exact hothers j w hj hd

structure Inv (source : Source) (desk : Desk ι) : Prop where
  drafts : ∀ i w, desk.drafts i = some w → w.Of source (desk.touched i) desk.host
  content : desk.late = false → desk.unsettled = false → source.content desk.host = desk.last
  cells : source.shared = false → (∀ i, desk.touched i = false) ∧ desk.late = false ∧ desk.unsettled = false

namespace Inv

omit [DecidableEq ι] in
theorem clear (source : Source) (host : Host) : (Desk.clear source host : Desk ι).Inv source :=
  ⟨fun _ _ hd => (nomatch hd), fun _ _ => rfl, fun _ => ⟨fun _ => rfl, rfl, rfl⟩⟩

omit [DecidableEq ι] in
/-- No byte of a draft of a cell has gone anywhere. -/
theorem passed_eq_zero (hi : desk.Inv source) (hs : source.shared = false) (hd : desk.drafts i = some w) : w.passed = 0 := by
  have hof := hi.drafts i w hd
  cases source with
  | cell name => exact hof.1.cell name hof.cell
  | file p => cases hs

theorem touched_opened (desk : Desk ι) (i : ι) (w : Draft) (h : Host) (j : ι) : (desk.opened i w h).touched j =
    if j = i then false else desk.touched j || (desk.drafts j).any fun w => decide (w.passed ≠ 0) := by
  exact Function.update_apply (fun j => desk.touched j || (desk.drafts j).any fun w => decide (w.passed ≠ 0)) i false j

theorem opened (hi : desk.Inv source) (ho : source.openWrite desk.host = .ok w h) (i : ι) : (desk.opened i w h).Inv source := by
  obtain ⟨hof, -, hcontent, -⟩ := Source.openWrite_ok ho
  refine ⟨forall_update (fun w' hw => ?_) fun j w' hj hd => ?_, fun hl hu => hcontent.trans (hi.content hl hu), fun hs => ?_⟩
  · cases hw
    rw [touched_opened, if_pos rfl]
    exact hof
  · rw [touched_opened, if_neg hj, hd]
    exact (hi.drafts j w' hd).openWrite ho
  · obtain ⟨htouched, hl, hu⟩ := hi.cells hs
    refine ⟨fun j => ?_, hl, hu⟩
    rw [touched_opened, htouched j]
    split
    · rfl
    · cases hd : desk.drafts j with
      | none => rfl
      | some w' => simp only [Option.any_some, Bool.false_or, hi.passed_eq_zero hs hd, ne_eq, not_true, decide_false]

theorem wrote {st : Draft × Host} (hi : desk.Inv source) (hd : desk.drafts i = some w)
    (hg : ∃ bs, Draft.Goes bs (w, desk.host) st) : (desk.wrote i w st).Inv source := by
  obtain ⟨bs, hg⟩ := hg
  obtain ⟨w', h⟩ := st
  have hof := hi.drafts i w hd
  have hhost : h = w.sent bs desk.host := hg.host
  by_cases hsame : w'.passed = w.passed
  · -- Nothing was sent.
    have hnil : bs = [] := by
      have hlength := hg.passed
      exact List.length_eq_zero_iff.1 (by dsimp only at hlength; omega)
    have heq : desk.wrote i w (w', h) = { desk with drafts := Function.update desk.drafts i (some w') } := by
      unfold Desk.wrote
      simp only [hhost, hnil, Draft.sent_nil, hsame, if_true, ne_eq, not_true, decide_false, Bool.and_false, Bool.or_false]
    have hof' := hof.goes hg
    rw [hhost, hnil, Draft.sent_nil] at hof'
    rw [heq]
    refine ⟨forall_update (fun w'' hw => ?_) fun j w'' _ => hi.drafts j w'', hi.content, hi.cells⟩
    cases hw
    exact hof'
  · have hne : decide (w'.passed ≠ w.passed) = true := decide_eq_true hsame
    refine ⟨forall_update (fun w'' hw => ?_) fun j w'' hj hd' => ?_, fun hl hu => ?_, fun hs => ?_⟩
    · cases hw
      show w'.Of source ((if w'.passed = w.passed then desk.touched else _) i) h
      rw [if_neg hsame, decide_eq_false (not_not.2 rfl), Bool.or_false]
      exact hof.goes hg
    · show w''.Of source ((if w'.passed = w.passed then desk.touched else _) j) h
      rw [if_neg hsame, decide_eq_true hj, Bool.or_true, hhost]
      exact (hi.drafts j w'' hd').sent w bs
    · obtain ⟨hl, hfresh⟩ := Bool.or_eq_false_iff.1
        (show (desk.late || desk.touched i && decide (w'.passed ≠ w.passed)) = false from hl)
      rw [hne, Bool.and_true] at hfresh
      rw [hfresh] at hof
      show source.content h = desk.last
      rw [hhost, hof.content_sent, hof.seen_eq, hi.content hl hu]
    · -- A draft of a cell sends nothing.
      cases source with
      | cell name =>
        have hnil := hg.cell name hof.cell
        have hlength := hg.passed
        rw [hnil] at hlength
        exact absurd hlength hsame
      | file p => cases hs

/-- The file of the others was touched. What is shown has to be known only if the draft did
    nothing, or if its own was not. -/
theorem ended {acted unsettled : Bool} {last : Option (List UInt8)} (hi : desk.Inv source) (hd : desk.drafts i = some w)
    (hothers : ∀ (w' : Draft) (touched : Bool), w'.Of source touched desk.host → w'.Of source true h)
    (hunsettled : unsettled = false → desk.unsettled = false) (hcells : source.shared = false → unsettled = false)
    (hcontent : (acted = true → w.Of source false desk.host) → unsettled = false →
      source.content desk.host = desk.last → source.content h = last) :
    ({ desk.ended source i acted h with unsettled, last } : Desk ι).Inv source := by
  have hof := hi.drafts i w hd
  refine ⟨forall_update (fun w' hw => ?_) fun j w' _ hd' => ?_, fun hl hu => ?_, fun hs => ?_⟩
  · cases hw
  · have hother := hothers w' _ (hi.drafts j w' hd')
    show w'.Of source source.shared h
    cases source with
    | cell name => exact hother
    | file p => exact hother
  · obtain ⟨hl, hfresh⟩ := Bool.or_eq_false_iff.1 (show (desk.late || desk.touched i && acted) = false from hl)
    refine hcontent (fun hacted => ?_) hu (hi.content hl (hunsettled hu))
    rw [hacted, Bool.and_true] at hfresh
    exact hfresh ▸ hof
  · obtain ⟨htouched, hl, -⟩ := hi.cells hs
    refine ⟨fun _ => hs, ?_, hcells hs⟩
    show (desk.late || desk.touched i && acted) = false
    rw [hl, htouched i]
    rfl

theorem discarded (hi : desk.Inv source) (hd : desk.drafts i = some w) :
    (desk.ended source i (!(w.fitting desk.host).isEmpty) (w.discard desk.host)).Inv source := by
  have hof := hi.drafts i w hd
  refine hi.ended hd (fun w' touched ho => ho.discard w) id (fun hs => (hi.cells hs).2.2) fun hfresh _ hl => ?_
  show source.content (w.discard desk.host) = desk.last
  rw [hof.content_discard, ← hl]
  cases hfitting : w.fitting desk.host with
  | nil => exact Draft.seen_nil w desk.host _
  | cons b bs => exact (hfresh (by rw [hfitting]; rfl)).seen_eq _ _

theorem committed (hi : desk.Inv source) (hd : desk.drafts i = some w) (hc : w.commit desk.host = .ok () h) :
    ({ desk.ended source i true h with last := some w.written } : Desk ι).Inv source := by
  obtain ⟨hp, -⟩ := Draft.commit_ok hc
  refine hi.ended hd (fun w' touched ho => ho.publish hp) id (fun hs => (hi.cells hs).2.2) fun hfresh _ _ => ?_
  rw [(hfresh rfl).content_publish hp, (hfresh rfl).pending_eq hp]

omit [DecidableEq ι] in
theorem faulted (hi : desk.Inv source) (f : Faults) :
    ({ desk with host := source.withFaults f desk.host } : Desk ι).Inv source :=
  ⟨fun j w hd => (hi.drafts j w hd).withFaults f,
    fun hl hu => (source.content_withFaults f desk.host).trans (hi.content hl hu), hi.cells⟩

theorem step (hi : desk.Inv source) (m : ι × Move) : (desk.step source m).Inv source := by
  obtain ⟨i, move⟩ := m
  unfold Desk.step
  dsimp only
  split
  · split
    · rename_i ho
      rw [Source.openWrite_error ho]
      exact hi
    · rename_i ho
      exact hi.opened ho i
  · rename_i bs w hd
    exact hi.wrote hd (Draft.goes_put _ (hi.drafts i w hd).1 bs)
  · rename_i w hd
    exact hi.wrote hd (Draft.goes_flush _ (hi.drafts i w hd).1)
  · rename_i w hd
    split
    · rename_i hc
      exact hi.committed hd hc
    · rename_i e h hc
      rcases Draft.commit_error hc with ⟨hp, rfl⟩ | ⟨h₁, hp, hs, rfl⟩
      · rw [hp]
        exact hi.discarded hd
      · rw [hp]
        dsimp only
        refine hi.ended hd (fun w' touched ho => (ho.publish hp).remove w) nofun (fun hshared => ?_) fun _ hu => nomatch hu
        rw [(hi.drafts i w hd).settleFault_of_cell hshared] at hs
        cases hs
  · rename_i w hd
    exact hi.discarded hd
  · exact hi.faulted _
  all_goals exact hi

theorem run (hi : desk.Inv source) (moves : List (ι × Move)) : (desk.run source moves).Inv source := by
  induction moves generalizing desk with
  | nil => exact hi
  | cons m moves ih => exact ih (hi.step m)

end Inv

/-! ## One draft at a time -/

/-- Nothing was late, and a draft in this slot is not touched. -/
def Alone (i : ι) (desk : Desk ι) : Prop := desk.late = false ∧ ∀ w, desk.drafts i = some w → desk.touched i = false

namespace Alone

theorem wrote (ha : desk.Alone i) (hd : desk.drafts i = some w) (st : Draft × Host) : (desk.wrote i w st).Alone i := by
  have hfresh := ha.2 w hd
  refine ⟨?_, fun _ _ => ?_⟩
  · show (desk.late || desk.touched i && _) = false
    rw [ha.1, hfresh]
    rfl
  · show (if st.1.passed = w.passed then desk.touched else fun j => desk.touched j || decide (j ≠ i)) i = false
    split
    · exact hfresh
    · exact Bool.or_eq_false_iff.2 ⟨hfresh, decide_eq_false (not_not.2 rfl)⟩

theorem ended (ha : desk.Alone i) (hd : desk.drafts i = some w) (acted unsettled : Bool) (last : Option (List UInt8)) (h : Host) :
    ({ desk.ended source i acted h with unsettled, last } : Desk ι).Alone i := by
  refine ⟨?_, fun w' hd' => ?_⟩
  · show (desk.late || desk.touched i && acted) = false
    rw [ha.1, ha.2 w hd]
    rfl
  · simp only [Desk.ended, Function.update_self] at hd'
    cases hd'

theorem step (ha : desk.Alone i) (move : Move) : (desk.step source (i, move)).Alone i := by
  unfold Desk.step
  dsimp only
  split
  · split
    · exact ha
    · exact ⟨ha.1, fun w' _ => (Inv.touched_opened desk i _ _ i).trans (if_pos rfl)⟩
  · exact ha.wrote ‹_› _
  · exact ha.wrote ‹_› _
  · split
    · exact ha.ended ‹_› _ _ _ _
    · split
      · exact ha.ended ‹_› _ _ _ _
      · exact ha.ended ‹_› _ _ _ _
  · exact ha.ended ‹_› _ _ _ _
  all_goals exact ha

end Alone

/-- No draft is touched if each is committed or given up before the next is opened. -/
theorem late_of_alone (source : Source) (ha : desk.Alone i) (moves : List Move) :
    (desk.run source (moves.map (i, ·))).late = false := by
  induction moves generalizing desk with
  | nil => exact ha.1
  | cons move moves ih => exact ih (ha.step move)

/-! ## What every move shows -/

theorem content_openWrite (source : Source) (desk : Desk ι) (i : ι) :
    source.content (desk.step source (i, .openWrite)).host = source.content desk.host := by
  unfold step
  dsimp only
  cases desk.drafts i with
  | some w => rfl
  | none =>
    dsimp only
    cases ho : source.openWrite desk.host with
    | error e h => exact Source.content_openWrite ho
    | ok w h => exact (Source.openWrite_ok ho).2.2.1

/-- What a draft shows when it is written to, and at its end. -/
structure Effects (source : Source) (touched : Bool) (w : Draft) (h : Host) : Prop where
  /-- Some bytes go to the file, whether all are accepted or not. -/
  write : ∀ bs, ∃ sent, Draft.Goes sent (w, h) (left (Draft.put bs (w, h))) ∧
    source.content (left (Draft.put bs (w, h))).2 = w.seen h sent (source.content h)
  accepted : ∀ bs st, Draft.put bs (w, h) = .ok () st → st.1.written = w.written ++ bs
  flush : ∃ sent, Draft.Goes sent (w, h) (left (Draft.flush (w, h))) ∧
    source.content (left (Draft.flush (w, h))).2 = w.seen h sent (source.content h)
  discard : source.content (w.discard h) = w.seen h (w.fitting h) (source.content h)
  commit : source.content (left (w.commit h)) =
    match w.publish h with
    | .ok _ _ => w.pending h
    | .error _ _ => w.seen h (w.fitting h) (source.content h)
  /-- Nothing shows before the commit, and all that was written does then. -/
  fresh : touched = false → w.shown h = false ∧ ∀ h', w.publish h = .ok () h' → w.pending h = some w.written

theorem effects_of {touched : Bool} (ho : w.Of source touched h) : Effects source touched w h := by
  have hwrite : ∀ {st : Draft × Host} {sent}, Draft.Goes sent (w, h) st → source.content st.2 = w.seen h sent (source.content h) :=
    fun hg => by rw [hg.host]; exact ho.content_sent _
  refine ⟨fun bs => ?_, fun bs st => Draft.written_put, ?_, ho.content_discard, ?_, fun ht => ?_⟩
  · obtain ⟨sent, hg⟩ := Draft.goes_put (w, h) ho.1 bs
    exact ⟨sent, hg, hwrite hg⟩
  · obtain ⟨sent, hg⟩ := Draft.goes_flush (w, h) ho.1
    exact ⟨sent, hg, hwrite hg⟩
  · cases hc : w.commit h with
    | ok _ h' =>
      obtain ⟨hp, -⟩ := Draft.commit_ok hc
      rw [hp]
      exact ho.content_publish hp
    | error e h' =>
      rcases Draft.commit_error hc with ⟨hp, rfl⟩ | ⟨h₁, hp, -, rfl⟩
      · rw [hp]
        exact ho.content_discard
      · rw [hp]
        exact (ho.publish hp).content_remove.trans (ho.content_publish hp)
  · subst ht
    exact ⟨ho.shown_eq_false, fun h' => ho.pending_eq⟩

/-- A large write sends all bytes of a draft to the file at once. If another draft is opened
    then, and the first is committed, what shows is empty. -/
theorem content_of_emptied {p : FilePath} {bs : List UInt8} {w₁ w' : Draft} {h₁ h₂ h₃ : Host} {touched : Bool}
    (ho : w.Of (.file p) touched h) (hr : h.directory.faults.room = none) (hl : Draft.capacity ≤ bs.length)
    (hput : Draft.put bs (w, h) = .ok () (w₁, h₁)) (hw : (Source.file p).openWrite h₁ = .ok w' h₂)
    (hc : w₁.commit h₂ = .ok () h₃) : w₁.written = w.written ++ bs ∧ (Source.file p).content h₃ = some [] := by
  refine ⟨Draft.written_put hput, ?_⟩
  obtain ⟨sent, hgoes⟩ := Draft.goes_put (w, h) ho.1 bs
  rw [hput] at hgoes
  have ho₁ : w₁.Of (.file p) touched h₁ := ho.goes hgoes
  have hof := ho₁.openWrite hw
  obtain ⟨-, _, id, hg, -⟩ := ho
  obtain ⟨-, _, id₁, hg₁, -⟩ := ho₁
  obtain ⟨place, id', d, -, rfl, hl', hs, hd⟩ := Source.openWrite_file hw
  have hfitting : w₁.fitting { h₁ with directory := d } = [] := by
    unfold Draft.fitting
    rw [hg₁, Draft.held_put_of_large (w, h) hg hr hl hput]
    exact List.take_nil
  have hfound : d.contentAt p.ofDraft = some [] := by
    unfold Directory.contentAt
    rw [hd.locate hl' hs, ← hd.content]
  rw [hof.content_publish (Draft.commit_ok hc).1]
  unfold Draft.pending
  rw [hg₁, hfitting]
  dsimp only
  rw [hfound, Option.map_some, Directory.patch_nil, ite_self]

/-- Whatever is done with drafts of one source, in any order: as long as none that was
    touched sends bytes or gets the path, and no commit fails once it shows, the source shows
    what it showed at first or all that the last draft that was committed had; always so
    with a cell, and as to the first with one draft at a time. Opening a draft never shows.
    What is seen of one otherwise depends on whether its file is the one shown, and on what
    its file is when it gets the path. -/
theorem content_of_moves (source : Source) (host : Host) (moves : List (ι × Move)) :
    let desk := (clear source host).run source moves
    (desk.late = false → desk.unsettled = false → source.content desk.host = desk.last) ∧
    (source.shared = false → desk.late = false ∧ desk.unsettled = false) ∧
    (∀ (i : ι) (own : List Move), moves = own.map (i, ·) → desk.late = false) ∧
    ∀ i, source.content (desk.step source (i, .openWrite)).host = source.content desk.host ∧
      ∀ w, desk.drafts i = some w → Effects source (desk.touched i) w desk.host := by
  intro desk
  have hi : desk.Inv source := (Inv.clear source host).run moves
  refine ⟨hi.content, fun hs => (hi.cells hs).2, fun i own hown => ?_, fun i => ⟨content_openWrite source desk i, fun w hd => ?_⟩⟩
  · have ha : (clear source host : Desk ι).Alone i := ⟨rfl, fun _ hd => (nomatch hd)⟩
    have hlate := late_of_alone source ha own
    rw [← hown] at hlate
    exact hlate
  · exact effects_of (hi.drafts i w hd)

/-- One draft is committed, and then another one given up. -/
theorem content_of_moves_apart :
    let source : Source := .file ⟨"a.mobf"⟩
    let moves : List (Nat × Move) :=
      [(0, .openWrite), (0, .write [97]), (0, .commit), (1, .openWrite), (1, .write [98]), (1, .discard)]
    let desk := (clear source ⟨[], .empty⟩).run source moves
    desk.late = false ∧ desk.unsettled = false ∧ source.content desk.host = some [97] := by
  intro source moves desk
  have hlate : desk.late = false := by decide +kernel
  have hunsettled : desk.unsettled = false := by decide +kernel
  have hlast : desk.last = some [97] := by decide +kernel
  exact ⟨hlate, hunsettled, ((content_of_moves source ⟨[], .empty⟩ moves).1 hlate hunsettled).trans hlast⟩

/-- Two drafts of one file are open, and the first is committed. Giving up the second, or
    committing it in vain, writes over what the first had. If the second is given up first and
    a third opened, or if the first had flushed its bytes when the second was opened, an empty
    file shows. And a commit that fails once it shows has replaced the document. -/
theorem content_of_overlap :
    let source : Source := .file ⟨"a.mobf"⟩
    let run (moves : List (Nat × Move)) : Desk Nat := (clear source ⟨[], .empty⟩).run source moves
    let first := run [(0, .openWrite), (1, .openWrite), (0, .write [97, 97, 97, 97]), (1, .write [98, 98]), (0, .commit)]
    let third := run [(0, .openWrite), (1, .openWrite), (0, .write [97, 97, 97, 97]), (1, .discard), (2, .openWrite), (0, .commit)]
    let flushed := run [(0, .openWrite), (0, .write [97]), (0, .flush), (1, .openWrite), (0, .commit)]
    let inFolder : Source := .file ⟨"d/a.mobf"⟩
    let failing : Faults := { Faults.none with settle := some .hostOther }
    let settled := (clear inFolder ⟨[], Directory.empty.makeFolders ⟨"d"⟩⟩).run inFolder
      [(0, .faults failing), (0, .openWrite), (0, .write [97]), (0, .commit)]
    (source.content first.host = some [97, 97, 97, 97] ∧
        source.content (first.step source (1, .discard)).host = some [98, 98, 97, 97] ∧
        (first.step source (1, .commit)).last = some [97, 97, 97, 97] ∧
        source.content (first.step source (1, .commit)).host = some [98, 98, 97, 97]) ∧
      (third.last = some [97, 97, 97, 97] ∧ source.content third.host = some []) ∧
      (flushed.last = some [97] ∧ source.content flushed.host = some []) ∧
      settled.last = none ∧ inFolder.content settled.host = some [97] := by
  decide +kernel

end Desk

end TypedDoc
