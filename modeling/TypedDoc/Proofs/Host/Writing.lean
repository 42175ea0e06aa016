/-
  TypedDoc.Proofs.Host.Writing — what writing to a draft does to it and to its host.

  A write or a flush, whether it succeeds or fails, sends some bytes to the file of the
  draft: those that were accepted, in order, from where the last ones ended (`Goes`,
  `goes_put`, `goes_flush`). Nothing else changes in the host, and a draft of a cell sends
  nothing.

  What was put is accepted if nothing failed (`written_put`), and after a flush all of it
  has gone to the file (`flush_ok`). Neither fails where there is room (`put_flush_of_room`).
-/

import TypedDoc.Host.Source
import TypedDoc.Proofs.Host.Directory
import TypedDoc.Proofs.Wire.Layout

namespace TypedDoc.Draft

open Wire Host

/-! ## What goes to the file -/

/-- What has gone to the file. -/
def gone (w : Draft) : List UInt8 := w.written.take w.passed

theorem gone_of_held {w : Draft} (h : w.held = []) : w.gone = w.written := by
  have hsplit : w.gone ++ w.held = w.written := List.take_append_drop _ _
  rw [h, List.append_nil] at hsplit
  exact hsplit

/-- No more has gone than was accepted, and nothing where there is no file. -/
structure Sound (w : Draft) : Prop where
  gone : w.gone.length = w.passed
  cell : ∀ name, w.goal = .cell name → w.passed = 0

/-- The host once the next bytes of a draft have gone to its file. -/
def sent (w : Draft) (bs : List UInt8) (h : Host) : Host :=
  match w.goal with
  | .cell _ => h
  | .file _ _ id => { h with directory := h.directory.overlay id w.passed bs }

/-- These bytes go to the file, and nothing else in the host changes. -/
structure Goes (bs : List UInt8) (st st' : Draft × Host) : Prop where
  goal : st'.1.goal = st.1.goal
  gone : st'.1.gone = st.1.gone ++ bs
  passed : st'.1.passed = st.1.passed + bs.length
  cell : ∀ name, st.1.goal = .cell name → bs = []
  host : st'.2 = st.1.sent bs st.2

theorem sent_cell {w : Draft} {name : String} (hg : w.goal = .cell name) (bs : List UInt8) (h : Host) : w.sent bs h = h := by
  unfold sent
  rw [hg]

theorem sent_file {w : Draft} {draft p : FilePath} {id : Nat} (hg : w.goal = .file draft p id) (bs : List UInt8) (h : Host) :
    w.sent bs h = { h with directory := h.directory.overlay id w.passed bs } := by
  unfold sent
  rw [hg]

theorem sent_nil (w : Draft) (h : Host) : w.sent [] h = h := by
  cases hg : w.goal with
  | cell name => rw [sent_cell hg]
  | file draft p id => rw [sent_file hg, Directory.overlay_nil]

namespace Goes

variable {bs cs : List UInt8} {st st' st'' : Draft × Host}

theorem refl (st : Draft × Host) : Goes [] st st :=
  ⟨rfl, (List.append_nil _).symm, rfl, fun _ _ => rfl, (sent_nil _ _).symm⟩

theorem trans (g : Goes bs st st') (g' : Goes cs st' st'') : Goes (bs ++ cs) st st'' := by
  refine ⟨g'.goal.trans g.goal, ?_, ?_, fun name hname => ?_, ?_⟩
  · rw [g'.gone, g.gone, List.append_assoc]
  · rw [g'.passed, g.passed, List.length_append, Nat.add_assoc]
  · rw [g.cell name hname, g'.cell name (g.goal.trans hname)]
    rfl
  · rw [g'.host, g.host]
    cases hg : st.1.goal with
    | cell name => rw [sent_cell (g.goal.trans hg), sent_cell hg, sent_cell hg]
    | file draft p id => rw [sent_file (g.goal.trans hg), sent_file hg, sent_file hg, g.passed, Directory.overlay_append]

theorem sound (g : Goes bs st st') (h : st.1.Sound) : st'.1.Sound := by
  refine ⟨?_, fun name hname => ?_⟩
  · rw [g.gone, g.passed, List.length_append, h.gone]
  · have hcell := g.goal.symm.trans hname
    rw [g.passed, h.cell name hcell, g.cell name hcell]
    rfl

theorem faults (g : Goes bs st st') : st'.2.directory.faults = st.2.directory.faults := by
  rw [g.host]
  unfold sent
  split <;> rfl

end Goes

/-- All that a step on drafts of a goal does is to send bytes. -/
def Sends {α : Type} (goal : Goal) (m : Drafting α) : Prop :=
  ∀ st : Draft × Host, st.1.goal = goal → st.1.Sound → ∃ bs, Goes bs st (left (m st))

namespace Sends

variable {α β : Type} {goal : Goal} {m : Drafting α} {f : α → Drafting β}

theorem pure (a : α) : Sends goal (Pure.pure a : Drafting α) := fun st _ _ => ⟨[], .refl st⟩

theorem throw (e : Error) : Sends goal (MonadExcept.throw e : Drafting α) := fun st _ _ => ⟨[], .refl st⟩

theorem bind (hm : Sends goal m) (hf : ∀ a, Sends goal (f a)) : Sends goal (m >>= f) := by
  intro st hg hs
  obtain ⟨bs, g⟩ := hm st hg hs
  show ∃ bs, Goes bs st (left (EStateM.bind m f st))
  unfold EStateM.bind
  cases hr : m st with
  | error e st' => rw [hr] at g; exact ⟨bs, g⟩
  | ok a st' =>
    rw [hr] at g
    obtain ⟨cs, g'⟩ := hf a st' (g.goal.trans hg) (g.sound hs)
    exact ⟨bs ++ cs, g.trans g'⟩

theorem ite {p : Prop} [Decidable p] {n : Drafting α} (hm : Sends goal m) (hn : Sends goal n) :
    Sends goal (if p then m else n) := by
  split
  · exact hm
  · exact hn

end Sends

/-! ## Steps -/

variable {st : Draft × Host} {draft p : FilePath} {id : Nat}

theorem goes_hold (hs : st.1.Sound) (bs : List UInt8) : Goes [] st (st.1.hold bs, st.2) := by
  have hle : st.1.passed ≤ st.1.written.length := by
    rw [← hs.gone]
    exact List.length_take_le' _ _
  refine ⟨rfl, ?_, rfl, fun _ _ => rfl, (sent_nil _ _).symm⟩
  unfold gone written hold
  rw [List.append_nil, Array.toList_appendList]
  exact List.take_append_of_le_length hle

theorem goes_release (st : Draft × Host) : Goes [] st (st.1.release, st.2) := by
  refine ⟨rfl, ?_, rfl, fun _ _ => rfl, (sent_nil _ _).symm⟩
  show (st.1.written.take st.1.passed).take st.1.passed = st.1.written.take st.1.passed ++ []
  rw [List.append_nil, List.take_take, Nat.min_self]

theorem goes_pass (st : Draft × Host) (hg : st.1.goal = .file draft p id) :
    Goes (st.1.held.take (st.2.directory.space st.1.passed st.1.held.length)) st (pass id st) := by
  refine ⟨rfl, ?_, rfl, fun name hname => ?_, (sent_file hg _ _).symm⟩
  · show st.1.written.take (st.1.passed + _) = _
    rw [List.take_add, List.length_take]
    unfold gone held
    rw [← List.take_take, List.take_length]
  · rw [hg] at hname
    cases hname

theorem passAll_eq (id : Nat) (st : Draft × Host) : passAll id st =
    if (pass id st).1.held = [] then .ok () (pass id st) else .error st.1.sink.full (pass id st) := rfl

theorem sends_passAll : Sends (.file draft p id) (passAll id) := by
  intro st hg _
  refine ⟨st.1.held.take (st.2.directory.space st.1.passed st.1.held.length), ?_⟩
  rw [passAll_eq]
  split <;> exact goes_pass st hg

theorem sends_putThrough (bs : List UInt8) : Sends (.file draft p id) (putThrough id bs) := by
  intro st hg hs
  have hpass := (goes_hold hs bs).trans (goes_pass (st.1.hold bs, st.2) hg)
  unfold putThrough
  dsimp only
  split
  · exact ⟨[], goes_hold hs bs⟩
  · split
    · exact ⟨_, hpass⟩
    · exact ⟨_, hpass.trans (goes_release _)⟩

theorem sends_putFile (bs : List UInt8) : Sends (.file draft p id) (putFile id bs) := by
  intro st hg hs
  unfold putFile
  dsimp only
  split
  · exact ⟨[], goes_hold hs bs⟩
  · split
    · exact sends_passAll.bind (fun _ => sends_putThrough bs) st hg hs
    · exact sends_putThrough bs st hg hs

theorem sends_flushFile : Sends (.file draft p id) (flushFile id) := by
  refine sends_passAll.bind fun _ st _ _ => ⟨[], ?_⟩
  show Goes [] st (left (raise st.2.directory.faults.flush st))
  cases st.2.directory.faults.flush <;> exact .refl st

theorem sends_onSink {name : String} (m : Encoder Unit) : Sends (.cell name) (onSink m) := by
  intro st hg hs
  have hgone : ∀ k : Sink, Goes [] st ({ st.1 with sink := k }, st.2) := by
    intro k
    refine ⟨rfl, ?_, rfl, fun _ _ => rfl, (sent_nil _ _).symm⟩
    unfold gone
    rw [hs.cell name hg]
    rfl
  unfold onSink
  dsimp only
  split <;> exact ⟨[], hgone _⟩

theorem put_cell {name : String} (hg : st.1.goal = .cell name) (bs : List UInt8) : put bs st = onSink (Wire.put bs) st := by
  obtain ⟨⟨goal, sink, passed⟩, h⟩ := st
  obtain rfl : goal = .cell name := hg
  rfl

theorem put_file (hg : st.1.goal = .file draft p id) (bs : List UInt8) : put bs st = putFile id bs st := by
  obtain ⟨⟨goal, sink, passed⟩, h⟩ := st
  obtain rfl : goal = .file draft p id := hg
  rfl

theorem flush_cell {name : String} (hg : st.1.goal = .cell name) : flush st = onSink Wire.flush st := by
  obtain ⟨⟨goal, sink, passed⟩, h⟩ := st
  obtain rfl : goal = .cell name := hg
  rfl

theorem flush_file (hg : st.1.goal = .file draft p id) : flush st = flushFile id st := by
  obtain ⟨⟨goal, sink, passed⟩, h⟩ := st
  obtain rfl : goal = .file draft p id := hg
  rfl

/-- A write sends some bytes to the file of a draft, be it that it fails. -/
theorem goes_put (st : Draft × Host) (hs : st.1.Sound) (bs : List UInt8) : ∃ cs, Goes cs st (left (put bs st)) := by
  cases hg : st.1.goal with
  | cell name => rw [put_cell hg]; exact sends_onSink _ st hg hs
  | file draft p id => rw [put_file hg]; exact sends_putFile bs st hg hs

theorem goes_flush (st : Draft × Host) (hs : st.1.Sound) : ∃ cs, Goes cs st (left (flush st)) := by
  cases hg : st.1.goal with
  | cell name => rw [flush_cell hg]; exact sends_onSink _ st hg hs
  | file draft p id => rw [flush_file hg]; exact sends_flushFile st hg hs

theorem goes_put_flush (st : Draft × Host) (hs : st.1.Sound) (bs : List UInt8) :
    ∃ cs, Goes cs st (left ((do put bs; flush : Drafting Unit) st)) := by
  obtain ⟨cs, g⟩ := goes_put st hs bs
  cases hput : put bs st with
  | error e st' =>
    rw [hput] at g
    rw [bind_eq_of_error _ hput]
    exact ⟨cs, g⟩
  | ok _ st' =>
    rw [hput] at g
    rw [bind_eq_of_ok _ hput]
    obtain ⟨cs', g'⟩ := goes_flush st' (g.sound hs)
    exact ⟨cs ++ cs', g.trans g'⟩

/-! ## Success -/

variable {st' : Draft × Host} {bs : List UInt8}

theorem written_hold (bs : List UInt8) (w : Draft) : (w.hold bs).written = w.written ++ bs := by
  unfold written hold
  exact Array.toList_appendList

theorem passAll_ok (h : passAll id st = .ok () st') : st' = pass id st := by
  rw [passAll_eq] at h
  split at h
  · cases h; rfl
  · cases h

theorem putThrough_ok (h : putThrough id bs st = .ok () st') : st'.1.written = st.1.written ++ bs := by
  unfold putThrough at h
  dsimp only at h
  split at h
  · cases h
    exact written_hold bs st.1
  · split at h
    · cases h
      exact written_hold bs st.1
    · cases h

theorem putFile_ok (h : putFile id bs st = .ok () st') : st'.1.written = st.1.written ++ bs := by
  unfold putFile at h
  dsimp only at h
  split at h
  · cases h
    exact written_hold bs st.1
  · split at h
    · obtain ⟨_, st₁, hpass, hput⟩ := bind_eq_ok.1 h
      rw [putThrough_ok hput, passAll_ok hpass]
      rfl
    · exact putThrough_ok h

theorem onSink_ok {m : Encoder Unit} (h : onSink m st = .ok () st') :
    ∃ k, m st.1.sink = .ok () k ∧ st' = ({ st.1 with sink := k }, st.2) := by
  unfold onSink at h
  dsimp only at h
  split at h
  · cases h
    exact ⟨_, ‹_›, rfl⟩
  · cases h

/-- A write that does not fail accepts all. -/
theorem written_put (h : put bs st = .ok () st') : st'.1.written = st.1.written ++ bs := by
  cases hg : st.1.goal with
  | cell name =>
    rw [put_cell hg] at h
    obtain ⟨k, hk, rfl⟩ := onSink_ok h
    exact put_ok hk
  | file draft p id =>
    rw [put_file hg] at h
    exact putFile_ok h

theorem written_flush (h : flush st = .ok () st') : st'.1.written = st.1.written := by
  cases hg : st.1.goal with
  | cell name =>
    rw [flush_cell hg] at h
    obtain ⟨k, hk, rfl⟩ := onSink_ok h
    rw [flush_ok hk]
  | file draft p id =>
    rw [flush_file hg] at h
    obtain ⟨_, st₁, hpass, hrest⟩ := bind_eq_ok.1 h
    have hw : st₁.1.written = st.1.written := by rw [passAll_ok hpass]; rfl
    rw [← hw]
    obtain ⟨_, _, hget, hrest⟩ := bind_eq_ok.1 hrest
    cases hget
    dsimp only at hrest
    cases hf : st₁.2.directory.faults.flush with
    | none => rw [hf] at hrest; cases hrest; rfl
    | some e => rw [hf] at hrest; cases hrest

theorem written_put_flush (h : (do put bs; flush : Drafting Unit) st = .ok () st') : st'.1.written = st.1.written ++ bs := by
  obtain ⟨_, st₁, hput, hflush⟩ := bind_eq_ok.1 h
  rw [written_flush hflush, written_put hput]

/-! ### Where there is room -/

theorem held_pass (st : Draft × Host) (hr : st.2.directory.faults.room = none) : (pass id st).1.held = [] := by
  have hspace : st.2.directory.space st.1.passed st.1.held.length = st.1.held.length := by
    unfold Directory.space
    rw [hr]
  show st.1.written.drop (st.1.passed + (st.1.held.take (st.2.directory.space st.1.passed st.1.held.length)).length) = []
  rw [hspace, List.take_length]
  unfold held
  rw [List.length_drop]
  exact List.drop_eq_nil_of_le (by omega)

theorem passAll_of_room (hr : st.2.directory.faults.room = none) : passAll id st = .ok () (pass id st) := by
  rw [passAll_eq, if_pos (held_pass st hr)]

theorem putThrough_of_room (hr : st.2.directory.faults.room = none) (bs : List UInt8) :
    ∃ st', putThrough id bs st = .ok () st' := by
  unfold putThrough
  dsimp only
  split
  · exact ⟨_, rfl⟩
  · rw [if_pos (Or.inl (held_pass (st.1.hold bs, st.2) hr))]
    exact ⟨_, rfl⟩

/-- A large write leaves nothing held back. -/
theorem held_putThrough (hr : st.2.directory.faults.room = none) (hl : capacity ≤ bs.length)
    (h : putThrough id bs st = .ok () st') : st'.1.held = [] := by
  unfold putThrough at h
  dsimp only at h
  rw [if_neg (Nat.not_lt.2 hl), if_pos (Or.inl (held_pass (st.1.hold bs, st.2) hr))] at h
  cases h
  exact held_pass (st.1.hold bs, st.2) hr

theorem held_put_of_large (st : Draft × Host) (hg : st.1.goal = .file draft p id) (hr : st.2.directory.faults.room = none)
    (hl : capacity ≤ bs.length) (h : put bs st = .ok () st') : st'.1.held = [] := by
  rw [put_file hg] at h
  unfold putFile at h
  dsimp only at h
  rw [if_neg (by omega)] at h
  split at h
  · obtain ⟨_, st₁, hpass, hput⟩ := bind_eq_ok.1 h
    rw [passAll_ok hpass] at hput
    have hr : (pass id st).2.directory.faults.room = none := hr
    exact held_putThrough hr hl hput
  · exact held_putThrough hr hl h

theorem putFile_of_room (id : Nat) (hr : st.2.directory.faults.room = none) (bs : List UInt8) :
    ∃ st', putFile id bs st = .ok () st' := by
  unfold putFile
  dsimp only
  split
  · exact ⟨_, rfl⟩
  · split
    · rw [bind_eq_of_ok _ (passAll_of_room hr)]
      have hr : (pass id st).2.directory.faults.room = none := hr
      exact putThrough_of_room hr bs
    · exact putThrough_of_room hr bs

theorem flushFile_of_room (hr : st.2.directory.faults.room = none) (hf : st.2.directory.faults.flush = none) :
    flushFile id st = .ok () (pass id st) := by
  unfold flushFile
  rw [bind_eq_of_ok _ (passAll_of_room hr)]
  have hf : (pass id st).2.directory.faults.flush = none := hf
  show raise (pass id st).2.directory.faults.flush (pass id st) = _
  rw [hf]
  rfl

/-- No write or flush of the draft fails. -/
def Roomy (st : Draft × Host) : Prop :=
  match st.1.goal with
  | .cell _ => st.1.sink.room = none ∧ st.1.sink.flushFault = none
  | .file .. => st.2.directory.faults.room = none ∧ st.2.directory.faults.flush = none

theorem put_flush_of_roomy (hs : st.1.Sound) (hr : Roomy st) (bs : List UInt8) :
    ∃ st', (do put bs; flush : Drafting Unit) st = .ok () st' := by
  unfold Roomy at hr
  cases hg : st.1.goal with
  | cell name =>
    rw [hg] at hr
    obtain ⟨⟨goal, ⟨written, room, full, flushFault⟩, passed⟩, h⟩ := st
    obtain ⟨rfl, rfl⟩ := hr
    cases hg
    exact ⟨_, rfl⟩
  | file draft p id =>
    rw [hg] at hr
    obtain ⟨st', hput⟩ := putFile_of_room id hr.1 bs
    obtain ⟨cs, hgoes⟩ := goes_put st hs bs
    rw [put_file hg, hput] at hgoes
    change Goes cs st st' at hgoes
    have hfaults := hgoes.faults
    rw [bind_eq_of_ok _ ((put_file hg bs).trans hput), flush_file (hgoes.goal.trans hg)]
    refine ⟨_, flushFile_of_room ?_ ?_⟩
    · rw [hfaults]; exact hr.1
    · rw [hfaults]; exact hr.2

end TypedDoc.Draft
