/-
  TypedDoc.Proofs.Host.Source — sources: what there is to read, how they fail, and where
  nothing is in the way of a new content.

  What is read is the content, whatever the stream does to it (`openRead_ok`). A path and its
  draft never land in one place (`landing_ne_draft`).
-/

import TypedDoc.Host.Source
import TypedDoc.Proofs.Host.Directory
import TypedDoc.Proofs.Wire.Supply

namespace TypedDoc

open Wire Host

theorem Host.cell_setCell (h : Host) (name : String) (c : Cell) : (h.setCell name c).cell name = c := by
  unfold Host.cell Host.setCell
  rw [Entries.lookup_put, if_pos rfl]
  rfl

theorem Host.onDirectory_ok {change : Directory → Except Error Directory} {h h' : Host} (ho : h.onDirectory change = .ok () h') :
    ∃ d, change h.directory = .ok d ∧ h' = { h with directory := d } := by
  unfold Host.onDirectory at ho
  split at ho
  · cases ho
  · cases ho
    exact ⟨_, ‹_›, rfl⟩

theorem Host.onDirectory_of_ok {change : Directory → Except Error Directory} {h : Host} {d : Directory}
    (hc : change h.directory = .ok d) : h.onDirectory change = .ok () { h with directory := d } := by
  unfold Host.onDirectory
  rw [hc]

theorem Host.onDirectory_error {change : Directory → Except Error Directory} {h h' : Host} {e : Error}
    (ho : h.onDirectory change = .error e h') : h' = h := by
  unfold Host.onDirectory at ho
  split at ho
  · cases ho
    rfl
  · cases ho

theorem Host.Cell.openRead_ok {c : Cell} {supply : Supply} (ho : c.openRead = .ok supply) :
    supply.bytes = [] ∨ ∃ bs, c.content = some bs ∧ supply = .limited bs c.faults.chunk c.faults.cut := by
  unfold Cell.openRead at ho
  cases hc : c.content with
  | none =>
    left
    rw [hc] at ho
    split at ho
    · cases ho
    · cases ho
    · injection ho with ho
      rw [← ho, Option.getD_none, Supply.bytes, Supply.limited_parting, List.append_nil]
      exact List.prefix_nil.1 (Supply.flatten_limited [] _ _)
  | some bs =>
    right
    rw [hc] at ho
    split at ho
    · cases ho
    · cases ho
    · injection ho with ho
      exact ⟨bs, rfl, ho.symm⟩

theorem Host.Directory.openRead_ok {d : Directory} {p : FilePath} {supply : Supply} (ho : d.openRead p = .ok supply) :
    supply.bytes = [] ∨ ∃ bs, d.contentAt p = some bs ∧ supply = .limited bs d.faults.chunk d.faults.cut := by
  unfold Directory.openRead at ho
  unfold Directory.contentAt
  cases hl : d.locate p with
  | error e => rw [hl] at ho; cases ho
  | ok spot =>
    rw [hl] at ho
    cases spot with
    | folder place => cases ho; exact Or.inl rfl
    | free place => cases ho
    | file place id =>
      split at ho
      · cases ho
      · cases ho
        exact Or.inr ⟨_, rfl, rfl⟩

/-! ## Sources -/

namespace Source

/-- What there is to read. -/
def content (s : Source) (h : Host) : Option (List UInt8) :=
  match s with
  | .cell name => (h.cell name).content
  | .file p => h.directory.contentAt p

def faults (s : Source) (h : Host) : Faults :=
  match s with
  | .cell name => (h.cell name).faults
  | .file _ => h.directory.faults

/-- A commit that fails does so before anything shows. -/
def settles (s : Source) (h : Host) : Bool :=
  match s with
  | .cell _ => true
  | .file p => !p.hasFolder || (s.faults h).settle.isNone

/-- A file can be at the path, and one at that of the drafts. -/
def clear (s : Source) (h : Host) : Bool :=
  match s with
  | .cell _ => true
  | .file p => h.directory.accepts p && h.directory.accepts p.ofDraft

/-- Nothing is in the way of new content. -/
def accepts (s : Source) (h : Host) : Bool :=
  let f := s.faults h
  f.openWrite.isNone && f.room.isNone && f.flush.isNone && f.commit.isNone && s.settles h && s.clear h

/-- Two drafts have one file. -/
def shared : Source → Bool
  | .cell _ => false
  | .file _ => true

theorem content_file (p : FilePath) (h : Host) : (Source.file p).content h = h.directory.contentAt p := rfl

theorem accepts_iff {s : Source} {h : Host} : s.accepts h = true ↔ (s.faults h).openWrite = none ∧ (s.faults h).room = none ∧
    (s.faults h).flush = none ∧ (s.faults h).commit = none ∧ s.settles h = true ∧ s.clear h = true := by
  unfold accepts
  simp only [Bool.and_eq_true, Option.isNone_iff_eq_none, and_assoc]

theorem settles_congr {s : Source} {h h' : Host} (hf : s.faults h' = s.faults h) : s.settles h' = s.settles h := by
  cases s with
  | cell name => rfl
  | file p =>
    unfold settles
    rw [hf]

theorem clear_congr {s : Source} {h h' : Host} (hf : h'.directory.folders = h.directory.folders) : s.clear h' = s.clear h := by
  cases s with
  | cell name => rfl
  | file p =>
    show (h'.directory.accepts p && h'.directory.accepts p.ofDraft) = _
    rw [Directory.accepts_congr hf, Directory.accepts_congr hf]
    rfl

/-- A path does not land where its draft does. -/
theorem landing_ne_draft {d : Directory} {p : FilePath} {place : Place}
    (hl : Directory.landing d.folders [] p.ofDraft.steps = some place) :
    Directory.landing d.folders [] p.steps ≠ some place := by
  intro hp
  obtain ⟨place', hl', hne, -⟩ := Directory.landing_ofDraft hp
  rw [hl] at hl'
  injection hl' with hl'
  exact hne hl'.symm

/-- A stream that has anything in it is one over the content. -/
theorem openRead_ok {s : Source} {h : Host} {supply : Supply} (ho : s.openRead h = .ok supply) :
    supply.bytes = [] ∨ ∃ bs chunk fault, s.content h = some bs ∧ supply = .limited bs chunk fault := by
  cases s with
  | cell name =>
    rcases Cell.openRead_ok ho with hnil | ⟨bs, hc, rfl⟩
    · exact Or.inl hnil
    · exact Or.inr ⟨bs, _, _, hc, rfl⟩
  | file p =>
    rcases Directory.openRead_ok ho with hnil | ⟨bs, hc, rfl⟩
    · exact Or.inl hnil
    · exact Or.inr ⟨bs, _, _, hc, rfl⟩

end Source

end TypedDoc
