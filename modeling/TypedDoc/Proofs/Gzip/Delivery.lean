/-
  TypedDoc.Proofs.Gzip.Delivery — what of the contents comes to their reader.

  However the packed stream is cut, and whatever becomes of it, nothing but a beginning of
  what is known of the contents is handed out (`deliver_bytes`). If the deflate stream ends
  and no fault follows, all of it is (`deliver_finished`), and then the contents end as
  the trailer has it (`deliver_close`). If the deflate stream does not end, neither do they
  without a fault (`deliver_unfinished`).
-/

import Mathlib.Data.List.Infix
import TypedDoc.Gzip.Delivery

namespace TypedDoc.Gzip

open Wire

theorem batch_append (stop space : Nat) (left : List Known) :
    (batch stop space left).1 ++ (batch stop space left).2.map (·.byte) = left.map (·.byte) := by
  fun_induction batch stop space left with
  | case1 => rfl
  | case2 => rfl
  | case3 n k left _ bs rest eq ih =>
    rw [eq] at ih
    show k.byte :: (bs ++ _) = k.byte :: left.map (·.byte)
    rw [ih]
  | case4 => rfl

theorem bytes_behind (s : Supply) (piece : List UInt8) : (s.behind piece).bytes = piece ++ s.bytes := by
  unfold Supply.behind Supply.bytes
  rw [List.flatten_cons, List.append_assoc]

theorem flatten_behind (s : Supply) (piece : List UInt8) : (s.behind piece).pieces.flatten = piece ++ s.pieces.flatten :=
  List.flatten_cons

/-- A run that the deflate stream itself ends has all the bytes. -/
theorem eq_nil_of_over {outcome : Outcome} {stop : Nat} {left : List Known} (h : halt outcome stop left = .over) :
    left = [] := by
  cases left with
  | nil => rfl
  | cons next rest =>
    simp only [halt] at h
    split at h <;> cases h

theorem halt_ne_corrupt {used stop : Nat} {left : List Known} : halt (.finished used) stop left ≠ .corrupt := by
  intro h
  cases left with
  | nil =>
    simp only [halt] at h
    split at h <;> cases h
  | cons next rest =>
    simp only [halt] at h
    split at h <;> cases h

/-! ## No more than is known -/

theorem prefix_behind {s : Supply} {bs : List UInt8} {left later : List Known} (h : s.bytes <+: later.map (·.byte))
    (hb : bs ++ later.map (·.byte) = left.map (·.byte)) : (s.behind bs).bytes <+: left.map (·.byte) := by
  rw [bytes_behind, ← hb]
  exact (List.prefix_append_right_inj bs).2 h

theorem lastRuns_bytes (p : Packed) (made : Nat) (left : List Known) :
    (lastRuns p made left).bytes <+: left.map (·.byte) := by
  fun_induction lastRuns p made left with
  | case1 made left =>
    show [left.map _].flatten ++ [] <+: _
    rw [List.append_nil, List.flatten_singleton]
  | case2 => exact List.nil_prefix
  | case3 => exact List.prefix_refl _
  | case4 made left _ ih => exact prefix_behind ih (by rw [← List.map_append, List.take_append_drop])

/-- Whatever happens on the way, the reader is handed a beginning of what is known. -/
theorem deliver_bytes (p : Packed) (made : Nat) (ends : List Nat) (left : List Known) :
    (deliver p made ends left).bytes <+: left.map (·.byte) := by
  fun_induction deliver p made ends left with
  | case1 made left => exact lastRuns_bytes p made left
  | case2 => exact List.nil_prefix
  | case3 made left stop later b _ ih => exact prefix_behind ih (batch_append _ _ _)
  | case4 made left stop later b =>
    show [].flatten ++ b.1 <+: _
    exact ⟨_, batch_append _ _ _⟩
  | case5 made left stop later b _ _ ih => exact prefix_behind ih (batch_append _ _ _)
  | case6 made left stop later b =>
    show [b.1].flatten ++ [] <+: _
    rw [List.append_nil, List.flatten_singleton]
    exact ⟨_, batch_append _ _ _⟩
  | case7 => exact List.nil_prefix

/-! ## All that is known -/

theorem lastRuns_finished {p : Packed} {used : Nat} (hp : p.outcome = .finished used) (made : Nat) (left : List Known) :
    (lastRuns p made left).pieces.flatten = left.map (·.byte) := by
  fun_induction lastRuns p made left with
  | case1 made left => exact List.flatten_singleton
  | case2 made left _ seen ho => rw [hp] at ho; cases ho
  | case3 made left _ ho => rw [hp] at ho; cases ho
  | case4 made left _ ih => rw [flatten_behind, ih, ← List.map_append, List.take_append_drop]

/-- Where the deflate stream ends and no fault follows, all of the contents can be read. -/
theorem deliver_finished {p : Packed} {used : Nat} (hp : p.outcome = .finished used) (he : p.ending = none) (made : Nat)
    (ends : List Nat) (left : List Known) : (deliver p made ends left).pieces.flatten = left.map (·.byte) := by
  fun_induction deliver p made ends left with
  | case1 made left => exact lastRuns_finished hp made left
  | case2 made left e hend => rw [he] at hend; cases hend
  | case3 made left stop later b _ ih => rw [flatten_behind, ih]; exact batch_append _ _ _
  | case4 made left stop later b _ e hend =>
    rw [he] at hend
    split at hend <;> cases hend
  | case5 made left stop later b _ _ ih => rw [flatten_behind, ih]; exact batch_append _ _ _
  | case6 made left stop later b hover =>
    have hnil := eq_nil_of_over hover
    have ha := batch_append stop (room made) left
    rw [show (batch stop (room made) left).2 = [] from hnil, List.map_nil, List.append_nil] at ha
    exact List.flatten_singleton.trans ha
  | case7 made left stop later b hcorrupt =>
    rw [hp] at hcorrupt
    exact absurd hcorrupt halt_ne_corrupt

/-! ## How it ends -/

theorem lastRuns_close {p : Packed} {used : Nat} (hp : p.outcome = .finished used) (made : Nat) (left : List Known) :
    (lastRuns p made left).parting = [] ∧ (lastRuns p made left).ending = p.close := by
  fun_induction lastRuns p made left with
  | case1 => exact ⟨rfl, rfl⟩
  | case2 made left _ seen ho => rw [hp] at ho; cases ho
  | case3 made left _ ho => rw [hp] at ho; cases ho
  | case4 made left _ ih => exact ih

theorem deliver_close {p : Packed} {used : Nat} (hp : p.outcome = .finished used) (he : p.ending = none) (made : Nat)
    (ends : List Nat) (left : List Known) :
    (deliver p made ends left).parting = [] ∧ (deliver p made ends left).ending = p.close := by
  fun_induction deliver p made ends left with
  | case1 made left => exact lastRuns_close hp made left
  | case2 made left e hend => rw [he] at hend; cases hend
  | case3 made left stop later b _ ih => exact ih
  | case4 made left stop later b _ e hend =>
    rw [he] at hend
    split at hend <;> cases hend
  | case5 made left stop later b _ _ ih => exact ih
  | case6 => exact ⟨rfl, rfl⟩
  | case7 made left stop later b hcorrupt =>
    rw [hp] at hcorrupt
    exact absurd hcorrupt halt_ne_corrupt

theorem finished_of_over {outcome : Outcome} {stop : Nat} {left : List Known} (h : halt outcome stop left = .over) :
    ∃ used, outcome = .finished used := by
  rw [eq_nil_of_over h] at h
  cases outcome with
  | finished used => exact ⟨used, rfl⟩
  | starved => cases h
  | corrupt seen =>
    simp only [halt] at h
    split at h <;> cases h

theorem lastRuns_unfinished {p : Packed} (hp : ∀ used, p.outcome ≠ .finished used) (made : Nat) (left : List Known) :
    (lastRuns p made left).ending ≠ none := by
  fun_induction lastRuns p made left with
  | case1 made left _ used ho => exact absurd ho (hp used)
  | case2 => exact nofun
  | case3 => exact nofun
  | case4 made left _ ih => exact ih

theorem deliver_unfinished {p : Packed} (hp : ∀ used, p.outcome ≠ .finished used) (made : Nat) (ends : List Nat)
    (left : List Known) : (deliver p made ends left).ending ≠ none := by
  fun_induction deliver p made ends left with
  | case1 made left => exact lastRuns_unfinished hp made left
  | case2 => exact nofun
  | case3 made left stop later b _ ih => exact ih
  | case4 => exact nofun
  | case5 made left stop later b _ _ ih => exact ih
  | case6 made left stop later b hover =>
    obtain ⟨used, ho⟩ := finished_of_over hover
    exact absurd ho (hp used)
  | case7 => exact nofun

end TypedDoc.Gzip
