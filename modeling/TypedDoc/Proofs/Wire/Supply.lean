/-
  TypedDoc.Proofs.Wire.Supply — what a stream over bytes gives, however it is cut.

  The pieces of a stream put together are its bytes (`flatten_slices`), or a beginning of
  them where it breaks off (`flatten_limited`). Its first piece is a beginning of them too.
-/

import Mathlib.Data.List.Infix
import TypedDoc.Wire.Supply

namespace TypedDoc.Wire

theorem flatten_slicesUpTo (size n : Nat) (bs : List UInt8) : (slicesUpTo size n bs).flatten = bs := by
  fun_induction slicesUpTo size n bs with
  | case1 => rfl
  | case2 bs => exact List.flatten_singleton
  | case3 n b rest ih => rw [List.flatten_cons, ih, List.cons_append, List.take_append_drop]

theorem flatten_slices (size : Nat) (bs : List UInt8) : (slices size bs).flatten = bs :=
  flatten_slicesUpTo size bs.length bs

namespace Supply

theorem flatten_ofBytes (bs : List UInt8) : (ofBytes bs).pieces.flatten = bs := flatten_slices _ bs

theorem bytes_ofBytes (bs : List UInt8) : (ofBytes bs).bytes = bs := (List.append_nil _).trans (flatten_ofBytes bs)

theorem firstPiece_ofBytes (bs : List UInt8) : (ofBytes bs).firstPiece = .ok (bs.take window) := by
  cases bs with
  | nil => rfl
  | cons b rest => rfl

theorem limited_parting (bs : List UInt8) (chunk : Option Nat) (fault : Option (Nat × Error)) :
    (limited bs chunk fault).parting = [] := by
  unfold limited
  split
  · split <;> rfl
  · rfl

/-- A stream that breaks off gives nothing else. -/
theorem flatten_limited (bs : List UInt8) (chunk : Option Nat) (fault : Option (Nat × Error)) :
    (limited bs chunk fault).pieces.flatten <+: bs := by
  unfold limited
  split
  · split
    · rw [flatten_slices]
      exact List.take_prefix _ _
    · rw [flatten_slices]
  · rw [flatten_slices]

theorem firstPiece_le {s : Supply} {p : List UInt8} (h : s.firstPiece = .ok p) : p <+: s.bytes := by
  unfold firstPiece at h
  unfold bytes
  split at h
  · rename_i q ps hp
    cases h
    rw [hp, List.flatten_cons, List.append_assoc]
    exact List.prefix_append _ _
  · rename_i b bs hp hpart
    cases h
    rw [hp, hpart]
    exact List.prefix_refl _
  · cases h
    exact List.nil_prefix
  · cases h

end Supply

end TypedDoc.Wire
