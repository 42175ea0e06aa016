/-
  TypedDoc.Wire.BigEndian.Lemmas — reading what was written, and writing what was read.
  - `ofBytes_toBytes`: the number comes back, modulo what the width can hold.
  - `toBytes_ofBytes`: the bytes come back at their own width.
-/

import Mathlib.Algebra.Order.Ring.Nat
import TypedDoc.Wire.BigEndian

namespace TypedDoc.Wire.BigEndian

theorem ofBytes_append_singleton (bs : List UInt8) (b : UInt8) : ofBytes (bs ++ [b]) = ofBytes bs * 256 + b.toNat := by
  simp [ofBytes, List.foldl_append]

theorem ofBytes_toBytes (w n : Nat) : ofBytes (toBytes w n) = n % 256 ^ w := by
  induction w generalizing n with
  | zero => simp [toBytes, ofBytes, Nat.mod_one]
  | succ w ih =>
    simp only [toBytes, ofBytes_append_singleton, ih, UInt8.toNat_ofNat']
    have hw : 256 ^ (w + 1) = 256 * 256 ^ w := by rw [Nat.pow_succ, Nat.mul_comm]
    rw [hw, Nat.mod_mul]
    omega

theorem toBytes_ofBytes {w : Nat} {bs : List UInt8} (h : bs.length = w) : toBytes w (ofBytes bs) = bs := by
  induction w generalizing bs with
  | zero => rw [List.eq_nil_of_length_eq_zero h]; rfl
  | succ w ih =>
    rcases List.eq_nil_or_concat bs with rfl | ⟨front, b, rfl⟩
    · simp at h
    · rw [List.concat_eq_append] at h ⊢
      have hb := b.toNat_lt
      have hdiv : (ofBytes front * 256 + b.toNat) / 256 = ofBytes front := by omega
      have hmod : (ofBytes front * 256 + b.toNat) % 256 = b.toNat := by omega
      rw [toBytes, ofBytes_append_singleton, hdiv, hmod, ih (by simpa using h), UInt8.ofNat_toNat]

theorem ofBytes_lt (bs : List UInt8) : ofBytes bs < 256 ^ bs.length := by
  have h := ofBytes_toBytes bs.length (ofBytes bs)
  rw [toBytes_ofBytes rfl] at h
  rw [h]
  exact Nat.mod_lt _ (Nat.pow_pos (by decide))

end TypedDoc.Wire.BigEndian
