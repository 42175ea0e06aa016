/-
  TypedDoc.Proofs.Text.Utf8 — UTF-8 as a bijection between texts and the byte strings
  that can be read.
  - `decode_encode`: a text comes back from its bytes.
  - `encode_of_decode`: bytes that were read are the bytes of what was read; so no text
    has a second spelling.
  - `encodeChar_of_mem`: a byte below 128 is never part of another character.

  Each form of one to four bytes has two lemmas: what the reader does with it, and that it
  is the form of the character read.
-/

import TypedDoc.Text.Utf8

namespace TypedDoc.Text.Utf8

/-! ## The conditions on bytes, in numbers -/

theorem continues_iff (b : UInt8) : continues b = true ↔ 0x80 ≤ b.toNat ∧ b.toNat ≤ 0xBF := by
  simp [continues, UInt8.le_iff_toNat_le]

theorem secondOfThree_iff (b0 b1 : UInt8) : secondOfThree b0 b1 = true ↔
    (0x80 ≤ b1.toNat ∧ b1.toNat ≤ 0xBF) ∧ (b0.toNat = 0xE0 → 0xA0 ≤ b1.toNat) ∧
      (b0.toNat = 0xED → b1.toNat ≤ 0x9F) := by
  simp only [secondOfThree, Bool.and_eq_true, Bool.not_eq_true', continues_iff, Bool.and_eq_false_iff, beq_eq_false_iff_ne,
    decide_eq_false_iff_not, UInt8.lt_iff_toNat_lt, ne_eq, ← UInt8.toNat_inj, UInt8.reduceToNat]
  omega

theorem secondOfFour_iff (b0 b1 : UInt8) : secondOfFour b0 b1 = true ↔
    (0x80 ≤ b1.toNat ∧ b1.toNat ≤ 0xBF) ∧ (b0.toNat = 0xF0 → 0x90 ≤ b1.toNat) ∧
      (b0.toNat = 0xF4 → b1.toNat ≤ 0x8F) := by
  simp only [secondOfFour, Bool.and_eq_true, Bool.not_eq_true', continues_iff, Bool.and_eq_false_iff, beq_eq_false_iff_ne,
    decide_eq_false_iff_not, UInt8.lt_iff_toNat_lt, ne_eq, ← UInt8.toNat_inj, UInt8.reduceToNat]
  omega

theorem toNat_valid (c : Char) : c.toNat < 0xD800 ∨ (0xDFFF < c.toNat ∧ c.toNat < 0x110000) := c.valid

theorem toNat_ofNat {n : Nat} (h : n < 0xD800 ∨ (0xDFFF < n ∧ n < 0x110000)) : (Char.ofNat n).toNat = n := by
  rw [Char.ofNat, dif_pos h]
  rfl

/-! ## What the reader does with each form -/

section

variable {b0 b1 b2 b3 : UInt8} (i : Nat) (acc : List Char) (rest : List UInt8)

theorem decodeFrom_one (h0 : b0.toNat < 0x80) :
    decodeFrom i acc (b0 :: rest) = decodeFrom (i + 1) (Char.ofNat b0.toNat :: acc) rest := by
  rw [decodeFrom.eq_def]
  simp only [UInt8.lt_iff_toNat_lt, UInt8.reduceToNat]
  rw [if_pos h0]

theorem decodeFrom_two (h0 : 0xC2 ≤ b0.toNat ∧ b0.toNat < 0xE0) (h1 : continues b1 = true) :
    decodeFrom i acc (b0 :: b1 :: rest) = decodeFrom (i + 2) (two b0 b1 :: acc) rest := by
  rw [decodeFrom.eq_def]
  simp only [UInt8.lt_iff_toNat_lt, UInt8.reduceToNat]
  rw [if_neg (by omega), if_neg (by omega), if_pos h0.2, if_pos h1]

theorem decodeFrom_three (h0 : 0xE0 ≤ b0.toNat ∧ b0.toNat < 0xF0) (h1 : secondOfThree b0 b1 = true)
    (h2 : continues b2 = true) :
    decodeFrom i acc (b0 :: b1 :: b2 :: rest) = decodeFrom (i + 3) (three b0 b1 b2 :: acc) rest := by
  rw [decodeFrom.eq_def]
  simp only [UInt8.lt_iff_toNat_lt, UInt8.reduceToNat]
  rw [if_neg (by omega), if_neg (by omega), if_neg (by omega), if_pos h0.2, if_pos h1, if_pos h2]

theorem decodeFrom_four (h0 : 0xF0 ≤ b0.toNat ∧ b0.toNat < 0xF5) (h1 : secondOfFour b0 b1 = true)
    (h2 : continues b2 = true) (h3 : continues b3 = true) :
    decodeFrom i acc (b0 :: b1 :: b2 :: b3 :: rest) = decodeFrom (i + 4) (four b0 b1 b2 b3 :: acc) rest := by
  rw [decodeFrom.eq_def]
  simp only [UInt8.lt_iff_toNat_lt, UInt8.reduceToNat]
  rw [if_neg (by omega), if_neg (by omega), if_neg (by omega), if_neg (by omega), if_pos h0.2, if_pos h1, if_pos h2,
    if_pos h3]

end

/-! ## Reading what was written -/

theorem toNat_byte {n : Nat} (h : n < 256) : (UInt8.ofNat n).toNat = n := UInt8.toNat_ofNat_of_lt' h

/-- Six bits as they are written behind the first byte. -/
theorem toNat_continuation (n : Nat) : (UInt8.ofNat (0x80 + n % 64)).toNat = 0x80 + n % 64 := toNat_byte (by omega)

theorem continues_continuation (n : Nat) : continues (UInt8.ofNat (0x80 + n % 64)) = true := by
  rw [continues_iff, toNat_continuation]
  omega

theorem decodeFrom_encodeChar (i : Nat) (acc : List Char) (c : Char) (rest : List UInt8) :
    decodeFrom i acc (encodeChar c ++ rest) = decodeFrom (i + (encodeChar c).length) (c :: acc) rest := by
  have hv := toNat_valid c
  have hc := Char.ofNat_toNat c
  have hlast := toNat_continuation c.toNat
  have hcontinues := continues_continuation c.toNat
  simp only [encodeChar]
  generalize c.toNat = n at hv hc hlast hcontinues
  subst hc
  split
  · have h0 : (UInt8.ofNat n).toNat = n := toNat_byte (by omega)
    rw [List.singleton_append, decodeFrom_one i acc rest (by omega), h0]
    rfl
  split
  · have h0 : (UInt8.ofNat (0xC0 + n / 64)).toNat = 0xC0 + n / 64 := toNat_byte (by omega)
    have hn : two (UInt8.ofNat (0xC0 + n / 64)) (UInt8.ofNat (0x80 + n % 64)) = Char.ofNat n := by
      rw [two, h0, hlast]
      congr 1
      omega
    rw [List.cons_append, List.singleton_append, decodeFrom_two i acc rest (by omega) hcontinues, hn]
    rfl
  have hmiddle := toNat_continuation (n / 64)
  split
  · have h0 : (UInt8.ofNat (0xE0 + n / 4096)).toNat = 0xE0 + n / 4096 := toNat_byte (by omega)
    have hn : three (UInt8.ofNat (0xE0 + n / 4096)) (UInt8.ofNat (0x80 + n / 64 % 64)) (UInt8.ofNat (0x80 + n % 64))
        = Char.ofNat n := by
      rw [three, h0, hmiddle, hlast]
      congr 1
      omega
    simp only [List.cons_append, List.nil_append]
    rw [decodeFrom_three i acc rest (by omega) ((secondOfThree_iff _ _).2 (by omega)) hcontinues, hn]
    rfl
  · have h0 : (UInt8.ofNat (0xF0 + n / 262144)).toNat = 0xF0 + n / 262144 := toNat_byte (by omega)
    have hhigh := toNat_continuation (n / 4096)
    have hn : four (UInt8.ofNat (0xF0 + n / 262144)) (UInt8.ofNat (0x80 + n / 4096 % 64))
        (UInt8.ofNat (0x80 + n / 64 % 64)) (UInt8.ofNat (0x80 + n % 64)) = Char.ofNat n := by
      rw [four, h0, hhigh, hmiddle, hlast]
      congr 1
      omega
    simp only [List.cons_append, List.nil_append]
    rw [decodeFrom_four i acc rest (by omega) ((secondOfFour_iff _ _).2 (by omega)) (continues_continuation _) hcontinues,
      hn]
    rfl

theorem decodeFrom_flatMap (i : Nat) (acc cs : List Char) :
    decodeFrom i acc (cs.flatMap encodeChar) = .ok (acc.reverse ++ cs) := by
  induction cs generalizing i acc with
  | nil => simp [decodeFrom]
  | cons c cs ih => rw [List.flatMap_cons, decodeFrom_encodeChar, ih]; simp

theorem decode_encode (s : String) : decode (encode s) = .ok s := by
  simp [decode, encode, decodeFrom_flatMap, Except.map]

theorem encode_injective : Function.Injective encode := by
  intro s t h
  have hs := decode_encode s
  rw [h, decode_encode t] at hs
  exact (Except.ok.inj hs).symm

/-! ## Bytes below 128 -/

/-- Such a byte is a character of its own. -/
theorem encodeChar_of_mem {c : Char} {b : UInt8} (h : b ∈ encodeChar c) (hb : b.toNat < 0x80) : encodeChar c = [b] := by
  by_cases hc : c.toNat < 0x80
  · rw [encodeChar, if_pos hc] at h ⊢
    rw [List.mem_singleton.1 h]
  · have hvalid := toNat_valid c
    exfalso
    rw [encodeChar, if_neg hc] at h
    split at h
    · simp only [List.mem_cons, List.not_mem_nil, or_false] at h
      rcases h with rfl | rfl <;> rw [toNat_byte (by omega)] at hb <;> omega
    split at h
    · simp only [List.mem_cons, List.not_mem_nil, or_false] at h
      rcases h with rfl | rfl | rfl <;> rw [toNat_byte (by omega)] at hb <;> omega
    · simp only [List.mem_cons, List.not_mem_nil, or_false] at h
      rcases h with rfl | rfl | rfl | rfl <;> rw [toNat_byte (by omega)] at hb <;> omega

/-! ## Writing what was read -/

section

variable {b0 b1 b2 b3 : UInt8}

theorem encodeChar_one (h0 : b0.toNat < 0x80) : encodeChar (Char.ofNat b0.toNat) = [b0] := by
  simp only [encodeChar, toNat_ofNat (n := b0.toNat) (by omega), if_pos h0, UInt8.ofNat_toNat]

theorem encodeChar_two (h0 : 0xC2 ≤ b0.toNat ∧ b0.toNat < 0xE0) (h1 : continues b1 = true) :
    encodeChar (two b0 b1) = [b0, b1] := by
  rw [continues_iff] at h1
  simp only [encodeChar, two, toNat_ofNat (n := b0.toNat % 32 * 64 + b1.toNat % 64) (by omega)]
  rw [if_neg (by omega), if_pos (by omega)]
  simp only [List.cons.injEq, ← UInt8.toNat_inj, UInt8.toNat_ofNat', and_true]
  omega

theorem encodeChar_three (h0 : 0xE0 ≤ b0.toNat ∧ b0.toNat < 0xF0) (h1 : secondOfThree b0 b1 = true)
    (h2 : continues b2 = true) : encodeChar (three b0 b1 b2) = [b0, b1, b2] := by
  rw [continues_iff] at h2
  rw [secondOfThree_iff] at h1
  simp only [encodeChar, three,
    toNat_ofNat (n := b0.toNat % 16 * 4096 + b1.toNat % 64 * 64 + b2.toNat % 64) (by omega)]
  rw [if_neg (by omega), if_neg (by omega), if_pos (by omega)]
  simp only [List.cons.injEq, ← UInt8.toNat_inj, UInt8.toNat_ofNat', and_true]
  omega

theorem encodeChar_four (h0 : 0xF0 ≤ b0.toNat ∧ b0.toNat < 0xF5) (h1 : secondOfFour b0 b1 = true)
    (h2 : continues b2 = true) (h3 : continues b3 = true) :
    encodeChar (four b0 b1 b2 b3) = [b0, b1, b2, b3] := by
  rw [continues_iff] at h2 h3
  rw [secondOfFour_iff] at h1
  simp only [encodeChar, four, toNat_ofNat
    (n := b0.toNat % 8 * 262144 + b1.toNat % 64 * 4096 + b2.toNat % 64 * 64 + b3.toNat % 64) (by omega)]
  rw [if_neg (by omega), if_neg (by omega), if_neg (by omega)]
  simp only [List.cons.injEq, ← UInt8.toNat_inj, UInt8.toNat_ofNat', and_true]
  omega

end

/-- The bytes read so far are those of the characters so far. -/
theorem flatMap_of_decodeFrom {i : Nat} {acc cs : List Char} {bs : List UInt8} (h : decodeFrom i acc bs = .ok cs) :
    acc.reverse.flatMap encodeChar ++ bs = cs.flatMap encodeChar := by
  fun_induction decodeFrom i acc bs with
  | case1 => cases h; simp
  | case2 i acc b0 r0 h0 ih =>
    rw [← ih h]
    simp [encodeChar_one (UInt8.lt_iff_toNat_lt.1 h0)]
  | case5 i acc b0 h0 h0' h0'' b1 r1 h1 ih =>
    simp only [UInt8.lt_iff_toNat_lt, UInt8.reduceToNat] at h0 h0' h0''
    have hb0 : 0xC2 ≤ b0.toNat ∧ b0.toNat < 0xE0 := by omega
    rw [← ih h]
    simp [encodeChar_two hb0 h1]
  | case9 i acc b0 h0 h0' h0'' h0''' b1 h1 b2 r2 h2 ih =>
    simp only [UInt8.lt_iff_toNat_lt, UInt8.reduceToNat] at h0 h0' h0'' h0'''
    have hb0 : 0xE0 ≤ b0.toNat ∧ b0.toNat < 0xF0 := by omega
    rw [← ih h]
    simp [encodeChar_three hb0 h1 h2]
  | case15 i acc b0 h0 h0' h0'' h0''' h5 b1 h1 b2 h2 b3 r3 h3 ih =>
    simp only [UInt8.lt_iff_toNat_lt, UInt8.reduceToNat] at h0 h0' h0'' h0''' h5
    have hb0 : 0xF0 ≤ b0.toNat ∧ b0.toNat < 0xF5 := by omega
    rw [← ih h]
    simp [encodeChar_four hb0 h1 h2 h3]
  | _ => cases h

theorem encode_of_decode {bs : List UInt8} {s : String} (h : decode bs = .ok s) : encode s = bs := by
  simp only [decode, Except.map] at h
  split at h
  · cases h
  · rename_i cs hcs
    cases h
    have hb := flatMap_of_decodeFrom hcs
    rw [encode, String.toList_ofList, ← hb]
    rfl

end TypedDoc.Text.Utf8
