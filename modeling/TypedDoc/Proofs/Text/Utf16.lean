/-
  TypedDoc.Proofs.Text.Utf16 — big-endian UTF-16 as a bijection between texts and the byte
  strings that can be read.
  - `decode_encode`: a text comes back from its bytes.
  - `encode_of_decode`: bytes that were read are the bytes of what was read.

  Both go in two steps, bytes to units and units to characters.
-/

import TypedDoc.Proofs.Text.Utf8
import TypedDoc.Text.Utf16

namespace TypedDoc.Text.Utf16

/-! ## Units and bytes -/

theorem length_unitBytes (us : List Nat) : (us.flatMap unitBytes).length = 2 * us.length := by
  induction us with
  | nil => rfl
  | cons u us ih => simp [unitBytes, ih]; omega

theorem units_unitBytes {us : List Nat} (h : ∀ u ∈ us, u < 65536) : units (us.flatMap unitBytes) = us := by
  induction us with
  | nil => rfl
  | cons u us ih =>
    have hu := h u List.mem_cons_self
    have hhi : (UInt8.ofNat (u / 256)).toNat = u / 256 := UInt8.toNat_ofNat_of_lt' (by simp only [UInt8.size]; omega)
    have hlo : (UInt8.ofNat (u % 256)).toNat = u % 256 := UInt8.toNat_ofNat_of_lt' (by simp only [UInt8.size]; omega)
    simp only [List.flatMap_cons, unitBytes, List.cons_append, List.nil_append, units, hhi, hlo,
      ih fun v hv => h v (List.mem_cons_of_mem _ hv), List.cons.injEq, and_true]
    omega

theorem unitBytes_units {bs : List UInt8} (h : bs.length % 2 = 0) : (units bs).flatMap unitBytes = bs := by
  fun_induction units bs with
  | case1 hi lo rest ih =>
    have := hi.toNat_lt
    have := lo.toNat_lt
    have hhi : (hi.toNat * 256 + lo.toNat) / 256 = hi.toNat := by omega
    have hlo : (hi.toNat * 256 + lo.toNat) % 256 = lo.toNat := by omega
    have hr : rest.length % 2 = 0 := by simp only [List.length_cons] at h; omega
    simp only [List.flatMap_cons, unitBytes, hhi, hlo, UInt8.ofNat_toNat, ih hr, List.cons_append, List.nil_append]
  | case2 bs hbs =>
    match bs, hbs with
    | [], _ => rfl
    | [b], _ => simp at h
    | hi :: lo :: rest, hbs => exact absurd rfl (hbs hi lo rest)

theorem units_lt (bs : List UInt8) : ∀ u ∈ units bs, u < 65536 := by
  fun_induction units bs with
  | case1 hi lo rest ih =>
    intro u hu
    have := hi.toNat_lt
    have := lo.toNat_lt
    rcases List.mem_cons.1 hu with rfl | hu
    · omega
    · exact ih u hu
  | case2 => intro u hu; cases hu

/-! ## Characters and units -/

theorem isHigh_iff (u : Nat) : isHigh u = true ↔ 0xD800 ≤ u ∧ u < 0xDC00 := by simp [isHigh]

theorem isLow_iff (u : Nat) : isLow u = true ↔ 0xDC00 ≤ u ∧ u < 0xE000 := by simp [isLow]

theorem unitsOf_lt (c : Char) : ∀ u ∈ unitsOf c, u < 65536 := by
  have hv := Utf8.toNat_valid c
  intro u hu
  simp only [unitsOf] at hu
  split at hu
  · simp only [List.mem_singleton] at hu; omega
  · simp only [List.mem_cons, List.not_mem_nil, or_false] at hu; omega

theorem decodeFrom_unitsOf (acc : List Char) (c : Char) (rest : List Nat) :
    decodeFrom acc (unitsOf c ++ rest) = decodeFrom (c :: acc) rest := by
  have hv := Utf8.toNat_valid c
  have hc := Char.ofNat_toNat c
  simp only [unitsOf]
  generalize c.toNat = n at hv hc
  subst hc
  split
  · have hh : isHigh n = false := by rw [← Bool.not_eq_true, isHigh_iff]; omega
    have hl : isLow n = false := by rw [← Bool.not_eq_true, isLow_iff]; omega
    rw [List.singleton_append, decodeFrom.eq_def]
    simp only [hh, hl, Bool.false_eq_true, if_false]
  · have hh : isHigh (0xD800 + (n - 0x10000) / 1024) = true := (isHigh_iff _).2 (by omega)
    have hl : isLow (0xDC00 + (n - 0x10000) % 1024) = true := (isLow_iff _).2 (by omega)
    have hn : 0x10000 + (0xD800 + (n - 0x10000) / 1024 - 0xD800) * 1024 + (0xDC00 + (n - 0x10000) % 1024 - 0xDC00) = n := by
      omega
    rw [List.cons_append, List.singleton_append, decodeFrom.eq_def]
    simp only [hh, hl, if_true, hn]

theorem decodeFrom_flatMap (acc cs : List Char) : decodeFrom acc (cs.flatMap unitsOf) = .ok (acc.reverse ++ cs) := by
  induction cs generalizing acc with
  | nil => simp [decodeFrom]
  | cons c cs ih => rw [List.flatMap_cons, decodeFrom_unitsOf, ih]; simp

theorem unitsOf_pair {u v : Nat} (hu : isHigh u = true) (hv : isLow v = true) :
    unitsOf (Char.ofNat (0x10000 + (u - 0xD800) * 1024 + (v - 0xDC00))) = [u, v] := by
  rw [isHigh_iff] at hu
  rw [isLow_iff] at hv
  simp only [unitsOf, Utf8.toNat_ofNat (n := 0x10000 + (u - 0xD800) * 1024 + (v - 0xDC00)) (by omega)]
  rw [if_neg (by omega)]
  simp only [List.cons.injEq, and_true]
  omega

theorem unitsOf_single {u : Nat} (h : u < 65536) (hh : ¬isHigh u = true) (hl : ¬isLow u = true) :
    unitsOf (Char.ofNat u) = [u] := by
  rw [isHigh_iff] at hh
  rw [isLow_iff] at hl
  simp only [unitsOf, Utf8.toNat_ofNat (n := u) (by omega)]
  rw [if_pos (by omega)]

/-- The units read so far are those of the characters so far. -/
theorem flatMap_of_decodeFrom {acc cs : List Char} {us : List Nat} (hus : ∀ u ∈ us, u < 65536)
    (h : decodeFrom acc us = .ok cs) : acc.reverse.flatMap unitsOf ++ us = cs.flatMap unitsOf := by
  fun_induction decodeFrom acc us with
  | case1 => cases h; simp
  | case2 acc u hu v rest hv ih =>
    rw [← ih (fun w hw => hus w (by simp [hw])) h]
    simp [unitsOf_pair hu hv]
  | case6 acc u rest hh hl ih =>
    rw [← ih (fun w hw => hus w (by simp [hw])) h]
    simp [unitsOf_single (hus u List.mem_cons_self) hh hl]
  | _ => cases h

/-! ## Texts and bytes -/

theorem decode_encode (s : String) : decode (encode s) = .ok s := by
  have hlt : ∀ u ∈ s.toList.flatMap unitsOf, u < 65536 := by
    intro u hu
    obtain ⟨c, -, hc⟩ := List.mem_flatMap.1 hu
    exact unitsOf_lt c u hc
  have hlen : (encode s).length % 2 = 0 := by
    rw [encode, length_unitBytes]
    omega
  rw [decode, if_neg (by omega), encode, units_unitBytes hlt, decodeFrom_flatMap]
  simp [Except.map]

theorem encode_of_decode {bs : List UInt8} {s : String} (h : decode bs = .ok s) : encode s = bs := by
  simp only [decode, Except.map] at h
  split at h
  · cases h
  · split at h
    · cases h
    · rename_i hlen _ cs hcs
      cases h
      have hu : units bs = cs.flatMap unitsOf := by simpa using flatMap_of_decodeFrom (units_lt bs) hcs
      rw [encode, String.toList_ofList, ← hu, unitBytes_units (by omega)]

end TypedDoc.Text.Utf16
