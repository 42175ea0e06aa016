/-
  TypedDoc.Proofs.Text.WellFormed — which byte strings are texts, said without the readers.

  - In UTF-8 (`Utf8.WellFormed`) a text is a row of scalar values, each spelled in the
    shortest of the four patterns that its number fits. A longer pattern, a surrogate or a
    number above U+10FFFF has no place in it.
  - In UTF-16 (`Utf16.WellFormed`) it is an even number of bytes, two to a unit, in which
    every high surrogate stands before a low one and every low one behind a high one.

  The readers take these byte strings and no others (`Utf8.decode_ok_iff`,
  `Utf16.decode_ok_iff`), so that texts and well-formed byte strings are the same thing, in
  each charset and with a length in front (`Charset.codec_exact`).
-/

import TypedDoc.Proofs.Wire.Layout

namespace TypedDoc.Text

/-! ## UTF-8 -/

namespace Utf8

/-- The patterns of one to four bytes, filled with the bits of a number. A small number
    fits longer patterns too. -/
inductive Spells : Nat → List UInt8 → Prop
  | one {n : Nat} : n < 128 → Spells n [.ofNat n]
  | two {n a b : Nat} : a < 32 → b < 64 → n = a * 64 + b → Spells n [.ofNat (0xC0 + a), .ofNat (0x80 + b)]
  | three {n a b c : Nat} : a < 16 → b < 64 → c < 64 → n = a * 4096 + b * 64 + c →
      Spells n [.ofNat (0xE0 + a), .ofNat (0x80 + b), .ofNat (0x80 + c)]
  | four {n a b c d : Nat} : a < 8 → b < 64 → c < 64 → d < 64 → n = a * 262144 + b * 4096 + c * 64 + d →
      Spells n [.ofNat (0xF0 + a), .ofNat (0x80 + b), .ofNat (0x80 + c), .ofNat (0x80 + d)]

/-- The shortest spelling of a scalar value. -/
structure Form (n : Nat) (bs : List UInt8) : Prop where
  scalar : n < 0xD800 ∨ (0xDFFF < n ∧ n ≤ 0x10FFFF)
  spells : Spells n bs
  shortest : ∀ bs', Spells n bs' → bs.length ≤ bs'.length

inductive WellFormed : List UInt8 → Prop
  | nil : WellFormed []
  | cons {n : Nat} {bs rest : List UInt8} : Form n bs → WellFormed rest → WellFormed (bs ++ rest)

/-- Bytes of the shortest spelling. -/
def width (n : Nat) : Nat := if n < 0x80 then 1 else if n < 0x800 then 2 else if n < 0x10000 then 3 else 4

section

variable {n : Nat} {bs bs' : List UInt8}

theorem Spells.width_le (h : Spells n bs) : width n ≤ bs.length := by
  unfold width
  cases h with
  | one hn => rw [if_pos hn]; rfl
  | two ha hb hn =>
    simp only [List.length_cons, List.length_nil]
    repeat' split
    all_goals omega
  | three ha hb hc hn =>
    simp only [List.length_cons, List.length_nil]
    repeat' split
    all_goals omega
  | four =>
    simp only [List.length_cons, List.length_nil]
    repeat' split
    all_goals omega

/-- Spellings of one length are one spelling: the bits of the number fill the pattern. -/
theorem Spells.unique (h : Spells n bs) (h' : Spells n bs') (hlen : bs.length = bs'.length) : bs = bs' := by
  cases h with
  | one hn =>
    cases h' with
    | one => rfl
    | _ => cases hlen
  | @two a b ha hb hn =>
    cases h' with
    | @two a' b' ha' hb' hn' =>
      obtain ⟨rfl, rfl⟩ : a = a' ∧ b = b' := by omega
      rfl
    | _ => cases hlen
  | @three a b c ha hb hc hn =>
    cases h' with
    | @three a' b' c' ha' hb' hc' hn' =>
      obtain ⟨rfl, rfl, rfl⟩ : a = a' ∧ b = b' ∧ c = c' := by omega
      rfl
    | _ => cases hlen
  | @four a b c d ha hb hc hd hn =>
    cases h' with
    | @four a' b' c' d' ha' hb' hc' hd' hn' =>
      obtain ⟨rfl, rfl, rfl, rfl⟩ : a = a' ∧ b = b' ∧ c = c' ∧ d = d' := by omega
      rfl
    | _ => cases hlen

end

theorem length_encodeChar (c : Char) : (encodeChar c).length = width c.toNat := by
  simp only [encodeChar, width]
  repeat' split
  all_goals rfl

theorem spells_encodeChar (c : Char) : Spells c.toNat (encodeChar c) := by
  have hv := toNat_valid c
  simp only [encodeChar]
  split
  · exact .one ‹_›
  split
  · exact .two (by omega) (by omega) (by omega)
  split
  · exact .three (by omega) (by omega) (by omega) (by omega)
  · exact .four (by omega) (by omega) (by omega) (by omega) (by omega)

theorem form_encodeChar (c : Char) : Form c.toNat (encodeChar c) := by
  refine ⟨?_, spells_encodeChar c, fun bs' h => ?_⟩
  · have hv := toNat_valid c
    omega
  · rw [length_encodeChar]
    exact h.width_le

/-- No number has a second shortest spelling. -/
theorem Form.eq_encodeChar {n : Nat} {bs : List UInt8} (h : Form n bs) : bs = encodeChar (Char.ofNat n) := by
  have hscalar := h.scalar
  have hn : (Char.ofNat n).toNat = n := toNat_ofNat (by omega)
  have hc := spells_encodeChar (Char.ofNat n)
  rw [hn] at hc
  refine h.spells.unique hc (Nat.le_antisymm (h.shortest _ hc) ?_)
  rw [length_encodeChar, hn]
  exact h.spells.width_le

theorem wellFormed_iff {bs : List UInt8} : WellFormed bs ↔ ∃ s, encode s = bs := by
  constructor
  · intro h
    induction h with
    | nil => exact ⟨"", rfl⟩
    | @cons n bs rest hform _ ih =>
      obtain ⟨s, rfl⟩ := ih
      refine ⟨String.ofList (Char.ofNat n :: s.toList), ?_⟩
      rw [encode, String.toList_ofList, List.flatMap_cons, ← hform.eq_encodeChar]
      rfl
  · rintro ⟨s, rfl⟩
    unfold encode
    induction s.toList with
    | nil => exact .nil
    | cons c cs ih => exact .cons (form_encodeChar c) ih

theorem decode_ok_iff {bs : List UInt8} : (∃ s, decode bs = .ok s) ↔ WellFormed bs := by
  rw [wellFormed_iff]
  constructor
  · rintro ⟨s, h⟩
    exact ⟨s, encode_of_decode h⟩
  · rintro ⟨s, rfl⟩
    exact ⟨s, decode_encode s⟩

end Utf8

/-! ## UTF-16 -/

namespace Utf16

/-- The unit that the bytes at `2 * i` and behind it make up, if both are there. -/
def unitAt (bs : List UInt8) (i : Nat) : Option Nat := do
  return (← bs[2 * i]?).toNat * 256 + (← bs[2 * i + 1]?).toNat

/-- Surrogates come in pairs. -/
structure Paired (unit : Nat → Option Nat) : Prop where
  high : ∀ i u, unit i = some u → isHigh u = true → ∃ v, unit (i + 1) = some v ∧ isLow v = true
  low : ∀ i u, unit i = some u → isLow u = true → ∃ j v, i = j + 1 ∧ unit j = some v ∧ isHigh v = true

structure WellFormed (bs : List UInt8) : Prop where
  even : bs.length % 2 = 0
  paired : Paired (unitAt bs)

theorem getElem?_units (bs : List UInt8) (i : Nat) : (units bs)[i]? = unitAt bs i := by
  fun_induction units bs generalizing i with
  | case1 hi lo rest ih =>
    cases i with
    | zero => rfl
    | succ i => exact ih i
  | case2 bs hbs =>
    rcases bs with - | ⟨hi, - | ⟨lo, rest⟩⟩
    · rfl
    · simp [unitAt]
    · exact absurd rfl (hbs hi lo rest)

theorem not_low_of_high {u : Nat} (h : isHigh u = true) : ¬isLow u = true := by
  rw [isHigh_iff] at h
  rw [isLow_iff]
  omega

theorem paired_nil : Paired (([] : List Nat)[·]?) where
  high := by
    intro i u hu
    cases hu
  low := by
    intro i u hu
    cases hu

section

variable {u v : Nat} {rest : List Nat}

theorem paired_pair (hu : isHigh u = true) (hv : isLow v = true) :
    Paired ((u :: v :: rest)[·]?) ↔ Paired (rest[·]?) := by
  constructor
  · refine fun h => ⟨fun i w hw hhigh => h.high (i + 2) w hw hhigh, fun i w hw hlow => ?_⟩
    obtain ⟨j, x, hj, hx, hhigh⟩ := h.low (i + 2) w hw hlow
    obtain rfl : i + 1 = j := by omega
    cases i with
    | zero =>
      obtain rfl : v = x := by simpa using hx
      exact absurd hv (not_low_of_high hhigh)
    | succ i => exact ⟨i, x, rfl, hx, hhigh⟩
  · refine fun h => ⟨fun i w hw hhigh => ?_, fun i w hw hlow => ?_⟩
    · match i with
      | 0 => exact ⟨v, rfl, hv⟩
      | 1 =>
        obtain rfl : v = w := by simpa using hw
        exact absurd hv (not_low_of_high hhigh)
      | i + 2 => exact h.high i w hw hhigh
    · match i with
      | 0 =>
        obtain rfl : u = w := by simpa using hw
        exact absurd hlow (not_low_of_high hu)
      | 1 => exact ⟨0, u, rfl, rfl, hu⟩
      | i + 2 =>
        obtain ⟨j, x, rfl, hx, hhigh⟩ := h.low i w hw hlow
        exact ⟨j + 2, x, rfl, hx, hhigh⟩

theorem paired_single (hh : ¬isHigh u = true) (hl : ¬isLow u = true) :
    Paired ((u :: rest)[·]?) ↔ Paired (rest[·]?) := by
  constructor
  · refine fun h => ⟨fun i w hw hhigh => h.high (i + 1) w hw hhigh, fun i w hw hlow => ?_⟩
    obtain ⟨j, x, hj, hx, hhigh⟩ := h.low (i + 1) w hw hlow
    obtain rfl : i = j := by omega
    cases i with
    | zero =>
      obtain rfl : u = x := by simpa using hx
      exact absurd hhigh hh
    | succ i => exact ⟨i, x, rfl, hx, hhigh⟩
  · refine fun h => ⟨fun i w hw hhigh => ?_, fun i w hw hlow => ?_⟩
    · cases i with
      | zero =>
        obtain rfl : u = w := by simpa using hw
        exact absurd hhigh hh
      | succ i => exact h.high i w hw hhigh
    · cases i with
      | zero =>
        obtain rfl : u = w := by simpa using hw
        exact absurd hlow hl
      | succ i =>
        obtain ⟨j, x, rfl, hx, hhigh⟩ := h.low i w hw hlow
        exact ⟨j + 1, x, rfl, hx, hhigh⟩

end

theorem error_refuses {α β : Type} {e : α} : ¬∃ b : β, Except.error e = .ok b := by
  rintro ⟨b, h⟩
  cases h

/-- The reader goes on behind a pair or a unit that is no surrogate, and `Paired` does not
    ask what stood before either. -/
theorem decodeFrom_ok_iff (acc : List Char) (us : List Nat) :
    (∃ cs, decodeFrom acc us = .ok cs) ↔ Paired (us[·]?) := by
  fun_induction decodeFrom acc us with
  | case1 acc => exact iff_of_true ⟨acc.reverse, rfl⟩ paired_nil
  | case2 acc u hu v rest hv ih => rw [paired_pair hu hv, ih]
  | case3 acc u hu v rest hv =>
    refine iff_of_false error_refuses fun h => ?_
    obtain ⟨w, hw, hlow⟩ := h.high 0 u rfl hu
    obtain rfl : v = w := by simpa using hw
    exact hv hlow
  | case4 acc u hu =>
    refine iff_of_false error_refuses fun h => ?_
    obtain ⟨w, hw, -⟩ := h.high 0 u rfl hu
    cases hw
  | case5 acc u rest hh hl =>
    refine iff_of_false error_refuses fun h => ?_
    obtain ⟨j, w, hj, -⟩ := h.low 0 u rfl hl
    cases hj
  | case6 acc u rest hh hl ih => rw [paired_single hh hl, ih]

theorem decode_ok_iff {bs : List UInt8} : (∃ s, decode bs = .ok s) ↔ WellFormed bs := by
  have hunits : (fun i => (units bs)[i]?) = unitAt bs := funext (getElem?_units bs)
  have hpaired := decodeFrom_ok_iff [] (units bs)
  rw [hunits] at hpaired
  unfold decode
  split
  · rename_i hodd
    refine iff_of_false error_refuses fun h => ?_
    have := h.even
    omega
  · rename_i heven
    constructor
    · rintro ⟨s, h⟩
      refine ⟨by omega, hpaired.1 ?_⟩
      cases hd : decodeFrom [] (units bs) with
      | ok cs => exact ⟨cs, rfl⟩
      | error e => rw [hd] at h; cases h
    · intro h
      obtain ⟨cs, hcs⟩ := hpaired.2 h.paired
      exact ⟨String.ofList cs, by rw [hcs]; rfl⟩

end Utf16

end TypedDoc.Text

namespace TypedDoc.Charset

open Wire

/-! ## Both charsets -/

def WellFormed : Charset → List UInt8 → Prop
  | .utf8 => Text.Utf8.WellFormed
  | .utf16 => Text.Utf16.WellFormed

section

variable {α β γ : Type} {f : α → β} {r : Except α γ}

theorem mapError_eq_ok {c : γ} : r.mapError f = .ok c ↔ r = .ok c := by
  cases r <;> simp [Except.mapError]

theorem mapError_eq_error {b : β} (h : r.mapError f = .error b) : ∃ a, b = f a := by
  cases r with
  | ok c => cases h
  | error a => cases h; exact ⟨a, rfl⟩

end

theorem decode_ok_iff {c : Charset} {bs : List UInt8} : (∃ s, c.decode bs = .ok s) ↔ c.WellFormed bs := by
  cases c with
  | utf8 =>
    simp only [decode, mapError_eq_ok]
    exact Text.Utf8.decode_ok_iff
  | utf16 =>
    simp only [decode, mapError_eq_ok]
    exact Text.Utf16.decode_ok_iff

theorem decode_of_not_wellFormed {c : Charset} {bs : List UInt8} (h : ¬c.WellFormed bs) :
    ∃ flaw, c.decode bs = .error (.invalidString flaw) := by
  cases hd : c.decode bs with
  | ok s => exact absurd (decode_ok_iff.1 ⟨s, hd⟩) h
  | error e =>
    obtain ⟨flaw, rfl⟩ := mapError_eq_error hd
    exact ⟨flaw, rfl⟩

/-- A string that a count can measure, written with its length in front. -/
theorem putString_unlimited {c : Charset} {s : String} (h : Counted c s) :
    putString c s .unlimited = .ok (stringBytes c s).length (.holding (stringBytes c s)) := by
  rw [putString_eq, ← stringLayout_bytes h]
  have hw := (stringLayout c s).write_holding []
  rw [stringLayout_flaw.2 h] at hw
  exact hw

/-- Texts and the byte strings that are well-formed in a charset are the same thing, one to
    one, and nothing else is read. With a length in front a text is read off whatever comes
    behind it. -/
theorem codec_exact (c : Charset) :
    (∀ s, c.decode (c.encode s) = .ok s) ∧
    (∀ bs s, c.decode bs = .ok s → c.encode s = bs) ∧
    (∀ bs, (∃ s, c.decode bs = .ok s) ↔ c.WellFormed bs) ∧
    (∀ bs, ¬c.WellFormed bs → ∃ flaw, c.decode bs = .error (.invalidString flaw)) ∧
    ∀ s, (c.encode s).length < countLimit → ∃ bs, putString c s .unlimited = .ok bs.length (.holding bs) ∧
      ∀ (t : Supply) (rest : List UInt8), t.pieces.flatten = bs ++ rest →
        ∃ t', takeString c t = .ok s t' ∧ t'.pieces.flatten = rest ∧ t'.parting = t.parting ∧ t'.ending = t.ending := by
  refine ⟨c.decode_encode, fun _ _ => encode_of_decode, fun _ => decode_ok_iff, fun _ => decode_of_not_wellFormed,
    fun s hs => ?_⟩
  exact ⟨stringBytes c s, putString_unlimited hs, (codes_takeString c).takes s hs⟩

end TypedDoc.Charset
