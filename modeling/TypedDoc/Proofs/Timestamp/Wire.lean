/-
  TypedDoc.Proofs.Timestamp.Wire — a timestamp with a field has one wire form, and the
  reader takes such forms and nothing else.
  - `codes_read`: both directions, for the whole timestamp.

  The control byte is a mask of eight bits; that masks and bytes are the same thing is
  checked byte by byte. Every field has its own codec lemma, and whether it is there is
  the same question on both sides.
-/

import TypedDoc.Proofs.Wire.Codec
import TypedDoc.Timestamp.Wire

namespace TypedDoc

open Wire

namespace SubSecond

theorem toNat_magnitude_le (s : SubSecond) : s.magnitude.toNat ≤ 1023 := UInt16.le_iff_toNat_le.1 s.magnitude_le

theorem ofWire_toWire (s : SubSecond) : ofWire s.toWire = .ok s := by
  have hm := s.toNat_magnitude_le
  obtain ⟨unit, magnitude, hle⟩ := s
  simp only at hm
  have htag : (unit.tag * 1024 + magnitude.toNat) / 1024 = unit.tag := by omega
  have hmag : (unit.tag * 1024 + magnitude.toNat) % 1024 = magnitude.toNat := by omega
  have hunit : SubSecondUnit.ofTag unit.tag = .ok unit := by cases unit <;> rfl
  simp only [ofWire, toWire, htag, hunit, hmag, UInt16.ofNat_toNat]
  rfl

theorem toWire_of_ofWire {raw : Nat} {s : SubSecond} (h : ofWire raw = .ok s) : s.toWire = raw := by
  simp only [ofWire, SubSecondUnit.ofTag] at h
  have hmag : (UInt16.ofNat (raw % 1024)).toNat = raw % 1024 := UInt16.toNat_ofNat_of_lt' (by simp only [UInt16.size]; omega)
  split at h
  · cases h
    simp only [toWire, SubSecondUnit.tag, hmag]
    omega
  split at h
  · cases h
    simp only [toWire, SubSecondUnit.tag, hmag]
    omega
  split at h
  · cases h
    simp only [toWire, SubSecondUnit.tag, hmag]
    omega
  · cases h

theorem toWire_lt (s : SubSecond) : s.toWire < 256 ^ 2 := by
  have hm := s.toNat_magnitude_le
  have ht : s.unit.tag ≤ 2 := by cases s.unit <;> decide
  simp only [toWire]
  omega

end SubSecond

namespace UtcOffset

theorem toNat_toWire (o : UtcOffset) :
    o.toWire.toNat = if o.quarters < 0 then 128 + o.quarters.natAbs else o.quarters.natAbs := by
  have hr := o.inRange
  simp only [maxQuarters] at hr
  simp only [toWire]
  split
  · exact UInt8.toNat_ofNat_of_lt' (by simp only [UInt8.size]; omega)
  · exact UInt8.toNat_ofNat_of_lt' (by simp only [UInt8.size]; omega)

theorem ext_quarters {o o' : UtcOffset} (h : o.quarters = o'.quarters) : o = o' := by
  obtain ⟨q, hq⟩ := o
  obtain ⟨q', hq'⟩ := o'
  cases h
  rfl

theorem ofWire_toWire (o : UtcOffset) : ofWire o.toWire = .ok o := by
  have hr := o.inRange
  have hw := o.toNat_toWire
  simp only [maxQuarters] at hr
  simp only [ofWire, hw]
  split
  · rw [if_neg (by omega), if_neg (by omega), if_neg (by omega)]
    refine congrArg _ (ext_quarters ?_)
    simp only [ofLowBits, Bool.false_eq_true, if_false]
    omega
  · rw [if_neg (by omega), if_pos (by omega)]
    refine congrArg _ (ext_quarters ?_)
    simp only [ofLowBits, if_true]
    omega

theorem toWire_of_ofWire {raw : UInt8} {o : UtcOffset} (h : ofWire raw = .ok o) : o.toWire = raw := by
  have hlt := raw.toNat_lt
  rw [← UInt8.toNat_inj, toNat_toWire]
  simp only [ofWire] at h
  split at h
  · cases h
  split at h
  · cases h
    simp only [ofLowBits, if_true]
    rw [if_neg (by omega)]
    omega
  split at h
  · cases h
  · cases h
    simp only [ofLowBits, Bool.false_eq_true, if_false]
    rw [if_pos (by omega)]
    omega

end UtcOffset

namespace Timestamp

/-! ## The control byte -/

/-- The byte with these bits, the first the highest. -/
def mask (year month day hour minute second subSecond offset : Bool) : UInt8 :=
  let bit (present : Bool) (weight : UInt8) : UInt8 := if present then weight else 0
  bit year 128 + bit month 64 + bit day 32 + bit hour 16 + bit minute 8 + bit second 4 + bit subSecond 2 + bit offset 1

theorem control_eq_mask (t : Timestamp) : t.control =
    mask t.year.isSome t.month.isSome t.day.isSome t.hour.isSome t.minute.isSome t.second.isSome t.subSecond.isSome
      t.offset.isSome := rfl

theorem mask_and : ∀ y mo d h mi s ss o : Bool,
    (mask y mo d h mi s ss o &&& 128 != 0) = y ∧ (mask y mo d h mi s ss o &&& 64 != 0) = mo ∧
    (mask y mo d h mi s ss o &&& 32 != 0) = d ∧ (mask y mo d h mi s ss o &&& 16 != 0) = h ∧
    (mask y mo d h mi s ss o &&& 8 != 0) = mi ∧ (mask y mo d h mi s ss o &&& 4 != 0) = s ∧
    (mask y mo d h mi s ss o &&& 2 != 0) = ss ∧ (mask y mo d h mi s ss o &&& 1 != 0) = o := by
  decide

theorem mask_of_and (c : UInt8) : mask (c &&& 128 != 0) (c &&& 64 != 0) (c &&& 32 != 0) (c &&& 16 != 0) (c &&& 8 != 0)
    (c &&& 4 != 0) (c &&& 2 != 0) (c &&& 1 != 0) = c := by
  have h : ∀ n : Fin 256, let c := UInt8.ofNat n
      mask (c &&& 128 != 0) (c &&& 64 != 0) (c &&& 32 != 0) (c &&& 16 != 0) (c &&& 8 != 0) (c &&& 4 != 0) (c &&& 2 != 0)
        (c &&& 1 != 0) = c := by decide +kernel
  simpa using h ⟨c.toNat, c.toNat_lt⟩

/-! ## Fields -/

section

variable {α : Type} {take : Decoder α} {form : α → List UInt8} {c weight : UInt8}

theorem takes_field (h : Codes take form fun _ => True) {o : Option α} (hc : (c &&& weight != 0) = o.isSome) :
    Takes (field c weight take) ((o.map form).getD []) o := by
  cases o with
  | none =>
    have h0 : c &&& weight = 0 := by simpa using hc
    rw [field, if_pos h0]
    exact takes_pure none
  | some a =>
    have h0 : c &&& weight ≠ 0 := by simpa using hc
    rw [field, if_neg h0]
    exact (h.takes a trivial).map some

theorem field_ok (h : Codes take form fun _ => True) {s s' : Supply} {o : Option α}
    (hs : field c weight take s = .ok o s') : (c &&& weight != 0) = o.isSome ∧ Took s ((o.map form).getD []) s' := by
  simp only [field] at hs
  split at hs
  · rename_i h0
    obtain ⟨rfl, rfl⟩ := pure_ok hs
    exact ⟨by simp [h0], Took.refl _⟩
  · rename_i h0
    obtain ⟨a, h1, rfl⟩ := map_ok hs
    exact ⟨by simpa using h0, (h.took _ _ _ h1).2⟩

end

theorem codes_year : Codes (UInt16.ofNat <$> takeNat 2) (fun y => BigEndian.toBytes 2 y.toNat) fun _ => True :=
  (codes_takeNat 2).map UInt16.ofNat UInt16.toNat (fun _ => UInt16.ofNat_toNat) (fun _ hn => UInt16.toNat_ofNat_of_lt' hn)
    UInt16.toNat_lt

theorem codes_smallField (name : String) (lo hi : UInt8) :
    Codes (smallField (checkRange name lo hi)) (fun w => [w.val]) fun _ => True := by
  refine codes_takeByte.settle (fun b => blameBytes (checkRange name lo hi b)) (·.val) (fun w => ?_) (fun b w _ h => ?_)
    fun _ => trivial
  · obtain ⟨v, hv⟩ := w
    simp only [checkRange, dif_pos hv, blameBytes]
  · simp only [checkRange] at h
    split at h <;> cases h
    rfl

theorem codes_subSecond : Codes (takeNat 2 >>= fun raw => settled (SubSecond.ofWire raw))
    (fun s => BigEndian.toBytes 2 s.toWire) fun _ => True :=
  (codes_takeNat 2).settle SubSecond.ofWire SubSecond.toWire SubSecond.ofWire_toWire
    (fun _ _ _ => SubSecond.toWire_of_ofWire) SubSecond.toWire_lt

theorem codes_offset :
    Codes (takeByte >>= fun raw => settled (UtcOffset.ofWire raw)) (fun o => [o.toWire]) fun _ => True :=
  codes_takeByte.settle UtcOffset.ofWire UtcOffset.toWire UtcOffset.ofWire_toWire
    (fun _ _ _ => UtcOffset.toWire_of_ofWire) fun _ => trivial

/-! ## The whole timestamp -/

theorem toList_map {α β : Type} (f : α → β) (o : Option α) : (o.map f).toList = (o.map fun a => [f a]).getD [] := by
  cases o <;> rfl

/-- The forms of the fields one after another, as the reader meets them. -/
theorem wire_eq (t : Timestamp) : t.wire = [t.control] ++ ((t.year.map (BigEndian.toBytes 2 ·.toNat)).getD [] ++
    ((t.month.map fun w => [w.val]).getD [] ++ ((t.day.map fun w => [w.val]).getD [] ++
    ((t.hour.map fun w => [w.val]).getD [] ++ ((t.minute.map fun w => [w.val]).getD [] ++
    ((t.second.map fun w => [w.val]).getD [] ++ ((t.subSecond.map (BigEndian.toBytes 2 ·.toWire)).getD [] ++
    ((t.offset.map fun o => [o.toWire]).getD [] ++ [])))))))) := by
  simp only [wire, toList_map, List.append_assoc, List.singleton_append, List.append_nil]

theorem control_and (t : Timestamp) :
    (t.control &&& 128 != 0) = t.year.isSome ∧ (t.control &&& 64 != 0) = t.month.isSome ∧
    (t.control &&& 32 != 0) = t.day.isSome ∧ (t.control &&& 16 != 0) = t.hour.isSome ∧
    (t.control &&& 8 != 0) = t.minute.isSome ∧ (t.control &&& 4 != 0) = t.second.isSome ∧
    (t.control &&& 2 != 0) = t.subSecond.isSome ∧ (t.control &&& 1 != 0) = t.offset.isSome := by
  rw [control_eq_mask]
  exact mask_and ..

theorem isEmpty_iff {t : Timestamp} : t.isEmpty = true ↔ t = .empty := by
  constructor
  · intro h
    have hc : t.control = 0 := by simpa [isEmpty] using h
    have hfields := t.control_and
    simp only [hc, UInt8.zero_and, bne_self_eq_false, Bool.false_eq, Option.isSome_eq_false_iff, Option.isNone_iff_eq_none] at hfields
    obtain ⟨year, month, day, hour, minute, second, subSecond, offset⟩ := t
    obtain ⟨rfl, rfl, rfl, rfl, rfl, rfl, rfl, rfl⟩ := hfields
    rfl
  · rintro rfl
    rfl

theorem takes_read {t : Timestamp} (ht : t.isEmpty = false) : Takes read t.wire t := by
  obtain ⟨hy, hmo, hd, hh, hmi, hs, hss, ho⟩ := t.control_and
  have hc : ¬t.control = 0 := by simpa [isEmpty] using ht
  rw [wire_eq]
  refine (codes_takeByte.takes _ trivial).bind ?_
  rw [if_neg hc]
  refine (takes_field codes_year hy).bind ?_
  refine (takes_field (codes_smallField "month" 1 12) hmo).bind ?_
  refine (takes_field (codes_smallField "day" 1 31) hd).bind ?_
  refine (takes_field (codes_smallField "hour" 0 23) hh).bind ?_
  refine (takes_field (codes_smallField "minute" 0 59) hmi).bind ?_
  refine (takes_field (codes_smallField "second" 0 59) hs).bind ?_
  refine (takes_field codes_subSecond hss).bind ?_
  exact (takes_field codes_offset ho).bind (takes_pure t)

theorem read_ok {s s' : Supply} {t : Timestamp} (h : read s = .ok t s') : t.isEmpty = false ∧ Took s t.wire s' := by
  obtain ⟨c, s0, h0, h⟩ := bind_ok h
  split at h
  · obtain ⟨_, _, h1, _⟩ := bind_ok h
    exact (throw_ne_ok h1).elim
  rename_i hc
  obtain ⟨y, s1, h1, h⟩ := bind_ok h
  obtain ⟨mo, s2, h2, h⟩ := bind_ok h
  obtain ⟨d, s3, h3, h⟩ := bind_ok h
  obtain ⟨hr, s4, h4, h⟩ := bind_ok h
  obtain ⟨mi, s5, h5, h⟩ := bind_ok h
  obtain ⟨se, s6, h6, h⟩ := bind_ok h
  obtain ⟨ss, s7, h7, h⟩ := bind_ok h
  obtain ⟨o, s8, h8, h⟩ := bind_ok h
  obtain ⟨rfl, rfl⟩ := pure_ok h
  obtain ⟨b1, t1⟩ := field_ok codes_year h1
  obtain ⟨b2, t2⟩ := field_ok (codes_smallField "month" 1 12) h2
  obtain ⟨b3, t3⟩ := field_ok (codes_smallField "day" 1 31) h3
  obtain ⟨b4, t4⟩ := field_ok (codes_smallField "hour" 0 23) h4
  obtain ⟨b5, t5⟩ := field_ok (codes_smallField "minute" 0 59) h5
  obtain ⟨b6, t6⟩ := field_ok (codes_smallField "second" 0 59) h6
  obtain ⟨b7, t7⟩ := field_ok codes_subSecond h7
  obtain ⟨b8, t8⟩ := field_ok codes_offset h8
  have hctl : control ⟨y, mo, d, hr, mi, se, ss, o⟩ = c := by
    rw [control_eq_mask]
    simp only [← b1, ← b2, ← b3, ← b4, ← b5, ← b6, ← b7, ← b8]
    exact mask_of_and c
  refine ⟨by simpa [isEmpty, hctl] using hc, ?_⟩
  have t0 := (codes_takeByte.took _ _ _ h0).2
  refine (t0.trans (t1.trans (t2.trans (t3.trans (t4.trans (t5.trans (t6.trans (t7.trans t8)))))))).of_eq ?_
  simp only [wire_eq, hctl, List.append_nil]

theorem codes_read : Codes read wire fun t => t.isEmpty = false :=
  ⟨fun _ => takes_read, fun _ _ _ => read_ok⟩

end Timestamp

end TypedDoc
