/-
  TypedDoc.Proofs.Timestamp.Instant — what instant a timestamp denotes, and which local
  datetimes can be captured, by any chronology of the Gregorian calendar.

  - `denotes_exact`: a timestamp with a day that exists denotes an instant, unless its
    nanoseconds go beyond a second that no leap second can follow. Whatever else is missing
    is zero. The seconds are those of the day by any count that goes from each day to the
    next, and 32 bits are enough on the way there.
  - `capture_exact`: a datetime can be captured exactly if its year and its offset can be
    told. What was captured denotes it again, less the leap second and what is below a
    millisecond; and a full timestamp in milliseconds is captured from what it denotes.

  Both go through the fields as numbers (`toDateTimeBy_eq_some`, `capture_eq_ok`).
-/

import TypedDoc.Proofs.Timestamp.Chronology
import TypedDoc.Proofs.Timestamp.Fields

namespace TypedDoc

open Wire

/-! ## Words of 32 bits -/

theorem SubSecondUnit.toNanos_le (u : SubSecondUnit) : u.toNanos ≤ 1000000 := by cases u <;> decide

theorem SubSecond.toNanos_le (s : SubSecond) : s.toNanos ≤ 1023000000 :=
  Nat.mul_le_mul s.toNat_magnitude_le s.unit.toNanos_le

theorem SubSecond.toNat_mul (s : SubSecond) :
    (s.magnitude.toUInt32 * .ofNat s.unit.toNanos).toNat = s.magnitude.toNat * s.unit.toNanos := by
  have hunit := s.unit.toNanos_le
  have hnanos : s.magnitude.toNat * s.unit.toNanos ≤ 1023000000 := s.toNanos_le
  have hword : (UInt32.ofNat s.unit.toNanos).toNat = s.unit.toNanos :=
    UInt32.toNat_ofNat_of_lt' (by simp only [UInt32.size]; omega)
  rw [UInt32.toNat_mul, UInt16.toNat_toUInt32, hword]
  exact Nat.mod_eq_of_lt (by omega)

theorem UtcOffset.toInt_mul (o : UtcOffset) : (Int32.ofInt o.quarters * 900).toInt = o.quarters * 900 := by
  have hr := o.inRange
  simp only [maxQuarters] at hr
  have hword : (Int32.ofInt o.quarters).toInt = o.quarters := Int32.toInt_ofInt_of_le (by omega) (by omega)
  have hfactor : (900 : Int32).toInt = 900 := by decide
  rw [Int32.toInt_mul, hword, hfactor]
  exact Int.bmod_eq_of_le (by omega) (by omega)

/-! ## Whole milliseconds -/

namespace LocalTime

theorem toDateTime_inj {d d' : LocalTime} (h : d.toDateTime = d'.toDateTime) : d = d' := by
  obtain ⟨d, _⟩ := d
  obtain ⟨d', _⟩ := d'
  cases h
  rfl

/-- The leap second and what is below a millisecond left off. -/
def wholeMillis (d : LocalTime) : LocalTime where
  toDateTime := { d.toDateTime with nanos := d.nanos % 1000000000 / 1000000 * 1000000 }
  valid :=
    { d.valid with
      nanos := by
        dsimp only
        omega }

theorem nanos_wholeMillis (d : LocalTime) : d.wholeMillis.nanos = d.nanos % 1000000000 / 1000000 * 1000000 := rfl

theorem nanos_wholeMillis_eq_iff {d : LocalTime} :
    d.wholeMillis.nanos = d.nanos ↔ d.nanos < 1000000000 ∧ 1000000 ∣ d.nanos := by
  rw [nanos_wholeMillis]
  omega

theorem wholeMillis_eq_iff {d : LocalTime} : d.wholeMillis = d ↔ d.nanos < 1000000000 ∧ 1000000 ∣ d.nanos := by
  rw [← nanos_wholeMillis_eq_iff]
  exact ⟨congrArg fun e : LocalTime => e.nanos, fun h => toDateTime_inj (congrArg (fun n => { d.toDateTime with nanos := n }) h)⟩

theorem leapFits_wholeMillis (d : LocalTime) : d.wholeMillis.LeapFits := by
  refine .inl ?_
  rw [nanos_wholeMillis]
  omega

end LocalTime

theorem Chronology.Gregorian.sameInstant_wholeMillis_iff (c : Chronology.Gregorian) {d : LocalTime} :
    c.sameInstant d.wholeMillis d = true ↔ d.nanos < 1000000000 ∧ 1000000 ∣ d.nanos := by
  have hunix : c.unix d.wholeMillis = c.unix d := by
    rw [c.counts.unix_eq Calendar.countsDays_dayNumber, c.counts.unix_eq Calendar.countsDays_dayNumber]
    rfl
  rw [← LocalTime.nanos_wholeMillis_eq_iff, Chronology.sameInstant, hunix, beq_self_eq_true, Bool.true_and, beq_iff_eq]

namespace Timestamp

/-! ## Denoting -/

namespace Fields

/-- The nanoseconds of the sub-second part. -/
def nanos (f : Fields) : Nat := (f.subSecond.map fun s => s.2 * s.1.toNanos).getD 0

/-- The local datetime on this day, at the time and the offset of the fields. -/
def onDay (f : Fields) (year : Int) (month day : Nat) : DateTime where
  year := year
  month := month
  day := day
  hour := f.hour.getD 0
  minute := f.minute.getD 0
  second := f.second.getD 0
  nanos := f.nanos
  offset := f.offset.getD 0 * 900

end Fields

theorem nanos_eq (t : Timestamp) : (t.subSecond.map SubSecond.toNanos).getD 0 = t.fields.nanos := by
  cases h : t.subSecond with
  | none => simp only [Fields.nanos, fields, h, Option.map_none]
  | some s => simp only [Fields.nanos, fields, h, Option.map_some, SubSecond.toNanos]

theorem seconds_eq (t : Timestamp) : (t.offset.getD .utc).seconds = t.fields.offset.getD 0 * 900 := by
  cases h : t.offset with
  | none => simp only [fields, h]; rfl
  | some o => simp only [fields, h]; rfl

theorem getD_of_forall {α : Type} {o : Option α} {P : α → Prop} {a : α} (h : ∀ b ∈ o, P b) (ha : P a) :
    P (o.getD a) := by
  cases o with
  | none => exact ha
  | some b => exact h b rfl

theorem valid_onDay {f : Fields} (h : f.InRange) {y : Int} {m d : Nat} (hd : Calendar.IsDay y m d) :
    (f.onDay y m d).Valid where
  day := Calendar.dayExists_iff.2 hd
  hour := Nat.lt_succ_of_le (getD_of_forall h.hour (by decide))
  minute := Nat.lt_succ_of_le (getD_of_forall h.minute (by decide))
  second := Nat.lt_succ_of_le (getD_of_forall h.second (by decide))
  nanos := by
    have hpresent : ∀ n ∈ f.subSecond.map fun s => s.2 * s.1.toNanos, n ≤ 1023000000 :=
      Option.forall_mem_map.2 fun s hs => Nat.mul_le_mul (h.subSecond s hs) s.1.toNanos_le
    have hnanos : f.nanos ≤ 1023000000 := getD_of_forall (P := (· ≤ 1023000000)) hpresent (Nat.zero_le _)
    exact Nat.lt_of_le_of_lt hnanos (by decide)
  offset := by
    have hoffset : -63 ≤ f.offset.getD 0 ∧ f.offset.getD 0 ≤ 63 := getD_of_forall h.offset (by decide)
    simp only [Fields.onDay]
    omega

theorem leapFits_onDay {f : Fields} {y : Int} {m d : Nat} :
    (f.onDay y m d).LeapFits ↔ f.nanos < 1000000000 ∨ f.second = some 59 := by
  simp only [DateTime.LeapFits, Fields.onDay]
  cases f.second <;> simp

section

variable {c : Chronology.Gregorian} {t : Timestamp}

theorem toDateTimeBy_eq (c : Chronology) (t : Timestamp) : t.toDateTimeBy c = (do
    let date ← c.date? (← t.fields.year) (← t.fields.month) (← t.fields.day)
    let naive ← c.time? date (t.fields.hour.getD 0) (t.fields.minute.getD 0) (t.fields.second.getD 0) t.fields.nanos
    let offset ← c.east? (t.fields.offset.getD 0 * 900)
    c.at? naive offset) := by
  unfold toDateTimeBy
  rw [nanos_eq, seconds_eq]
  obtain ⟨year, month, day, hour, minute, second, subSecond, offset⟩ := t
  cases year with
  | none => rfl
  | some y =>
    cases month with
    | none => rfl
    | some m =>
      cases day with
      | none => rfl
      | some d => rfl

/-- A chronology makes of the fields what they are, if they are those of a local datetime. -/
theorem made_iff {d : LocalTime} {y : Nat} {m da : Nat} (hy : t.fields.year = some y) (hm : t.fields.month = some m)
    (hda : t.fields.day = some da) :
    t.toDateTimeBy c = some d ↔ t.fields.onDay y m da = d.toDateTime ∧ d.LeapFits := by
  have hrange := t.fields_inRange
  have hyear : (0 : Int) ≤ y ∧ (y : Int) ≤ 65535 := ⟨Int.natCast_nonneg y, by have := hrange.year y hy; omega⟩
  rw [toDateTimeBy_eq, hy, hm, hda]
  simp only [Option.bind_eq_bind, Option.bind_some, Option.bind_eq_some_iff]
  constructor
  · rintro ⟨date, hdate, naive, htime, offset, heast, hat⟩
    obtain ⟨d', hat', hd'⟩ := c.at?_eq hyear hdate htime heast
    obtain rfl : d = d' := Option.some.inj (hat.symm.trans hat')
    have hfits := ((c.isSome_time? date).1 (Option.isSome_of_eq_some htime)).2.2.2
    have honDay : t.fields.onDay y m da = d.toDateTime := hd'.symm
    refine ⟨honDay, ?_⟩
    rw [← honDay]
    exact hfits.imp_right And.right
  · rintro ⟨honDay, hleap⟩
    have hvalid := d.valid
    rw [← honDay] at hvalid hleap
    obtain ⟨date, hdate⟩ := Option.isSome_iff_exists.1 ((c.isSome_date? hyear).2 (Calendar.dayExists_iff.1 hvalid.day))
    obtain ⟨naive, htime⟩ := Option.isSome_iff_exists.1 ((c.isSome_time? date).2
      ⟨hvalid.hour, hvalid.minute, hvalid.second, hleap.imp_right (⟨hvalid.nanos, ·⟩)⟩)
    obtain ⟨offset, heast⟩ := Option.isSome_iff_exists.1 (c.isSome_east?.2 hvalid.offset)
    obtain ⟨d', hat, hd'⟩ := c.at?_eq hyear hdate htime heast
    obtain rfl : d = d' := LocalTime.toDateTime_inj (honDay.symm.trans hd'.symm)
    exact ⟨date, hdate, naive, htime, offset, heast, hat⟩

theorem toDateTimeBy_eq_some {d : LocalTime} : t.toDateTimeBy c = some d ↔
    ∃ y m da, t.fields.year = some y ∧ t.fields.month = some m ∧ t.fields.day = some da ∧
      t.fields.onDay y m da = d.toDateTime ∧ d.LeapFits := by
  constructor
  · intro h
    have hthere := h
    rw [toDateTimeBy_eq] at hthere
    simp only [Option.bind_eq_bind, Option.bind_eq_some_iff] at hthere
    obtain ⟨y, hy, m, hm, da, hda, -⟩ := hthere
    exact ⟨y, m, da, hy, hm, hda, (made_iff hy hm hda).1 h⟩
  · rintro ⟨y, m, da, hy, hm, hda, hd⟩
    exact (made_iff hy hm hda).2 hd

end

/-- What a timestamp denotes is there exactly if its day exists and no second is
    overrun; it has the fields that are there, zero for the others, and the seconds of any
    count of the days. The year, the nanoseconds and the offset fit words of 32 bits. -/
theorem denotes_exact (c : Chronology.Gregorian) (t : Timestamp) :
    ((t.toDateTimeBy c).isSome = true ↔ ∃ y m d,
      t.fields.year = some y ∧ t.fields.month = some m ∧ t.fields.day = some d ∧ Calendar.IsDay y m d ∧
      (t.fields.nanos < 1000000000 ∨ t.fields.second = some 59)) ∧
    (∀ d : LocalTime, t.toDateTimeBy c = some d →
      (∃ y : Nat, t.fields.year = some y ∧ d.year = y) ∧
      t.fields.month = some d.month ∧ t.fields.day = some d.day ∧
      d.hour = t.fields.hour.getD 0 ∧ d.minute = t.fields.minute.getD 0 ∧ d.second = t.fields.second.getD 0 ∧
      d.nanos = t.fields.nanos ∧ d.offset = 900 * t.fields.offset.getD 0 ∧
      ∀ count, Calendar.CountsDays count →
        c.unix d = count d.year d.month d.day * 86400 + (d.hour * 3600 + d.minute * 60 + d.second) -
          900 * t.fields.offset.getD 0) ∧
    (∀ y ∈ t.year, (Int32.ofInt y.toNat).toInt = y.toNat) ∧
    (∀ s ∈ t.subSecond, (s.magnitude.toUInt32 * .ofNat s.unit.toNanos).toNat = s.magnitude.toNat * s.unit.toNanos) ∧
    ∀ o ∈ t.offset, (Int32.ofInt o.quarters * 900).toInt = o.quarters * 900 := by
  refine ⟨?_, fun d hd => ?_, fun y _ => ?_, fun s _ => s.toNat_mul, fun o _ => o.toInt_mul⟩
  · rw [Option.isSome_iff_exists]
    constructor
    · rintro ⟨d, hd⟩
      obtain ⟨y, m, da, hy, hm, hda, honDay, hleap⟩ := toDateTimeBy_eq_some.1 hd
      have hvalid := d.valid
      rw [← honDay] at hvalid hleap
      exact ⟨y, m, da, hy, hm, hda, Calendar.dayExists_iff.1 hvalid.day, leapFits_onDay.1 hleap⟩
    · rintro ⟨y, m, da, hy, hm, hda, hday, hleap⟩
      have hvalid := valid_onDay t.fields_inRange hday
      exact ⟨⟨_, hvalid⟩, (made_iff hy hm hda).2 ⟨rfl, leapFits_onDay.2 hleap⟩⟩
  · obtain ⟨y, m, da, hy, hm, hda, honDay, -⟩ := toDateTimeBy_eq_some.1 hd
    obtain ⟨d, hvalid⟩ := d
    obtain rfl : t.fields.onDay y m da = d := honDay
    have hoffset : t.fields.offset.getD 0 * 900 = 900 * t.fields.offset.getD 0 := Int.mul_comm _ _
    refine ⟨⟨y, hy, rfl⟩, hm, hda, rfl, rfl, rfl, rfl, hoffset, fun count hcount => ?_⟩
    rw [c.counts.unix_eq hcount, ← hoffset]
    simp only [DateTime.secondOfDay]
    push_cast
    rfl
  · have hy := y.toNat_lt
    exact Int32.toInt_ofInt_of_le (by omega) (by omega)

/-- The first day there can be, farthest east: an instant of the year before. -/
theorem denotes_exact_first : ∃ d, d.unix = -62167275900 ∧
    toDateTime? ⟨some 0, some ⟨1, by decide⟩, some ⟨1, by decide⟩, none, none, none, none, some ⟨63, by decide⟩⟩ =
      some d := by
  obtain ⟨hthere, hfields, -⟩ := denotes_exact .proleptic
    ⟨some 0, some ⟨1, by decide⟩, some ⟨1, by decide⟩, none, none, none, none, some ⟨63, by decide⟩⟩
  have hday : Calendar.IsDay 0 1 1 := Calendar.dayExists_iff.1 (by decide)
  obtain ⟨d, hd⟩ := Option.isSome_iff_exists.1 (hthere.2 ⟨0, 1, 1, rfl, rfl, rfl, hday, .inl (by decide)⟩)
  obtain ⟨⟨y, hy, hyear⟩, hmonth, hday, hhour, hminute, hsecond, -, -, hunix⟩ := hfields d hd
  refine ⟨d.toDateTime, ?_, congrArg (Option.map LocalTime.toDateTime) hd⟩
  have hseconds : d.toDateTime.unix = _ := hunix _ Calendar.countsDays_dayNumber
  cases hy
  rw [hseconds, hyear, hhour, hminute, hsecond, ← Option.some.inj hmonth, ← Option.some.inj hday]
  decide

/-! ## Capturing -/

/-- The fields of a datetime whose year and offset can be told. -/
def Fields.ofDateTime (d : DateTime) (q : Int) : Fields where
  year := some d.year.toNat
  month := some d.month
  day := some d.day
  hour := some d.hour
  minute := some d.minute
  second := some d.second
  subSecond := some (.millis, d.nanos % 1000000000 / 1000000)
  offset := some q

theorem ofSeconds_eq_ok {s : Int} {o : UtcOffset} : UtcOffset.ofSeconds s = .ok o ↔ s = 900 * o.quarters := by
  have hrange := o.inRange
  simp only [UtcOffset.ofSeconds]
  split
  · rename_i h
    simp only [UtcOffset.secondsPerQuarter] at h ⊢
    constructor
    · intro ho
      cases ho
      simp only
      omega
    · intro hs
      exact congrArg Except.ok (UtcOffset.ext_quarters (by simp only; omega))
  · rename_i h
    simp only [UtcOffset.secondsPerQuarter] at h
    constructor
    · intro ho
      cases ho
    · intro hs
      exact absurd (by omega) h

theorem millis_of {n : Nat} (h : n ≤ 999) :
    ∃ s, SubSecond.of .millis (.ofNat n) = .ok s ∧ (s.unit, s.magnitude.toNat) = (.millis, n) := by
  have hn : (UInt16.ofNat n).toNat = n := UInt16.toNat_ofNat_of_lt' (by simp only [UInt16.size]; omega)
  have hle : UInt16.ofNat n ≤ SubSecond.maxMagnitude := by
    rw [UInt16.le_iff_toNat_le, hn]
    exact Nat.le_trans h (by decide)
  exact ⟨⟨.millis, .ofNat n, hle⟩, dif_pos hle, congrArg _ hn⟩

theorem toNat_within {lo hi : UInt8} {n : Nat} (h : lo.toNat ≤ n ∧ n ≤ hi.toNat) : (Within.ofNat n h).toNat = n :=
  UInt8.toNat_ofNat_of_lt' (Nat.lt_of_le_of_lt h.2 hi.toNat_lt)

section

variable {c : Chronology.Gregorian} {d : LocalTime} {t : Timestamp}

/-- With a year of 0 to 65535 it is the offset alone that decides. -/
theorem capture_of_year (hy : 0 ≤ d.year ∧ d.year ≤ 65535) :
    ∃ put : UtcOffset → Timestamp, (∀ o, (put o).fields = .ofDateTime d.toDateTime o.quarters) ∧
      capture d = put <$> UtcOffset.ofSeconds d.offset := by
  have hyear : (UInt16.ofNat d.year.toNat).toNat = d.year.toNat :=
    UInt16.toNat_ofNat_of_lt' (by simp only [UInt16.size]; omega)
  obtain ⟨millis, hmillis, hmillis'⟩ := millis_of (n := d.nanos % 1000000000 / 1000000) (by omega)
  refine ⟨full d millis, fun o => ?_, ?_⟩
  · simp only [full, fields, Fields.ofDateTime, Option.map_some, hyear, toNat_within, hmillis']
  · unfold capture
    rw [if_neg (by omega), hmillis]
    cases UtcOffset.ofSeconds d.offset <;> rfl

theorem capture_eq_ok : capture d = .ok t ↔ (0 ≤ d.year ∧ d.year ≤ 65535) ∧
    ∃ o : UtcOffset, d.offset = 900 * o.quarters ∧ t.fields = .ofDateTime d.toDateTime o.quarters := by
  by_cases hy : 0 ≤ d.year ∧ d.year ≤ 65535
  · obtain ⟨put, hput, heq⟩ := capture_of_year hy
    rw [heq, and_iff_right hy]
    constructor
    · intro h
      cases ho : UtcOffset.ofSeconds d.offset with
      | error _ => rw [ho] at h; cases h
      | ok o =>
        rw [ho] at h
        cases h
        exact ⟨o, ofSeconds_eq_ok.1 ho, hput o⟩
    · rintro ⟨o, ho, hf⟩
      rw [ofSeconds_eq_ok.2 ho]
      exact congrArg Except.ok (fields_inj ((hput o).trans hf.symm))
  · refine iff_of_false (fun h => ?_) fun h => hy h.1
    unfold capture at h
    rw [if_pos (by omega)] at h
    cases h

theorem captured_denotes (h : capture d = .ok t) : t.toDateTimeBy c = some d.wholeMillis := by
  obtain ⟨hy, o, ho, hf⟩ := capture_eq_ok.1 h
  have hyear : (d.year.toNat : Int) = d.year := Int.toNat_of_nonneg hy.1
  have hoffset : o.quarters * 900 = d.offset := by omega
  have honDay : t.fields.onDay d.year.toNat d.month d.day = d.wholeMillis.toDateTime := by
    rw [hf, hyear]
    simp only [Fields.onDay, Fields.ofDateTime, Fields.nanos, LocalTime.wholeMillis, Option.map_some, Option.getD_some,
      SubSecondUnit.toNanos, hoffset]
  refine toDateTimeBy_eq_some.2 ⟨d.year.toNat, d.month, d.day, ?_, ?_, ?_, honDay, d.leapFits_wholeMillis⟩
  all_goals rw [hf]; rfl

theorem captured_nonempty (h : capture d = .ok t) : t.isEmpty = false := by
  obtain ⟨-, o, -, hf⟩ := capture_eq_ok.1 h
  refine Bool.eq_false_iff.2 fun he => ?_
  rw [isEmpty_iff.1 he] at hf
  exact absurd (congrArg Fields.year hf) nofun

theorem capture_of_denotes {y m da h mi s n : Nat} {q : Int}
    (hf : t.fields = ⟨some y, some m, some da, some h, some mi, some s, some (.millis, n), some q⟩) (hn : n ≤ 999)
    (hd : t.toDateTimeBy c = some d) : capture d = .ok t := by
  have hrange := t.fields_inRange
  have hy : t.fields.year = some y := congrArg Fields.year hf
  have hm : t.fields.month = some m := congrArg Fields.month hf
  have hda : t.fields.day = some da := congrArg Fields.day hf
  obtain ⟨honDay, -⟩ := (made_iff hy hm hda).1 hd
  have hyear : y ≤ 65535 := hrange.year y hy
  have hmillis : n * 1000000 % 1000000000 / 1000000 = n := by omega
  rw [hf] at hrange
  refine capture_eq_ok.2 ⟨?_, ⟨q, hrange.offset q rfl⟩, ?_, ?_⟩
  · rw [← honDay]
    simp only [Fields.onDay]
    omega
  · rw [← honDay, hf]
    exact Int.mul_comm q 900
  · simp only [← honDay, hf, Fields.ofDateTime, Fields.onDay, Fields.nanos, Option.map_some, Option.getD_some,
      SubSecondUnit.toNanos, Int.toNat_natCast, hmillis]

end

/-- A local datetime is captured exactly if its year is one of 0 to 65535 and its offset is
    at most 63 whole quarter hours. It is then denoted in whole milliseconds, also by what is
    read from the bytes; nothing is lost if it was in whole milliseconds and no leap second.
    A timestamp with every field, in less than a thousand milliseconds, is what the datetime
    that it denotes is captured as. -/
theorem capture_exact (c : Chronology.Gregorian) (d : LocalTime) :
    ((∃ t, capture d = .ok t) ↔
      (0 ≤ d.year ∧ d.year ≤ 65535) ∧ ∃ q : Int, (-63 ≤ q ∧ q ≤ 63) ∧ d.offset = 900 * q) ∧
    (∀ t, capture d = .ok t → t.toDateTimeBy c = some d.wholeMillis ∧
      ∃ bs, t.write .unlimited = .ok bs.length (.holding bs) ∧
        ∀ (s : Supply) (rest : List UInt8), s.pieces.flatten = bs ++ rest →
          ∃ t' s', read s = .ok t' s' ∧ s'.pieces.flatten = rest ∧ t'.toDateTimeBy c = some d.wholeMillis) ∧
    (d.wholeMillis = d ↔ d.nanos < 1000000000 ∧ 1000000 ∣ d.nanos) ∧
    (c.sameInstant d.wholeMillis d = true ↔ d.nanos < 1000000000 ∧ 1000000 ∣ d.nanos) ∧
    ∀ (t : Timestamp) (y m da h mi s n : Nat) (q : Int),
      t.fields = ⟨some y, some m, some da, some h, some mi, some s, some (.millis, n), some q⟩ → n ≤ 999 →
      t.toDateTimeBy c = some d → capture d = .ok t := by
  refine ⟨?_, fun t ht => ⟨captured_denotes ht, ?_⟩, LocalTime.wholeMillis_eq_iff, c.sameInstant_wholeMillis_iff,
    fun t y m da h mi s n q hf hn ht => capture_of_denotes hf hn ht⟩
  · constructor
    · rintro ⟨t, ht⟩
      obtain ⟨hy, o, ho, -⟩ := capture_eq_ok.1 ht
      exact ⟨hy, o.quarters, o.inRange, ho⟩
    · rintro ⟨hy, q, hq, ho⟩
      obtain ⟨put, hput, -⟩ := capture_of_year hy
      exact ⟨put ⟨q, hq⟩, capture_eq_ok.2 ⟨hy, ⟨q, hq⟩, ho, hput _⟩⟩
  · have hne := captured_nonempty ht
    refine ⟨t.wire, write_unlimited hne, fun s rest hs => ?_⟩
    obtain ⟨s', hs', hrest, -⟩ := takes_read hne s rest hs
    exact ⟨t, s', hs', hrest, captured_denotes ht⟩

/-- A leap second on a leap day, nine and a half hours west. -/
theorem capture_exact_leap : ∃ t, ofDateTime ⟨2024, 2, 29, 23, 59, 59, 1999999999, -34200⟩ = .ok t ∧
    t.toDateTime? = some ⟨2024, 2, 29, 23, 59, 59, 999000000, -34200⟩ := by
  have hvalid : DateTime.Valid ⟨2024, 2, 29, 23, 59, 59, 1999999999, -34200⟩ := by decide
  obtain ⟨hcaptured, hdenotes, -⟩ := capture_exact .proleptic ⟨_, hvalid⟩
  have hyear : (0 : Int) ≤ 2024 ∧ (2024 : Int) ≤ 65535 := by decide
  have hoffset : (-34200 : Int) = 900 * -38 := by decide
  obtain ⟨t, ht⟩ := hcaptured.2 ⟨hyear, -38, by decide, hoffset⟩
  have hdenoted : t.toDateTimeBy .proleptic = _ := (hdenotes t ht).1
  have hnanos : 1999999999 % 1000000000 / 1000000 * 1000000 = 999000000 := by decide
  refine ⟨t, (ofDateTime_toDateTime ⟨_, hvalid⟩).trans ht, (congrArg (Option.map LocalTime.toDateTime) hdenoted).trans ?_⟩
  exact congrArg (fun n => some (DateTime.mk 2024 2 29 23 59 59 n (-34200))) hnanos

end Timestamp

end TypedDoc
