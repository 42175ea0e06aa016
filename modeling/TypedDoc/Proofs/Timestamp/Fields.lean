/-
  TypedDoc.Proofs.Timestamp.Fields — the fields of a timestamp as numbers, where they come
  from, and that bytes and timestamps are the same thing.

  - `set_yields`: a setter takes what is in range and changes its own field alone; it
    refuses anything else by the name of the field.
  - `fields_run`: after any setters a field is what the last one of it took.
  - `wire_bijective`: timestamps that were obtained in any way have their fields in range,
    each that has a field has one byte string, and the reader takes those byte strings and
    no others.
-/

import Mathlib.Data.Option.Basic
import TypedDoc.Proofs.Timestamp.Wire
import TypedDoc.Proofs.Wire.Layout
import TypedDoc.Proofs.Wire.Supply
import TypedDoc.Timestamp.Instant

namespace TypedDoc.Timestamp

open Wire

/-! ## Fields as numbers -/

/-- What of a timestamp can be asked for; nothing keeps these numbers in range. -/
structure Fields where
  year : Option Nat
  month : Option Nat
  day : Option Nat
  hour : Option Nat
  minute : Option Nat
  second : Option Nat
  subSecond : Option (SubSecondUnit × Nat)
  offset : Option Int
  deriving DecidableEq, Repr

def fields (t : Timestamp) : Fields where
  year := t.year.map (·.toNat)
  month := t.month.map Within.toNat
  day := t.day.map Within.toNat
  hour := t.hour.map Within.toNat
  minute := t.minute.map Within.toNat
  second := t.second.map Within.toNat
  subSecond := t.subSecond.map fun s => (s.unit, s.magnitude.toNat)
  offset := t.offset.map (·.quarters)

structure Fields.InRange (f : Fields) : Prop where
  year : ∀ y ∈ f.year, y ≤ 65535
  month : ∀ m ∈ f.month, 1 ≤ m ∧ m ≤ 12
  day : ∀ d ∈ f.day, 1 ≤ d ∧ d ≤ 31
  hour : ∀ h ∈ f.hour, h ≤ 23
  minute : ∀ m ∈ f.minute, m ≤ 59
  second : ∀ s ∈ f.second, s ≤ 59
  subSecond : ∀ s ∈ f.subSecond, s.2 ≤ 1023
  offset : ∀ q ∈ f.offset, -63 ≤ q ∧ q ≤ 63

end TypedDoc.Timestamp

namespace TypedDoc

theorem Within.toNat_mem {lo hi : UInt8} (w : Within lo hi) : lo.toNat ≤ w.toNat ∧ w.toNat ≤ hi.toNat :=
  ⟨UInt8.le_iff_toNat_le.1 w.inRange.1, UInt8.le_iff_toNat_le.1 w.inRange.2⟩

theorem Within.toNat_inj {lo hi : UInt8} {w w' : Within lo hi} (h : w.toNat = w'.toNat) : w = w' := by
  obtain ⟨v, hv⟩ := w
  obtain ⟨v', hv'⟩ := w'
  obtain rfl : v = v' := UInt8.toNat_inj.1 h
  rfl

theorem SubSecond.ext_magnitude {s s' : SubSecond} (h : (s.unit, s.magnitude.toNat) = (s'.unit, s'.magnitude.toNat)) :
    s = s' := by
  obtain ⟨unit, m, hm⟩ := s
  obtain ⟨unit', m', hm'⟩ := s'
  obtain ⟨rfl, h⟩ := Prod.mk.inj h
  obtain rfl : m = m' := UInt16.toNat_inj.1 h
  rfl

end TypedDoc

namespace TypedDoc.Timestamp

open Wire

theorem fields_inj {t t' : Timestamp} (h : t.fields = t'.fields) : t = t' := by
  have hyear := Option.map_injective (fun _ _ => UInt16.toNat_inj.1) (congrArg Fields.year h)
  have hmonth := Option.map_injective (fun _ _ => Within.toNat_inj) (congrArg Fields.month h)
  have hday := Option.map_injective (fun _ _ => Within.toNat_inj) (congrArg Fields.day h)
  have hhour := Option.map_injective (fun _ _ => Within.toNat_inj) (congrArg Fields.hour h)
  have hminute := Option.map_injective (fun _ _ => Within.toNat_inj) (congrArg Fields.minute h)
  have hsecond := Option.map_injective (fun _ _ => Within.toNat_inj) (congrArg Fields.second h)
  have hsubSecond := Option.map_injective (fun _ _ => SubSecond.ext_magnitude) (congrArg Fields.subSecond h)
  have hoffset := Option.map_injective (fun _ _ => UtcOffset.ext_quarters) (congrArg Fields.offset h)
  cases t
  cases t'
  cases hyear
  cases hmonth
  cases hday
  cases hhour
  cases hminute
  cases hsecond
  cases hsubSecond
  cases hoffset
  rfl

theorem fields_inRange (t : Timestamp) : t.fields.InRange where
  year := Option.forall_mem_map.2 fun v _ => Nat.le_of_lt_succ v.toNat_lt
  month := Option.forall_mem_map.2 fun w _ => w.toNat_mem
  day := Option.forall_mem_map.2 fun w _ => w.toNat_mem
  hour := Option.forall_mem_map.2 fun w _ => w.toNat_mem.2
  minute := Option.forall_mem_map.2 fun w _ => w.toNat_mem.2
  second := Option.forall_mem_map.2 fun w _ => w.toNat_mem.2
  subSecond := Option.forall_mem_map.2 fun s _ => s.toNat_magnitude_le
  offset := Option.forall_mem_map.2 fun o _ => o.inRange

/-! ## Setters -/

/-- A setter and what it is given. -/
inductive Setting where
  | year (v : UInt16)
  | month (v : UInt8)
  | day (v : UInt8)
  | hour (v : UInt8)
  | minute (v : UInt8)
  | second (v : UInt8)
  | subSecond (unit : SubSecondUnit) (magnitude : UInt16)
  | quarters (q : Int)
  | seconds (s : Int)
  deriving DecidableEq, Repr

def set (t : Timestamp) : Setting → Except Error Timestamp
  | .year v => .ok (t.withYear v)
  | .month v => t.withMonth v
  | .day v => t.withDay v
  | .hour v => t.withHour v
  | .minute v => t.withMinute v
  | .second v => t.withSecond v
  | .subSecond unit magnitude => do return t.withSubSecond (← SubSecond.of unit magnitude)
  | .quarters q => do return t.withOffset (← UtcOffset.ofQuarters q)
  | .seconds s => do return t.withOffset (← UtcOffset.ofSeconds s)

/-- The timestamp after a setter, be it one that was refused. -/
def attempt (t : Timestamp) (s : Setting) : Timestamp :=
  match t.set s with
  | .ok t' => t'
  | .error _ => t

namespace Setting

def Fits : Setting → Prop
  | .year _ => True
  | .month v => 1 ≤ v.toNat ∧ v.toNat ≤ 12
  | .day v => 1 ≤ v.toNat ∧ v.toNat ≤ 31
  | .hour v => v.toNat ≤ 23
  | .minute v => v.toNat ≤ 59
  | .second v => v.toNat ≤ 59
  | .subSecond _ magnitude => magnitude.toNat ≤ 1023
  | .quarters q => -63 ≤ q ∧ q ≤ 63
  | .seconds s => 900 ∣ s ∧ -63 * 900 ≤ s ∧ s ≤ 63 * 900

instance (s : Setting) : Decidable s.Fits := by
  cases s <;> unfold Fits <;> infer_instance

/-- The refusal names the field and what it was given. -/
def refusal : Setting → Error
  | .year v => .invalidTimestampField "year" v.toNat
  | .month v => .invalidTimestampField "month" v.toNat
  | .day v => .invalidTimestampField "day" v.toNat
  | .hour v => .invalidTimestampField "hour" v.toNat
  | .minute v => .invalidTimestampField "minute" v.toNat
  | .second v => .invalidTimestampField "second" v.toNat
  | .subSecond _ magnitude => .invalidTimestampField "sub_second" magnitude.toNat
  | .quarters q => .invalidTimestampField "offset" q
  | .seconds s => .invalidTimestampField "offset" s

end Setting

def Fields.put (f : Fields) : Setting → Fields
  | .year v => { f with year := some v.toNat }
  | .month v => { f with month := some v.toNat }
  | .day v => { f with day := some v.toNat }
  | .hour v => { f with hour := some v.toNat }
  | .minute v => { f with minute := some v.toNat }
  | .second v => { f with second := some v.toNat }
  | .subSecond unit magnitude => { f with subSecond := some (unit, magnitude.toNat) }
  | .quarters q => { f with offset := some q }
  | .seconds s => { f with offset := some (s / 900) }

/-- A timestamp with these fields where `fits` holds, and this error where it does not. -/
def Yields (r : Except Error Timestamp) (fits : Prop) (f : Fields) (e : Error) : Prop :=
  (fits ∧ ∃ t, r = .ok t ∧ t.fields = f) ∨ (¬fits ∧ r = .error e)

theorem yields_checkRange {name : String} {lo hi v : UInt8} {fits : Prop} {put : Within lo hi → Timestamp}
    (f : Nat → Fields) (hfits : fits ↔ lo.toNat ≤ v.toNat ∧ v.toNat ≤ hi.toNat)
    (hput : ∀ w, (put w).fields = f w.toNat) :
    Yields (checkRange name lo hi v >>= fun w => pure (put w)) fits (f v.toNat)
      (.invalidTimestampField name v.toNat) := by
  rw [← UInt8.le_iff_toNat_le, ← UInt8.le_iff_toNat_le] at hfits
  by_cases h : lo ≤ v ∧ v ≤ hi
  · refine .inl ⟨hfits.2 h, put ⟨v, h⟩, ?_, hput _⟩
    rw [checkRange, dif_pos h]
    rfl
  · refine .inr ⟨fun hf => h (hfits.1 hf), ?_⟩
    rw [checkRange, dif_neg h]
    rfl

theorem set_yields (t : Timestamp) (s : Setting) : Yields (t.set s) s.Fits (t.fields.put s) s.refusal := by
  have hzero {n : Nat} {p : Prop} : p ↔ 0 ≤ n ∧ p := (and_iff_right (Nat.zero_le n)).symm
  cases s with
  | year v => exact .inl ⟨trivial, t.withYear v, rfl, rfl⟩
  | month v => exact yields_checkRange (fun n => { t.fields with month := some n }) Iff.rfl fun _ => rfl
  | day v => exact yields_checkRange (fun n => { t.fields with day := some n }) Iff.rfl fun _ => rfl
  | hour v => exact yields_checkRange (fun n => { t.fields with hour := some n }) hzero fun _ => rfl
  | minute v => exact yields_checkRange (fun n => { t.fields with minute := some n }) hzero fun _ => rfl
  | second v => exact yields_checkRange (fun n => { t.fields with second := some n }) hzero fun _ => rfl
  | subSecond unit m =>
    simp only [set, SubSecond.of]
    by_cases h : m ≤ SubSecond.maxMagnitude
    · rw [dif_pos h]
      exact .inl ⟨UInt16.le_iff_toNat_le.1 h, _, rfl, rfl⟩
    · rw [dif_neg h]
      exact .inr ⟨fun hf => h (UInt16.le_iff_toNat_le.2 hf), rfl⟩
  | quarters q =>
    simp only [set, UtcOffset.ofQuarters]
    by_cases h : -UtcOffset.maxQuarters ≤ q ∧ q ≤ UtcOffset.maxQuarters
    · rw [dif_pos h]
      exact .inl ⟨h, _, rfl, rfl⟩
    · rw [dif_neg h]
      exact .inr ⟨h, rfl⟩
  | seconds s =>
    simp only [set, UtcOffset.ofSeconds]
    by_cases h : s % UtcOffset.secondsPerQuarter = 0 ∧ -UtcOffset.maxQuarters ≤ s / UtcOffset.secondsPerQuarter ∧
        s / UtcOffset.secondsPerQuarter ≤ UtcOffset.maxQuarters
    · rw [dif_pos h]
      refine .inl ⟨?_, _, rfl, rfl⟩
      simp only [UtcOffset.secondsPerQuarter, UtcOffset.maxQuarters] at h
      simp only [Setting.Fits]
      omega
    · rw [dif_neg h]
      refine .inr ⟨fun hf => h ?_, rfl⟩
      simp only [Setting.Fits] at hf
      simp only [UtcOffset.secondsPerQuarter, UtcOffset.maxQuarters]
      omega

theorem fields_attempt (t : Timestamp) (s : Setting) :
    (t.attempt s).fields = if s.Fits then t.fields.put s else t.fields := by
  rcases t.set_yields s with ⟨hfits, t', hs, hf⟩ | ⟨hfits, hs⟩
  · rw [if_pos hfits, attempt, hs]
    exact hf
  · rw [if_neg hfits, attempt, hs]

theorem fields_run (t : Timestamp) (ss : List Setting) :
    (ss.foldl attempt t).fields = (ss.filter fun s => s.Fits).foldl Fields.put t.fields := by
  induction ss generalizing t with
  | nil => rfl
  | cons s ss ih =>
    rw [List.foldl_cons, ih, fields_attempt, List.filter_cons]
    by_cases h : s.Fits
    · simp only [h, if_true, decide_true, List.foldl_cons]
    · simp only [h, if_false, decide_false, Bool.false_eq_true]

/-! ## Bytes -/

/-- Every way there is to come by a timestamp. -/
inductive Obtained : Timestamp → Prop
  | empty : Obtained .empty
  | attempt {t : Timestamp} (s : Setting) : Obtained t → Obtained (t.attempt s)
  | captured {d : LocalTime} {t : Timestamp} : capture d = .ok t → Obtained t
  | read {s s' : Supply} {t : Timestamp} : Timestamp.read s = .ok t s' → Obtained t

/-- The reader takes all of the bytes, for this timestamp. -/
def Denotes (bs : List UInt8) (t : Timestamp) : Prop := ∃ s', read (.ofBytes bs) = .ok t s' ∧ s'.bytes = []

theorem write_unlimited {t : Timestamp} (h : t.isEmpty = false) :
    t.write .unlimited = .ok t.wire.length (.holding t.wire) := by
  rw [write, h]
  exact (Layout.full t.wire).write_holding []

theorem wire_of_write {t : Timestamp} {n : Nat} {bs : List UInt8} (h : t.write .unlimited = .ok n (.holding bs)) :
    t.isEmpty = false ∧ t.wire = bs := by
  cases ht : t.isEmpty with
  | true => rw [write, ht] at h; cases h
  | false =>
    rw [write_unlimited ht] at h
    cases h
    exact ⟨rfl, rfl⟩

theorem denotes_iff {t : Timestamp} {bs : List UInt8} : Denotes bs t ↔ t.isEmpty = false ∧ t.wire = bs := by
  constructor
  · rintro ⟨s', hs, hrest⟩
    obtain ⟨ht, took⟩ := read_ok hs
    obtain ⟨-, hbytes⟩ := took.whole rfl
    rw [hrest, List.append_nil, Supply.bytes_ofBytes] at hbytes
    exact ⟨ht, hbytes.symm⟩
  · rintro ⟨ht, rfl⟩
    obtain ⟨s', hs, hflat, hparting, -⟩ := takes_read ht (.ofBytes t.wire) [] (by simp [Supply.flatten_ofBytes])
    exact ⟨s', hs, by rw [Supply.bytes, hflat, hparting]; rfl⟩

/-- A timestamp that was obtained has its fields in range, and they are what the setters
    took. Written, it is read again from these bytes, whatever comes behind them; whatever
    is read was written as the bytes that were taken for it. So a byte string is read as a
    timestamp exactly if the timestamp is written as it, which is one byte string at most. -/
theorem wire_bijective (t : Timestamp) :
    (Obtained t → t.fields.InRange) ∧
    (∀ ss : List Setting, (ss.foldl attempt t).fields = (ss.filter fun s => s.Fits).foldl Fields.put t.fields) ∧
    (t.isEmpty = false → ∃ bs, t.write .unlimited = .ok bs.length (.holding bs) ∧
      ∀ (s : Supply) (rest : List UInt8), s.pieces.flatten = bs ++ rest →
        ∃ s', read s = .ok t s' ∧ s'.pieces.flatten = rest ∧ s'.parting = s.parting ∧ s'.ending = s.ending) ∧
    (∀ s s' : Supply, s.parting = [] → read s = .ok t s' →
      t.isEmpty = false ∧ ∃ bs, s.bytes = bs ++ s'.bytes ∧ t.write .unlimited = .ok bs.length (.holding bs)) ∧
    (∀ bs, Denotes bs t ↔ t.write .unlimited = .ok bs.length (.holding bs)) ∧
    ∀ bs bs', Denotes bs t → Denotes bs' t → bs = bs' := by
  refine ⟨fun _ => t.fields_inRange, t.fields_run, fun ht => ⟨t.wire, write_unlimited ht, takes_read ht⟩, ?_, ?_, ?_⟩
  · intro s s' hp hs
    obtain ⟨ht, took⟩ := read_ok hs
    exact ⟨ht, t.wire, (took.whole hp).2, write_unlimited ht⟩
  · intro bs
    rw [denotes_iff]
    constructor
    · rintro ⟨ht, rfl⟩
      exact write_unlimited ht
    · exact wire_of_write
  · intro bs bs' h h'
    exact (denotes_iff.1 h).2.symm.trans (denotes_iff.1 h').2

end TypedDoc.Timestamp
