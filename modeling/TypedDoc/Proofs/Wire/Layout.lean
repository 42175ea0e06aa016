/-
  TypedDoc.Proofs.Wire.Layout — what a writer has to say, apart from how much of it the
  sink takes: some bytes, and the error it stops with after them, if it does.

  Every writer here is `Layout.write` of its layout, whatever the sink. Writing one layout
  after another is writing both at once (`bind_write`), so that the layouts of the parts
  make up that of the whole.
-/

import TypedDoc.Proofs.Wire.Codec

namespace TypedDoc.Wire

structure Layout where
  bytes : List UInt8
  flaw : Option Error

namespace Layout

def full (bs : List UInt8) : Layout := ⟨bs, none⟩

def stop (e : Error) : Layout := ⟨[], some e⟩

/-- One layout and then another, unless the first stops. -/
def andThen (a b : Layout) : Layout :=
  match a.flaw with
  | none => ⟨a.bytes ++ b.bytes, b.flaw⟩
  | some _ => a

def write (l : Layout) : Encoder Nat := do
  put l.bytes
  match l.flaw with
  | none => return l.bytes.length
  | some e => throw e

end Layout

/-! ## Putting bytes -/

theorem put_nil (k : Sink) : put [] k = .ok () k := by
  obtain ⟨written, room, full, flushFault⟩ := k
  cases room with
  | none => simp [put]
  | some room => simp [put]

/-- What does not fit is lost in the same place, however the bytes are cut. -/
theorem put_append (a b : List UInt8) : put (a ++ b) = (do put a; put b) := by
  funext k
  show put (a ++ b) k = EStateM.bind (put a) (fun _ => put b) k
  obtain ⟨written, room, full, flushFault⟩ := k
  have happ (bs : List UInt8) : written ++ (a ++ bs) = written ++ a ++ bs := Array.ext' (by simp)
  cases room with
  | none => simp only [put, EStateM.bind, happ]
  | some room =>
    simp only [put, EStateM.bind, List.length_append]
    by_cases ha : a.length ≤ room
    · rw [if_pos ha]
      by_cases hb : b.length ≤ room - a.length
      · have hab : a.length + b.length ≤ room := by omega
        simp only [if_pos hb, if_pos hab, happ, Nat.sub_add_eq]
      · have hab : ¬a.length + b.length ≤ room := by omega
        simp only [if_neg hb, if_neg hab, happ, List.take_append, List.take_of_length_le ha]
    · have hab : ¬a.length + b.length ≤ room := by omega
      have hz : room - a.length = 0 := by omega
      simp only [if_neg ha, if_neg hab, List.take_append, hz, List.take_zero, List.append_nil]

theorem put_ok {bs : List UInt8} {k k' : Sink} (h : put bs k = .ok () k') : k'.written.toList = k.written.toList ++ bs := by
  unfold put at h
  split at h
  · cases h; exact Array.toList_appendList
  · split at h
    · cases h; exact Array.toList_appendList
    · cases h

theorem flush_ok {k k' : Sink} (h : flush k = .ok () k') : k' = k := by
  unfold flush at h
  split at h
  · cases h; rfl
  · cases h

/-- A sink without limits that took these bytes. -/
def Sink.holding (bs : List UInt8) : Sink := { Sink.unlimited with written := bs.toArray }

theorem put_holding (bs bs' : List UInt8) : put bs' (.holding bs) = .ok () (.holding (bs ++ bs')) := by
  simp [put, Sink.holding, Sink.unlimited]

namespace Layout

theorem write_full (bs : List UInt8) : (full bs).write = putBytes bs := rfl

theorem write_stop (e : Error) : (stop e).write = throw e := by
  funext k
  show EStateM.bind (put []) (fun _ => throw e) k = _
  simp only [EStateM.bind, put_nil]

/-- Two layouts written in turn, with their lengths added up. -/
theorem bind_write (a b : Layout) : (do let n ← a.write; let m ← b.write; return n + m) = (a.andThen b).write := by
  obtain ⟨bs, flaw⟩ := a
  cases flaw with
  | some e =>
    funext k
    simp only [write, andThen, bind_assoc]
    rfl
  | none =>
    simp only [write, andThen, bind_assoc, pure_bind, put_append]
    cases b.flaw with
    | none => simp only [pure_bind, List.length_append]
    | some e => rfl

/-! ## Success -/

theorem write_holding (l : Layout) (bs : List UInt8) : l.write (.holding bs) =
    match l.flaw with
    | none => .ok l.bytes.length (.holding (bs ++ l.bytes))
    | some e => .error e (.holding (bs ++ l.bytes)) := by
  obtain ⟨bs', flaw⟩ := l
  cases flaw with
  | none =>
    show EStateM.bind (put bs') (fun _ => pure bs'.length) (.holding bs) = _
    simp only [EStateM.bind, put_holding]
    rfl
  | some e =>
    show EStateM.bind (put bs') (fun _ => throw e) (.holding bs) = _
    simp only [EStateM.bind, put_holding]
    rfl

theorem andThen_flaw_eq (a b : Layout) : (a.andThen b).flaw = a.flaw.or b.flaw := by
  obtain ⟨bs, flaw⟩ := a
  cases flaw <;> rfl

theorem andThen_flaw {a b : Layout} : (a.andThen b).flaw = none ↔ a.flaw = none ∧ b.flaw = none := by
  obtain ⟨bs, flaw⟩ := a
  cases flaw <;> simp [andThen]

theorem andThen_bytes {a b : Layout} (h : a.flaw = none) : (a.andThen b).bytes = a.bytes ++ b.bytes := by
  simp only [andThen, h]

end Layout

/-! ## Counts and strings -/

def countLayout (n : Nat) : Layout :=
  if n < countLimit then .full (BigEndian.toBytes 4 n) else .stop (.lengthOverflow n)

def stringLayout (c : Charset) (s : String) : Layout := (countLayout (c.encode s).length).andThen (.full (c.encode s))

theorem putCount_eq (n : Nat) : putCount n = (countLayout n).write := by
  simp only [putCount, countLayout]
  split
  · rfl
  · exact (Layout.write_stop _).symm

theorem putString_eq (c : Charset) (s : String) : putString c s = (stringLayout c s).write := by
  rw [stringLayout, ← Layout.bind_write, Layout.write_full, ← putCount_eq]
  rfl

theorem countLayout_flaw {n : Nat} : (countLayout n).flaw = none ↔ n < countLimit := by
  rw [countLayout]
  split
  · simp [Layout.full, *]
  · simp [Layout.stop, *]

theorem countLayout_bytes {n : Nat} (h : n < countLimit) : (countLayout n).bytes = BigEndian.toBytes 4 n := by
  rw [countLayout, if_pos h]
  rfl

theorem stringLayout_flaw {c : Charset} {s : String} : (stringLayout c s).flaw = none ↔ Counted c s := by
  rw [stringLayout, Layout.andThen_flaw, countLayout_flaw]
  exact and_iff_left rfl

theorem stringLayout_bytes {c : Charset} {s : String} (h : Counted c s) : (stringLayout c s).bytes = stringBytes c s := by
  rw [stringLayout, Layout.andThen_bytes (countLayout_flaw.2 h), countLayout_bytes h]
  rfl

end TypedDoc.Wire
