/-
  TypedDoc.Proofs.Wire.Items — primitives of any kinds, one after another.

  One writer is called for each item in turn, and a call that is refused does not keep the
  next from being made. One reader is called for the kinds alone.

  - `Item.put_holding`: a call that is refused adds no byte; any other adds the form of its
    item and returns how many bytes that is.
  - `writeAll_holding`: so a run leaves the forms of the accepted items, and nothing between.
  - `Item.takes_form`: a form is taken byte for byte, whatever comes behind.
  - `readAll_forms`: so the items are found again, each where the one before it ended.

  `writeAll_readAll` is all of it for one writer and one reader.
-/

import TypedDoc.Proofs.Value.Lookups
import TypedDoc.Proofs.Value.Reading
import TypedDoc.Proofs.Value.Violations

namespace TypedDoc.Wire

/-- The calls of the reader. A string is asked for in some charset. -/
inductive Primitive where
  | count
  | typeId
  | string (c : Charset)
  | boolean
  | byte
  | short
  | int
  | long
  | float
  | double
  | timestamp
  deriving DecidableEq, Repr

/-- The calls of the writer. -/
inductive Item where
  | count (n : Nat)
  | typeId (id : UInt8)
  | string (c : Charset) (s : String)
  | boolean (v : Bool)
  | byte (v : Int8)
  | short (v : Int16)
  | int (v : Int32)
  | long (v : Int64)
  | float (v : Single)
  | double (v : Double)
  | timestamp (v : Timestamp)
  deriving DecidableEq, Repr

def Primitive.take : Primitive → Decoder Item
  | .count => .count <$> takeCount
  | .typeId => .typeId <$> takeByte
  | .string c => .string c <$> takeString c
  | .boolean => .boolean <$> takeBoolean
  | .byte => .byte <$> takeInt8
  | .short => .short <$> takeInt16
  | .int => .int <$> takeInt32
  | .long => .long <$> takeInt64
  | .float => .float <$> takeSingle
  | .double => .double <$> takeDouble
  | .timestamp => .timestamp <$> Timestamp.read

namespace Item

/-- The call that reads the item back. -/
def primitive : Item → Primitive
  | .count _ => .count
  | .typeId _ => .typeId
  | .string c _ => .string c
  | .boolean _ => .boolean
  | .byte _ => .byte
  | .short _ => .short
  | .int _ => .int
  | .long _ => .long
  | .float _ => .float
  | .double _ => .double
  | .timestamp _ => .timestamp

-- The charset shows in strings only; the other scalars are written alike in both.
def put : Item → Encoder Nat
  | .count n => putCount n
  | .typeId id => putBytes [id]
  | .string c s => putString c s
  | .boolean v => (Scalar.boolean v).write .utf8
  | .byte v => (Scalar.byte v).write .utf8
  | .short v => (Scalar.short v).write .utf8
  | .int v => (Scalar.int v).write .utf8
  | .long v => (Scalar.long v).write .utf8
  | .float v => (Scalar.float v).write .utf8
  | .double v => (Scalar.double v).write .utf8
  | .timestamp v => v.write

/-- Why the writer refuses the item, if it does. -/
def refusal : Item → Option Error
  | .count n => if n < countLimit then none else some (.lengthOverflow n)
  | .string c s => if (c.encode s).length < countLimit then none else some (.lengthOverflow (c.encode s).length)
  | .timestamp v => if v = .empty then some (.malformedTimestamp .nothingToEncode) else none
  | _ => none

def layout : Item → Layout
  | .count n => countLayout n
  | .typeId id => .full [id]
  | .string c s => stringLayout c s
  | .boolean v => (Scalar.boolean v).layout .utf8
  | .byte v => (Scalar.byte v).layout .utf8
  | .short v => (Scalar.short v).layout .utf8
  | .int v => (Scalar.int v).layout .utf8
  | .long v => (Scalar.long v).layout .utf8
  | .float v => (Scalar.float v).layout .utf8
  | .double v => (Scalar.double v).layout .utf8
  | .timestamp v => (Scalar.timestamp v).layout .utf8

/-- The bytes of the item. -/
def form (i : Item) : List UInt8 := i.layout.bytes

/-- What the call for the item returns. -/
def outcome (i : Item) : Except Error Nat :=
  match i.refusal with
  | none => .ok i.form.length
  | some e => .error e

end Item

/-- The calls for the items, each made whatever became of those before: what they return, and the sink after all. -/
def writeAll : List Item → Sink → List (Except Error Nat) × Sink
  | [], k => ([], k)
  | i :: rest, k =>
    match i.put k with
    | .ok n k' => (.ok n :: (writeAll rest k').1, (writeAll rest k').2)
    | .error e k' => (.error e :: (writeAll rest k').1, (writeAll rest k').2)

/-- The calls for these kinds, in a stream that had `total` bytes: each item, and the position after it. -/
def readAll (total : Nat) : List Primitive → Decoder (List (Item × Nat))
  | [] => pure []
  | p :: rest => do
    let i ← p.take
    let left := (← get).size
    let more ← readAll total rest
    return (i, total - left) :: more

/-- The items that the writer does not refuse. -/
def accepted (items : List Item) : List Item := items.filter (·.refusal.isNone)

/-! ## One item -/

namespace Item

theorem put_eq (i : Item) : i.put = i.layout.write := by
  cases i with
  | count n => exact putCount_eq n
  | typeId id => rfl
  | string c s => exact putString_eq c s
  | timestamp v => exact Scalar.write_eq .utf8 (.timestamp v)
  | _ => rfl

theorem layout_flaw (i : Item) : i.layout.flaw = i.refusal := by
  cases i with
  | count n =>
    simp only [layout, refusal, countLayout]
    split <;> rfl
  | string c s =>
    simp only [layout, refusal, stringLayout, Layout.andThen_flaw_eq, countLayout]
    split <;> rfl
  | timestamp v =>
    simp only [layout, refusal, Scalar.layout, Timestamp.isEmpty_iff]
    split <;> rfl
  | _ => rfl

/-- A refusal comes before the first byte. -/
theorem form_of_refused {i : Item} {e : Error} (h : i.refusal = some e) : i.form = [] := by
  cases i with
  | count n =>
    have hn : ¬n < countLimit := fun hn => by simp [refusal, hn] at h
    simp only [form, layout, countLayout, if_neg hn, Layout.stop]
  | string c s =>
    have hn : ¬(c.encode s).length < countLimit := fun hn => by simp [refusal, hn] at h
    simp only [form, layout, stringLayout, countLayout, if_neg hn, Layout.stop, Layout.andThen]
  | timestamp v =>
    have hv : v = .empty := by
      by_contra hv
      simp [refusal, hv] at h
    simp only [form, layout, Scalar.layout, Timestamp.isEmpty_iff, if_pos hv, Layout.stop]
  | _ => cases h

theorem put_holding (i : Item) (bs : List UInt8) : i.put (.holding bs) =
    match i.refusal with
    | none => .ok i.form.length (.holding (bs ++ i.form))
    | some e => .error e (.holding bs) := by
  rw [put_eq, Layout.write_holding, layout_flaw]
  cases h : i.refusal with
  | none => rfl
  | some e =>
    have hform := form_of_refused h
    rw [form] at hform
    simp only [hform, List.append_nil]

theorem takes_form {i : Item} (h : i.refusal = none) : Takes i.primitive.take i.form i := by
  cases i with
  | count n =>
    have hn : n < countLimit := by simpa [refusal] using h
    exact ((codes_takeCount.takes n hn).map Item.count).of_eq (countLayout_bytes hn).symm rfl
  | typeId id => exact (codes_takeByte.takes id trivial).map Item.typeId
  | string c s =>
    have hs : Counted c s := by simpa [refusal, Counted] using h
    exact (((codes_takeString c).takes s hs).map (Item.string c)).of_eq (stringLayout_bytes hs).symm rfl
  | boolean v =>
    have hv : ((if v then (1 : UInt8) else 0) != 0) = v := by cases v <;> rfl
    exact ((takes_takeBoolean _).map Item.boolean).of_eq rfl (congrArg Item.boolean hv)
  | byte v => exact (codes_takeInt8.takes v trivial).map Item.byte
  | short v => exact (codes_takeInt16.takes v trivial).map Item.short
  | int v => exact (codes_takeInt32.takes v trivial).map Item.int
  | long v => exact (codes_takeInt64.takes v trivial).map Item.long
  | float v => exact (codes_takeSingle.takes v trivial).map Item.float
  | double v => exact (codes_takeDouble.takes v trivial).map Item.double
  | timestamp v =>
    have hv : ¬v = .empty := fun hv => by simp [refusal, hv] at h
    have he : v.isEmpty = false := Bool.eq_false_iff.2 (mt Timestamp.isEmpty_iff.1 hv)
    refine ((Timestamp.codes_read.takes v he).map Item.timestamp).of_eq ?_ rfl
    simp only [form, layout, Scalar.layout, he, Bool.false_eq_true, if_false, Layout.full]

end Item

/-! ## A run -/

theorem refusal_of_accepted {items : List Item} {i : Item} (h : i ∈ accepted items) : i.refusal = none :=
  Option.isNone_iff_eq_none.1 (List.mem_filter.1 h).2

theorem writeAll_holding (items : List Item) (bs : List UInt8) : writeAll items (.holding bs) =
    (items.map Item.outcome, .holding (bs ++ (accepted items).flatMap Item.form)) := by
  induction items generalizing bs with
  | nil => simp [writeAll, accepted]
  | cons i rest ih =>
    rw [writeAll, i.put_holding]
    cases h : i.refusal with
    | none => simp [ih, accepted, Item.outcome, h]
    | some e => simp [ih, accepted, Item.outcome, h]

/-- The lengths that the calls return are those of the forms. -/
theorem lengths_outcome (items : List Item) :
    (items.map Item.outcome).filterMap Except.toOption = (accepted items).map (·.form.length) := by
  induction items with
  | nil => rfl
  | cons i rest ih =>
    cases h : i.refusal with
    | none => simpa [accepted, Item.outcome, Except.toOption, h] using ih
    | some e => simpa [accepted, Item.outcome, Except.toOption, List.filterMap_cons, h] using ih

/-- From the position `start` on, items that are not refused are read one after another. -/
theorem readAll_forms {items : List Item} (hall : ∀ i ∈ items, i.refusal = none) {s : Supply} {rest : List UInt8}
    {start total : Nat} (hs : s.pieces.flatten = items.flatMap Item.form ++ rest) (htotal : start + s.size = total) :
    ∃ reads s', readAll total (items.map Item.primitive) s = .ok reads s' ∧
      (∀ j, reads[j]? = items[j]?.map fun i => (i, start + ((items.map (·.form.length)).take (j + 1)).sum)) ∧
      s'.pieces.flatten = rest ∧ s'.parting = s.parting ∧ s'.ending = s.ending := by
  induction items generalizing s start with
  | nil => exact ⟨[], s, rfl, fun j => by simp, by simpa using hs, rfl, rfl⟩
  | cons i more ih =>
    obtain ⟨hi, hmore⟩ := List.forall_mem_cons.1 hall
    rw [List.flatMap_cons, List.append_assoc] at hs
    obtain ⟨s₁, hread, hs₁, hparting₁, hending₁⟩ := Item.takes_form hi s _ hs
    -- What the stream may part with behind its pieces counts in both sizes.
    have hsize : i.form.length + s₁.size = s.size := by
      simp only [Supply.size, Supply.bytes, hs, hs₁, hparting₁, List.length_append]
      omega
    obtain ⟨reads, s', hreads, hat, hs', hparting, hending⟩ := ih hmore hs₁ (show start + i.form.length + s₁.size = total by omega)
    refine ⟨(i, total - s₁.size) :: reads, s', ?_, fun j => ?_, hs', hparting.trans hparting₁, hending.trans hending₁⟩
    · rw [List.map_cons, readAll, bind_eq_of_ok _ hread]
      show EStateM.bind (readAll total (more.map Item.primitive)) _ s₁ = _
      simp only [EStateM.bind, hreads]
      rfl
    · cases j with
      | zero =>
        have hpos : total - s₁.size = start + i.form.length := by omega
        simp [hpos]
      | succ j => simp [hat j, Nat.add_assoc]

/-- Items that one writer is called for, one after another. Each call adds the form of its item and returns how long that
    is, or is refused and adds nothing. Of all that was written, cut into pieces in any way and with anything behind, the
    matching calls of one reader give the accepted items and nothing else, each ending at the sum of the lengths returned
    for it and for those before it; the reader stops where the output ends. -/
theorem writeAll_readAll (items : List Item) :
    (∀ (i : Item) (bs : List UInt8), i.put (.holding bs) = match i.refusal with
      | none => .ok i.form.length (.holding (bs ++ i.form))
      | some e => .error e (.holding bs)) ∧
    writeAll items .unlimited = (items.map Item.outcome, .holding ((accepted items).flatMap Item.form)) ∧
    ∀ (s : Supply) (rest : List UInt8), s.pieces.flatten = (writeAll items .unlimited).2.written.toList ++ rest →
      ∃ reads s', readAll s.size ((accepted items).map Item.primitive) s = .ok reads s' ∧
        (∀ j, reads[j]? = (accepted items)[j]?.map fun i =>
          (i, (((writeAll items .unlimited).1.filterMap Except.toOption).take (j + 1)).sum)) ∧
        s'.pieces.flatten = rest ∧ s'.parting = s.parting ∧ s'.ending = s.ending := by
  have hrun : writeAll items .unlimited = (items.map Item.outcome, .holding ((accepted items).flatMap Item.form)) :=
    writeAll_holding items []
  refine ⟨Item.put_holding, hrun, fun s rest hs => ?_⟩
  rw [hrun] at hs ⊢
  have hforms : s.pieces.flatten = (accepted items).flatMap Item.form ++ rest := by simpa [Sink.holding] using hs
  obtain ⟨reads, s', hreads, hat, hend⟩ :=
    readAll_forms (fun _ => refusal_of_accepted) hforms (Nat.zero_add s.size)
  refine ⟨reads, s', hreads, fun j => ?_, hend⟩
  rw [hat, lengths_outcome, Nat.zero_add]

/-- With refusals in between and a byte behind, in pieces that split a string. -/
theorem writeAll_readAll_mixed :
    let items : List Item := [.count 4294967296, .string .utf16 "é", .timestamp .empty, .boolean true, .short (-2),
      .float ⟨0x7F800001⟩, .count 7]
    let s : Supply := ⟨[[0, 0, 0, 2, 0], [0xE9, 1, 0xFF, 0xFE, 0x7F], [0x80, 0, 1, 0, 0, 0, 7, 9]], [], none⟩
    s.pieces.flatten = (writeAll items .unlimited).2.written.toList ++ [9] ∧
    (writeAll items .unlimited).1 = [.error (.lengthOverflow 4294967296), .ok 6,
      .error (.malformedTimestamp .nothingToEncode), .ok 1, .ok 2, .ok 4, .ok 4] ∧
    ∃ reads s', readAll s.size [.string .utf16, .boolean, .short, .float, .count] s = .ok reads s' ∧
      reads = [(.string .utf16 "é", 6), (.boolean true, 7), (.short (-2), 9), (.float ⟨0x7F800001⟩, 13), (.count 7, 17)] ∧
      s'.pieces.flatten = [9] := by
  intro items s
  have hs : s.pieces.flatten = (writeAll items .unlimited).2.written.toList ++ [9] := by decide
  have hresults : (writeAll items .unlimited).1 = [.error (.lengthOverflow 4294967296), .ok 6,
      .error (.malformedTimestamp .nothingToEncode), .ok 1, .ok 2, .ok 4, .ok 4] := by rfl
  obtain ⟨-, -, hread⟩ := writeAll_readAll items
  obtain ⟨reads, s', hreads, hat, hrest, -, -⟩ := hread s [9] hs
  refine ⟨hs, hresults, reads, s', hreads, List.ext_getElem? fun j => ?_, hrest⟩
  rw [hat, hresults]
  match j with
  | 0 | 1 | 2 | 3 | 4 => rfl
  | j + 5 => rfl

end TypedDoc.Wire
