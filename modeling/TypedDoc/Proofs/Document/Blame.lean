/-
  TypedDoc.Proofs.Document.Blame — who is at fault when reading fails: the data, or the
  stream, and never the caller.

  Reading goes through checks that blame the caller when it is a caller who comes to them:
  a field of a timestamp may be out of range, a child may have no name, an id may be bound
  to nothing. On the way of the reader each of these either cannot fail or is put down to
  the bytes.
  - `Blameless d`: what `d` fails with blames the data, or is the failure that the stream
    ends with. It is `Closed`, so every reader has it.
  - `decoding_blames_data`: of a stream that ends properly, as one in memory does, nothing
    else is left, for values, for documents, and for objects that have an index.
-/

import TypedDoc.Proofs.Document.Taken
import TypedDoc.Proofs.Text.WellFormed
import TypedDoc.Proofs.Value.Objects

namespace TypedDoc

open Wire

/-- The bytes are at fault, and nobody else. -/
structure Error.OfData (e : Error) : Prop where
  data : e.isDataError = true
  category : e.category = .stream ∨ e.category = .corruption ∨ e.category = .registryMiss
  not_usage : e.isUsageError = false
  not_io : ∀ fault, e ≠ .io fault

theorem Error.ofData_of_isDataError {e : Error} (h : e.isDataError = true) : e.OfData := by
  refine ⟨h, ?_, ?_, ?_⟩
  · unfold isDataError at h
    split at h
    · rename_i hc; exact .inl hc
    · rename_i hc; exact .inr (.inl hc)
    · rename_i hc; exact .inr (.inr hc)
    · cases h
    · cases h
  · unfold isDataError at h
    unfold isUsageError
    cases hc : e.category <;> rw [hc] at h <;> first | rfl | cases h
  · rintro fault rfl
    cases h

/-! ## Decoders -/

namespace Wire

variable {α β : Type}

/-- A failure is the data's, or the one that the stream ends with; a success leaves the
    stream with the ending that it had. -/
def Blameless (d : Decoder α) : Prop := ∀ s : Supply,
  match d s with
  | .ok _ s' => s'.ending = s.ending
  | .error e _ => s.ending = some e ∨ e.isDataError = true

namespace Blameless

theorem pure (a : α) : Blameless (Pure.pure a : Decoder α) := fun _ => rfl

theorem throw (e : Error) (h : e.isDataError = true) : Blameless (MonadExcept.throw e : Decoder α) := fun _ => .inr h

theorem bind {d : Decoder α} {f : α → Decoder β} (hd : Blameless d) (hf : ∀ a, Blameless (f a)) : Blameless (d >>= f) := by
  intro s
  have h := hd s
  cases hs : d s with
  | error e s' =>
    rw [hs] at h
    rw [bind_eq_of_error f hs]
    exact h
  | ok a s' =>
    rw [hs] at h
    have hrest := hf a s'
    rw [h] at hrest
    rw [bind_eq_of_ok f hs]
    exact hrest

theorem exactly (n : Nat) : Blameless (exactly n) := by
  intro s
  have hending := (s.take_took n fun _ => n).ending
  unfold Wire.exactly
  by_cases hn : (s.take n fun _ => n).1.length = n
  · simp only [if_pos hn]
    exact hending
  · simp only [if_neg hn]
    cases s.ending with
    | none => exact .inr rfl
    | some e => exact .inl rfl

theorem upTo (n : Nat) : Blameless (upTo n) := by
  intro s
  have hending := (s.take_took n Buffer.askAfter).ending
  unfold Wire.upTo
  cases he : s.ending with
  | none => exact hending.trans he
  | some e =>
    by_cases hn : (s.take n Buffer.askAfter).1.length = n
    · simp only [if_pos hn]
      exact hending.trans he
    · simp only [if_neg hn]
      exact .inl trivial

end Blameless

theorem Blameless.settled {r : Except Error α} (h : BlamesData r) : Blameless (settled r) := by
  cases r with
  | ok a => exact .pure a
  | error e => exact .throw e (h e rfl)

theorem Blameless.stringBody (c : Charset) (n : Nat) : Blameless (stringBody c n) := by
  have hdecode : ∀ bs, BlamesData (c.decode bs) := by
    intro bs e h
    obtain ⟨flaw, rfl⟩ := Charset.mapError_eq_error h
    rfl
  refine (Blameless.upTo n).bind fun bs => ?_
  split
  · exact .settled (hdecode bs)
  · exact .throw _ rfl

theorem closed_blameless : Closed Blameless where
  pure := Blameless.pure
  throw := Blameless.throw
  bind := Blameless.bind
  exactly := Blameless.exactly
  stringBody := Blameless.stringBody

end Wire

/-! ## Values and documents -/

theorem Value.blameless_decode (reg : Registry) (c : Charset) (v : Value) : Blameless (v.decode reg c) := by
  have hpayload : Blameless (Payload.decode reg c v.kind) := fun s =>
    closed_blameless.takePayload reg c (s.size + 1) (maxDepth + 1) v.kind s
  exact hpayload.bind fun p => .pure { v with payload := p, modified := false }

theorem Document.blameless_readPlain (reg : Registry) : Blameless (readPlain reg) :=
  closed_readPlain closed_blameless fun c s => closed_blameless.takePayload reg c (s.size + 1) (maxDepth + 1) .object s

/-- Reading fails with what blames the data, if the stream ends properly. -/
theorem Wire.Blameless.ofData {α : Type} {d : Decoder α} (hd : Blameless d) {s s' : Supply} {e : Error}
    (hs : s.ending = none) (h : d s = .error e s') : e.OfData := by
  have hb := hd s
  rw [h, hs] at hb
  exact Error.ofData_of_isDataError (hb.resolve_left (Option.some_ne_none e).symm)

/-- Whatever comes of a stream that ends properly, a failure blames the data: for values,
    decoded anew or in place, for documents without an envelope, and for the entries of an
    object with an index, where adding a child cannot fail at all. -/
theorem Document.decoding_blames_data {s : Supply} (hs : s.ending = none) (reg : Registry) :
    (∀ (c : Charset) (v : Value) (e : Error) (s' : Supply), v.decode reg c s = .error e s' → e.OfData) ∧
    (∀ (c : Charset) (v : Value) (e : Error) (left : Value × Supply), Value.load reg c (v, s) = .error e left → e.OfData) ∧
    (∀ (e : Error) (s' : Supply), readPlain reg s = .error e s' → e.OfData) ∧
    ∀ (c : Charset) (budget levels : Nat),
      match Indexed.takeEntries reg c (takePayload reg c budget levels) budget .empty s with
      | .error e _ => e.OfData
      | .ok r _ => ∃ o, r = .ok o := by
  refine ⟨fun c v e s' h => (v.blameless_decode reg c).ofData hs h, fun c v e left h => ?_,
    fun e s' h => (blameless_readPlain reg).ofData hs h, fun c budget levels => ?_⟩
  · rw [Value.load_eq] at h
    split at h
    · cases h
    · rename_i hv
      cases h
      exact (v.blameless_decode reg c).ofData hs hv
  · have hplain : Blameless (takeEntries reg c (takePayload reg c budget levels) budget []) :=
      closed_blameless.takeEntries (closed_blameless.takePayload reg c budget levels) budget []
    have hagrees := Indexed.read_agrees reg c (takePayload reg c budget levels) budget s
    cases hes : takeEntries reg c (takePayload reg c budget levels) budget [] s with
    | error e s' =>
      rw [hes] at hagrees
      simp only at hagrees
      rw [hagrees]
      exact hplain.ofData hs hes
    | ok es s' =>
      rw [hes] at hagrees
      obtain ⟨o, ho, -⟩ := hagrees
      rw [ho]
      exact ⟨o, rfl⟩

set_option maxRecDepth 4000 in
/-- The thirteenth month in a timestamp of a document, which a setter would call a misuse. -/
theorem Document.decoding_blames_data_month :
    let bs : List UInt8 := [0x4D, 0x4F, 0x42, 0x46, Charset.utf8.toByte, 1, 0, 0, Kind.object.toByte, 0, 0, 0, 0,
      Kind.timestamp.toByte, 0, 0, 0, 1, 116, 64, 13, 0]
    (Supply.ofBytes bs).ending = none ∧
    ∃ s', readPlain .standard (.ofBytes bs) = .error (.malformedTimestamp (.outOfRange "month" 13)) s' ∧
      (Error.malformedTimestamp (.outOfRange "month" 13)).OfData ∧
      (Timestamp.empty.withMonth 13) = .error (.invalidTimestampField "month" 13) := by
  intro bs
  have hread : readPlain .standard (.ofBytes bs) = .error (.malformedTimestamp (.outOfRange "month" 13)) _ := rfl
  exact ⟨rfl, _, hread, (decoding_blames_data (s := .ofBytes bs) rfl .standard).2.2.1 _ _ hread, rfl⟩

end TypedDoc
