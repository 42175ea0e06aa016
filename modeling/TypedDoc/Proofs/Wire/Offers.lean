/-
  TypedDoc.Proofs.Wire.Offers — a sink takes what it takes, in however many pieces.

  A stream need not take all that it is offered at once. It takes some of it, never more
  than it has room for, and is offered the rest again, until nothing is left or it fails.
  - `offerAll_eq_put`: however much it takes each time, that is `put`.
  - `Layout.seen_limited`: of a layout, a sink with room for `n` bytes sees the first `n`,
    and it fails by itself exactly if there are more.
-/

import TypedDoc.Proofs.Wire.Layout

namespace TypedDoc.Wire

/-! ## Taking what fits -/

/-- Offers bytes once. While there is room one is taken, and `more` if they are there and fit;
    the result is how many. -/
def offer (more : Sink → Nat) (bs : List UInt8) : Encoder Nat := fun k =>
  match k.room with
  | none =>
    let n := min bs.length (more k + 1)
    .ok n { k with written := k.written ++ bs.take n }
  | some room =>
    if room = 0 ∧ bs ≠ [] then .error k.full k
    else
      let n := min (min bs.length room) (more k + 1)
      .ok n { k with written := k.written ++ bs.take n, room := some (room - n) }

/-- Offers what is left until nothing is. That nothing was taken of something is a failure. -/
def offerAll (more : Sink → Nat) : List UInt8 → Encoder Unit
  | [] => pure ()
  | b :: rest => fun k =>
    match offer more (b :: rest) k with
    | .error e k' => .error e k'
    | .ok 0 k' => .error (.ioOther "failed to write whole buffer") k'
    | .ok (n + 1) k' => offerAll more (rest.drop n) k'
  termination_by bs => bs.length
  decreasing_by
    rw [List.length_drop, List.length_cons]
    omega

section

variable {more : Sink → Nat} {bs : List UInt8} {k k' : Sink}

theorem offer_pos {n : Nat} (hbs : bs ≠ []) (h : offer more bs k = .ok n k') : 0 < n := by
  have hlen := List.length_pos_iff.2 hbs
  simp only [offer] at h
  split at h
  · cases h
    omega
  · split at h
    · cases h
    · rename_i room _ hfit
      have hroom : room ≠ 0 := fun hz => hfit ⟨hz, hbs⟩
      cases h
      omega

theorem put_of_offer {n : Nat} (h : offer more bs k = .ok n k') : put (bs.take n) k = .ok () k' := by
  obtain ⟨written, room, full, flushFault⟩ := k
  simp only [offer] at h
  cases room with
  | none =>
    cases h
    rfl
  | some room =>
    simp only at h
    split at h
    · cases h
    · cases h
      have hlen : (bs.take (min (min bs.length room) (more ⟨written, some room, full, flushFault⟩ + 1))).length =
          min (min bs.length room) (more ⟨written, some room, full, flushFault⟩ + 1) := by
        rw [List.length_take]
        omega
      rw [put, hlen, if_pos (by omega)]

theorem put_of_refused {e : Error} (h : offer more bs k = .error e k') : put bs k = .error e k' := by
  obtain ⟨written, room, full, flushFault⟩ := k
  simp only [offer] at h
  cases room with
  | none => cases h
  | some room =>
    simp only at h
    split at h
    · rename_i hroom
      obtain ⟨rfl, hbs⟩ := hroom
      cases h
      rw [put, if_neg (Nat.not_le.2 (List.length_pos_iff.2 hbs))]
      simp
    · cases h

theorem offerAll_of_offer {b : UInt8} {n : Nat} (h : offer more (b :: bs) k = .ok (n + 1) k') :
    offerAll more (b :: bs) k = offerAll more (bs.drop n) k' := by
  rw [offerAll]
  simp only [h]

theorem offerAll_of_refused {b : UInt8} {e : Error} (h : offer more (b :: bs) k = .error e k') :
    offerAll more (b :: bs) k = .error e k' := by
  rw [offerAll]
  simp only [h]

end

/-- Some at a time or all at once, the same bytes are taken. -/
theorem offerAll_eq_put (more : Sink → Nat) (bs : List UInt8) : offerAll more bs = put bs := by
  induction hl : bs.length using Nat.strong_induction_on generalizing bs with
  | _ len ih =>
    funext k
    cases bs with
    | nil =>
      rw [offerAll, put_nil]
      rfl
    | cons b rest =>
      cases ho : offer more (b :: rest) k with
      | error e k' => rw [offerAll_of_refused ho, put_of_refused ho]
      | ok n k' =>
        obtain ⟨n, rfl⟩ := Nat.exists_eq_succ_of_ne_zero (offer_pos (List.cons_ne_nil b rest) ho).ne'
        have hrest : (rest.drop n).length < len := by
          rw [← hl, List.length_drop, List.length_cons]
          omega
        have hcut : put (b :: rest) = (do put ((b :: rest).take (n + 1)); put (rest.drop n)) := by
          rw [← put_append]
          exact congrArg put (List.take_append_drop (n + 1) (b :: rest)).symm
        rw [offerAll_of_offer ho, ih _ hrest _ rfl, hcut]
        show _ = EStateM.bind (put _) (fun _ => put (rest.drop n)) k
        simp only [EStateM.bind, put_of_offer ho]

/-! ## What a sink sees -/

/-- The bytes in a sink, and what came of writing them. -/
def seen {α : Type} : EStateM.Result Error Sink α → List UInt8 × Except Error α
  | .ok a k => (k.written.toList, .ok a)
  | .error e k => (k.written.toList, .error e)

namespace Layout

/-- What comes of writing all of it. -/
def outcome (l : Layout) : Except Error Nat :=
  match l.flaw with
  | none => .ok l.bytes.length
  | some e => .error e

theorem seen_unlimited (l : Layout) : seen (l.write .unlimited) = (l.bytes, l.outcome) := by
  have h : l.write .unlimited = _ := l.write_holding []
  rw [h, outcome]
  cases l.flaw <;> rfl

theorem seen_limited (l : Layout) (written : Array UInt8) (room : Nat) (full : Error) (flushFault : Option Error) :
    seen (l.write ⟨written, some room, full, flushFault⟩) =
      (written.toList ++ l.bytes.take room, if l.bytes.length ≤ room then l.outcome else .error full) := by
  show seen (EStateM.bind (put l.bytes) _ _) = _
  simp only [EStateM.bind, put, outcome, ← Array.toList_appendList]
  by_cases h : l.bytes.length ≤ room
  · simp only [if_pos h, List.take_of_length_le h]
    cases l.flaw <;> rfl
  · simp only [if_neg h, seen]

end Layout

end TypedDoc.Wire
