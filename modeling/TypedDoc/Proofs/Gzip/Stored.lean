/-
  TypedDoc.Proofs.Gzip.Stored — stored blocks are inflated to what was put in them.

  A number that begins on a byte boundary is read byte by byte, low byte first
  (`number_byte`, `number_two`); a block is read up to its end, and after the last one the
  bytes behind are still there (`inflate_storedBlocks`).
-/

import Mathlib
import TypedDoc.Gzip.Member

namespace TypedDoc.Gzip

/-! ## Numbers -/

/-- Bits from a byte boundary on. -/
def Bits.aligned (rest : List UInt8) (passed : Nat) : Bits := { ofBytes rest with passed }

/-- The bits after the first `taken` of a byte, up to all eight. -/
def Bits.inByte (x : UInt8) (rest : List UInt8) (taken passed : Nat) : Bits :=
  if taken = 8 then .aligned rest (passed + 1) else ⟨x :: rest, taken, passed, fun _ => List.cons_ne_nil x rest⟩

theorem nextBit_inByte {x : UInt8} (rest : List UInt8) {taken : Nat} (passed : Nat) (out : Array Known) (h : taken < 8) :
    nextBit ⟨.inByte x rest taken passed, out⟩ = .ok (x.toNat.testBit taken) ⟨.inByte x rest (taken + 1) passed, out⟩ := by
  have hnext : (Bits.inByte x rest taken passed).next? = some (x.toNat.testBit taken, .inByte x rest (taken + 1) passed) := by
    unfold Bits.inByte
    rw [if_neg (Nat.ne_of_lt h)]
    unfold Bits.next?
    by_cases ht : taken = 7
    · subst ht; rfl
    · simp only [if_neg ht, if_neg (show taken + 1 ≠ 8 by omega)]
  unfold nextBit
  simp only [hnext]

theorem testBit_add (n i width : Nat) :
    (n.testBit i).toNat + 2 * (n / 2 ^ (i + 1) % 2 ^ width) = n / 2 ^ i % 2 ^ (width + 1) := by
  rw [Nat.toNat_testBit, Nat.pow_succ' (n := width), Nat.mod_mul, Nat.div_div_eq_div_mul, ← Nat.pow_succ]

theorem number_inByte {x : UInt8} (rest : List UInt8) {taken width : Nat} (passed : Nat) (out : Array Known)
    (h : taken + width ≤ 8) :
    number width ⟨.inByte x rest taken passed, out⟩ =
      .ok (x.toNat / 2 ^ taken % 2 ^ width) ⟨.inByte x rest (taken + width) passed, out⟩ := by
  induction width generalizing taken with
  | zero =>
    rw [Nat.pow_zero, Nat.mod_one]
    rfl
  | succ w ih =>
    have hbit := nextBit_inByte (x := x) rest passed out (show taken < 8 by omega)
    have hrest := ih (show taken + 1 + w ≤ 8 by omega)
    show EStateM.bind nextBit _ _ = _
    simp only [EStateM.bind, hbit]
    show EStateM.bind (number w) _ _ = _
    simp only [EStateM.bind, hrest]
    show EStateM.Result.ok _ _ = _
    rw [testBit_add, Nat.add_right_comm taken 1 w]
    rfl

/-- A number in two parts. -/
theorem number_add (w w' : Nat) :
    number (w + w') = number w >>= fun low => number w' >>= fun high => pure (low + 2 ^ w * high) := by
  induction w with
  | zero => simp only [Nat.zero_add, number, pure_bind, Nat.pow_zero, Nat.one_mul, bind_pure]
  | succ w ih =>
    rw [Nat.add_right_comm, number, number, ih]
    simp only [bind_assoc, pure_bind, Nat.pow_succ]
    refine bind_congr fun bit => bind_congr fun low => bind_congr fun high => congrArg pure ?_
    rw [Nat.mul_add, Nat.add_assoc, Nat.mul_comm (2 ^ w) 2, Nat.mul_assoc]

theorem number_byte (x : UInt8) (rest : List UInt8) (passed : Nat) (out : Array Known) :
    number 8 ⟨.aligned (x :: rest) passed, out⟩ = .ok x.toNat ⟨.aligned rest (passed + 1), out⟩ := by
  have h := number_inByte (x := x) rest passed out (show 0 + 8 ≤ 8 by decide)
  rw [Nat.pow_zero, Nat.div_one, Nat.mod_eq_of_lt x.toNat_lt] at h
  exact h

theorem number_two (x y : UInt8) (rest : List UInt8) (passed : Nat) (out : Array Known) :
    number 16 ⟨.aligned (x :: y :: rest) passed, out⟩ =
      .ok (x.toNat + 256 * y.toNat) ⟨.aligned rest (passed + 2), out⟩ := by
  rw [show 16 = 8 + 8 from rfl, number_add]
  show EStateM.bind (number 8) _ _ = _
  simp only [EStateM.bind, number_byte]
  show EStateM.bind (number 8) _ _ = _
  simp only [EStateM.bind, number_byte]
  rfl

/-- A length of a stored block. -/
theorem number_littleEndian {n : Nat} (h : n < 65536) (rest : List UInt8) (passed : Nat) (out : Array Known) :
    number 16 ⟨.aligned (littleEndian 2 n ++ rest) passed, out⟩ = .ok n ⟨.aligned rest (passed + 2), out⟩ := by
  show number 16 ⟨.aligned (UInt8.ofNat (n % 256) :: UInt8.ofNat (n / 256 % 256) :: rest) passed, out⟩ = _
  rw [number_two]
  congr 1
  rw [UInt8.toNat_ofNat', UInt8.toNat_ofNat']
  omega

/-! ## Blocks -/

theorem storedBytes_eq (bs rest : List UInt8) (passed : Nat) (out : Array Known) :
    ∃ out', storedBytes bs.length ⟨.aligned (bs ++ rest) passed, out⟩ = .ok () ⟨.aligned rest (passed + bs.length), out'⟩ ∧
      out'.toList.map (·.byte) = out.toList.map (·.byte) ++ bs := by
  induction bs generalizing passed out with
  | nil => exact ⟨out, rfl, (List.append_nil _).symm⟩
  | cons x bs ih =>
    obtain ⟨out', h, hout⟩ := ih (passed + 1) (out.push ⟨x, passed + 1, passed⟩)
    refine ⟨out', ?_, ?_⟩
    · rw [List.length_cons, storedBytes]
      show EStateM.bind (number 8) _ _ = _
      simp only [EStateM.bind, List.cons_append, number_byte]
      show EStateM.bind (emitStored _) _ _ = _
      simp only [EStateM.bind, emitStored, UInt8.ofNat_toNat]
      rw [Nat.add_comm bs.length, ← Nat.add_assoc]
      exact h
    · rw [hout, Array.toList_push, List.map_append, List.append_assoc]
      rfl

theorem alignBits_inByte (x : UInt8) (rest : List UInt8) (passed : Nat) (out : Array Known) :
    alignBits ⟨.inByte x rest 3 passed, out⟩ = .ok () ⟨.aligned rest (passed + 1), out⟩ := rfl

theorem storedBlock_eq {bs : List UInt8} (h : bs.length ≤ storedLimit) (x : UInt8) (rest : List UInt8) (passed : Nat)
    (out : Array Known) :
    ∃ out', storedBlock ⟨.inByte x (littleEndian 2 bs.length ++ (littleEndian 2 (storedLimit - bs.length) ++ (bs ++ rest))) 3
        passed, out⟩ = .ok () ⟨.aligned rest (passed + 5 + bs.length), out'⟩ ∧
      out'.toList.map (·.byte) = out.toList.map (·.byte) ++ bs := by
  obtain ⟨out', hbytes, hout⟩ := storedBytes_eq bs rest (passed + 5) out
  refine ⟨out', ?_, hout⟩
  have hlimit : storedLimit = 65535 := rfl
  unfold storedBlock
  show EStateM.bind alignBits _ _ = _
  simp only [EStateM.bind, alignBits_inByte]
  show EStateM.bind (number 16) _ _ = _
  simp only [EStateM.bind, number_littleEndian (show bs.length < 65536 by omega)]
  show EStateM.bind (number 16) _ _ = _
  simp only [EStateM.bind, number_littleEndian (show storedLimit - bs.length < 65536 by omega)]
  rw [if_neg (show ¬bs.length + (storedLimit - bs.length) ≠ 65535 by omega)]
  exact hbytes

theorem length_littleEndian (width n : Nat) : (littleEndian width n).length = width := by
  induction width generalizing n with
  | zero => rfl
  | succ w ih => rw [littleEndian, List.length_cons, ih]

theorem length_stored (final : Bool) (bs : List UInt8) : (stored final bs).length = 5 + bs.length := by
  unfold stored
  simp only [List.length_append, List.length_cons, length_littleEndian]

/-- A block, and what comes behind it. -/
theorem blocks_stored {bs : List UInt8} (h : bs.length ≤ storedLimit) (final : Bool) (fuel : Nat) (rest : List UInt8)
    (passed : Nat) (out : Array Known) :
    ∃ out', blocks (fuel + 1) ⟨.aligned (stored final bs ++ rest) passed, out⟩ =
        (if final then pure () else blocks fuel : Inflater Unit)
          ⟨.aligned rest (passed + (stored final bs).length), out'⟩ ∧
      out'.toList.map (·.byte) = out.toList.map (·.byte) ++ bs := by
  -- The first three bits of a block are those of a byte of its own.
  obtain ⟨x, hx, hfinal, htype⟩ : ∃ x : UInt8, stored final bs ++ rest =
      x :: (littleEndian 2 bs.length ++ (littleEndian 2 (storedLimit - bs.length) ++ (bs ++ rest))) ∧
      x.toNat.testBit 0 = final ∧ x.toNat / 2 ^ 1 % 2 ^ 2 = 0 := by
    refine ⟨if final then 1 else 0, ?_, ?_, ?_⟩
    · unfold stored
      simp only [List.cons_append, List.append_assoc]
    · cases final <;> rfl
    · cases final <;> rfl
  obtain ⟨out', hblock, hout⟩ := storedBlock_eq h x rest passed out
  refine ⟨out', ?_, hout⟩
  generalize hbody : littleEndian 2 bs.length ++ (littleEndian 2 (storedLimit - bs.length) ++ (bs ++ rest)) = body at *
  have hbit := nextBit_inByte (x := x) body passed out (show 0 < 8 by decide)
  have hnumber := number_inByte (x := x) body passed out (show 1 + 2 ≤ 8 by decide)
  rw [htype] at hnumber
  rw [hfinal] at hbit
  rw [hx, length_stored, ← Nat.add_assoc]
  show blocks (fuel + 1) ⟨.inByte x body 0 passed, out⟩ = _
  rw [blocks]
  show EStateM.bind nextBit _ _ = _
  simp only [EStateM.bind, hbit]
  show EStateM.bind (number 2) _ _ = _
  simp only [EStateM.bind, hnumber]
  show EStateM.bind storedBlock _ _ = _
  simp only [EStateM.bind, hblock]

theorem blocks_storedBlocks {n fuel : Nat} {bs : List UInt8} (hn : bs.length ≤ storedLimit * (n + 1)) (hfuel : n < fuel)
    (rest : List UInt8) (passed : Nat) (out : Array Known) :
    ∃ out', blocks fuel ⟨.aligned (storedBlocks n bs ++ rest) passed, out⟩ =
        .ok () ⟨.aligned rest (passed + (storedBlocks n bs).length), out'⟩ ∧
      out'.toList.map (·.byte) = out.toList.map (·.byte) ++ bs := by
  induction n generalizing fuel bs passed out with
  | zero =>
    obtain ⟨fuel, rfl⟩ := Nat.exists_eq_succ_of_ne_zero (Nat.ne_of_gt hfuel)
    exact blocks_stored (by rwa [Nat.zero_add, Nat.mul_one] at hn) true fuel rest passed out
  | succ n ih =>
    obtain ⟨fuel, rfl⟩ := Nat.exists_eq_succ_of_ne_zero (Nat.ne_of_gt (Nat.lt_of_le_of_lt (Nat.zero_le _) hfuel))
    rw [storedBlocks]
    by_cases hle : bs.length ≤ storedLimit
    · rw [if_pos hle]
      exact blocks_stored hle true fuel rest passed out
    · rw [if_neg hle]
      have htake : (bs.take storedLimit).length ≤ storedLimit := List.length_take_le _ _
      have hdrop : (bs.drop storedLimit).length ≤ storedLimit * (n + 1) := by
        rw [List.length_drop]
        rw [Nat.mul_succ] at hn
        omega
      obtain ⟨out₁, hfirst, hout₁⟩ :=
        blocks_stored htake false fuel (storedBlocks n (bs.drop storedLimit) ++ rest) passed out
      obtain ⟨out', hrest, hout'⟩ := ih hdrop (Nat.lt_of_succ_lt_succ hfuel)
        (passed + (stored false (bs.take storedLimit)).length) out₁
      refine ⟨out', ?_, ?_⟩
      · rw [List.append_assoc, hfirst, List.length_append, ← Nat.add_assoc]
        exact hrest
      · rw [hout', hout₁, List.append_assoc, List.take_append_drop]

theorem length_le_storedBlocks (n : Nat) (bs : List UInt8) : bs.length ≤ (storedBlocks n bs).length := by
  induction n generalizing bs with
  | zero =>
    rw [storedBlocks, length_stored]
    exact Nat.le_add_left _ _
  | succ n ih =>
    rw [storedBlocks]
    split
    · rw [length_stored]
      exact Nat.le_add_left _ _
    · have := ih (bs.drop storedLimit)
      rw [List.length_drop] at this
      rw [List.length_append, length_stored, List.length_take]
      omega

/-- Stored blocks are inflated to what is in them, whatever comes behind. -/
theorem inflate_storedBlocks (bs rest : List UInt8) :
    (inflate (storedBlocks (bs.length / storedLimit) bs ++ rest)).bytes.map (·.byte) = bs ∧
      (inflate (storedBlocks (bs.length / storedLimit) bs ++ rest)).outcome =
        .finished (storedBlocks (bs.length / storedLimit) bs).length := by
  have hlen := length_le_storedBlocks (bs.length / storedLimit) bs
  have hn : bs.length ≤ storedLimit * (bs.length / storedLimit + 1) :=
    Nat.le_of_lt (Nat.lt_mul_div_succ bs.length (by decide))
  have hfuel : bs.length / storedLimit < 8 * (storedBlocks (bs.length / storedLimit) bs ++ rest).length + 1 := by
    have := Nat.div_le_self bs.length storedLimit
    rw [List.length_append]
    omega
  obtain ⟨out', hb, hout⟩ := blocks_storedBlocks hn hfuel rest 0 #[]
  have hb' : blocks (8 * (storedBlocks (bs.length / storedLimit) bs ++ rest).length + 1)
      ⟨.ofBytes (storedBlocks (bs.length / storedLimit) bs ++ rest), #[]⟩ = _ := hb
  unfold inflate
  rw [hb']
  refine ⟨hout, ?_⟩
  rw [Nat.zero_add]
  rfl

end TypedDoc.Gzip
