/-
  TypedDoc.Gzip.Delivery — how the contents of a deflate stream come to their reader, when
  the packed stream comes in pieces.

  Inflating goes by runs. A run takes what is left of a piece and ends where the contents
  reach a multiple of 32 KiB, the piece is used up, or the deflate stream ends; what it
  makes known is one batch, handed out as it is asked for. This shows in three places.
  - Where the deflate stream turns out to be corrupt, the batch of that run is lost.
  - A read call fetches the next piece before it hands out anything, if the piece at hand
    is used up. So if a fault follows, one read call can have some of the last batch (the
    call that made the run), and what it leaves is lost.
  - After a proper end there are runs without a piece. If they do not get to the end of
    the deflate stream, the last of them parts with its batch once in the same way.
-/

import TypedDoc.Gzip.Inflate
import TypedDoc.Wire.Supply

namespace TypedDoc.Gzip

open Wire

/-- Where the contents are cut, whatever the pieces. -/
def windowSize : Nat := 32768

/-- How much a run can add to so many bytes of contents. -/
def room (made : Nat) : Nat := windowSize - made % windowSize

theorem room_pos (made : Nat) : 0 < room made :=
  Nat.sub_pos_of_lt (Nat.mod_lt made (by decide))

/-! ## Runs -/

/-- The batch that the packed bytes up to `stop` make known, and the bytes after it. -/
def batch (stop : Nat) : (space : Nat) → List Known → List UInt8 × List Known
  | 0, left => ([], left)
  | _, [] => ([], [])
  | n + 1, k :: left =>
    if k.need ≤ stop then
      let (bs, rest) := batch stop n left
      (k.byte :: bs, rest)
    else ([], k :: left)

theorem length_batch_le (stop space : Nat) (left : List Known) : (batch stop space left).2.length ≤ left.length := by
  fun_induction batch stop space left with
  | case1 => exact Nat.le_refl _
  | case2 => exact Nat.le_refl _
  | case3 n k left _ bs rest eq ih => rw [eq] at ih; exact Nat.le_succ_of_le ih
  | case4 => exact Nat.le_refl _

theorem length_batch_lt {stop space : Nat} {left rest : List Known} {next : Known} (hspace : 0 < space)
    (h : (batch stop space left).2 = next :: rest) (hneed : next.need ≤ stop) :
    (batch stop space left).2.length < left.length := by
  fun_cases batch stop space left with
  | case1 => exact absurd hspace (Nat.lt_irrefl 0)
  | case2 => simp [batch] at h
  | case3 n k left hk bs rest' eq =>
    have := length_batch_le stop n left
    rw [eq] at this
    exact Nat.lt_succ_of_le this
  | case4 n k left hk =>
    simp only [batch, hk, if_false, List.cons.injEq] at h
    exact absurd (h.1 ▸ hneed) hk

/-- Why a run ends. -/
inductive Halt where
  /-- There is no room left. -/
  | full
  /-- The piece is used up. -/
  | spent
  /-- The deflate stream is over, and some of the piece is left. -/
  | over
  | corrupt
  deriving DecidableEq, Repr

/-- Why a run over the packed bytes up to `stop` ends, where `left` is after its batch. -/
def halt (outcome : Outcome) (stop : Nat) : (left : List Known) → Halt
  | next :: _ => if next.need ≤ stop ∧ next.reach < stop then .full else .spent
  | [] =>
    match outcome with
    | .finished used => if used < stop then .over else .spent
    | .corrupt seen => if seen ≤ stop then .corrupt else .spent
    | .starved => .spent

theorem exists_next_of_halt_eq_full {outcome : Outcome} {stop : Nat} {left : List Known}
    (h : halt outcome stop left = .full) : ∃ next rest, left = next :: rest ∧ next.need ≤ stop := by
  cases left with
  | nil => cases outcome <;> grind [halt]
  | cons next rest => grind [halt]

/-! ## The stream of the contents -/

/-- What is known of a packed stream. -/
structure Packed where
  outcome : Outcome
  /-- How it ends. -/
  ending : Option Error
  /-- How its contents end for who reads on after the last byte. -/
  close : Option Error

/-- The runs after a proper end; `made` bytes of contents were made before. -/
def lastRuns (p : Packed) (made : Nat) (left : List Known) : Supply :=
  if left.length ≤ room made then
    match p.outcome with
    | .finished _ => ⟨[left.map (·.byte)], [], p.close⟩
    | .corrupt _ => .broken (.damaged .contents)
    | .starved => ⟨[], left.map (·.byte), some (.truncatedStream .envelope)⟩
  else
    (lastRuns p (made + room made) (left.drop (room made))).behind ((left.take (room made)).map (·.byte))
termination_by left.length
decreasing_by
  have := room_pos made
  rw [List.length_drop]
  omega

/-- The runs over the pieces, given where each of them ends, and those after the last. -/
def deliver (p : Packed) (made : Nat) (ends : List Nat) (left : List Known) : Supply :=
  match ends with
  | [] =>
    match p.ending with
    | none => lastRuns p made left
    | some e => .broken e
  | stop :: later =>
    let b := batch stop (room made) left
    match _ended : halt p.outcome stop b.2 with
    | .full => (deliver p (made + b.1.length) (stop :: later) b.2).behind b.1
    | .spent =>
      match if later.isEmpty then p.ending else none with
      | some e => ⟨[], b.1, some e⟩
      | none => (deliver p (made + b.1.length) later b.2).behind b.1
    | .over => ⟨[b.1], [], p.close⟩
    | .corrupt => .broken (.damaged .contents)
termination_by ends.length + left.length
decreasing_by
  · obtain ⟨next, rest, hl, hn⟩ := exists_next_of_halt_eq_full _ended
    have := length_batch_lt (room_pos made) hl hn
    omega
  · have := length_batch_le stop (room made) left
    simp only [List.length_cons]
    omega

end TypedDoc.Gzip
