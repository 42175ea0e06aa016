/-
  TypedDoc.Proofs.Value.Budget — the budget of entries has no part in what is read.

  Reading a payload starts with a budget of one entry more than there are bytes, so it
  looks at the whole stream before it has taken anything. But no two budgets above the
  number of bytes give different results (`takePayload_budget`): each entry takes a byte,
  and no decoder leaves more than there was (`closed_shrinks`). So what passes from the
  parts of a decoder to the whole passes to `Payload.decode` too, for the two properties
  that say it depends on little: `blind_decode`, `decisive_decode`.
-/

import TypedDoc.Proofs.Value.Closed
import TypedDoc.Proofs.Value.Reading
import TypedDoc.Proofs.Wire.Outcome

namespace TypedDoc

open Wire

/-! ## Decoders that agree on one stream -/

namespace Wire

variable {α β : Type}

theorem Took.size {s s' : Supply} {bs : List UInt8} (h : Took s bs s') : bs.length + s'.size ≤ s.size := by
  have hlen := h.held.length_le
  rw [List.length_append] at hlen
  exact hlen

theorem bind_congr_at {d d' : Decoder α} {f g : α → Decoder β} {s : Supply} (hd : d s = d' s)
    (h : ∀ a s', d s = .ok a s' → f a s' = g a s') : (d >>= f) s = (d' >>= g) s := by
  cases hs : d s with
  | ok a s' => rw [bind_eq_of_ok f hs, bind_eq_of_ok g (hd ▸ hs), h a s' hs]
  | error e s' => rw [bind_eq_of_error f hs, bind_eq_of_error g (hd ▸ hs)]

/-! ## Decoders that leave no more than there was -/

/-- Reading leaves no more than there was, also when it fails. -/
def Shrinks (d : Decoder α) : Prop := ∀ s, (left (d s)).size ≤ s.size

namespace Shrinks

theorem ok {d : Decoder α} (h : Shrinks d) {s s' : Supply} {a : α} (hd : d s = .ok a s') : s'.size ≤ s.size := by
  have hs := h s
  rwa [hd] at hs

theorem error {d : Decoder α} (h : Shrinks d) {s s' : Supply} {e : Error} (hd : d s = .error e s') : s'.size ≤ s.size := by
  have hs := h s
  rwa [hd] at hs

theorem pure (a : α) : Shrinks (Pure.pure a : Decoder α) := fun _ => Nat.le_refl _

theorem throw (e : Error) : Shrinks (MonadExcept.throw e : Decoder α) := fun _ => Nat.le_refl _

theorem bind {d : Decoder α} {f : α → Decoder β} (hd : Shrinks d) (hf : ∀ a, Shrinks (f a)) : Shrinks (d >>= f) := by
  intro s
  have h := hd s
  cases hs : d s with
  | error e s' =>
    rw [hs] at h
    rw [bind_eq_of_error f hs]
    exact h
  | ok a s' =>
    rw [hs] at h
    rw [bind_eq_of_ok f hs]
    exact (hf a s').trans h

theorem take (s : Supply) (n : Nat) (ask : List (List UInt8) → Nat) : (s.take n ask).2.size ≤ s.size :=
  (Nat.le_add_left _ _).trans (s.take_took n ask).size

theorem exactly (n : Nat) : Shrinks (exactly n) := by
  intro s
  unfold Wire.exactly
  dsimp only
  split <;> exact take s n _

theorem upTo (n : Nat) : Shrinks (upTo n) := by
  intro s
  unfold Wire.upTo
  dsimp only
  split
  · split <;> exact take s n _
  · exact take s n _

theorem settled (r : Except Error α) : Shrinks (settled r) := by
  cases r with
  | ok a => exact .pure a
  | error e => exact .throw e

theorem stringBody (c : Charset) (n : Nat) : Shrinks (stringBody c n) := by
  refine (Shrinks.upTo n).bind fun bs => ?_
  split
  · exact .settled _
  · exact .throw _

end Shrinks

theorem closed_shrinks : Closed @Shrinks where
  pure := .pure
  throw e _ := .throw e
  bind := .bind
  exactly := .exactly
  stringBody := .stringBody

end Wire

/-! ## Loops -/

section

variable {reg : Registry} {c : Charset} {payload payload' : Kind → Decoder Payload} {size : Nat}
  (agree : ∀ k s, s.size ≤ size → payload k s = payload' k s) (shrinks : ∀ k, Shrinks (payload k))

theorem takeMany_congr {α : Type} {one one' : Decoder α} (agree : ∀ s, s.size ≤ size → one s = one' s)
    (shrinks : Shrinks one) (count : Nat) (acc : List α) {s : Supply} (hs : s.size ≤ size) :
    takeMany one count acc s = takeMany one' count acc s := by
  induction count generalizing acc s with
  | zero => rfl
  | succ n ih => exact bind_congr_at (agree s hs) fun a s' h => ih _ ((shrinks.ok h).trans hs)

include agree shrinks

theorem takeEntries_congr {budget budget' : Nat} {s : Supply} (hs : s.size ≤ size) (hb : s.size < budget)
    (hb' : s.size < budget') (es : List (String × Value)) :
    takeEntries reg c payload budget es s = takeEntries reg c payload' budget' es s := by
  induction budget generalizing budget' s es with
  | zero => exact absurd hb (Nat.not_lt_zero _)
  | succ n ih =>
    obtain ⟨n', rfl⟩ : ∃ n', budget' = n' + 1 := ⟨budget' - 1, by omega⟩
    refine bind_congr_at rfl fun id s1 h1 => ?_
    have t1 : 1 + s1.size ≤ s.size := (codes_takeByte.took _ _ _ h1).2.size
    split
    · rfl
    refine bind_congr_at rfl fun kind s2 h2 => ?_
    obtain ⟨-, rfl⟩ := settled_ok h2
    refine bind_congr_at rfl fun name s3 h3 => ?_
    have t3 := ((codes_takeString c).took _ _ _ h3).2.size
    refine bind_congr_at (agree kind s3 (by omega)) fun p s4 h4 => ?_
    have t4 := (shrinks kind).ok h4
    exact ih (by omega) (by omega) (by omega) _

theorem takeList_congr {s : Supply} (hs : s.size ≤ size) : takeList reg c payload s = takeList reg c payload' s := by
  refine bind_congr_at rfl fun id s1 h1 => ?_
  have t1 := (codes_takeByte.took _ _ _ h1).2.size
  split
  · rfl
  refine bind_congr_at rfl fun kind s2 h2 => ?_
  obtain ⟨-, rfl⟩ := settled_ok h2
  refine bind_congr_at rfl fun count s3 h3 => ?_
  have t3 := (codes_takeCount.took _ _ _ h3).2.size
  have hs3 : s3.size ≤ size := by omega
  have element : Shrinks (do let name ← takeString c; let p ← payload kind; return (⟨some name, p, false⟩ : Value)) :=
    (closed_shrinks.takeString c).bind fun _ => (shrinks kind).bind fun _ => .pure _
  refine takeMany_congr (fun t ht => ?_) element count [] hs3
  refine bind_congr_at rfl fun name t1 ht1 => ?_
  have u1 := ((codes_takeString c).took _ _ _ ht1).2.size
  exact bind_congr_at (agree kind t1 (by omega)) fun p t2 _ => rfl

theorem takeArray_congr {s : Supply} (hs : s.size ≤ size) : takeArray reg payload s = takeArray reg payload' s := by
  refine bind_congr_at rfl fun id s1 h1 => ?_
  have t1 := (codes_takeByte.took _ _ _ h1).2.size
  split
  · rfl
  refine bind_congr_at rfl fun kind s2 h2 => ?_
  obtain ⟨-, rfl⟩ := settled_ok h2
  split
  · rfl
  refine bind_congr_at rfl fun count s3 h3 => ?_
  have t3 := (codes_takeCount.took _ _ _ h3).2.size
  have hs3 : s3.size ≤ size := by omega
  have element : Shrinks (do let p ← payload kind; return (⟨none, p, false⟩ : Value)) := (shrinks kind).bind fun _ => .pure _
  exact takeMany_congr (fun t ht => bind_congr_at (agree kind t ht) fun p t1 _ => rfl) element count [] hs3

end

/-! ## Payloads -/

theorem takePayload_budget (reg : Registry) (c : Charset) {budget budget' levels : Nat} {k : Kind} {s : Supply}
    (hb : s.size < budget) (hb' : s.size < budget') :
    takePayload reg c budget levels k s = takePayload reg c budget' levels k s := by
  induction levels generalizing k s with
  | zero => rfl
  | succ n ih =>
    have agree : ∀ k t, t.size ≤ s.size → takePayload reg c budget n k t = takePayload reg c budget' n k t :=
      fun k t ht => ih (by omega) (by omega)
    have shrinks : ∀ k, Shrinks (takePayload reg c budget n k) := closed_shrinks.takePayload reg c budget n
    cases k with
    | object => exact bind_congr_at (takeEntries_congr agree shrinks (Nat.le_refl _) hb hb' []) fun _ _ _ => rfl
    | list => exact bind_congr_at (takeList_congr agree shrinks (Nat.le_refl _)) fun _ _ _ => rfl
    | array => exact bind_congr_at (takeArray_congr agree shrinks (Nat.le_refl _)) fun _ _ _ => rfl
    | _ => rfl

theorem blind_decode (reg : Registry) (c : Charset) (k : Kind) : Blind (Payload.decode reg c k) := by
  intro s s' h
  have hsize : s.size = s'.size := congrArg List.length h.bytes
  unfold Payload.decode
  rw [hsize]
  exact closed_blind.takePayload reg c _ _ k s s' h

/-- Two streams have a budget that does for both. -/
theorem decisive_decode (reg : Registry) (c : Charset) (k : Kind) : Decisive (Payload.decode reg c k) := by
  intro s o s' hp he hs hshort
  have hlevels : ∀ {t : Supply} {budget : Nat}, t.size < budget →
      Payload.decode reg c k t = takePayload reg c budget (maxDepth + 1) k t :=
    fun hb => takePayload_budget reg c (Nat.lt_succ_self _) hb
  obtain ⟨bs, took, -⟩ := closed_decisive.takePayload reg c (s.size + 1) (maxDepth + 1) k s o s' hp he hs hshort
  have decides : ∀ budget, s.size < budget → Decides (takePayload reg c budget (maxDepth + 1) k) bs o := by
    intro budget hb
    obtain ⟨bs', took', decides⟩ := closed_decisive.takePayload reg c budget (maxDepth + 1) k s o s' hp he
      ((hlevels hb).symm.trans hs) hshort
    have heq : bs ++ s'.bytes = bs' ++ s'.bytes := (took.whole hp).2.symm.trans (took'.whole hp).2
    rw [List.append_cancel_right heq]
    exact decides
  refine ⟨bs, took, fun t rest ht => ?_, fun t htp hle hne => ?_⟩
  · rw [hlevels (show t.size < max s.size t.size + 1 by omega)]
    exact (decides _ (by omega)).answers t rest ht
  · rw [hlevels (show t.size < max s.size t.size + 1 by omega)]
    exact (decides _ (by omega)).starves t htp hle hne

end TypedDoc
