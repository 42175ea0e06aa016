/-
  TypedDoc.Proofs.Gzip.Inflate — inflating more of a stream.

  Nothing that is known of the contents is taken back when more bytes come: what is known
  of a stream is a beginning of what is known of a longer one (`inflate_append`), and behind
  the end of a stream nothing is looked at (`inflate_append_of_finished`). Every
  step `Extends` itself, or the step with more fuel: on a longer input it does the same,
  unless it had run out of bytes or of fuel, and then it keeps what was there.
-/

import Mathlib.Data.List.Infix
import TypedDoc.Gzip.Inflate

namespace TypedDoc.Gzip

/-- The same bits, and more bytes behind them. -/
def Bits.more (b : Bits) (more : List UInt8) : Bits :=
  ⟨b.rest ++ more, b.taken, b.passed, fun h hnil => b.begun h (List.append_eq_nil_iff.1 hnil).1⟩

def Progress.more (s : Progress) (more : List UInt8) : Progress := { s with bits := s.bits.more more }

/-- The contents known where a step has come to, also when it stops there. -/
def reached {α : Type} : EStateM.Result Stop Progress α → List Known
  | .ok _ s | .error _ s => s.out.toList

/-- `m'` is what `m` becomes on a longer input. -/
structure Extends {α : Type} (m m' : Inflater α) : Prop where
  grows : ∀ s, s.out.toList <+: reached (m' s)
  ok : ∀ s a s' more, m s = .ok a s' → m' (s.more more) = .ok a (s'.more more)
  corrupt : ∀ s s' more, m s = .error .corrupt s' → m' (s.more more) = .error .corrupt (s'.more more)
  starved : ∀ s s' more, m s = .error .starved s' → s'.out.toList <+: reached (m' (s.more more))

namespace Extends

variable {α β : Type}

theorem pure (a : α) : Extends (Pure.pure a : Inflater α) (Pure.pure a) := by
  refine ⟨fun s => List.prefix_refl _, fun s b s' more h => ?_, fun s s' more h => ?_, fun s s' more h => ?_⟩
  · cases h; rfl
  · cases h
  · cases h

theorem throw_corrupt : Extends (throw .corrupt : Inflater α) (throw .corrupt) := by
  refine ⟨fun s => List.prefix_refl _, fun s b s' more h => ?_, fun s s' more h => ?_, fun s s' more h => ?_⟩
  · cases h
  · cases h; rfl
  · cases h

/-- Without fuel nothing was done that a step with some could take back. -/
theorem throw_starved {m : Inflater α} (h : ∀ s, s.out.toList <+: reached (m s)) : Extends (throw .starved) m := by
  refine ⟨h, fun s b s' more hs => ?_, fun s s' more hs => ?_, fun s s' more hs => ?_⟩
  · cases hs
  · cases hs
  · cases hs; exact h (s.more more)

theorem bind {m m' : Inflater α} {f f' : α → Inflater β} (h : Extends m m') (hf : ∀ a, Extends (f a) (f' a)) :
    Extends (m >>= f) (m' >>= f') := by
  have hgrows : ∀ s, reached (m' s) <+: reached ((m' >>= f') s) := by
    intro s
    show reached (m' s) <+: reached (EStateM.bind m' f' s)
    unfold EStateM.bind
    cases m' s with
    | ok a s' => exact (hf a).grows s'
    | error e s' => exact List.prefix_refl _
  refine ⟨fun s => (h.grows s).trans (hgrows s), fun s b s'' more hs => ?_, fun s s'' more hs => ?_, fun s s'' more hs => ?_⟩
  · change EStateM.bind m f s = _ at hs
    show EStateM.bind m' f' (s.more more) = _
    unfold EStateM.bind at hs ⊢
    split at hs
    · rename_i a s' hm
      rw [h.ok s a s' more hm]
      exact (hf a).ok s' b s'' more hs
    · cases hs
  · change EStateM.bind m f s = _ at hs
    show EStateM.bind m' f' (s.more more) = _
    unfold EStateM.bind at hs ⊢
    split at hs
    · rename_i a s' hm
      rw [h.ok s a s' more hm]
      exact (hf a).corrupt s' s'' more hs
    · rename_i e s' hm
      cases hs
      rw [h.corrupt s s'' more hm]
  · change EStateM.bind m f s = _ at hs
    unfold EStateM.bind at hs
    split at hs
    · rename_i a s' hm
      show _ <+: reached (EStateM.bind m' f' (s.more more))
      unfold EStateM.bind
      rw [h.ok s a s' more hm]
      exact (hf a).starved s' s'' more hs
    · rename_i e s' hm
      cases hs
      exact (h.starved s s'' more hm).trans (hgrows _)

theorem map {m m' : Inflater α} (f : α → β) (h : Extends m m') : Extends (f <$> m) (f <$> m') := by
  rw [map_eq_pure_bind, map_eq_pure_bind]
  exact h.bind fun a => .pure (f a)

theorem ite {m m' n n' : Inflater α} {p : Prop} [Decidable p] (h : Extends m m') (h' : Extends n n') :
    Extends (if p then m else n) (if p then m' else n') := by
  split
  · exact h
  · exact h'

/-- A check before the rest. -/
theorem check {p : Prop} [Decidable p] {f f' : Unit → Inflater β} (h : Extends (f ()) (f' ())) :
    Extends (if p then throw .corrupt >>= f else f ()) (if p then throw .corrupt >>= f' else f' ()) :=
  .ite (throw_corrupt.bind fun _ => h) h

/-- With more fuel, a step that was stopped by having none goes on. -/
theorem of_fuel {m : Nat → Inflater α} (h0 : m 0 = throw .starved)
    (hs : ∀ n n', n ≤ n' → Extends (m n) (m n') → Extends (m (n + 1)) (m (n' + 1))) {n n' : Nat} (h : n ≤ n') :
    Extends (m n) (m n') := by
  induction n' generalizing n with
  | zero =>
    rw [Nat.le_zero.1 h, h0]
    exact throw_starved fun s => List.prefix_refl _
  | succ n' ih =>
    cases n with
    | zero =>
      rw [h0]
      exact throw_starved (hs n' n' (Nat.le_refl n') (ih (Nat.le_refl n'))).grows
    | succ n => exact hs n n' (Nat.le_of_succ_le_succ h) (ih (Nat.le_of_succ_le_succ h))

end Extends

/-! ## The steps -/

theorem extends_nextBit : Extends nextBit nextBit := by
  have hnext : ∀ (b : Bits) bit b' more, b.next? = some (bit, b') → (b.more more).next? = some (bit, b'.more more) := by
    intro b bit b' more h
    unfold Bits.next? at h ⊢
    unfold Bits.more
    split at h
    · cases h
    · rename_i x rest hrest
      cases h
      simp only [hrest, List.cons_append, Option.some.injEq, Prod.mk.injEq, true_and]
      split <;> rfl
  refine ⟨fun s => ?_, fun s a s' more h => ?_, fun s s' more h => ?_, fun s s' more h => ?_⟩
  · unfold nextBit
    split <;> exact List.prefix_refl _
  · unfold nextBit at h
    split at h
    · cases h
    · rename_i bit b' hb
      cases h
      have hb' : (s.more more).bits.next? = some (a, b'.more more) := hnext _ _ _ more hb
      unfold nextBit
      rewrite [hb']
      rfl
  · unfold nextBit at h
    split at h <;> cases h
  · unfold nextBit at h
    split at h
    · cases h
      unfold nextBit
      split <;> exact List.prefix_refl _
    · cases h

theorem extends_number (width : Nat) : Extends (number width) (number width) := by
  induction width with
  | zero => exact .pure 0
  | succ w ih => exact extends_nextBit.bind fun bit => ih.bind fun high => .pure _

/-- A step that cannot stop. -/
theorem extends_step {f : Progress → Progress} (hgrows : ∀ s, s.out.toList <+: (f s).out.toList)
    (hmore : ∀ s more, f (s.more more) = (f s).more more) :
    Extends (fun s => .ok () (f s)) fun s => .ok () (f s) := by
  refine ⟨hgrows, fun s a s' more h => ?_, fun s s' more h => ?_, fun s s' more h => ?_⟩
  · cases h
    rw [hmore]
  · cases h
  · cases h

theorem extends_alignBits : Extends alignBits alignBits := by
  refine extends_step (fun s => List.prefix_refl _) fun s more => ?_
  show Progress.mk (s.bits.more more).align _ = Progress.mk (s.bits.align.more more) _
  congr 1
  unfold Bits.align Bits.more
  by_cases ht : s.bits.taken = 0
  · simp only [ht, if_pos]
  · simp only [ht, if_false, List.drop_append_of_le_length (List.length_pos_iff.2 (s.bits.begun ht))]

theorem extends_push (known : Bits → Known) (hknown : ∀ b more, known (b.more more) = known b) :
    Extends (fun s => .ok () { s with out := s.out.push (known s.bits) })
      fun s => .ok () { s with out := s.out.push (known s.bits) } := by
  refine extends_step (fun s => ?_) fun s more => ?_
  · rw [Array.toList_push]
    exact List.prefix_append _ _
  · show Progress.mk (s.bits.more more) (s.out.push (known (s.bits.more more))) = Progress.mk (s.bits.more more) _
    rw [hknown]

theorem extends_emit (b : UInt8) : Extends (emit b) (emit b) :=
  extends_push (fun bits => ⟨b, bits.seen, bits.seen⟩) fun _ _ => rfl

theorem extends_emitStored (b : UInt8) : Extends (emitStored b) (emitStored b) :=
  extends_push (fun bits => ⟨b, bits.seen, bits.seen - 1⟩) fun _ _ => rfl

theorem extends_emitBack (distance : Nat) : Extends (emitBack distance) (emitBack distance) := by
  refine extends_step (fun s => ?_) fun s more => rfl
  rw [Array.toList_push]
  exact List.prefix_append _ _

theorem extends_copy (distance length : Nat) : Extends (copy distance length) (copy distance length) := by
  induction length with
  | zero => exact .pure ()
  | succ n ih => exact (extends_emitBack distance).bind fun _ => ih

theorem extends_extended (table : List (Nat × Nat)) (symbol : Nat) :
    Extends (extended table symbol) (extended table symbol) := by
  unfold extended
  split
  · exact .throw_corrupt
  · exact (extends_number _).bind fun n => .pure _

theorem extends_readFrom (symbols : Array Nat) (counts : List Nat) (word first index : Nat) :
    Extends (Code.readFrom symbols word first index counts) (Code.readFrom symbols word first index counts) := by
  induction counts generalizing word first index with
  | nil => exact .throw_corrupt
  | cons n longer ih => exact extends_nextBit.bind fun bit => .ite (.pure _) (ih _ _ _)

theorem extends_read (c : Code) : Extends c.read c.read := by
  cases c with
  | none => exact extends_nextBit.bind fun _ => .throw_corrupt
  | lone symbol => exact extends_nextBit.bind fun bit => .ite .throw_corrupt (.pure symbol)
  | complete counts symbols => exact extends_readFrom symbols counts 0 0 0

theorem extends_codedBlock (literals distances : Code) {fuel fuel' : Nat} (h : fuel ≤ fuel') :
    Extends (codedBlock literals distances fuel) (codedBlock literals distances fuel') := by
  refine .of_fuel rfl (fun n n' _ hrest => ?_) h
  refine (extends_read literals).bind fun symbol => .ite ?_ (.ite (.pure ()) ?_)
  · exact (extends_emit _).bind fun _ => hrest
  · exact (extends_extended _ _).bind fun length => (extends_read distances).bind fun word =>
      (extends_extended _ _).bind fun distance => (extends_copy _ _).bind fun _ => hrest

theorem extends_storedBytes (length : Nat) : Extends (storedBytes length) (storedBytes length) := by
  induction length with
  | zero => exact .pure ()
  | succ n ih => exact (extends_number 8).bind fun b => (extends_emitStored _).bind fun _ => ih

theorem extends_storedBlock : Extends storedBlock storedBlock := by
  refine extends_alignBits.bind fun _ => (extends_number 16).bind fun length => (extends_number 16).bind fun complement => ?_
  exact .check (extends_storedBytes length)

theorem extends_numbers (width count : Nat) : Extends (numbers width count) (numbers width count) := by
  induction count with
  | zero => exact .pure []
  | succ n ih => exact (extends_number width).bind fun x => ih.bind fun rest => .pure _

theorem extends_codeLengths (c : Code) (total fuel : Nat) (got : List Nat) :
    Extends (codeLengths c total fuel got) (codeLengths c total fuel got) := by
  induction fuel generalizing got with
  | zero => exact .throw_starved fun s => List.prefix_refl _
  | succ n ih =>
    unfold codeLengths
    refine .ite .throw_corrupt (.ite (.pure _) ((extends_read c).bind fun symbol => .ite (ih _) (.ite ?_ ?_)))
    · split
      · exact .throw_corrupt
      · exact (extends_number 2).bind fun times => ih _
    · split
      · exact ((extends_number 3).map _).bind fun times => ih _
      · exact ((extends_number 7).map _).bind fun times => ih _

theorem extends_codeOf (lengths : List Nat) : Extends (codeOf lengths) (codeOf lengths) := by
  unfold codeOf
  split
  · exact .pure _
  · exact .throw_corrupt

theorem extends_ownCodes : Extends ownCodes ownCodes := by
  unfold ownCodes
  refine (extends_number 5).bind fun literals => (extends_number 5).bind fun distances => (extends_number 4).bind fun lengths => ?_
  refine .check ((extends_numbers 3 _).bind fun given => (extends_codeOf _).bind fun code => .check ?_)
  exact (extends_codeLengths code _ _ []).bind fun lengths => (extends_codeOf _).bind fun _ => (extends_codeOf _).bind fun _ => .pure _

theorem extends_blocks {fuel fuel' : Nat} (h : fuel ≤ fuel') : Extends (blocks fuel) (blocks fuel') := by
  refine .of_fuel rfl (fun n n' hn hrest => ?_) h
  unfold blocks
  refine extends_nextBit.bind fun final => (extends_number 2).bind fun type => ?_
  have hlast : Extends (if final then Pure.pure () else blocks n) (if final then Pure.pure () else blocks n') :=
    .ite (.pure ()) hrest
  match type with
  | 0 => exact extends_storedBlock.bind fun _ => hlast
  | 1 => exact (extends_codedBlock _ _ hn).bind fun _ => hlast
  | 2 => exact extends_ownCodes.bind fun codes => (extends_codedBlock _ _ hn).bind fun _ => hlast
  | _ + 3 => exact Extends.throw_corrupt.bind fun _ => hlast

/-- What is known of a stream stays known of a longer one. -/
theorem inflate_append (bs more : List UInt8) : (inflate bs).bytes <+: (inflate (bs ++ more)).bytes := by
  have h := extends_blocks (show 8 * bs.length + 1 ≤ 8 * (bs ++ more).length + 1 by rw [List.length_append]; omega)
  have hstart : (⟨.ofBytes (bs ++ more), #[]⟩ : Progress) = Progress.more ⟨.ofBytes bs, #[]⟩ more := rfl
  unfold inflate
  rw [hstart]
  cases hb : blocks (8 * bs.length + 1) ⟨.ofBytes bs, #[]⟩ with
  | ok _ s =>
    rw [h.ok _ _ _ more hb]
    exact List.prefix_refl _
  | error e s =>
    cases e with
    | corrupt =>
      rw [h.corrupt _ _ more hb]
      exact List.prefix_refl _
    | starved =>
      have hle := h.starved _ _ more hb
      cases hm : blocks (8 * (bs ++ more).length + 1) (Progress.more ⟨.ofBytes bs, #[]⟩ more) with
      | ok _ s' => rw [hm] at hle; exact hle
      | error e s' =>
        rw [hm] at hle
        cases e with
        | corrupt => exact hle
        | starved => exact hle

/-- What comes behind the end of a deflate stream does not matter. -/
theorem inflate_append_of_finished {bs : List UInt8} {used : Nat} (hf : (inflate bs).outcome = .finished used)
    (more : List UInt8) : inflate (bs ++ more) = inflate bs := by
  have h := extends_blocks (show 8 * bs.length + 1 ≤ 8 * (bs ++ more).length + 1 by rw [List.length_append]; omega)
  have hstart : (⟨.ofBytes (bs ++ more), #[]⟩ : Progress) = Progress.more ⟨.ofBytes bs, #[]⟩ more := rfl
  unfold inflate at hf ⊢
  rw [hstart]
  cases hb : blocks (8 * bs.length + 1) ⟨.ofBytes bs, #[]⟩ with
  | ok _ s =>
    rw [h.ok _ _ _ more hb]
    rfl
  | error e s =>
    rw [hb] at hf
    cases e <;> cases hf

end TypedDoc.Gzip
