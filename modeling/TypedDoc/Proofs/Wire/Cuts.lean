/-
  TypedDoc.Proofs.Wire.Cuts — how a stream is cut into pieces does not show in what is read of it.

  Two streams are `Alike` if they hold the same bytes, end in the same way, and part with
  nothing. A decoder is `Blind` if it gives the same of two such streams, be it an error,
  and leaves them alike. The readers of a number of bytes are (`blind_exactly`,
  `blind_upTo`), and so is what is put together from such decoders (`closed_blind`).
-/

import TypedDoc.Proofs.Wire.Closed
import TypedDoc.Proofs.Wire.Reading

namespace TypedDoc.Wire

variable {α β : Type}

/-! ## Streams and outcomes -/

structure Alike (s s' : Supply) : Prop where
  flatten : s.pieces.flatten = s'.pieces.flatten
  parting : s.parting = []
  parting' : s'.parting = []
  ending : s.ending = s'.ending

/-- The same outcome; after an error nobody looks at the streams. -/
inductive Agree : EStateM.Result Error Supply α → EStateM.Result Error Supply α → Prop
  | ok (a : α) {s s' : Supply} : Alike s s' → Agree (.ok a s) (.ok a s')
  | error (e : Error) (s s' : Supply) : Agree (.error e s) (.error e s')

def Blind (d : Decoder α) : Prop := ∀ s s', Alike s s' → Agree (d s) (d s')

theorem Alike.bytes {s s' : Supply} (h : Alike s s') : s.bytes = s'.bytes := by
  unfold Supply.bytes
  rw [h.flatten, h.parting, h.parting']

theorem Blind.value {d : Decoder α} {s s' : Supply} (hd : Blind d) (h : Alike s s') : d.value s = d.value s' := by
  have hr := hd s s' h
  unfold Decoder.value
  generalize d s = r, d s' = r' at hr ⊢
  cases hr with
  | ok a ht => rfl
  | error e t t' => rfl

/-! ## Decoders put together -/

theorem blind_pure (a : α) : Blind (pure a : Decoder α) := fun _ _ h => .ok a h

theorem blind_throw (e : Error) : Blind (throw e : Decoder α) := fun s s' _ => .error e s s'

theorem blind_settled (r : Except Error α) : Blind (settled r) := by
  cases r with
  | ok a => exact blind_pure a
  | error e => exact blind_throw e

namespace Blind

theorem bind {d : Decoder α} {f : α → Decoder β} (hd : Blind d) (hf : ∀ a, Blind (f a)) : Blind (d >>= f) := by
  intro s s' h
  have hr := hd s s' h
  show Agree (EStateM.bind d f s) (EStateM.bind d f s')
  unfold EStateM.bind
  generalize d s = r, d s' = r' at hr ⊢
  cases hr with
  | ok a ht => exact hf a _ _ ht
  | error e t t' => exact .error e t t'

theorem ite {d d' : Decoder α} {p : Prop} [Decidable p] (h : Blind d) (h' : Blind d') : Blind (if p then d else d') := by
  split
  · exact h
  · exact h'

/-- A check before the rest. -/
theorem check {p : Prop} [Decidable p] {e : Error} {f : Unit → Decoder β} (h : Blind (f ())) :
    Blind (if p then throw e >>= f else f ()) :=
  .ite (fun s s' _ => .error e s s') h

end Blind

/-! ## Reading a number of bytes -/

/-- What a stream gives that parts with nothing is a matter of its bytes. -/
theorem Supply.take_whole {s : Supply} (hp : s.parting = []) (n : Nat) (ask : List (List UInt8) → Nat) :
    (s.take n ask).1 = s.pieces.flatten.take n ∧ (s.take n ask).2.pieces.flatten = s.pieces.flatten.drop n ∧
      (s.take n ask).2.parting = [] := by
  have hlen := length_pull n s.pieces
  have happ : s.pieces.flatten.take n ++ s.pieces.flatten.drop n = (pull n s.pieces).1 ++ (pull n s.pieces).2.flatten := by
    rw [List.take_append_drop, pull_append]
  obtain ⟨h1, h2⟩ := List.append_inj happ (by rw [List.length_take, hlen])
  unfold Supply.take
  by_cases hw : n - (pull n s.pieces).1.length = 0
  · simp only [if_pos hw]
    exact ⟨h1.symm, h2.symm, hp⟩
  · simp only [if_neg hw, hp, List.take_nil, List.append_nil]
    exact ⟨h1.symm, h2.symm, trivial⟩

theorem Supply.take_alike {s s' : Supply} (h : Alike s s') (n : Nat) (ask : List (List UInt8) → Nat) :
    (s.take n ask).1 = (s'.take n ask).1 ∧ Alike (s.take n ask).2 (s'.take n ask).2 := by
  obtain ⟨h1, h2, h3⟩ := s.take_whole h.parting n ask
  obtain ⟨h1', h2', h3'⟩ := s'.take_whole h.parting' n ask
  refine ⟨by rw [h1, h1', h.flatten], by rw [h2, h2', h.flatten], h3, h3', ?_⟩
  rw [(s.take_took n ask).ending, (s'.take_took n ask).ending, h.ending]

theorem blind_exactly (n : Nat) : Blind (exactly n) := by
  intro s s' h
  obtain ⟨hgot, hrest⟩ := Supply.take_alike h n fun _ => n
  simp only [exactly, hgot, h.ending]
  split
  · exact .ok _ hrest
  · exact .error _ _ _

theorem blind_upTo (n : Nat) : Blind (upTo n) := by
  intro s s' h
  obtain ⟨hgot, hrest⟩ := Supply.take_alike h n Buffer.askAfter
  simp only [upTo, hgot, h.ending]
  split
  · split
    · exact .ok _ hrest
    · exact .error _ _ _
  · exact .ok _ hrest

theorem closed_blind : Closed Blind where
  pure := blind_pure
  throw e _ := blind_throw e
  bind := Blind.bind
  exactly := blind_exactly
  stringBody _ n := (blind_upTo n).bind fun _ => .ite (blind_settled _) (blind_throw _)

end TypedDoc.Wire
