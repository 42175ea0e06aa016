/-
  TypedDoc.Proofs.Wire.Reading — what a decoder takes from a stream, and how little it
  depends on the rest of it.

  Two relations, one for each direction.
  - `Takes d bs a`: from any stream that has `bs` at hand, however it is cut and whatever
    comes behind, `d` takes exactly `bs` and gives `a`.
  - `Took s bs s'`: between `s` and `s'` the bytes `bs` were taken from the front. What a
    stream parts with once may be lost on the way; nothing is lost from one that does not.

  `Codes d form Has` joins them: `d` succeeds on the forms of the things that `Has` holds
  of, and on nothing else. Both relations go through sequencing (`Takes.bind`,
  `Took.trans`), so a decoder's lemma is put together from those of its parts.
-/

import Mathlib.Data.List.Infix
import TypedDoc.Wire.Codec

namespace TypedDoc.Wire

variable {α β : Type}

/-! ## One step and then another -/

section

variable {ε σ : Type} {m : EStateM ε σ α} {f : α → EStateM ε σ β} {s s' : σ}

/-- The state a step leaves, also when it fails. -/
def left : EStateM.Result ε σ α → σ
  | .ok _ s | .error _ s => s

theorem bind_eq_of_ok (f : α → EStateM ε σ β) {a : α} (h : m s = .ok a s') : (m >>= f) s = f a s' := by
  show EStateM.bind m f s = f a s'
  simp only [EStateM.bind, h]

theorem bind_eq_of_error (f : α → EStateM ε σ β) {e : ε} (h : m s = .error e s') : (m >>= f) s = .error e s' := by
  show EStateM.bind m f s = .error e s'
  simp only [EStateM.bind, h]

theorem bind_eq_ok {b : β} : (m >>= f) s = .ok b s' ↔ ∃ a s₁, m s = .ok a s₁ ∧ f a s₁ = .ok b s' := by
  cases hm : m s with
  | ok a s₁ =>
    rw [bind_eq_of_ok f hm]
    constructor
    · intro h; exact ⟨a, s₁, rfl, h⟩
    · rintro ⟨_, _, h₁, h⟩; cases h₁; exact h
  | error e s₁ =>
    rw [bind_eq_of_error f hm]
    exact ⟨nofun, fun ⟨_, _, h, _⟩ => nomatch h⟩

end

/-! ## Pulling from pieces -/

theorem pull_append (n : Nat) (ps : List (List UInt8)) : (pull n ps).1 ++ (pull n ps).2.flatten = ps.flatten := by
  induction ps generalizing n with
  | nil => simp [pull]
  | cons p ps ih =>
    simp only [pull]
    split
    · rename_i h
      have hp : p.take n = p := List.take_of_length_le (by rw [List.length_take] at h; omega)
      simp only [List.flatten_cons, List.append_assoc, ih, hp]
    · simp only [List.flatten_cons, ← List.append_assoc, List.take_append_drop]

theorem length_pull (n : Nat) (ps : List (List UInt8)) : (pull n ps).1.length = min n ps.flatten.length := by
  induction ps generalizing n with
  | nil => simp [pull]
  | cons p ps ih =>
    simp only [pull]
    split
    · rename_i h
      simp only [List.length_append, ih, List.length_take, List.flatten_cons] at h ⊢
      omega
    · rename_i h
      simp only [List.length_append, List.length_take, List.flatten_cons] at h ⊢
      omega

theorem pull_eq_nil {n : Nat} {ps : List (List UInt8)} (h : (pull n ps).1.length < n) : (pull n ps).2 = [] := by
  induction ps generalizing n with
  | nil => simp [pull]
  | cons p ps ih =>
    simp only [pull] at h ⊢
    split
    · rename_i hp
      rw [if_pos hp] at h
      simp only [List.length_append] at h
      exact ih (by omega)
    · rename_i hp
      rw [if_neg hp] at h
      exact absurd h hp

theorem pull_eq {n : Nat} {ps : List (List UInt8)} {bs rest : List UInt8} (h : ps.flatten = bs ++ rest)
    (hn : bs.length = n) : (pull n ps).1 = bs ∧ (pull n ps).2.flatten = rest := by
  have hl := length_pull n ps
  have ha := pull_append n ps
  rw [h] at ha hl
  rw [List.length_append] at hl
  exact List.append_inj ha (by omega)

/-! ## The two relations -/

def Takes (d : Decoder α) (bs : List UInt8) (a : α) : Prop :=
  ∀ (s : Supply) (rest : List UInt8), s.pieces.flatten = bs ++ rest →
    ∃ s', d s = .ok a s' ∧ s'.pieces.flatten = rest ∧ s'.parting = s.parting ∧ s'.ending = s.ending

structure Took (s : Supply) (bs : List UInt8) (s' : Supply) : Prop where
  held : bs ++ s'.bytes <+: s.bytes
  whole : s.parting = [] → s'.parting = [] ∧ s.bytes = bs ++ s'.bytes
  ending : s'.ending = s.ending

theorem Took.refl (s : Supply) : Took s [] s := ⟨List.prefix_refl _, fun h => ⟨h, rfl⟩, rfl⟩

theorem Took.trans {s s' s'' : Supply} {bs bs' : List UInt8} (h : Took s bs s') (h' : Took s' bs' s'') :
    Took s (bs ++ bs') s'' := by
  refine ⟨?_, fun hp => ?_, h'.ending.trans h.ending⟩
  · obtain ⟨x, hx⟩ := h.held
    obtain ⟨y, hy⟩ := h'.held
    exact ⟨y ++ x, by rw [← hx, ← hy]; simp⟩
  · obtain ⟨hp', e⟩ := h.whole hp
    obtain ⟨hp'', e'⟩ := h'.whole hp'
    exact ⟨hp'', by rw [e, e', List.append_assoc]⟩

theorem Took.of_eq {s s' : Supply} {bs bs' : List UInt8} (h : Took s bs s') (e : bs = bs') : Took s bs' s' := e ▸ h

theorem Takes.of_eq {d : Decoder α} {bs bs' : List UInt8} {a a' : α} (h : Takes d bs a) (e : bs = bs') (e' : a = a') :
    Takes d bs' a' := e ▸ e' ▸ h

theorem takes_pure (a : α) : Takes (pure a : Decoder α) [] a :=
  fun s _ h => ⟨s, rfl, h, rfl, rfl⟩

theorem Takes.bind {d : Decoder α} {f : α → Decoder β} {bs bs' : List UInt8} {a : α} {b : β}
    (h : Takes d bs a) (h' : Takes (f a) bs' b) : Takes (d >>= f) (bs ++ bs') b := by
  intro s rest hs
  obtain ⟨s', h1, h2, h3, h4⟩ := h s (bs' ++ rest) (by rw [hs, List.append_assoc])
  obtain ⟨s'', h1', h2', h3', h4'⟩ := h' s' rest h2
  refine ⟨s'', ?_, h2', h3'.trans h3, h4'.trans h4⟩
  show EStateM.bind d f s = _
  simp only [EStateM.bind, h1, h1']

theorem Takes.map {d : Decoder α} {bs : List UInt8} {a : α} (f : α → β) (h : Takes d bs a) :
    Takes (f <$> d) bs (f a) := by
  intro s rest hs
  obtain ⟨s', h1, h2⟩ := h s rest hs
  refine ⟨s', ?_, h2⟩
  show EStateM.map f d s = _
  simp only [EStateM.map, h1]

theorem takes_settled {r : Except Error α} {a : α} (h : r = .ok a) : Takes (settled r) [] a := by
  subst h
  exact takes_pure a

/-! ## Taking a success apart -/

theorem pure_ok {a b : α} {s s' : Supply} (h : (pure a : Decoder α) s = .ok b s') : b = a ∧ s' = s := by
  cases h
  exact ⟨rfl, rfl⟩

theorem throw_ne_ok {e : Error} {s s' : Supply} {a : α} (h : (throw e : Decoder α) s = .ok a s') : False := by
  cases h

theorem bind_ok {d : Decoder α} {f : α → Decoder β} {s s'' : Supply} {b : β} (h : (d >>= f) s = .ok b s'') :
    ∃ a s', d s = .ok a s' ∧ f a s' = .ok b s'' := by
  have h' : EStateM.bind d f s = .ok b s'' := h
  simp only [EStateM.bind] at h'
  split at h'
  · exact ⟨_, _, ‹_›, h'⟩
  · cases h'

theorem map_ok {d : Decoder α} {f : α → β} {s s' : Supply} {b : β} (h : (f <$> d) s = .ok b s') :
    ∃ a, d s = .ok a s' ∧ f a = b := by
  have h' : EStateM.map f d s = .ok b s' := h
  simp only [EStateM.map] at h'
  split at h'
  · cases h'
    exact ⟨_, ‹_›, rfl⟩
  · cases h'

theorem settled_ok {r : Except Error α} {s s' : Supply} {a : α} (h : settled r s = .ok a s') : r = .ok a ∧ s' = s := by
  cases r with
  | error e => cases h
  | ok b => cases h; exact ⟨rfl, rfl⟩

theorem settled_bind_ok {r : Except Error α} {f : α → Decoder β} {s s' : Supply} {b : β}
    (h : (settled r >>= f) s = .ok b s') : ∃ a, r = .ok a ∧ f a s = .ok b s' := by
  obtain ⟨a, s1, h1, h2⟩ := bind_ok h
  obtain ⟨hr, rfl⟩ := settled_ok h1
  exact ⟨a, hr, h2⟩

/-! ## Reading a number of bytes -/

theorem Supply.take_eq {s : Supply} {bs rest : List UInt8} {n : Nat} (ask : List (List UInt8) → Nat)
    (h : s.pieces.flatten = bs ++ rest) (hn : bs.length = n) :
    ∃ ps, s.take n ask = (bs, { s with pieces := ps }) ∧ ps.flatten = rest := by
  obtain ⟨h1, h2⟩ := pull_eq h hn
  refine ⟨(pull n s.pieces).2, ?_, h2⟩
  simp [Supply.take, h1, hn]

theorem Supply.take_took (s : Supply) (n : Nat) (ask : List (List UInt8) → Nat) :
    Took s (s.take n ask).1 (s.take n ask).2 := by
  have ha := pull_append n s.pieces
  simp only [Supply.take]
  split
  · refine ⟨?_, fun hp => ⟨hp, ?_⟩, rfl⟩ <;> rw [Supply.bytes, Supply.bytes, ← List.append_assoc, ha]
  · rename_i hw
    have hnil : (pull n s.pieces).2 = [] := pull_eq_nil (by omega)
    rw [hnil, List.flatten_nil, List.append_nil] at ha
    refine ⟨?_, fun hp => ⟨rfl, ?_⟩, rfl⟩
    · simp only [Supply.bytes, hnil, List.flatten_nil, List.append_nil, ha]
      exact (List.prefix_append_right_inj _).2 (List.take_prefix _ _)
    · simp [Supply.bytes, hnil, ha, hp]

theorem takes_exactly {bs : List UInt8} {n : Nat} (hn : bs.length = n) : Takes (exactly n) bs bs := by
  intro s rest h
  obtain ⟨ps, h1, h2⟩ := Supply.take_eq (fun _ => n) h hn
  exact ⟨{ s with pieces := ps }, by simp [exactly, h1, hn], h2, rfl, rfl⟩

theorem takes_upTo {bs : List UInt8} {n : Nat} (hn : bs.length = n) : Takes (upTo n) bs bs := by
  intro s rest h
  obtain ⟨ps, h1, h2⟩ := Supply.take_eq Buffer.askAfter h hn
  refine ⟨{ s with pieces := ps }, ?_, h2, rfl, rfl⟩
  simp only [upTo, h1]
  split <;> simp [hn]

theorem exactly_ok {n : Nat} {s s' : Supply} {bs : List UInt8} (h : exactly n s = .ok bs s') :
    bs.length = n ∧ Took s bs s' := by
  simp only [exactly] at h
  split at h
  · cases h
    exact ⟨‹_›, s.take_took n _⟩
  · cases h

theorem upTo_ok {n : Nat} {s s' : Supply} {bs : List UInt8} (h : upTo n s = .ok bs s') : Took s bs s' := by
  have took := s.take_took n Buffer.askAfter
  simp only [upTo] at h
  split at h
  · split at h
    · cases h; exact took
    · cases h
  · cases h; exact took

/-! ## Decoders that do not depend on what they leave -/

/-- What was taken would have given the same from any other stream. -/
def Local (d : Decoder α) : Prop := ∀ s a s', d s = .ok a s' → ∃ bs, Took s bs s' ∧ Takes d bs a

namespace Local

theorem pure (a : α) : Local (Pure.pure a : Decoder α) := by
  intro s b s' h
  obtain ⟨rfl, rfl⟩ := pure_ok h
  exact ⟨[], .refl _, takes_pure _⟩

theorem throw (e : Error) : Local (MonadExcept.throw e : Decoder α) := fun _ _ _ h => (throw_ne_ok h).elim

theorem bind {d : Decoder α} {f : α → Decoder β} (h : Local d) (hf : ∀ a, Local (f a)) : Local (d >>= f) := by
  intro s b s'' hs
  obtain ⟨a, s', h1, h2⟩ := bind_ok hs
  obtain ⟨bs, t, k⟩ := h s a s' h1
  obtain ⟨bs', t', k'⟩ := hf a s' b s'' h2
  exact ⟨bs ++ bs', t.trans t', k.bind k'⟩

theorem ite {d d' : Decoder α} {p : Prop} [Decidable p] (h : Local d) (h' : Local d') : Local (if p then d else d') := by
  split
  · exact h
  · exact h'

/-- A check before the rest. -/
theorem check {p : Prop} [Decidable p] {e : Error} {f : Unit → Decoder β} (h : Local (f ())) :
    Local (if p then MonadExcept.throw e >>= f else f ()) :=
  .ite (fun _ _ _ hs => by obtain ⟨_, _, h1, -⟩ := bind_ok hs; exact (throw_ne_ok h1).elim) h

theorem exactly (n : Nat) : Local (Wire.exactly n) := by
  intro s bs s' h
  obtain ⟨hn, t⟩ := exactly_ok h
  exact ⟨bs, t, takes_exactly hn⟩

theorem settled (r : Except Error α) : Local (Wire.settled r) := by
  cases r with
  | ok a => exact .pure a
  | error e => exact .throw e

end Local

/-! ## Decoders of things with one form each -/

structure Codes (d : Decoder α) (form : α → List UInt8) (Has : α → Prop) : Prop where
  takes : ∀ a, Has a → Takes d (form a) a
  took : ∀ s a s', d s = .ok a s' → Has a ∧ Took s (form a) s'

theorem Codes.isLocal {d : Decoder α} {form : α → List UInt8} {Has : α → Prop} (h : Codes d form Has) : Local d := by
  intro s a s' hs
  obtain ⟨ha, t⟩ := h.took s a s' hs
  exact ⟨form a, t, h.takes a ha⟩

theorem codes_exactly (n : Nat) : Codes (exactly n) (fun bs => bs) fun bs => bs.length = n :=
  ⟨fun _ => takes_exactly, fun _ _ _ => exactly_ok⟩

/-- A decoder followed by a check that passes things with one form each. -/
theorem Codes.settle {d : Decoder α} {form : α → List UInt8} {Has : α → Prop} (h : Codes d form Has)
    (f : α → Except Error β) (g : β → α) (hfg : ∀ b, f (g b) = .ok b) (hgf : ∀ a b, Has a → f a = .ok b → g b = a)
    (hg : ∀ b, Has (g b)) : Codes (d >>= fun a => settled (f a)) (fun b => form (g b)) fun _ => True := by
  refine ⟨fun b _ => ?_, fun s b s' hs => ?_⟩
  · exact ((h.takes (g b) (hg b)).bind (takes_settled (hfg b))).of_eq (List.append_nil _) rfl
  · obtain ⟨a, s1, h1, h2⟩ := bind_ok hs
    obtain ⟨hf, rfl⟩ := settled_ok h2
    obtain ⟨ha, ht⟩ := h.took _ _ _ h1
    exact ⟨trivial, ht.of_eq (by rw [hgf a b ha hf])⟩

/-- A decoder followed by a function that loses nothing. -/
theorem Codes.map {d : Decoder α} {form : α → List UInt8} {Has : α → Prop} (h : Codes d form Has)
    (f : α → β) (g : β → α) (hfg : ∀ b, f (g b) = b) (hgf : ∀ a, Has a → g (f a) = a) (hg : ∀ b, Has (g b)) :
    Codes (f <$> d) (fun b => form (g b)) fun _ => True := by
  refine ⟨fun b _ => ?_, fun s b s' hs => ?_⟩
  · exact ((h.takes (g b) (hg b)).map f).of_eq rfl (hfg b)
  · obtain ⟨a, h1, rfl⟩ := map_ok hs
    obtain ⟨ha, ht⟩ := h.took _ _ _ h1
    exact ⟨trivial, ht.of_eq (by rw [hgf a ha])⟩

end TypedDoc.Wire
