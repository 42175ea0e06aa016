/-
  TypedDoc.Proofs.Value.Course — the course that reading takes, loop by loop, with nothing
  but the data to stop it.

  A loop reads entries until it meets the terminator, or elements until it has as many as
  were declared. A `Course` runs such loops as they stand in the format, without a budget,
  and counts their steps: those that were completed, each with the bytes it took, and those
  that a failure broke off. Steps of loops inside of steps count as well.

  - `single_decode`: there is no more than one course, part by part.
  - `Goes`: there is one to this result, each completed step took a byte, together they took
    no more than there was, and few steps were broken off.
  - `goes_payload`: that is how decoding goes, by induction on the levels; entries run down
    with the bytes at hand, elements with their number.
  - `decoding_bounded`: so it comes to an end, and the tree it makes is no larger than what
    it took.
-/

import TypedDoc.Proofs.Value.Budget
import TypedDoc.Proofs.Value.Size

namespace TypedDoc

open Wire

/-! ## Courses -/

structure Steps where
  /-- The bytes that each completed step took. -/
  completed : List Nat
  broken : Nat

namespace Steps

def none : Steps := ⟨[], 0⟩

def one (taken : Nat) : Steps := ⟨[taken], 0⟩

def cut : Steps := ⟨[], 1⟩

def append (t t' : Steps) : Steps := ⟨t.completed ++ t'.completed, t.broken + t'.broken⟩

instance : Append Steps := ⟨append⟩

@[simp] theorem completed_append (t t' : Steps) : (t ++ t').completed = t.completed ++ t'.completed := rfl

@[simp] theorem broken_append (t t' : Steps) : (t ++ t').broken = t.broken + t'.broken := rfl

end Steps

/-- From a supply, by these steps, to this result. -/
abbrev Course (α : Type) := Supply → Steps → EStateM.Result Error Supply α → Prop

namespace Course

variable {α β σ : Type}

/-- A decoder that has no loop, at once. -/
def plain (d : Decoder α) : Course α := fun s t r => t = .none ∧ r = d s

inductive Then (x : Course α) (f : α → Course β) : Course β
  | failed {s s' : Supply} {t : Steps} {e : Error} : x s t (.error e s') → Then x f s t (.error e s')
  | next {s s' : Supply} {t t' : Steps} {a : α} {r : EStateM.Result Error Supply β} :
      x s t (.ok a s') → f a s' t' r → Then x f s (t ++ t') r

/-- The body over and over, until it ends the loop or fails. -/
inductive Loop (body : σ → Course (σ ⊕ β)) : σ → Course β
  | failed {a : σ} {s s' : Supply} {t : Steps} {e : Error} :
      body a s t (.error e s') → Loop body a s (t ++ .cut) (.error e s')
  | ended {a : σ} {s s' : Supply} {t : Steps} {b : β} : body a s t (.ok (.inr b) s') → Loop body a s t (.ok b s')
  | next {a a' : σ} {s s' : Supply} {t t' : Steps} {r : EStateM.Result Error Supply β} :
      body a s t (.ok (.inl a') s') → Loop body a' s' t' r → Loop body a s (t ++ (.one (s.size - s'.size) ++ t')) r

/-! ## Loops in the format -/

section

variable (reg : Registry) (c : Charset) (payload : Kind → Course Payload)

def entryStep (es : List (String × Value)) : Course (List (String × Value) ⊕ List (String × Value)) :=
  (plain takeByte).Then fun id =>
    if id = TypeId.terminator.toByte then plain (pure (.inr es))
    else (plain (settled (reg.kindOf id))).Then fun kind => (plain (takeString c)).Then fun name =>
      (payload kind).Then fun p => plain (pure (.inl (Entries.put name ⟨some name, p, false⟩ es)))

def elementStep (one : Course α) : Nat × List α → Course (Nat × List α ⊕ List α)
  | (0, acc) => plain (pure (.inr acc.reverse))
  | (n + 1, acc) => one.Then fun a => plain (pure (.inl (n, a :: acc)))

def list : Course (List Value) :=
  (plain takeByte).Then fun id =>
    if id = TypeId.terminator.toByte then plain (pure [])
    else (plain (settled (reg.kindOf id))).Then fun kind => (plain takeCount).Then fun count =>
      Loop (elementStep ((plain (takeString c)).Then fun name =>
        (payload kind).Then fun p => plain (pure ⟨some name, p, false⟩))) (count, [])

def array : Course (List Value) :=
  (plain takeByte).Then fun id =>
    if id = TypeId.terminator.toByte then plain (pure [])
    else (plain (settled (reg.kindOf id))).Then fun kind =>
      if !kind.isPrimitive then plain (throw (.invalidElementType id))
      else (plain takeCount).Then fun count =>
        Loop (elementStep ((payload kind).Then fun p => plain (pure ⟨none, p, false⟩))) (count, [])

end

/-- A payload of a kind. A scalar has no loop, and no use for a budget. -/
def payload (reg : Registry) (c : Charset) : (levels : Nat) → Kind → Course Payload
  | 0, _ => plain (throw (.nestingTooDeep maxDepth))
  | levels + 1, .object => (Loop (entryStep reg c (payload reg c levels)) []).Then fun es => plain (pure (.object es))
  | levels + 1, .list => (list reg c (payload reg c levels)).Then fun xs => plain (pure (.list xs))
  | levels + 1, .array => (array reg (payload reg c levels)).Then fun xs => plain (pure (.array xs))
  | _ + 1, k => plain (takePayload reg c 0 1 k)

/-- A payload of the value's own kind, in its place. -/
def decode (reg : Registry) (c : Charset) (v : Value) : Course Value :=
  (payload reg c (maxDepth + 1) v.kind).Then fun p => plain (pure { v with payload := p, modified := false })

/-! ## No more than one -/

def Single (x : Course α) : Prop := ∀ ⦃s t r t' r'⦄, x s t r → x s t' r' → t = t' ∧ r = r'

theorem single_plain (d : Decoder α) : Single (plain d) := by
  rintro s t r t' r' ⟨rfl, rfl⟩ ⟨rfl, rfl⟩
  exact ⟨rfl, rfl⟩

theorem single_ite {p : Prop} [Decidable p] {x y : Course α} (hx : Single x) (hy : Single y) : Single (if p then x else y) := by
  split
  · exact hx
  · exact hy

theorem single_then {x : Course α} {f : α → Course β} (hx : Single x) (hf : ∀ a, Single (f a)) : Single (x.Then f) := by
  intro s t r t' r' h h'
  cases h with
  | failed h =>
    cases h' with
    | failed h' =>
      obtain ⟨rfl, hr⟩ := hx h h'
      cases hr
      exact ⟨rfl, rfl⟩
    | next h' _ => cases (hx h h').2
  | next h hrest =>
    cases h' with
    | failed h' => cases (hx h h').2
    | next h' hrest' =>
      obtain ⟨rfl, hr⟩ := hx h h'
      cases hr
      obtain ⟨rfl, rfl⟩ := hf _ hrest hrest'
      exact ⟨rfl, rfl⟩

theorem single_loop {body : σ → Course (σ ⊕ β)} (hbody : ∀ a, Single (body a)) (a : σ) : Single (Loop body a) := by
  intro s t r t' r' h h'
  induction h generalizing t' r' with
  | failed h =>
    cases h' with
    | failed h' =>
      obtain ⟨rfl, hr⟩ := hbody _ h h'
      cases hr
      exact ⟨rfl, rfl⟩
    | ended h' => cases (hbody _ h h').2
    | next h' _ => cases (hbody _ h h').2
  | ended h =>
    cases h' with
    | failed h' => cases (hbody _ h h').2
    | ended h' =>
      obtain ⟨rfl, hr⟩ := hbody _ h h'
      cases hr
      exact ⟨rfl, rfl⟩
    | next h' _ => cases (hbody _ h h').2
  | next h _ ih =>
    cases h' with
    | failed h' => cases (hbody _ h h').2
    | ended h' => cases (hbody _ h h').2
    | next h' hrest' =>
      obtain ⟨rfl, hr⟩ := hbody _ h h'
      cases hr
      obtain ⟨rfl, rfl⟩ := ih hrest'
      exact ⟨rfl, rfl⟩

section

variable {x : Kind → Course Payload} (single : ∀ k, Single (x k)) (reg : Registry) (c : Charset)

theorem single_element {y : Course α} (hy : Single y) (rest : Nat × List α) : Single (elementStep y rest) := by
  obtain ⟨count, acc⟩ := rest
  cases count with
  | zero => exact single_plain _
  | succ n => exact single_then hy fun a => single_plain _

include single

theorem single_entry (es : List (String × Value)) : Single (entryStep reg c x es) := by
  refine single_then (single_plain _) fun id => single_ite (single_plain _) ?_
  refine single_then (single_plain _) fun kind => single_then (single_plain _) fun name => ?_
  exact single_then (single kind) fun p => single_plain _

theorem single_list : Single (list reg c x) := by
  refine single_then (single_plain _) fun id => single_ite (single_plain _) ?_
  refine single_then (single_plain _) fun kind => single_then (single_plain _) fun count => ?_
  refine single_loop (single_element ?_) _
  exact single_then (single_plain _) fun name => single_then (single kind) fun p => single_plain _

theorem single_array : Single (array reg x) := by
  refine single_then (single_plain _) fun id => single_ite (single_plain _) ?_
  refine single_then (single_plain _) fun kind => single_ite (single_plain _) ?_
  refine single_then (single_plain _) fun count => single_loop (single_element ?_) _
  exact single_then (single kind) fun p => single_plain _

end

theorem single_payload (reg : Registry) (c : Charset) (levels : Nat) (k : Kind) : Single (payload reg c levels k) := by
  induction levels generalizing k with
  | zero => exact single_plain _
  | succ n ih =>
    cases k with
    | object => exact single_then (single_loop (single_entry ih reg c) []) fun es => single_plain _
    | list => exact single_then (single_list ih reg c) fun xs => single_plain _
    | array => exact single_then (single_array ih reg) fun xs => single_plain _
    | _ => exact single_plain _

theorem single_decode (reg : Registry) (c : Charset) (v : Value) : Single (decode reg c v) :=
  single_then (single_payload reg c (maxDepth + 1) v.kind) fun _ => single_plain _

/-! ## What they come to -/

/-- Steps on the way from a supply to a result that cost no more bytes than were taken: one
    for each completed, and beside them `own` if there is success. -/
structure Paid (own : α → Nat) (broken : Nat) (s : Supply) (t : Steps) (r : EStateM.Result Error Supply α) : Prop where
  taken : ∀ n ∈ t.completed, 1 ≤ n
  ok : ∀ a s', r = .ok a s' → t.completed.length + own a + s'.size ≤ s.size ∧ t.broken = 0
  error : ∀ e s', r = .error e s' → t.completed.length + s'.size ≤ s.size ∧ t.broken ≤ broken

def Goes (x : Course α) (own : α → Nat) (broken : Nat) (s : Supply) (r : EStateM.Result Error Supply α) : Prop :=
  ∃ t, x s t r ∧ Paid own broken s t r

variable {x : Course α} {f : α → Course β} {d : Decoder α} {g : α → Decoder β} {broken : Nat} {s : Supply}

theorem goes_plain {own : α → Nat} (ok : ∀ a s', d s = .ok a s' → own a + s'.size ≤ s.size)
    (error : ∀ e s', d s = .error e s' → s'.size ≤ s.size) : Goes (plain d) own broken s (d s) := by
  refine ⟨.none, ⟨rfl, rfl⟩, List.forall_mem_nil _, fun a s' h => ⟨?_, rfl⟩, fun e s' h => ⟨?_, Nat.zero_le _⟩⟩
  · have := ok a s' h
    simp only [Steps.none, List.length_nil]
    omega
  · have := error e s' h
    simp only [Steps.none, List.length_nil]
    omega

theorem goes_mono {r : EStateM.Result Error Supply α} {own own' : α → Nat} {broken' : Nat} (h : Goes x own broken s r)
    (hown : ∀ a, own' a ≤ own a) (hbroken : broken ≤ broken') : Goes x own' broken' s r := by
  obtain ⟨t, hrun, htaken, hok, herror⟩ := h
  refine ⟨t, hrun, htaken, fun a s' hr => ?_, fun e s' hr => ?_⟩
  · obtain ⟨hpaid, hnone⟩ := hok a s' hr
    have := hown a
    omega
  · obtain ⟨hpaid, hfew⟩ := herror e s' hr
    omega

theorem goes_then (own own' : Nat) (hx : Goes x (fun _ => own) broken s (d s))
    (hf : ∀ a s', d s = .ok a s' → Goes (f a) (fun _ => own') broken s' (g a s')) :
    Goes (x.Then f) (fun _ => own + own') broken s ((d >>= g) s) := by
  obtain ⟨t, hrun, htaken, hok, herror⟩ := hx
  cases hd : d s with
  | error e s' =>
    rw [hd] at hrun
    rw [bind_eq_of_error g hd]
    refine ⟨t, .failed hrun, htaken, nofun, fun e' s'' h => ?_⟩
    cases h
    exact herror e s' hd
  | ok a s' =>
    rw [hd] at hrun
    rw [bind_eq_of_ok g hd]
    obtain ⟨t', hrun', htaken', hok', herror'⟩ := hf a s' hd
    obtain ⟨hpaid, hnone⟩ := hok a s' hd
    refine ⟨t ++ t', .next hrun hrun', List.forall_mem_append.2 ⟨htaken, htaken'⟩, fun b s'' h => ?_, fun e s'' h => ?_⟩
    · obtain ⟨hpaid', hnone'⟩ := hok' b s'' h
      simp only [Steps.completed_append, Steps.broken_append, List.length_append]
      omega
    · obtain ⟨hpaid', hfew⟩ := herror' e s'' h
      simp only [Steps.completed_append, Steps.broken_append, List.length_append]
      omega

/-- One round of a loop, and what comes after it. A round that goes on has a byte to count
    for itself. -/
theorem goes_loop {body : σ → Course (σ ⊕ β)} {a : σ} {d : Decoder (σ ⊕ β)} {rest : σ → Decoder β} {own : Nat}
    (hbody : Goes (body a) (Sum.elim (fun _ => 1) fun _ => own) broken s (d s))
    (hrest : ∀ a' s', d s = .ok (.inl a') s' → s'.size < s.size → Goes (Loop body a') (fun _ => own) (broken + 1) s' (rest a' s')) :
    Goes (Loop body a) (fun _ => own) (broken + 1) s ((d >>= Sum.elim rest pure) s) := by
  obtain ⟨t, hrun, htaken, hok, herror⟩ := hbody
  cases hd : d s with
  | error e s' =>
    rw [hd] at hrun
    rw [bind_eq_of_error _ hd]
    obtain ⟨hpaid, hfew⟩ := herror e s' hd
    refine ⟨t ++ .cut, .failed hrun, List.forall_mem_append.2 ⟨htaken, List.forall_mem_nil _⟩, nofun, fun e' s'' h => ?_⟩
    cases h
    simp only [Steps.completed_append, Steps.broken_append, Steps.cut, List.append_nil]
    omega
  | ok r s' =>
    rw [hd] at hrun
    rw [bind_eq_of_ok _ hd]
    obtain ⟨hpaid, hnone⟩ := hok r s' hd
    cases r with
    | inr b =>
      show Goes (Loop body a) (fun _ => own) (broken + 1) s (.ok b s')
      refine ⟨t, .ended hrun, htaken, fun b' s'' h => ?_, fun e s'' h => nomatch h⟩
      cases h
      exact ⟨hpaid, hnone⟩
    | inl a' =>
      show Goes (Loop body a) (fun _ => own) (broken + 1) s (rest a' s')
      simp only [Sum.elim_inl] at hpaid
      obtain ⟨t', hrun', htaken', hok', herror'⟩ := hrest a' s' hd (by omega)
      have hone : ∀ n ∈ [s.size - s'.size], 1 ≤ n := List.forall_mem_singleton.2 (by omega)
      refine ⟨t ++ (.one (s.size - s'.size) ++ t'), .next hrun hrun', ?_, fun b s'' h => ?_, fun e s'' h => ?_⟩
      · exact List.forall_mem_append.2 ⟨htaken, List.forall_mem_append.2 ⟨hone, htaken'⟩⟩
      · obtain ⟨hpaid', hnone'⟩ := hok' b s'' h
        simp only [Steps.completed_append, Steps.broken_append, Steps.one, List.length_append, List.length_singleton]
        omega
      · obtain ⟨hpaid', hfew⟩ := herror' e s'' h
        simp only [Steps.completed_append, Steps.broken_append, Steps.one, List.length_append, List.length_singleton]
        omega

/-! ## Parts without a loop -/

theorem goes_of_took (h : Shrinks d) {n : Nat} (ht : ∀ a s', d s = .ok a s' → ∃ bs, Took s bs s' ∧ n ≤ bs.length) :
    Goes (plain d) (fun _ => n) broken s (d s) := by
  refine goes_plain (fun a s' hd => ?_) fun e s' hd => h.error hd
  obtain ⟨bs, took, hn⟩ := ht a s' hd
  have := took.size
  omega

theorem goes_of_shrinks (h : Shrinks d) : Goes (plain d) (fun _ => 0) broken s (d s) :=
  goes_plain (fun _ _ hd => (Nat.zero_add _).le.trans (h.ok hd)) fun _ _ hd => h.error hd

theorem goes_takeByte : Goes (plain takeByte) (fun _ => 1) broken s (takeByte s) :=
  goes_of_took closed_shrinks.takeByte fun _ _ h => ⟨_, (codes_takeByte.took _ _ _ h).2, Nat.le_refl 1⟩

/-! ## Loops -/

section

variable {reg : Registry} {c : Charset} {x : Kind → Course Payload} {payload : Kind → Decoder Payload} {size : Nat}
  (goes : ∀ k s, s.size ≤ size → Goes (x k) (fun _ => 1) broken s (payload k s))

/-- One entry, or the end of them. -/
def takeEntry (reg : Registry) (c : Charset) (payload : Kind → Decoder Payload) (es : List (String × Value)) :
    Decoder (List (String × Value) ⊕ List (String × Value)) := do
  let id ← takeByte
  if id = TypeId.terminator.toByte then return .inr es
  let kind ← settled (reg.kindOf id)
  let name ← takeString c
  let p ← payload kind
  return .inl (Entries.put name ⟨some name, p, false⟩ es)

theorem takeEntries_eq_loop (n : Nat) (es : List (String × Value)) :
    takeEntries reg c payload (n + 1) es = takeEntry reg c payload es >>= Sum.elim (takeEntries reg c payload n) pure := by
  rw [takeEntries, takeEntry, bind_assoc]
  refine bind_congr fun id => ?_
  split
  · rw [pure_bind]
    rfl
  · simp only [bind_assoc, pure_bind]
    rfl

theorem takeMany_eq_loop (one : Decoder α) (n : Nat) (acc : List α) :
    takeMany one (n + 1) acc =
      (one >>= fun a => pure (.inl (n, a :: acc))) >>= Sum.elim (fun (n, acc) => takeMany one n acc) pure := by
  rw [takeMany, bind_assoc]
  refine bind_congr fun a => ?_
  rw [pure_bind]
  rfl

include goes

theorem goes_entry (hs : s.size ≤ size) (es : List (String × Value)) :
    Goes (entryStep reg c x es) (fun _ => 1) broken s (takeEntry reg c payload es s) := by
  refine goes_then 1 0 goes_takeByte fun id s₁ h₁ => ?_
  have t₁ := (codes_takeByte.took _ _ _ h₁).2.size
  by_cases hid : id = TypeId.terminator.toByte
  · rw [if_pos hid, if_pos hid]
    exact goes_of_shrinks (.pure _)
  · rw [if_neg hid, if_neg hid]
    refine goes_then 0 0 (goes_of_shrinks (.settled _)) fun kind s₂ h₂ => ?_
    obtain ⟨-, rfl⟩ := settled_ok h₂
    refine goes_then 0 0 (goes_of_shrinks (closed_shrinks.takeString c)) fun name s₃ h₃ => ?_
    have t₃ := ((codes_takeString c).took _ _ _ h₃).2.size
    have hpayload : Goes (x kind) (fun _ => 0) broken s₃ (payload kind s₃) :=
      goes_mono (goes kind s₃ (by omega)) (fun _ => Nat.zero_le 1) (Nat.le_refl _)
    exact goes_then 0 0 hpayload fun p s₄ h₄ => goes_of_shrinks (.pure _)

/-- The bytes run out before the budget. -/
theorem goes_entries {budget : Nat} (hs : s.size ≤ size) (hb : s.size < budget) (es : List (String × Value)) :
    Goes (Loop (entryStep reg c x) es) (fun _ => 1) (broken + 1) s (takeEntries reg c payload budget es s) := by
  induction budget generalizing s es with
  | zero => exact absurd hb (Nat.not_lt_zero _)
  | succ n ih =>
    rw [takeEntries_eq_loop]
    refine goes_loop (goes_mono (goes_entry goes hs es) (fun r => ?_) (Nat.le_refl _)) fun es' s' _ hless => ?_
    · cases r <;> exact Nat.le_refl 1
    · exact ih (by omega) (by omega) es'

omit goes

theorem goes_many {y : Course α} {one : Decoder α} (hone : ∀ s, s.size ≤ size → Goes y (fun _ => 1) broken s (one s))
    (hs : s.size ≤ size) (count : Nat) (acc : List α) :
    Goes (Loop (elementStep y) (count, acc)) (fun _ => 0) (broken + 1) s (takeMany one count acc s) := by
  induction count generalizing s acc with
  | zero =>
    have hone : takeMany one 0 acc = pure (.inr acc.reverse) >>= Sum.elim (fun (n, acc) => takeMany one n acc) pure := rfl
    rw [hone]
    refine goes_loop (goes_plain (fun r s' h => ?_) fun e s' h => ?_) fun a' s' h => ?_
    · obtain ⟨rfl, rfl⟩ := pure_ok h
      exact (Nat.zero_add _).le
    · cases h
    · cases h
  | succ n ih =>
    rw [takeMany_eq_loop]
    have hstep : Goes (elementStep y (n + 1, acc)) (fun _ => 1) broken s ((one >>= fun a => pure (.inl (n, a :: acc))) s) :=
      goes_then 1 0 (hone s hs) fun a s₁ _ => goes_of_shrinks (.pure _)
    refine goes_loop (goes_mono hstep (fun r => ?_) (Nat.le_refl _)) fun next s' h hless => ?_
    · cases r with
      | inl _ => exact Nat.le_refl 1
      | inr _ => exact Nat.zero_le 1
    · obtain ⟨a, s₁, -, h⟩ := bind_ok h
      obtain ⟨h, rfl⟩ := pure_ok h
      cases h
      exact ih (by omega) (a :: acc)

include goes

theorem goes_list (hs : s.size ≤ size) :
    Goes (list reg c x) (fun _ => 1) (broken + 1) s (takeList reg c payload s) := by
  refine goes_then 1 0 goes_takeByte fun id s₁ h₁ => ?_
  have t₁ := (codes_takeByte.took _ _ _ h₁).2.size
  by_cases hid : id = TypeId.terminator.toByte
  · rw [if_pos hid, if_pos hid]
    exact goes_of_shrinks (.pure _)
  · rw [if_neg hid, if_neg hid]
    refine goes_then 0 0 (goes_of_shrinks (.settled _)) fun kind s₂ h₂ => ?_
    obtain ⟨-, rfl⟩ := settled_ok h₂
    refine goes_then 0 0 (goes_of_shrinks (closed_shrinks.takeNat 4)) fun count s₃ h₃ => ?_
    have t₃ := (codes_takeCount.took _ _ _ h₃).2.size
    refine goes_many (fun s hs => ?_) (show s₃.size ≤ size by omega) count []
    refine goes_then 0 1 (goes_of_shrinks (closed_shrinks.takeString c)) fun name s₄ h₄ => ?_
    have t₄ := ((codes_takeString c).took _ _ _ h₄).2.size
    exact goes_then 1 0 (goes kind s₄ (by omega)) fun p s₅ _ => goes_of_shrinks (.pure _)

theorem goes_array (hs : s.size ≤ size) :
    Goes (array reg x) (fun _ => 1) (broken + 1) s (takeArray reg payload s) := by
  refine goes_then 1 0 goes_takeByte fun id s₁ h₁ => ?_
  have t₁ := (codes_takeByte.took _ _ _ h₁).2.size
  by_cases hid : id = TypeId.terminator.toByte
  · rw [if_pos hid, if_pos hid]
    exact goes_of_shrinks (.pure _)
  · rw [if_neg hid, if_neg hid]
    refine goes_then 0 0 (goes_of_shrinks (.settled _)) fun kind s₂ h₂ => ?_
    obtain ⟨-, rfl⟩ := settled_ok h₂
    by_cases hp : (!kind.isPrimitive) = true
    · rw [if_pos hp, if_pos hp]
      exact goes_of_shrinks (.throw _)
    · rw [if_neg hp, if_neg hp]
      refine goes_then 0 0 (goes_of_shrinks (closed_shrinks.takeNat 4)) fun count s₃ h₃ => ?_
      have t₃ := (codes_takeCount.took _ _ _ h₃).2.size
      refine goes_many (fun s hs => ?_) (show s₃.size ≤ size by omega) count []
      exact goes_then 1 0 (goes kind s (by omega)) fun p s₅ _ => goes_of_shrinks (.pure _)

end

/-! ## Payloads -/

/-- A scalar is decoded in the same way however many levels and entries are left. -/
theorem goes_scalar (reg : Registry) (c : Charset) {k : Kind} (hk : k.category ≠ .container) (budget levels : Nat) :
    Goes (payload reg c (levels + 1) k) (fun _ => 1) broken s (takePayload reg c budget (levels + 1) k s) := by
  have hplain : payload reg c (levels + 1) k = plain (takePayload reg c 0 1 k) := by
    cases k <;> first | rfl | exact absurd rfl hk
  have hsame : takePayload reg c budget (levels + 1) k = takePayload reg c 0 1 k := by
    cases k <;> first | rfl | exact absurd rfl hk
  rw [hplain, hsame]
  refine goes_of_took (closed_shrinks.takePayload reg c 0 1 k) fun p s' h => ?_
  obtain ⟨l, -, -, -, took⟩ := took_leaf hk h
  exact ⟨_, took, Nat.lt_of_le_of_lt (Nat.zero_le _) (l.text_lt c)⟩

theorem goes_payload (reg : Registry) (c : Charset) {budget : Nat} (levels : Nat) (k : Kind) (hb : s.size < budget) :
    Goes (payload reg c levels k) (fun _ => 1) levels s (takePayload reg c budget levels k s) := by
  induction levels generalizing k s with
  | zero =>
    exact goes_plain (fun _ _ h => (throw_ne_ok h).elim) fun e s' h => by cases h; exact Nat.le_refl _
  | succ n ih =>
    have hbelow : ∀ k t, t.size ≤ s.size → Goes (payload reg c n k) (fun _ => 1) n t (takePayload reg c budget n k t) :=
      fun k t ht => ih k (by omega)
    by_cases hc : k.category = .container
    · cases k with
      | object => exact goes_then 1 0 (goes_entries hbelow (Nat.le_refl _) hb []) fun es s' _ => goes_of_shrinks (.pure _)
      | list => exact goes_then 1 0 (goes_list hbelow (Nat.le_refl _)) fun xs s' _ => goes_of_shrinks (.pure _)
      | array => exact goes_then 1 0 (goes_array hbelow (Nat.le_refl _)) fun xs s' _ => goes_of_shrinks (.pure _)
      | _ => cases hc
    · exact goes_scalar reg c hc budget n

theorem goes_decode (reg : Registry) (c : Charset) (v : Value) (s : Supply) :
    Goes (decode reg c v) (fun _ => 1) (maxDepth + 1) s (v.decode reg c s) :=
  goes_then 1 0 (goes_payload reg c (maxDepth + 1) v.kind (Nat.lt_succ_self s.size)) fun _ _ _ => goes_of_shrinks (.pure _)

end Course

/-- Decoding runs one course, whatever stands in the stream, and there is no other: so many
    steps of loops, of which all that were completed took a byte at least and all together
    no more than there were, and no more were broken off than one on each level. If that is
    a success, the tree has no more nodes than bytes were taken, and there is room in them
    for all of its strings and names beside. -/
theorem Value.decoding_bounded (reg : Registry) (c : Charset) (v : Value) (s : Supply) :
    ∃ t, Course.decode reg c v s t (v.decode reg c s) ∧
      (∀ t' r, Course.decode reg c v s t' r → t' = t ∧ r = v.decode reg c s) ∧
      (∀ n ∈ t.completed, 1 ≤ n) ∧ t.broken ≤ maxDepth + 1 ∧
      (∀ e s', v.decode reg c s = .error e s' → t.completed.length + s'.size ≤ s.size) ∧
      ∀ v' s', v.decode reg c s = .ok v' s' → t.completed.length + s'.size < s.size ∧
        ∃ bs, Took s bs s' ∧ v'.nodes + v'.text c ≤ bs.length := by
  obtain ⟨t, hrun, htaken, hok, herror⟩ := Course.goes_decode reg c v s
  have honly : ∀ t' r, Course.decode reg c v s t' r → t' = t ∧ r = v.decode reg c s :=
    fun t' r h => Course.single_decode reg c v h hrun
  refine ⟨t, hrun, honly, htaken, ?_, fun e s' h => (herror e s' h).1, fun v' s' h => ⟨?_, Value.size_decode h⟩⟩
  · cases hd : v.decode reg c s with
    | ok v' s' => exact (hok v' s' hd).2 ▸ Nat.zero_le _
    | error e s' => exact (herror e s' hd).2
  · have := (hok v' s' h).1
    omega

/-- A count that the stream does not come up to: it ends behind the second element. -/
example : ((Value.initial .array).decode .standard .utf8).value (.ofBytes [2, 255, 255, 255, 255, 7, 8]) =
    .error (.truncatedStream .fixedWidth) := rfl

end TypedDoc
