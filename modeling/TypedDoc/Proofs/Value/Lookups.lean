/-
  TypedDoc.Proofs.Value.Lookups — all that a reader does with a registry is look up ids.

  `Lookups` is what is left of a reader once the stream is fixed: an outcome, or an id that
  is looked up, with what follows for each kind that it may stand for. Where it stands for
  nothing, reading stops. `LooksUp` readers are those that can be put like that, whatever
  the registry; it passes from the parts of a reader to the whole, down to the payloads
  (`LooksUp.takePayload`).
  - `Lookups.first`: with fewer bindings, either all ids that were looked up are still bound
    and nothing changes, or reading stops at the first that is not.
-/

import TypedDoc.Proofs.Wire.Outcome
import TypedDoc.Value.Decode

namespace TypedDoc

open Wire

/-- Every binding of `R` is one of `S`. -/
def Registry.Extends (S R : Registry) : Prop := ∀ id k, R.resolve? id = some k → S.resolve? id = some k

theorem Registry.mem_of_resolve {r : Registry} {id : UInt8} {k : Kind} (h : r.resolve? id = some k) :
    (id, k) ∈ r.bindings := by
  obtain ⟨l, l', hl, -⟩ := List.lookup_eq_some_iff.1 h
  rw [hl]
  exact List.mem_append_right l List.mem_cons_self

/-- What a reader does with a registry, on one stream. -/
inductive Lookups (α : Type) where
  | done (r : EStateM.Result Error Supply α)
  | next (id : UInt8) (left : Supply) (go : Kind → Lookups α)

namespace Lookups

variable {α β : Type}

def run (reg : Registry) : Lookups α → EStateM.Result Error Supply α
  | done r => r
  | next id left go =>
    match reg.resolve? id with
    | some k => (go k).run reg
    | none => .error (.unknownTypeId id) left

/-- The ids looked up, in order; one that is not bound is the last. -/
def met (reg : Registry) : Lookups α → List UInt8
  | done _ => []
  | next id _ go =>
    id :: match reg.resolve? id with
      | some k => (go k).met reg
      | none => []

def andThen : Lookups α → (α → Supply → Lookups β) → Lookups β
  | done (.ok a s), f => f a s
  | done (.error e s), _ => done (.error e s)
  | next id left go, f => next id left fun k => (go k).andThen f

theorem run_andThen (reg : Registry) (t : Lookups α) (f : α → Supply → Lookups β) : (t.andThen f).run reg =
    match t.run reg with
    | .ok a s => (f a s).run reg
    | .error e s => .error e s := by
  induction t with
  | done r => cases r <;> rfl
  | next id left go ih =>
    simp only [andThen, run]
    cases reg.resolve? id with
    | none => rfl
    | some k => exact ih k

/-- Reading with a part of the bindings goes the same way up to the first id that is missing. -/
theorem first {R S : Registry} (h : S.Extends R) (t : Lookups α) :
    match (t.met S).find? fun id => (R.resolve? id).isNone with
    | none => t.run R = t.run S
    | some id => ∃ s, t.run R = .error (.unknownTypeId id) s := by
  induction t with
  | done r => rfl
  | next id left go ih =>
    cases hR : R.resolve? id with
    | none =>
      simp only [met, run, hR, List.find?_cons, Option.isNone_none]
      exact ⟨left, rfl⟩
    | some k =>
      simp only [met, run, hR, h id k hR, List.find?_cons, Option.isNone_some]
      exact ih k

end Lookups

/-! ## With fewer bindings -/

/-- `r` came of the registry `R`, and `r'` of one with more bindings, for which the ids `met`
    were looked up. -/
structure Narrows {σ α : Type} (R : Registry) (met : List UInt8) (r r' : EStateM.Result Error σ α) : Prop where
  same_or_unknown : r = r' ∨ ∃ id ∈ met, R.resolve? id = none ∧ ∃ s, r = .error (.unknownTypeId id) s
  /-- The first that is not bound is the one reported. -/
  first : ∀ id, (met.find? fun id => (R.resolve? id).isNone) = some id → ∃ s, r = .error (.unknownTypeId id) s
  accepted : ∀ a s, r = .ok a s → r' = .ok a s
  all_bound : (∀ id ∈ met, R.contains id = true) → r = r'

theorem Narrows.of_first {σ α : Type} {R : Registry} {met : List UInt8} {r r' : EStateM.Result Error σ α}
    (h : match met.find? fun id => (R.resolve? id).isNone with
      | none => r = r'
      | some id => ∃ s, r = .error (.unknownTypeId id) s) : Narrows R met r r' := by
  cases hf : met.find? fun id => (R.resolve? id).isNone with
  | none =>
    simp only [hf] at h
    refine ⟨.inl h, fun id hid => ?_, fun a s hr => h ▸ hr, fun _ => h⟩
    cases hf.symm.trans hid
  | some id =>
    simp only [hf] at h
    obtain ⟨s, hs⟩ := h
    have hmem := List.mem_of_find?_eq_some hf
    have hid : R.resolve? id = none := by simpa using List.find?_some hf
    refine ⟨.inr ⟨id, hmem, hid, s, hs⟩, fun id' hid' => ?_, fun a s' hr => ?_, fun hall => ?_⟩
    · cases hf.symm.trans hid'
      exact ⟨s, hs⟩
    · cases hs.symm.trans hr
    · have hbound := hall id hmem
      rw [Registry.contains, hid] at hbound
      cases hbound

/-! ## Readers -/

/-- A reader that uses a registry for looking up ids, and for nothing else. -/
def LooksUp {α : Type} (d : Registry → Decoder α) : Prop :=
  ∃ t : Supply → Lookups α, ∀ reg s, d reg s = (t s).run reg

namespace LooksUp

variable {α β : Type} {d d' : Registry → Decoder α}

/-- One tree of look-ups goes for all registries, so the ids it meets are those that reading
    looks up. -/
theorem narrows (hd : LooksUp d) {R S : Registry} (h : S.Extends R) (s : Supply) :
    ∃ t : Lookups α, (∀ reg, d reg s = t.run reg) ∧ Narrows R (t.met S) (d R s) (d S s) := by
  obtain ⟨t, ht⟩ := hd
  refine ⟨t s, fun reg => ht reg s, .of_first ?_⟩
  rw [ht, ht]
  exact (t s).first h

/-- Without a registry. -/
theorem const (d : Decoder α) : LooksUp fun _ => d := ⟨fun s => .done (d s), fun _ _ => rfl⟩

theorem kindOf (id : UInt8) : LooksUp fun reg => settled (reg.kindOf id) := by
  refine ⟨fun s => .next id s fun k => .done (.ok k s), fun reg s => ?_⟩
  simp only [Lookups.run, Registry.kindOf]
  cases reg.resolve? id <;> rfl

theorem bind {f : Registry → α → Decoder β} (hd : LooksUp d) (hf : ∀ a, LooksUp fun reg => f reg a) :
    LooksUp fun reg => d reg >>= f reg := by
  obtain ⟨t, ht⟩ := hd
  choose u hu using hf
  refine ⟨fun s => (t s).andThen u, fun reg s => ?_⟩
  rw [Lookups.run_andThen, ← ht reg s]
  show (d reg >>= f reg) s = _
  cases h : d reg s with
  | ok a s' => exact (bind_eq_of_ok _ h).trans (hu a reg s')
  | error e s' => exact bind_eq_of_error _ h

theorem ite {p : Prop} [Decidable p] (h : LooksUp d) (h' : LooksUp d') : LooksUp fun reg => if p then d reg else d' reg := by
  split
  · exact h
  · exact h'

/-! ## Containers -/

theorem takeMany {one : Registry → Decoder α} (h : LooksUp one) (count : Nat) (acc : List α) :
    LooksUp fun reg => TypedDoc.takeMany (one reg) count acc := by
  induction count generalizing acc with
  | zero => exact const _
  | succ n ih => exact h.bind fun a => ih _

section

variable {c : Charset} {payload : Registry → Kind → Decoder Payload} (h : ∀ k, LooksUp fun reg => payload reg k)

include h

theorem takeEntries (budget : Nat) (es : List (String × Value)) :
    LooksUp fun reg => TypedDoc.takeEntries reg c (payload reg) budget es := by
  induction budget generalizing es with
  | zero => exact const _
  | succ n ih =>
    refine (const takeByte).bind fun id => ite (const _) ?_
    refine (kindOf id).bind fun kind => (const (takeString c)).bind fun name => ?_
    exact (h kind).bind fun p => ih _

theorem takeList : LooksUp fun reg => TypedDoc.takeList reg c (payload reg) := by
  refine (const takeByte).bind fun id => ite (const _) ?_
  refine (kindOf id).bind fun kind => (const takeCount).bind fun count => takeMany ?_ count []
  exact (const (takeString c)).bind fun name => (h kind).bind fun p => const _

theorem takeArray : LooksUp fun reg => TypedDoc.takeArray reg (payload reg) := by
  refine (const takeByte).bind fun id => ite (const _) ?_
  refine (kindOf id).bind fun kind => ite (const _) ?_
  refine (const takeCount).bind fun count => takeMany ?_ count []
  exact (h kind).bind fun p => const _

end

/-! ## Payloads -/

/-- The induction is on the levels left. A scalar needs no registry. -/
theorem takePayload (c : Charset) (budget levels : Nat) (k : Kind) :
    LooksUp fun reg => TypedDoc.takePayload reg c budget levels k := by
  induction levels generalizing k with
  | zero => exact const _
  | succ n ih =>
    cases k with
    | object => exact (takeEntries ih budget []).bind fun es => const _
    | list => exact (takeList ih).bind fun xs => const _
    | array => exact (takeArray ih).bind fun xs => const _
    | _ => exact const _

theorem decode (c : Charset) (k : Kind) : LooksUp fun reg => Payload.decode reg c k := by
  choose t ht using fun budget => takePayload c budget (maxDepth + 1) k
  exact ⟨fun s => t (s.size + 1) s, fun reg s => ht (s.size + 1) reg s⟩

end LooksUp

end TypedDoc
