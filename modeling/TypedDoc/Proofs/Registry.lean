/-
  TypedDoc.Proofs.Registry — what is bound after any calls to bind ids to kinds.

  A registry is `OneToOne`: no id and no kind is bound twice, and id 0 never. A call is
  accepted exactly if it leaves it so (`register_eq_ok`), whatever was refused before.

  A table hands its bindings out in an order of its own, which may change from one call to
  the next. So between two calls a registry that is being `Built` may come to have its
  bindings in any other order. That does not show: what is bound to what does not depend on
  it (`resolve?_perm`, `idOf?_perm`), nor does the answer to a call (`register_perm`), down
  to the id that a refused kind is bound to already.
-/

import Mathlib.Data.List.Nodup
import TypedDoc.Proofs.Value.Lookups

namespace TypedDoc.Registry

structure OneToOne (r : Registry) : Prop where
  ids : (r.bindings.map (·.1)).Nodup
  kinds : (r.bindings.map (·.2)).Nodup
  nonzero : 0 ∉ r.bindings.map (·.1)

/-- A registry after some calls and the bindings that were accepted, in the order of the
    calls; those of the registry itself may be in any. -/
inductive Built : List (UInt8 × TypeId) → List (UInt8 × Kind) → Registry → Prop
  | empty : Built [] [] .empty
  | accepted {calls : List (UInt8 × TypeId)} {pairs : List (UInt8 × Kind)} {r r' : Registry} {id : UInt8} {k : Kind} :
      Built calls pairs r → r.register id k = .ok r' → Built (calls ++ [(id, .kind k)]) (pairs ++ [(id, k)]) r'
  | refused {calls : List (UInt8 × TypeId)} {pairs : List (UInt8 × Kind)} {r : Registry} {id : UInt8} {type : TypeId}
      {e : Error} : Built calls pairs r → r.register id type = .error e → Built (calls ++ [(id, type)]) pairs r
  | reordered {calls : List (UInt8 × TypeId)} {pairs : List (UInt8 × Kind)} {r r' : Registry} :
      Built calls pairs r → r'.bindings.Perm r.bindings → Built calls pairs r'

variable {r r' : Registry} {id : UInt8} {k : Kind} {type : TypeId} {e : Error}
  {calls : List (UInt8 × TypeId)} {pairs pairs' : List (UInt8 × Kind)}

/-! ## Looking up both ways -/

theorem resolve?_eq_some (h : r.OneToOne) : r.resolve? id = some k ↔ (id, k) ∈ r.bindings := by
  constructor
  · exact mem_of_resolve
  · intro hm
    cases hk : r.resolve? id with
    | none =>
      have hno := List.lookup_eq_none_iff.1 hk _ hm
      simp at hno
    | some k' =>
      have heq := List.inj_on_of_nodup_map h.ids (mem_of_resolve hk) hm rfl
      rw [(Prod.mk.inj heq).2]

theorem mem_of_idOf (h : r.idOf? k = some id) : (id, k) ∈ r.bindings := by
  obtain ⟨⟨id', k'⟩, hfind, rfl⟩ := Option.map_eq_some_iff.1 h
  have hk : k' = k := by simpa using List.find?_some hfind
  exact hk ▸ List.mem_of_find?_eq_some hfind

theorem idOf?_eq_some (h : r.OneToOne) : r.idOf? k = some id ↔ (id, k) ∈ r.bindings := by
  constructor
  · exact mem_of_idOf
  · intro hm
    cases hid : r.idOf? k with
    | none =>
      have hno := List.find?_eq_none.1 (Option.map_eq_none_iff.1 hid) _ hm
      simp at hno
    | some id' =>
      have heq := List.inj_on_of_nodup_map h.kinds (mem_of_idOf hid) hm rfl
      rw [(Prod.mk.inj heq).1]

theorem resolve?_eq_none (h : r.OneToOne) : r.resolve? id = none ↔ id ∉ r.bindings.map (·.1) := by
  rw [Option.eq_none_iff_forall_ne_some]
  simp [resolve?_eq_some h]

theorem idOf?_eq_none (h : r.OneToOne) : r.idOf? k = none ↔ k ∉ r.bindings.map (·.2) := by
  rw [Option.eq_none_iff_forall_ne_some]
  simp [idOf?_eq_some h]

/-! ## One call -/

theorem register_eq_ok : r.register id type = .ok r' ↔
    id ≠ 0 ∧ ∃ k, type = .kind k ∧ r.resolve? id = none ∧ r.idOf? k = none ∧ r' = ⟨r.bindings ++ [(id, k)]⟩ := by
  unfold register
  by_cases hid : id = 0
  · simp [hid]
  · cases type with
    | terminator => simp [hid]
    | kind k =>
      cases hr : r.resolve? id with
      | some bound => simp [hid]
      | none =>
        cases hk : r.idOf? k with
        | some other => simp [hid, hk]
        | none =>
          have hcomm : (⟨r.bindings ++ [(id, k)]⟩ : Registry) = r' ↔ r' = ⟨r.bindings ++ [(id, k)]⟩ := eq_comm
          simp [hid, hk, hcomm]

theorem oneToOne_register (h : r.OneToOne) (hr : r.register id type = .ok r') : r'.OneToOne := by
  obtain ⟨hid, k, -, hnone, hkind, rfl⟩ := register_eq_ok.1 hr
  rw [resolve?_eq_none h] at hnone
  rw [idOf?_eq_none h] at hkind
  refine ⟨?_, ?_, ?_⟩
  · rw [List.map_append]
    exact h.ids.append (List.nodup_singleton _) (by simpa using hnone)
  · rw [List.map_append]
    exact h.kinds.append (List.nodup_singleton _) (by simpa using hkind)
  · rw [List.map_append, List.mem_append, not_or]
    exact ⟨h.nonzero, by simpa using Ne.symm hid⟩

/-! ## Another order -/

theorem OneToOne.perm (h : r.OneToOne) (hp : r'.bindings.Perm r.bindings) : r'.OneToOne where
  ids := (hp.map _).nodup_iff.2 h.ids
  kinds := (hp.map _).nodup_iff.2 h.kinds
  nonzero hm := h.nonzero ((hp.map _).subset hm)

theorem resolve?_perm (h : r.OneToOne) (hp : r'.bindings.Perm r.bindings) : r'.resolve? id = r.resolve? id := by
  refine Option.ext fun k => ?_
  rw [resolve?_eq_some h, resolve?_eq_some (h.perm hp), hp.mem_iff]

theorem idOf?_perm (h : r.OneToOne) (hp : r'.bindings.Perm r.bindings) : r'.idOf? k = r.idOf? k := by
  refine Option.ext fun id => ?_
  rw [idOf?_eq_some h, idOf?_eq_some (h.perm hp), hp.mem_iff]

/-- The same answer, also in what a refusal says. -/
theorem register_perm (h : r.OneToOne) (hp : r'.bindings.Perm r.bindings) (id : UInt8) (type : TypeId) :
    match r.register id type, r'.register id type with
    | .ok s, .ok s' => s'.bindings.Perm s.bindings
    | .error e, .error e' => e' = e
    | _, _ => False := by
  unfold register
  by_cases hid : id = 0
  · simp only [hid, if_true]
  · simp only [hid, if_false]
    cases type with
    | terminator => rfl
    | kind k =>
      simp only [resolve?_perm h hp, idOf?_perm h hp]
      cases r.resolve? id with
      | some bound => rfl
      | none =>
        cases r.idOf? k with
        | some other => rfl
        | none => exact hp.append_right _

theorem register_error_perm (h : r.OneToOne) (hp : r'.bindings.Perm r.bindings) :
    r'.register id type = .error e ↔ r.register id type = .error e := by
  have hsame := register_perm h hp id type
  cases hr : r.register id type with
  | ok s => cases hr' : r'.register id type <;> simp [hr, hr'] at hsame ⊢
  | error e₁ =>
    cases hr' : r'.register id type with
    | ok s' => simp [hr, hr'] at hsame
    | error e₂ =>
      simp only [hr, hr'] at hsame
      rw [hsame]

/-! ## All calls -/

theorem Built.invariant (h : Built calls pairs r) : r.OneToOne ∧ r.bindings.Perm pairs := by
  induction h with
  | empty => exact ⟨⟨List.nodup_nil, List.nodup_nil, List.not_mem_nil⟩, .refl _⟩
  | accepted _ hr ih =>
    obtain ⟨hone, hperm⟩ := ih
    obtain ⟨-, k, hk, -, -, rfl⟩ := register_eq_ok.1 hr
    cases hk
    exact ⟨oneToOne_register hone hr, hperm.append_right _⟩
  | refused _ _ ih => exact ih
  | reordered _ hp ih => exact ⟨ih.1.perm hp, hp.trans ih.2⟩

/-- One call after another; a refused one is passed over. -/
def ofCalls (calls : List (UInt8 × TypeId)) : Registry :=
  calls.foldl (fun r call => (r.register call.1 call.2).toOption.getD r) .empty

theorem ofCalls_concat (calls : List (UInt8 × TypeId)) (id : UInt8) (type : TypeId) :
    ofCalls (calls ++ [(id, type)]) = ((ofCalls calls).register id type).toOption.getD (ofCalls calls) := by
  rw [ofCalls, List.foldl_append]
  rfl

theorem built_ofCalls (calls : List (UInt8 × TypeId)) : Built calls (ofCalls calls).bindings (ofCalls calls) := by
  induction calls using List.reverseRecOn with
  | nil => exact .empty
  | append_singleton calls call ih =>
    obtain ⟨id, type⟩ := call
    rw [ofCalls_concat]
    cases hr : (ofCalls calls).register id type with
    | error e => exact .refused ih hr
    | ok r' =>
      obtain ⟨-, k, rfl, -, -, rfl⟩ := register_eq_ok.1 hr
      exact .accepted ih hr

/-- What is accepted does not depend on the order that the bindings were in. -/
theorem Built.pairs_eq (h : Built calls pairs r) : pairs = (ofCalls calls).bindings := by
  induction h with
  | empty => rfl
  | @accepted calls pairs r r' id k hb hr ih =>
    have hperm := hb.invariant.2
    rw [ih] at hperm
    have hsame := register_perm (built_ofCalls calls).invariant.1 hperm id k
    rw [ofCalls_concat]
    cases hc : (ofCalls calls).register id k with
    | error e => simp [hr, hc] at hsame
    | ok s =>
      obtain ⟨-, k', hk, -, -, rfl⟩ := register_eq_ok.1 hc
      cases hk
      rw [ih]
      rfl
  | @refused calls pairs r id type e hb hr ih =>
    have hperm := hb.invariant.2
    rw [ih] at hperm
    rw [ofCalls_concat, (register_error_perm (built_ofCalls calls).invariant.1 hperm).1 hr, ih]
    rfl
  | reordered _ _ ih => exact ih

theorem Built.perm (h : Built calls pairs r) (h' : Built calls pairs' r') : r'.bindings.Perm r.bindings := by
  have hperm := h'.invariant.2
  rw [h'.pairs_eq, ← h.pairs_eq] at hperm
  exact hperm.trans h.invariant.2.symm

/-! ## The registry -/

theorem register_accepts (h : r.OneToOne) : (∃ r', r.register id type = .ok r') ↔
    id ≠ 0 ∧ r.resolve? id = none ∧ ∃ k, type = .kind k ∧ ∀ id', r.resolve? id' ≠ some k := by
  have hfree : ∀ k, r.idOf? k = none ↔ ∀ id', r.resolve? id' ≠ some k := fun k => by
    rw [Option.eq_none_iff_forall_ne_some]
    exact forall_congr' fun id' => not_congr ((idOf?_eq_some h).trans (resolve?_eq_some h).symm)
  simp only [register_eq_ok, hfree]
  constructor
  · rintro ⟨r', hid, k, hk, hnone, hno, -⟩
    exact ⟨hid, hnone, k, hk, hno⟩
  · rintro ⟨hid, hnone, k, hk, hno⟩
    exact ⟨_, hid, k, hk, hnone, hno, rfl⟩

/-- A kind that is bound already is refused with the one id that it is bound to. -/
theorem register_kindBound (h : r.OneToOne) {other : UInt8} :
    r.register id k = .error (.duplicateRegistration (.kindBound k other)) ↔
      id ≠ 0 ∧ r.resolve? id = none ∧ r.resolve? other = some k := by
  rw [resolve?_eq_some h (k := k), ← idOf?_eq_some h]
  unfold register
  by_cases hid : id = 0
  · simp [hid]
  · cases r.resolve? id with
    | some bound => simp [hid]
    | none => cases hk : r.idOf? k <;> simp [hid, hk]

theorem ids_perm (r : Registry) : r.ids.Perm (r.bindings.map (·.1)) := List.mergeSort_perm _ _

theorem pairwise_ids (h : r.OneToOne) : r.ids.Pairwise (· < ·) := by
  have hsorted : r.ids.Pairwise (· ≤ ·) := by
    have hle : r.ids.Pairwise fun a b => decide (a ≤ b) = true := List.pairwise_mergeSort
      (fun a b c hab hbc => by simpa using UInt8.le_trans (by simpa using hab) (by simpa using hbc))
      (fun a b => by simpa using UInt8.le_total a b) (r.bindings.map (·.1))
    exact hle.imp fun hab => by simpa using hab
  have hnodup : r.ids.Nodup := (ids_perm r).nodup_iff.2 h.ids
  exact hsorted.imp₂ (fun a b hle hne => UInt8.lt_of_le_of_ne hle hne) hnodup

theorem instantiate_eq (r : Registry) (id : UInt8) : r.instantiate id =
    match r.resolve? id with
    | some k => .ok (.initial k)
    | none => .error (.unknownTypeId id) := by
  unfold instantiate kindOf
  cases r.resolve? id <;> rfl

/-- All that a registry answers, by the pairs that are bound in it. -/
structure Answers (pairs : List (UInt8 × Kind)) (r : Registry) : Prop where
  single : ∀ id k, (id, k) ∈ pairs → id ≠ 0 ∧ ∀ id' k', (id', k') ∈ pairs → (id' = id ↔ k' = k)
  resolves : ∀ id k, r.resolve? id = some k ↔ (id, k) ∈ pairs
  ids : ∀ id, id ∈ r.ids ↔ ∃ k, (id, k) ∈ pairs
  increasing : r.ids.Pairwise (· < ·)
  size : r.ids.length = r.size
  instantiates : ∀ id k, (id, k) ∈ pairs → ∃ v, r.instantiate id = .ok v ∧ v.kind = k
  misses : ∀ id, (∀ k, (id, k) ∉ pairs) → r.instantiate id = .error (.unknownTypeId id)
  accepts : ∀ id type, (∃ r', r.register id type = .ok r') ↔
    id ≠ 0 ∧ ∃ k, type = .kind k ∧ ∀ pair ∈ pairs, pair.1 ≠ id ∧ pair.2 ≠ k
  conflicts : ∀ id (k : Kind) other, r.register id k = .error (.duplicateRegistration (.kindBound k other)) ↔
    id ≠ 0 ∧ (∀ k', (id, k') ∉ pairs) ∧ (other, k) ∈ pairs

theorem Built.answers (h : Built calls pairs r) : r.Answers pairs := by
  obtain ⟨hone, hperm⟩ := h.invariant
  have hmem : ∀ id k, r.resolve? id = some k ↔ (id, k) ∈ pairs := fun id k => (resolve?_eq_some hone).trans hperm.mem_iff
  have hnone : ∀ id, r.resolve? id = none ↔ ∀ k, (id, k) ∉ pairs := fun id => by
    rw [Option.eq_none_iff_forall_ne_some]
    exact forall_congr' fun k => not_congr (hmem id k)
  have hids : (pairs.map (·.1)).Nodup := (hperm.map _).nodup_iff.1 hone.ids
  have hkinds : (pairs.map (·.2)).Nodup := (hperm.map _).nodup_iff.1 hone.kinds
  refine ⟨fun id k hm => ⟨?_, fun id' k' hm' => ⟨?_, ?_⟩⟩, hmem, fun id => ?_, pairwise_ids hone, ?_, fun id k hm => ?_,
    fun id hno => ?_, fun id type => ?_, fun id k other => ?_⟩
  · rintro rfl
    exact hone.nonzero (List.mem_map.2 ⟨(0, k), hperm.symm.subset hm, rfl⟩)
  · intro hid
    exact (Prod.mk.inj (List.inj_on_of_nodup_map hids hm' hm hid)).2
  · intro hk
    exact (Prod.mk.inj (List.inj_on_of_nodup_map hkinds hm' hm hk)).1
  · rw [(ids_perm r).mem_iff, (hperm.map _).mem_iff]
    simp
  · rw [(ids_perm r).length_eq, List.length_map, size]
  · refine ⟨.initial k, ?_, Payload.kind_initial k⟩
    rw [instantiate_eq, (hmem id k).2 hm]
  · rw [instantiate_eq, (hnone id).2 hno]
  · rw [register_accepts hone, hnone]
    refine and_congr_right fun _ => ?_
    simp only [ne_eq, hmem]
    constructor
    · rintro ⟨hid, k, hk, hno⟩
      exact ⟨k, hk, fun pair hp => ⟨fun he => hid pair.2 (he ▸ hp), fun he => hno pair.1 (he ▸ hp)⟩⟩
    · rintro ⟨k, hk, hno⟩
      exact ⟨fun k' hm => (hno _ hm).1 rfl, k, hk, fun id' hm => (hno _ hm).2 rfl⟩
  · rw [register_kindBound hone, hnone, hmem]

/-- Any calls make a registry, and the pairs that were accepted are the same in whatever
    order the bindings were kept. It answers by these pairs alone, a refused call leaves them
    as they are, an accepted one adds its own, and no refusal tells the order. -/
theorem built_one_to_one (calls : List (UInt8 × TypeId)) :
    Built calls (ofCalls calls).bindings (ofCalls calls) ∧
    ∀ pairs r, Built calls pairs r → pairs = (ofCalls calls).bindings ∧ r.Answers pairs ∧
      (∀ id type e, r.register id type = .error e → (ofCalls (calls ++ [(id, type)])).bindings = pairs) ∧
      (∀ id (k : Kind) r', r.register id k = .ok r' → (ofCalls (calls ++ [(id, .kind k)])).bindings = pairs ++ [(id, k)]) ∧
      ∀ pairs' r', Built calls pairs' r' → ∀ id type e, r'.register id type = .error e ↔ r.register id type = .error e := by
  refine ⟨built_ofCalls calls, fun pairs r h => ⟨h.pairs_eq, h.answers, fun id type e hr => ?_, fun id k r' hr => ?_, ?_⟩⟩
  · exact (Built.refused h hr).pairs_eq.symm
  · exact (Built.accepted h hr).pairs_eq.symm
  · intro pairs' r' h' id type e
    exact register_error_perm h.invariant.1 (h.perm h')

/-- Two kinds bound and two calls refused. The kind that is bound already stands second. -/
theorem built_one_to_one_refused :
    let calls : List (UInt8 × TypeId) := [(9, .kind .int), (0, .kind .byte), (5, .kind .long), (9, .kind .list)]
    let r : Registry := ⟨[(5, .long), (9, .int)]⟩
    Built calls [(9, .int), (5, .long)] r ∧ r.Answers [(9, .int), (5, .long)] ∧ r.ids = [5, 9] ∧
      r.register 7 Kind.int = .error (.duplicateRegistration (.kindBound .int 9)) := by
  intro calls r
  have hof : ofCalls calls = ⟨[(9, .int), (5, .long)]⟩ := rfl
  obtain ⟨hbuilt, hall⟩ := built_one_to_one calls
  rw [hof] at hbuilt
  have hr : Built calls [(9, .int), (5, .long)] r := hbuilt.reordered (.swap _ _ [])
  obtain ⟨-, hanswers, -, -, hsame⟩ := hall _ r hr
  refine ⟨hr, hanswers, by simp [ids, r, List.mergeSort], ?_⟩
  rw [← hsame _ _ hbuilt]
  rfl

end TypedDoc.Registry
