/-
  TypedDoc.Proofs.Value.Paths — what a change to a node further down does to the rest of
  the tree.

  `Value.node?` follows a path, `Mutation` is what can be done to the node at its end. A
  node that is passed on the way keeps its name and its flag, and its children but for the
  one that the way goes through (`Passed`). Objects keep their index with them: a key is at
  the position where it was. `Swapped` says this of a whole path, with the nodes beside it
  as they were, and `swapped_updateAt` that a change at its end comes to no more. Changes
  one after another, each with a walk of its own, are one change (`foldlM_mutateAt`).
-/

import TypedDoc.Proofs.Value.Indexed

namespace TypedDoc

/-! ## One step -/

namespace Value

/-- The children in order, each with the step to it. -/
def children (v : Value) : List (Step × Value) :=
  match v.payload with
  | .scalar _ => []
  | .object es => es.map fun e => (.child e.1, e.2)
  | .list xs | .array xs => xs.mapIdx fun i w => (.element i, w)

variable {v w new : Value} {step : Step}

@[simp] theorem name_replaceChild : (v.replaceChild step new).name = v.name := by
  unfold replaceChild
  split <;> rfl

@[simp] theorem modified_replaceChild : (v.replaceChild step new).modified = v.modified := by
  unfold replaceChild
  split <;> rfl

@[simp] theorem kind_replaceChild : (v.replaceChild step new).kind = v.kind := by
  unfold replaceChild Value.kind
  split <;> simp only [*] <;> rfl

end Value

theorem Entries.lookup_map_key {α : Type} (k k' : String) (w : α) (es : List (String × α)) :
    (es.map fun e => if e.1 = k then (e.1, w) else e).lookup k' = if k' = k then (es.lookup k).map fun _ => w else es.lookup k' := by
  induction es with
  | nil => simp
  | cons e rest ih =>
    obtain ⟨j, u⟩ := e
    by_cases hj : j = k
    · subst hj
      by_cases hk : k' = j <;> simp [lookup_cons, ih, hk]
    · by_cases hk : k' = k
      · subst hk
        simp [lookup_cons, ih, hj, Ne.symm hj]
      · simp [lookup_cons, ih, hj, hk]

namespace Value

variable {v w new : Value} {step : Step}

/-- A step goes to the child of an object by its key, or to an element by its position. -/
theorem step_cases (h : v.child? step = some w) :
    (∃ es key, v.payload = .object es ∧ step = .child key ∧ es.lookup key = some w) ∨
    ∃ xs i, (v.payload = .list xs ∨ v.payload = .array xs) ∧ step = .element i ∧ xs[i]? = some w := by
  unfold child? at h
  cases step with
  | child key =>
    obtain ⟨es, hes, hw⟩ := Option.bind_eq_some_iff.1 h
    refine .inl ⟨es, key, ?_, rfl, hw⟩
    unfold Payload.entries? at hes
    split at hes
    · cases hes
      assumption
    · cases hes
  | element i =>
    simp only at h
    split at h
    · exact .inr ⟨_, i, .inl ‹_›, rfl, h⟩
    · exact .inr ⟨_, i, .inr ‹_›, rfl, h⟩
    · cases h

theorem child?_replaceChild (h : v.child? step = some w) (step' : Step) :
    (v.replaceChild step new).child? step' = if step' = step then some new else v.child? step' := by
  obtain ⟨name, p, modified⟩ := v
  obtain ⟨es, key, hp, rfl, hw⟩ | ⟨xs, i, hp, rfl, hw⟩ := step_cases h
  · obtain rfl : p = .object es := hp
    cases step' with
    | element j => rfl
    | child key' =>
      show (es.map fun e => if e.1 = key then (e.1, new) else e).lookup key' = _
      rw [Entries.lookup_map_key, hw]
      simp only [Step.child.injEq]
      rfl
  · have hi : i < xs.length := (List.getElem?_eq_some_iff.1 hw).1
    have hset : ∀ j, (xs.set i new)[j]? = if Step.element j = .element i then some new else xs[j]? := by
      intro j
      rw [List.getElem?_set]
      by_cases hj : j = i
      · simp [hj, hi]
      · simp [hj, Ne.symm hj]
    obtain rfl | rfl : p = .list xs ∨ p = .array xs := hp <;> cases step' with
    | child key => rfl
    | element j => exact hset j

theorem children_replaceChild (h : v.child? step = some w) :
    (v.replaceChild step new).children = v.children.map fun e => if e.1 = step then (e.1, new) else e := by
  obtain ⟨name, p, modified⟩ := v
  obtain ⟨es, key, hp, rfl, -⟩ | ⟨xs, i, hp, rfl, -⟩ := step_cases h
  · obtain rfl : p = .object es := hp
    show List.map _ (List.map _ es) = List.map _ (List.map _ es)
    rw [List.map_map, List.map_map]
    refine List.map_congr_left fun e _ => ?_
    simp only [Function.comp_apply, Step.child.injEq]
    split <;> rfl
  · have hset : (xs.set i new).mapIdx (fun j u => (Step.element j, u)) =
        (xs.mapIdx fun j u => (Step.element j, u)).map fun e => if e.1 = .element i then (e.1, new) else e := by
      refine List.ext_getElem? fun j => ?_
      rw [List.getElem?_mapIdx, List.getElem?_map, List.getElem?_mapIdx, List.getElem?_set]
      by_cases hj : j = i
      · subst hj
        by_cases hl : j < xs.length <;> simp [hl]
      · rw [if_neg (Ne.symm hj)]
        cases xs[j]? <;> simp [hj]
    obtain rfl | rfl : p = .list xs ∨ p = .array xs := hp <;> exact hset

theorem replaceChild_replaceChild (new' : Value) :
    (v.replaceChild step new).replaceChild step new' = v.replaceChild step new' := by
  obtain ⟨name, p, modified⟩ := v
  cases p <;> cases step
  case object.child es key =>
    show (⟨name, .object (List.map _ (List.map _ es)), modified⟩ : Value) = ⟨name, .object (List.map _ es), modified⟩
    rw [List.map_map]
    congr 2
    refine List.map_congr_left fun e _ => ?_
    by_cases hk : e.1 = key <;> simp [hk]
  case list.element xs i =>
    show (⟨name, .list ((xs.set i new).set i new'), modified⟩ : Value) = ⟨name, .list (xs.set i new'), modified⟩
    rw [List.set_set]
  case array.element xs i =>
    show (⟨name, .array ((xs.set i new).set i new'), modified⟩ : Value) = ⟨name, .array (xs.set i new'), modified⟩
    rw [List.set_set]
  all_goals rfl

/-! ## A whole path -/

/-- The node at the end of a path. -/
def node? : List Step → Value → Option Value
  | [], v => some v
  | step :: rest, v => (v.child? step).bind (node? rest)

/-- A node before and after `new` took the place of `old` at a step from it. -/
structure Passed (step : Step) (old new u u' : Value) : Prop where
  before : u.child? step = some old
  after : u'.child? step = some new
  name : u'.name = u.name
  modified : u'.modified = u.modified
  kind : u'.kind = u.kind
  children : u'.children = u.children.map fun e => if e.1 = step then (e.1, new) else e
  /-- An object that is found through an index is changed in its place, and keeps the index. -/
  indexed : ∀ es key (o : Indexed), u.payload = .object es → step = .child key → o.Shows es →
    ∃ es' o', u'.payload = .object es' ∧ o.change key (fun _ => new) = .ok (some old, o') ∧ o'.index = o.index ∧ o'.Shows es'

/-- A tree before and after `new` took the place of the node at the end of a path. -/
structure Swapped (path : List Step) (new v v' : Value) : Prop where
  reached : ∀ rest, v'.node? (path ++ rest) = new.node? rest
  beside : ∀ q, ¬path <+: q → ¬q <+: path → v'.node? q = v.node? q
  passed : ∀ q step, q ++ [step] <+: path →
    ∃ u u' old child, v.node? q = some u ∧ v'.node? q = some u' ∧ Passed step old child u u'

end Value

theorem Indexed.change_of_shows {o : Indexed} {es : List (String × Value)} {key : String} {v : Value} (h : o.Shows es)
    (hv : es.lookup key = some v) (w : Value) : ∃ o', o.change key (fun _ => w) = .ok (some v, o') ∧ o'.index = o.index ∧
      o'.Shows (es.map fun e => if e.1 = key then (e.1, w) else e) := by
  cases hi : o.index[key]? with
  | none =>
    rw [Entries.lookup_eq_none (h.missing hi)] at hv
    cases hv
  | some i =>
    obtain ⟨pre, u, post, rfl, rfl, hpre, hpost, hu⟩ := h.found hi
    rw [Entries.lookup_split hpre] at hv
    cases hv
    refine ⟨{ o with children := o.children.setIfInBounds pre.length w }, ?_, rfl, ?_⟩
    · simp only [change, hi, hu]
      rfl
    · rw [Entries.map_split (fun e => (e.1, w)) hpre hpost]
      exact h.set w

namespace Value

variable {v v' w new : Value} {step : Step} {path : List Step} {α β : Type}

theorem passed_replaceChild (h : v.child? step = some w) (new : Value) : Passed step w new v (v.replaceChild step new) where
  before := h
  after := by rw [child?_replaceChild h, if_pos rfl]
  name := name_replaceChild
  modified := modified_replaceChild
  kind := kind_replaceChild
  children := children_replaceChild h
  indexed es key o hp hs ho := by
    subst hs
    obtain ⟨name, p, modified⟩ := v
    obtain rfl : p = .object es := hp
    obtain ⟨o', hc, hindex, hshows⟩ := Indexed.change_of_shows ho h new
    exact ⟨_, o', rfl, hc, hindex, hshows⟩

theorem node?_replaceChild (h : v.child? step = some w) (t : Step) (rest : List Step) :
    (v.replaceChild step new).node? (t :: rest) = if t = step then new.node? rest else v.node? (t :: rest) := by
  simp only [node?, child?_replaceChild h]
  split <;> rfl

theorem swapped_nil (v new : Value) : Swapped [] new v new where
  reached _ := rfl
  beside _ h _ := absurd List.nil_prefix h
  passed q step h := by
    have := List.prefix_nil.1 h
    simp at this

theorem Swapped.cons {c c' : Value} (h : Swapped path new c c') (hc : v.child? step = some c) :
    Swapped (step :: path) new v (v.replaceChild step c') where
  reached rest := by
    rw [List.cons_append, node?_replaceChild hc, if_pos rfl]
    exact h.reached rest
  beside q hq hq' := by
    cases q with
    | nil => exact absurd List.nil_prefix hq'
    | cons t q =>
      rw [node?_replaceChild hc]
      by_cases ht : t = step
      · subst ht
        rw [if_pos rfl, h.beside q (fun hp => hq (List.cons_prefix_cons.2 ⟨rfl, hp⟩)) fun hp => hq' (List.cons_prefix_cons.2 ⟨rfl, hp⟩)]
        simp only [node?, hc, Option.bind_some]
      · rw [if_neg ht]
  passed q t hq := by
    cases q with
    | nil =>
      obtain ⟨rfl, -⟩ := List.cons_prefix_cons.1 hq
      exact ⟨v, _, c, c', rfl, rfl, passed_replaceChild hc c'⟩
    | cons r q =>
      obtain ⟨rfl, hrest⟩ := List.cons_prefix_cons.1 hq
      obtain ⟨u, u', old, child, hu, hu', hpassed⟩ := h.passed q t hrest
      refine ⟨u, u', old, child, ?_, ?_, hpassed⟩
      · simp only [node?, hc, Option.bind_some, hu]
      · rw [node?_replaceChild hc, if_pos rfl, hu']

theorem swapped_updateAt (f : Value → Value × α) (h : v.node? path = some w) :
    ∃ v', v.updateAt f path = some (v', (f w).2) ∧ Swapped path (f w).1 v v' := by
  induction path generalizing v with
  | nil =>
    cases h
    exact ⟨_, rfl, swapped_nil _ _⟩
  | cons step rest ih =>
    obtain ⟨c, hc, hw⟩ := Option.bind_eq_some_iff.1 h
    obtain ⟨c', hup, hs⟩ := ih hw
    exact ⟨v.replaceChild step c', by simp only [updateAt, hc, hup, Option.bind_eq_bind, Option.bind_some]; rfl, hs.cons hc⟩

/-- Whoever walks on has the node that he came from keep its name and flag. -/
theorem root_updateAt {f : Value → Value × α} {a : α} (h : v.updateAt f path = some (v', a)) (hpath : path ≠ []) :
    v'.name = v.name ∧ v'.modified = v.modified := by
  obtain ⟨step, rest, rfl⟩ := List.exists_cons_of_ne_nil hpath
  obtain ⟨c, -, h⟩ := Option.bind_eq_some_iff.1 h
  obtain ⟨⟨c', a'⟩, -, h⟩ := Option.bind_eq_some_iff.1 h
  cases h
  exact ⟨name_replaceChild, modified_replaceChild⟩

/-- One change after another, with a walk for each. -/
theorem updateAt_updateAt {f : Value → Value × α} {a : α} (h : v.updateAt f path = some (v', a)) (g : Value → Value × β) :
    v'.updateAt g path = v.updateAt (fun w => g (f w).1) path := by
  induction path generalizing v v' with
  | nil =>
    have hf : f v = (v', a) := Option.some.inj h
    rw [updateAt, updateAt, hf]
  | cons step rest ih =>
    obtain ⟨c, hc, h⟩ := Option.bind_eq_some_iff.1 h
    obtain ⟨⟨c', a'⟩, hup, h⟩ := Option.bind_eq_some_iff.1 h
    cases h
    have hc' : (v.replaceChild step c').child? step = some c' := (passed_replaceChild hc c').after
    simp only [updateAt, hc, hc', Option.bind_eq_bind, Option.bind_some, ih hup, replaceChild_replaceChild]

end Value

/-! ## Mutations -/

/-- What is done to a node once it was reached. -/
inductive Mutation where
  | setPayload (p : Payload)
  /-- Any change to the payload in its place. -/
  | payload (f : Payload → Payload)
  | object (op : Indexed.Op)
  | listPush (v : Value)
  | listRemove (i : Nat)
  | arrayPush (p : Payload)
  | arrayRemove (i : Nat)
  | markModified
  | clearModified
  | replace (w : Value)

namespace Mutation

/-- What is refused, or needs another kind of container, changes nothing else. -/
def apply : Mutation → Value → Value
  | .setPayload p, v => v.setPayload p
  | .payload f, v => v.setPayload (f v.payload)
  | .object op, v => (v.editObject fun es => ((op.onEntries es).2, ())).1
  | .listPush w, v => (v.editList fun xs => ((ListElements.push w xs).toOption.getD xs, ())).1
  | .listRemove i, v => (v.editList fun xs => (xs.eraseIdx i, ())).1
  | .arrayPush p, v => (v.editArray fun xs => ((ArrayElements.push p xs).toOption.getD xs, ())).1
  | .arrayRemove i, v => (v.editArray fun xs => (xs.eraseIdx i, ())).1
  | .markModified, v => v.markModified
  | .clearModified, v => v.clearModified
  | .replace w, _ => w

end Mutation

namespace Value

variable {v w : Value} {path : List Step}

def mutate (ms : List Mutation) (v : Value) : Value := ms.foldl (fun v m => m.apply v) v

/-- A walk to a node and one change there, if there is such a node. -/
def mutateAt (path : List Step) (v : Value) (m : Mutation) : Option Value :=
  (·.1) <$> v.updateAt (fun w => (m.apply w, ())) path

theorem foldlM_mutateAt (h : v.node? path = some w) (m : Mutation) (ms : List Mutation) :
    (m :: ms).foldlM (mutateAt path) v = (·.1) <$> v.updateAt (fun w => (w.mutate (m :: ms), ())) path := by
  induction ms generalizing v w m with
  | nil =>
    rw [List.foldlM_cons]
    exact bind_pure _
  | cons m' ms ih =>
    obtain ⟨v', hup, hs⟩ := swapped_updateAt (fun w => (m.apply w, ())) h
    have hv' : v'.node? path = some (m.apply w) := by
      rw [← List.append_nil path]
      exact hs.reached []
    have hm : mutateAt path v m = some v' := by
      rw [mutateAt, hup]
      rfl
    rw [List.foldlM_cons, hm]
    show (m' :: ms).foldlM (mutateAt path) v' = _
    rw [ih hv' m', updateAt_updateAt hup]
    rfl

end Value

end TypedDoc
