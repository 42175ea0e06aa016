/-
  TypedDoc.Proofs.Value.Indexed — an object found through its index is the list of keys and
  children that it would be without one.

  `Shows o es` is the invariant: the children of `o` are those of `es` in order, the keys of
  `es` are distinct, and the index has a key at exactly the position where it is in `es`. It
  says nothing of the names the children have, so it survives whatever happens to a child
  in its place.
  - `follows`: every operation finds what it looks for, answers as it would without the
    index, and leaves an object that shows what it would leave. `Does` says for each what
    that is.
  - `takeEntries_eq_add` / `takeEntries_eq_addAll`: reading entries, with and without the
    index, is adding what `takeChildren` reads.
-/

import TypedDoc.Proofs.Value.Entries
import TypedDoc.Proofs.Wire.Outcome
import TypedDoc.Value.Indexed
import TypedDoc.Value.Walk

namespace TypedDoc

open Wire

namespace Indexed

structure Shows (o : Indexed) (es : List (String × Value)) : Prop where
  children : o.children.toList = es.map (·.2)
  distinct : (Entries.keys es).Nodup
  index : ∀ (key : String) (i : Nat), o.index[key]? = some i ↔ (Entries.keys es)[i]? = some key

namespace Shows

variable {o : Indexed} {es pre post : List (String × Value)} {key : String} {v : Value} {i : Nat}

theorem empty : Indexed.empty.Shows [] :=
  ⟨rfl, List.nodup_nil, fun key i => by simp [Indexed.empty, Entries.keys]⟩

theorem size (h : o.Shows es) : o.children.size = es.length := by
  rw [← Array.length_toList, h.children, List.length_map]

theorem found (h : o.Shows es) (hi : o.index[key]? = some i) : ∃ pre v post, es = pre ++ (key, v) :: post ∧
    pre.length = i ∧ key ∉ Entries.keys pre ∧ key ∉ Entries.keys post ∧ o.childAt i = .ok v := by
  obtain ⟨pre, v, post, rfl, hlen⟩ := Entries.exists_split ((h.index key i).1 hi)
  obtain ⟨hpre, hpost⟩ := Entries.not_mem_of_split h.distinct
  refine ⟨pre, v, post, rfl, hlen, hpre, hpost, ?_⟩
  have hv : o.children[i]? = some v := by
    rw [← Array.getElem?_toList, h.children, List.map_append, ← hlen]
    simp
  rw [childAt, hv]

theorem missing (h : o.Shows es) (hi : o.index[key]? = none) : key ∉ Entries.keys es := by
  intro hk
  obtain ⟨i, hi'⟩ := List.mem_iff_getElem?.1 hk
  cases hi.symm.trans ((h.index key i).2 hi')

theorem mem_index (h : o.Shows es) (key : String) : key ∈ o.index ↔ key ∈ Entries.keys es := by
  rw [Std.HashMap.mem_iff_isSome_getElem?, List.mem_iff_getElem?, Option.isSome_iff_exists]
  exact exists_congr fun i => h.index key i

/-- The index has each position once. -/
theorem bijOn (h : o.Shows es) :
    Set.BijOn (fun key => o.index.getD key 0) {key | key ∈ o.index} (Set.Iio o.children.size) := by
  have hlen : (Entries.keys es).length = o.children.size := by rw [h.size, Entries.keys, List.length_map]
  have hat : ∀ key ∈ o.index, (Entries.keys es)[o.index.getD key 0]? = some key := fun key hk => by
    rw [← h.index, Std.HashMap.getD_eq_getD_getElem?]
    obtain ⟨i, hi⟩ := Option.isSome_iff_exists.1 (Std.HashMap.mem_iff_isSome_getElem?.1 hk)
    rw [hi, Option.getD_some]
  refine ⟨fun key hk => ?_, fun key hk key' hk' heq => ?_, fun i hi => ?_⟩
  · exact hlen ▸ (List.getElem?_eq_some_iff.1 (hat key hk)).1
  · have hkey := hat key hk
    simp only at heq
    rw [heq, hat key' hk'] at hkey
    exact (Option.some.inj hkey).symm
  · have hi' : i < (Entries.keys es).length := hlen.symm ▸ hi
    have hindex := (h.index _ i).2 (List.getElem?_eq_getElem hi')
    refine ⟨(Entries.keys es)[i], ?_, ?_⟩
    · exact Std.HashMap.mem_iff_isSome_getElem?.2 (by rw [hindex]; rfl)
    · show o.index.getD _ 0 = i
      rw [Std.HashMap.getD_eq_getD_getElem?, hindex, Option.getD_some]

/-- Another child in the place of one. -/
theorem set (h : o.Shows (pre ++ (key, v) :: post)) (w : Value) :
    ({ o with children := o.children.setIfInBounds pre.length w } : Indexed).Shows (pre ++ (key, w) :: post) := by
  have hkeys : Entries.keys (pre ++ (key, w) :: post) = Entries.keys (pre ++ (key, v) :: post) := by
    rw [Entries.keys_append, Entries.keys_append, Entries.keys_cons, Entries.keys_cons]
  refine ⟨?_, hkeys ▸ h.distinct, fun k i => ?_⟩
  · rw [Array.toList_setIfInBounds, h.children]
    simp
  · rw [hkeys]
    exact h.index k i

/-- A new child behind all others. -/
theorem push (h : o.Shows es) (hk : key ∉ Entries.keys es) (w : Value) :
    (⟨o.children.push w, o.index.insert key o.children.size⟩ : Indexed).Shows (es ++ [(key, w)]) := by
  have hkeys : Entries.keys (es ++ [(key, w)]) = Entries.keys es ++ [key] := Entries.keys_append es [(key, w)]
  have hlen : (Entries.keys es).length = o.children.size := by rw [h.size, Entries.keys, List.length_map]
  refine ⟨by rw [Array.toList_push, h.children, List.map_append]; rfl, ?_, fun k i => ?_⟩
  · have hnew := Entries.nodup_put (v := w) (k := key) h.distinct
    rw [Entries.put_of_not_mem w hk] at hnew
    exact hnew
  · have hold : (Entries.keys es)[i]? = some k → i < o.children.size := fun hi => by
      rw [← hlen]
      exact (List.getElem?_eq_some_iff.1 hi).1
    rw [hkeys, Std.HashMap.getElem?_insert, List.getElem?_append, hlen]
    by_cases hkk : key = k
    · subst hkk
      rw [if_pos (beq_self_eq_true key), Option.some.injEq]
      by_cases hi : i < o.children.size
      · rw [if_pos hi]
        exact iff_of_false (by omega) fun he => hk (List.mem_of_getElem? he)
      · rw [if_neg hi, List.getElem?_singleton]
        by_cases h0 : i - o.children.size = 0
        · rw [if_pos h0]
          exact iff_of_true (by omega) rfl
        · rw [if_neg h0]
          exact iff_of_false (by omega) (Option.some_ne_none key).symm
    · rw [if_neg (mt beq_iff_eq.1 hkk), h.index]
      by_cases hi : i < o.children.size
      · rw [if_pos hi]
      · rw [if_neg hi, List.getElem?_singleton]
        refine iff_of_false (fun he => hi (hold he)) fun he => ?_
        split at he
        · exact hkk (Option.some.inj he)
        · cases he

/-- Taking a child out. -/
theorem erase (h : o.Shows (pre ++ (key, v) :: post)) :
    (⟨o.children.eraseIdxIfInBounds pre.length, (o.index.erase key).map fun _ => movedUp pre.length⟩ : Indexed).Shows
      (pre ++ post) := by
  have hlen : (Entries.keys pre).length = pre.length := by rw [Entries.keys, List.length_map]
  have hkeys : Entries.keys (pre ++ post) = (Entries.keys (pre ++ (key, v) :: post)).eraseIdx pre.length := by
    rw [Entries.keys_append, Entries.keys_append, Entries.keys_cons, List.eraseIdx_append_of_length_le hlen.le, hlen,
      Nat.sub_self]
    rfl
  have hhere : (Entries.keys (pre ++ (key, v) :: post))[pre.length]? = some key := by
    rw [Entries.keys_append, Entries.keys_cons, ← hlen, List.getElem?_append_right (Nat.le_refl _), Nat.sub_self]
    rfl
  obtain ⟨hpre, hpost⟩ := Entries.not_mem_of_split h.distinct
  have hdistinct := Entries.nodup_erase (k := key) h.distinct
  rw [Entries.erase_split hpre] at hdistinct
  refine ⟨?_, hdistinct, fun k i => ?_⟩
  · rw [Array.toList_eraseIdxIfInBounds, h.children, List.map_append, List.map_append, List.map_cons,
      List.eraseIdx_append_of_length_le (by rw [List.length_map]), List.length_map, Nat.sub_self]
    rfl
  · rw [Std.HashMap.getElem?_map, Std.HashMap.getElem?_erase]
    by_cases hkk : key = k
    · subst hkk
      rw [if_pos (beq_self_eq_true key), Option.map_none]
      refine iff_of_false (Option.some_ne_none i).symm fun he => ?_
      have hm := List.mem_of_getElem? he
      rw [Entries.keys_append] at hm
      exact (List.mem_append.1 hm).elim hpre hpost
    · rw [if_neg (mt beq_iff_eq.1 hkk), hkeys, List.getElem?_eraseIdx, Option.map_eq_some_iff]
      constructor
      · rintro ⟨slot, hslot, rfl⟩
        have hs := (h.index k slot).1 hslot
        have hne : slot ≠ pre.length := fun he => hkk (Option.some.inj ((he ▸ hhere).symm.trans hs))
        unfold movedUp
        by_cases hlt : pre.length < slot
        · rw [if_pos hlt, if_neg (by omega), Nat.sub_add_cancel (by omega)]
          exact hs
        · rw [if_neg hlt, if_pos (by omega)]
          exact hs
      · intro he
        by_cases hlt : i < pre.length
        · rw [if_pos hlt] at he
          exact ⟨i, (h.index k i).2 he, if_neg (by omega)⟩
        · rw [if_neg hlt] at he
          exact ⟨i + 1, (h.index k (i + 1)).2 he, if_pos (by omega)⟩

/-- Other children in the places of all. -/
theorem replaceAll (h : o.Shows es) (f : List Value → Nat → Value) :
    (o.changeAll f).Shows (es.mapIdx fun i e => (e.1, f (es.map (·.2)) i)) := by
  have hkeys : Entries.keys (es.mapIdx fun i e => (e.1, f (es.map (·.2)) i)) = Entries.keys es :=
    Entries.keys_mapIdx (fun i _ => f (es.map (·.2)) i) es
  refine ⟨?_, hkeys ▸ h.distinct, fun k i => ?_⟩
  · rw [changeAll, Array.toList_mapIdx, h.children]
    refine List.ext_getElem? fun i => ?_
    simp only [List.getElem?_map, List.getElem?_mapIdx]
    cases es[i]? <;> rfl
  · rw [hkeys]
    exact h.index k i

end Shows

/-! ## Operations -/

/-- What is asked of an object, or done to it. -/
inductive Op where
  | add (child : Value)
  | remove (key : String)
  | get (key : String)
  | change (key : String) (f : Value → Value)
  | contains (key : String)
  | names
  | changeAll (f : List Value → Nat → Value)

inductive Answer where
  | done
  | child (v : Option Value)
  | truth (b : Bool)
  | names (ns : List String)
  | failed (e : Error)
  /-- What was wrong with a stream, and what is left of it. -/
  | read (failure : Option Error) (rest : Supply)

def perform : Op → Indexed → Except Stray (Answer × Indexed)
  | .add child, o => do
    match ← o.add child with
    | (.ok old, o') => return (.child old, o')
    | (.error e, o') => return (.failed e, o')
  | .remove key, o => do
    let (old, o') ← o.remove key
    return (.child old, o')
  | .get key, o => do return (.child (← o.get key), o)
  | .change key f, o => do
    let (v, o') ← o.change key f
    return (.child v, o')
  | .contains key, o => .ok (.truth (o.contains key), o)
  | .names, o => .ok (.names o.names, o)
  | .changeAll f, o => .ok (.done, o.changeAll f)

/-- Changes the child of a key, as a walk to it does. -/
def changeEntry (key : String) (f : Value → Value) (es : List (String × Value)) : List (String × Value) :=
  match (⟨none, .object es, false⟩ : Value).updateAt (fun v => (f v, ())) [.child key] with
  | some (v, ()) => v.payload.entries?.getD es
  | none => es

/-- The same without an index. -/
def Op.onEntries : Op → List (String × Value) → Answer × List (String × Value)
  | .add child, es =>
    match ObjectEntries.add child es with
    | .ok (old, es') => (.child old, es')
    | .error e => (.failed e, es)
  | .remove key, es => (.child (es.lookup key), Entries.erase key es)
  | .get key, es => (.child (es.lookup key), es)
  | .change key f, es => (.child (es.lookup key), changeEntry key f es)
  | .contains key, es => (.truth (es.lookup key).isSome, es)
  | .names, es => (.names (ObjectEntries.names es), es)
  | .changeAll f, es => (.done, es.mapIdx fun i e => (e.1, f (es.map (·.2)) i))

/-- What an operation has to do to a list of keys and children, and to answer. -/
inductive Does : Op → List (String × Value) → Answer → List (String × Value) → Prop
  | append {es child key} : child.name = some key → key ∉ Entries.keys es →
      Does (.add child) es (.child none) (es ++ [(key, child)])
  | replace {pre post old child key} : child.name = some key →
      Does (.add child) (pre ++ (key, old) :: post) (.child (some old)) (pre ++ (key, child) :: post)
  | refuse {es child} : child.name = none → Does (.add child) es (.failed (.unnamedValue child.kind)) es
  | remove {pre post old key} :
      Does (.remove key) (pre ++ (key, old) :: post) (.child (some old)) (pre ++ post)
  | removeNone {es key} : key ∉ Entries.keys es → Does (.remove key) es (.child none) es
  | get {pre post v key} :
      Does (.get key) (pre ++ (key, v) :: post) (.child (some v)) (pre ++ (key, v) :: post)
  | getNone {es key} : key ∉ Entries.keys es → Does (.get key) es (.child none) es
  | change {pre post v key f} :
      Does (.change key f) (pre ++ (key, v) :: post) (.child (some v)) (pre ++ (key, f v) :: post)
  | changeNone {es key f} : key ∉ Entries.keys es → Does (.change key f) es (.child none) es
  | contains {pre post v key} :
      Does (.contains key) (pre ++ (key, v) :: post) (.truth true) (pre ++ (key, v) :: post)
  | containsNone {es key} : key ∉ Entries.keys es → Does (.contains key) es (.truth false) es
  | names {es} : Does .names es (.names (es.filterMap (·.2.name))) es
  | changeAll {es f} : Does (.changeAll f) es .done (es.mapIdx fun i e => (e.1, f (es.map (·.2)) i))

section

variable {o : Indexed} {es pre post : List (String × Value)} {key : String} {v : Value} {i : Nat}

theorem changeEntry_split (f : Value → Value) (hpre : key ∉ Entries.keys pre) (hpost : key ∉ Entries.keys post) :
    changeEntry key f (pre ++ (key, v) :: post) = pre ++ (key, f v) :: post := by
  have hv : (⟨none, .object (pre ++ (key, v) :: post), false⟩ : Value).child? (.child key) = some v :=
    Entries.lookup_split hpre
  unfold changeEntry
  simp only [Value.updateAt, hv]
  exact Entries.map_split (fun e => (e.1, f v)) hpre hpost

theorem changeEntry_of_not_mem (f : Value → Value) (h : key ∉ Entries.keys es) : changeEntry key f es = es := by
  have hv : (⟨none, .object es, false⟩ : Value).child? (.child key) = none := Entries.lookup_eq_none h
  unfold changeEntry
  simp only [Value.updateAt, hv]
  rfl

theorem add_of_name {child : Value} (hn : child.name = some key) (es : List (String × Value)) :
    ObjectEntries.add child es = .ok (es.lookup key, Entries.put key child es) := by
  simp only [ObjectEntries.add, hn]

/-- What is answered, and what there is afterwards, is as without an index. -/
structure Follows (o : Indexed) (es : List (String × Value)) (op : Op) : Prop where
  shown : ∃ o', o.perform op = .ok ((op.onEntries es).1, o') ∧ o'.Shows (op.onEntries es).2
  does : Does op es (op.onEntries es).1 (op.onEntries es).2

theorem Follows.of_eq {op : Op} {a : Answer} {es' : List (String × Value)} {o' : Indexed} (he : op.onEntries es = (a, es'))
    (ho : o.perform op = .ok (a, o')) (hs : o'.Shows es') (hd : Does op es a es') : o.Follows es op := by
  refine ⟨⟨o', ?_, ?_⟩, ?_⟩ <;> rw [he]
  · exact ho
  · exact hs
  · exact hd

theorem add_unnamed (hn : v.name = none) (o : Indexed) : o.add v = .ok (.error (.unnamedValue v.kind), o) := by
  simp only [Indexed.add, hn]

theorem add_named (h : o.Shows es) (hn : v.name = some key) :
    ∃ o', o.add v = .ok (.ok (es.lookup key), o') ∧ o'.Shows (Entries.put key v es) := by
  cases hi : o.index[key]? with
  | none =>
    have hk := h.missing hi
    rw [Entries.lookup_eq_none hk, Entries.put_of_not_mem v hk]
    exact ⟨_, by simp only [Indexed.add, hn, hi], h.push hk v⟩
  | some i =>
    obtain ⟨pre, old, post, rfl, rfl, hpre, -, hold⟩ := h.found hi
    rw [Entries.lookup_split hpre, Entries.put_split hpre]
    exact ⟨_, by simp only [Indexed.add, hn, hi, hold]; rfl, h.set v⟩

theorem does_add (hn : v.name = some key) (es : List (String × Value)) :
    Does (.add v) es (.child (es.lookup key)) (Entries.put key v es) := by
  by_cases hk : key ∈ Entries.keys es
  · obtain ⟨pre, old, post, rfl, hpre⟩ := Entries.exists_first hk
    rw [Entries.lookup_split hpre, Entries.put_split hpre]
    exact .replace hn
  · rw [Entries.lookup_eq_none hk, Entries.put_of_not_mem v hk]
    exact .append hn hk

theorem follows_add (h : o.Shows es) (v : Value) : o.Follows es (.add v) := by
  cases hn : v.name with
  | none =>
    refine .of_eq (by simp only [Op.onEntries, ObjectEntries.add, hn]) ?_ h (.refuse hn)
    simp only [perform, add_unnamed hn]
    rfl
  | some key =>
    obtain ⟨o', ho, hs⟩ := add_named h hn
    refine .of_eq (by simp only [Op.onEntries, add_of_name hn]) ?_ hs (does_add hn es)
    simp only [perform, ho]
    rfl

theorem follows_remove (h : o.Shows es) (key : String) : o.Follows es (.remove key) := by
  cases hi : o.index[key]? with
  | none =>
    have hk := h.missing hi
    refine .of_eq ?_ ?_ h (.removeNone hk)
    · simp only [Op.onEntries, Entries.lookup_eq_none hk, Entries.erase_of_not_mem hk]
    · simp only [perform, Indexed.remove, hi]
      rfl
  | some i =>
    obtain ⟨pre, old, post, rfl, rfl, hpre, -, hold⟩ := h.found hi
    refine .of_eq ?_ ?_ h.erase .remove
    · simp only [Op.onEntries, Entries.lookup_split hpre, Entries.erase_split hpre]
    · simp only [perform, Indexed.remove, hi, hold]
      rfl

theorem follows_change (h : o.Shows es) (key : String) (f : Value → Value) : o.Follows es (.change key f) := by
  cases hi : o.index[key]? with
  | none =>
    have hk := h.missing hi
    refine .of_eq ?_ ?_ h (.changeNone hk)
    · simp only [Op.onEntries, Entries.lookup_eq_none hk, changeEntry_of_not_mem f hk]
    · simp only [perform, Indexed.change, hi]
      rfl
  | some i =>
    obtain ⟨pre, v, post, rfl, rfl, hpre, hpost, hv⟩ := h.found hi
    refine .of_eq ?_ ?_ (h.set (f v)) .change
    · simp only [Op.onEntries, Entries.lookup_split hpre, changeEntry_split f hpre hpost]
    · simp only [perform, Indexed.change, hi, hv]
      rfl

theorem get_of_shows (h : o.Shows es) (key : String) : o.get key = .ok (es.lookup key) := by
  unfold Indexed.get
  cases hi : o.index[key]? with
  | none => rw [Entries.lookup_eq_none (h.missing hi)]
  | some i =>
    obtain ⟨pre, v, post, rfl, rfl, hpre, -, hv⟩ := h.found hi
    rw [Entries.lookup_split hpre]
    simp only [hv]
    rfl

theorem follows_get (h : o.Shows es) (key : String) : o.Follows es (.get key) := by
  have ho : o.perform (.get key) = .ok (.child (es.lookup key), o) := by
    simp only [perform, get_of_shows h key]
    rfl
  refine .of_eq rfl ho h ?_
  cases hi : o.index[key]? with
  | none =>
    rw [Entries.lookup_eq_none (h.missing hi)]
    exact .getNone (h.missing hi)
  | some i =>
    obtain ⟨pre, v, post, rfl, rfl, hpre, -, -⟩ := h.found hi
    rw [Entries.lookup_split hpre]
    exact .get

theorem follows_contains (h : o.Shows es) (key : String) : o.Follows es (.contains key) := by
  have hc : o.contains key = o.index[key]?.isSome := Std.HashMap.contains_eq_isSome_getElem?
  cases hi : o.index[key]? with
  | none =>
    have hk := h.missing hi
    refine .of_eq ?_ ?_ h (.containsNone hk)
    · simp only [Op.onEntries, Entries.lookup_eq_none hk, Option.isSome_none]
    · simp only [perform, hc, hi, Option.isSome_none]
  | some i =>
    obtain ⟨pre, v, post, rfl, rfl, hpre, -, -⟩ := h.found hi
    refine .of_eq ?_ ?_ h .contains
    · simp only [Op.onEntries, Entries.lookup_split hpre, Option.isSome_some]
    · simp only [perform, hc, hi, Option.isSome_some]

theorem names_of_shows (h : o.Shows es) : o.names = ObjectEntries.names es := by
  rw [Indexed.names, h.children, List.filterMap_map]
  rfl

theorem follows_names (h : o.Shows es) : o.Follows es .names :=
  .of_eq rfl (by simp only [perform, names_of_shows h]) h .names

theorem follows (h : o.Shows es) : ∀ op : Op, o.Follows es op
  | .add child => follows_add h child
  | .remove key => follows_remove h key
  | .get key => follows_get h key
  | .change key f => follows_change h key f
  | .contains key => follows_contains h key
  | .names => follows_names h
  | .changeAll f => .of_eq rfl rfl (h.replaceAll f) .changeAll

end

/-! ## Many children at once -/

/-- The entries of an object as they stand in a stream, each as a child under its name. -/
def takeChildren (reg : Registry) (c : Charset) (payload : Kind → Decoder Payload) : (budget : Nat) → Decoder (List Value)
  | 0 => throw (.truncatedStream .fixedWidth)
  | n + 1 => do
    let id ← takeByte
    if id = TypeId.terminator.toByte then return []
    let kind ← settled (reg.kindOf id)
    let name ← takeString c
    let p ← payload kind
    let rest ← takeChildren reg c payload n
    return ⟨some name, p, false⟩ :: rest

/-- Adds one after another, up to the first that has no name. -/
def addEntries (vs : List Value) (es : List (String × Value)) : Except Error (List (String × Value)) :=
  vs.foldlM (fun es v => (·.2) <$> ObjectEntries.add v es) es

/-- What came of adding, as an outcome of reading. -/
def concluded : Except Stray (Except Error Indexed) → Decoder (Except Stray Indexed)
  | .error stray => return .error stray
  | .ok r => .ok <$> settled r

section

variable {o : Indexed} {es : List (String × Value)} {v : Value} {key : String}

theorem addEntries_named (hn : v.name = some key) (rest : List Value) (es : List (String × Value)) :
    addEntries (v :: rest) es = addEntries rest (Entries.put key v es) := by
  rw [addEntries, List.foldlM_cons, add_of_name hn]
  rfl

theorem addEntries_unnamed (hn : v.name = none) (rest : List Value) (es : List (String × Value)) :
    addEntries (v :: rest) es = .error (.unnamedValue v.kind) := by
  rw [addEntries, List.foldlM_cons]
  simp only [ObjectEntries.add, hn]
  rfl

theorem addAll_shows (h : o.Shows es) (vs : List Value) :
    match addEntries vs es with
    | .error e => o.addAll vs = .ok (.error e)
    | .ok es' => ∃ o', o.addAll vs = .ok (.ok o') ∧ o'.Shows es' := by
  induction vs generalizing o es with
  | nil => exact ⟨o, rfl, h⟩
  | cons v rest ih =>
    cases hn : v.name with
    | none =>
      rw [addEntries_unnamed hn]
      simp only [addAll, add_unnamed hn]
      rfl
    | some key =>
      obtain ⟨o', ho, hs⟩ := add_named h hn
      have hrest : o.addAll (v :: rest) = o'.addAll rest := by
        simp only [addAll, ho]
        rfl
      rw [addEntries_named hn, hrest]
      exact ih hs

end

section

variable (reg : Registry) (c : Charset) (payload : Kind → Decoder Payload)

theorem takeChildren_bind {β : Type} (n : Nat) (next : List Value → Decoder β) :
    takeChildren reg c payload (n + 1) >>= next = takeByte >>= fun id =>
      if id = TypeId.terminator.toByte then next []
      else settled (reg.kindOf id) >>= fun kind => takeString c >>= fun name => payload kind >>= fun p =>
        takeChildren reg c payload n >>= fun rest => next (⟨some name, p, false⟩ :: rest) := by
  rw [takeChildren, bind_assoc]
  refine bind_congr fun id => ?_
  split
  · rw [pure_bind]
  · simp only [bind_assoc, pure_bind]

theorem takeEntries_eq_add (n : Nat) (es : List (String × Value)) :
    TypedDoc.takeEntries reg c payload n es = takeChildren reg c payload n >>= fun vs => settled (addEntries vs es) := by
  induction n generalizing es with
  | zero => rfl
  | succ n ih =>
    rw [takeChildren_bind, TypedDoc.takeEntries]
    refine bind_congr fun id => ?_
    split
    · rfl
    · refine bind_congr fun kind => bind_congr fun name => bind_congr fun p => ?_
      rw [ih]
      exact bind_congr fun rest => by rw [addEntries_named rfl]

theorem takeEntries_eq_addAll (n : Nat) {o : Indexed} {es : List (String × Value)} (h : o.Shows es) :
    Indexed.takeEntries reg c payload n o = takeChildren reg c payload n >>= fun vs => concluded (o.addAll vs) := by
  induction n generalizing o es with
  | zero => rfl
  | succ n ih =>
    rw [takeChildren_bind, Indexed.takeEntries]
    refine bind_congr fun id => ?_
    split
    · rfl
    · refine bind_congr fun kind => bind_congr fun name => bind_congr fun p => ?_
      obtain ⟨o', ho, hs⟩ := add_named (v := ⟨some name, p, false⟩) h rfl
      simp only [ho, ih hs]
      refine bind_congr fun rest => ?_
      simp only [addAll, ho]
      rfl

end

end Indexed

end TypedDoc
