/-
  TypedDoc.Proofs.Value.Objects — any number of objects, and whatever is done with them.

  Slots hold objects. One is worked on through its operations, built of values, copied to
  another slot or read from a stream; refused and failing steps count like any other. Beside
  each stands a `Table`, the entries without an index, and whether a child was given
  another name in its place since.
  - `run_inv`: the two never come apart, and while no child was renamed the children have
    the names that they are found under.
  - `run_faithful`: what that comes to after any run. No position was ever out of range.
    The index is a bijection from the keys to the positions, each operation does what
    `Does` says, and reading entries is adding them one after another.
-/

import TypedDoc.Proofs.Value.Indexed

namespace TypedDoc

open Wire

namespace Indexed

/-! ## Names and keys -/

/-- Every child has the name that it is found under. -/
def Named (es : List (String × Value)) : Prop := ∀ e ∈ es, e.2.name = some e.1

/-- A child has another name afterwards, though it stayed where it was. -/
def Op.renames (op : Op) (es : List (String × Value)) : Bool :=
  match op with
  | .change .. | .changeAll .. => (op.onEntries es).2.map (·.2.name) != es.map (·.2.name)
  | _ => false

section

variable {o : Indexed} {es es' : List (String × Value)} {key : String} {v : Value}

theorem named_nil : Named [] := fun _ he => absurd he List.not_mem_nil

theorem named_iff : Named es ↔ es.map (·.2.name) = (Entries.keys es).map some := by
  rw [Entries.keys, List.map_map, List.map_inj_left]
  rfl

theorem named_put (h : Named es) (hn : v.name = some key) : Named (Entries.put key v es) := by
  intro e he
  rcases Entries.mem_put he with he | rfl
  · exact h e he
  · exact hn

theorem named_addEntries (h : Named es) {vs : List Value} (ha : addEntries vs es = .ok es') : Named es' := by
  induction vs generalizing es with
  | nil =>
    cases ha
    exact h
  | cons v rest ih =>
    cases hn : v.name with
    | none =>
      rw [addEntries_unnamed hn] at ha
      cases ha
    | some key =>
      rw [addEntries_named hn] at ha
      exact ih (named_put h hn) ha

theorem keys_changeEntry (key : String) (f : Value → Value) (es : List (String × Value)) :
    Entries.keys (changeEntry key f es) = Entries.keys es := by
  unfold changeEntry
  simp only [Value.updateAt]
  cases (⟨none, .object es, false⟩ : Value).child? (.child key) with
  | none => rfl
  | some v =>
    show Entries.keys (es.map fun e => if e.1 = key then (e.1, f v) else e) = Entries.keys es
    rw [Entries.keys, List.map_map]
    refine List.map_congr_left fun e _ => ?_
    show (if e.1 = key then (e.1, f v) else e).1 = e.1
    split <;> rfl

theorem named_of_keys (h : Named es) (hk : Entries.keys es' = Entries.keys es)
    (hn : (es'.map (·.2.name) != es.map (·.2.name)) = false) : Named es' := by
  rw [named_iff] at h ⊢
  rw [hk, ← h]
  simpa using hn

theorem named_onEntries (h : Named es) (op : Op) (hr : op.renames es = false) : Named (op.onEntries es).2 := by
  cases op with
  | add v =>
    cases hn : v.name with
    | none =>
      simp only [Op.onEntries, ObjectEntries.add, hn]
      exact h
    | some key =>
      simp only [Op.onEntries, add_of_name hn]
      exact named_put h hn
  | remove key => exact fun e he => h e (Entries.mem_of_mem_erase he)
  | change key f => exact named_of_keys h (keys_changeEntry key f es) hr
  | changeAll f => exact named_of_keys h (Entries.keys_mapIdx (fun i _ => f (es.map Prod.snd) i) es) hr
  | get key => exact h
  | contains key => exact h
  | names => exact h

theorem names_of_named (h : Named es) : ObjectEntries.names es = Entries.keys es := by
  unfold ObjectEntries.names
  induction es with
  | nil => rfl
  | cons e rest ih =>
    obtain ⟨he, hrest⟩ := List.forall_mem_cons.1 h
    rw [List.filterMap_cons, he, ih hrest]
    rfl

end

/-! ## Many objects -/

/-- An object without its index. -/
structure Table where
  entries : List (String × Value)
  /-- A child was given another name in place. -/
  renamed : Bool

/-- What is done with objects that `ι` tells apart. -/
inductive Act (ι : Type) where
  | perform (i : ι) (op : Op)
  | build (i : ι) (vs : List Value)
  /-- A copy of what is in the first slot goes into the second. -/
  | copy (i j : ι)
  /-- Reads the entries of an object, with so many levels left for what each has. -/
  | read (i : ι) (reg : Registry) (c : Charset) (levels : Nat) (s : Supply)

section

variable {ι : Type} [DecidableEq ι]

def step (os : ι → Indexed) : Act ι → Except Stray (Answer × (ι → Indexed))
  | .perform i op => do
    let (a, o) ← (os i).perform op
    return (a, Function.update os i o)
  | .build i vs => do
    match ← ofValues vs with
    | .error e => return (.failed e, os)
    | .ok o => return (.done, Function.update os i o)
  | .copy i j => .ok (.done, Function.update os j (os i))
  | .read i reg c levels s =>
    match takeEntries reg c (takePayload reg c (s.size + 1) levels) (s.size + 1) empty s with
    | .error e rest => .ok (.read (some e) rest, os)
    | .ok (.error stray) _ => .error stray
    | .ok (.ok o) rest => .ok (.read none rest, Function.update os i o)

/-- Some in a row, with their answers. -/
def run (os : ι → Indexed) : List (Act ι) → Except Stray (List Answer × (ι → Indexed))
  | [] => .ok ([], os)
  | act :: rest => do
    let (a, os) ← step os act
    let (as, os) ← run os rest
    return (a :: as, os)

namespace Table

def empty : Table := ⟨[], false⟩

def step (ts : ι → Table) : Act ι → Answer × (ι → Table)
  | .perform i op =>
    let (a, es) := op.onEntries (ts i).entries
    (a, Function.update ts i ⟨es, (ts i).renamed || op.renames (ts i).entries⟩)
  | .build i vs =>
    match ObjectEntries.ofValues vs with
    | .error e => (.failed e, ts)
    | .ok es => (.done, Function.update ts i ⟨es, false⟩)
  | .copy i j => (.done, Function.update ts j (ts i))
  | .read i reg c levels s =>
    match TypedDoc.takeEntries reg c (takePayload reg c (s.size + 1) levels) (s.size + 1) [] s with
    | .error e rest => (.read (some e) rest, ts)
    | .ok es rest => (.read none rest, Function.update ts i ⟨es, false⟩)

def run (ts : ι → Table) : List (Act ι) → List Answer × (ι → Table)
  | [] => ([], ts)
  | act :: rest =>
    let (a, ts) := step ts act
    let (as, ts) := run ts rest
    (a :: as, ts)

end Table

structure Inv (o : Indexed) (t : Table) : Prop where
  shows : o.Shows t.entries
  named : t.renamed = false → Named t.entries

theorem inv_empty : Indexed.empty.Inv .empty := ⟨.empty, fun _ => named_nil⟩

theorem forall_inv_update {os : ι → Indexed} {ts : ι → Table} (h : ∀ i, (os i).Inv (ts i)) {o : Indexed} {t : Table}
    (hn : o.Inv t) (i j : ι) : (Function.update os i o j).Inv (Function.update ts i t j) := by
  by_cases hj : j = i
  · subst hj
    rw [Function.update_self, Function.update_self]
    exact hn
  · rw [Function.update_of_ne hj, Function.update_of_ne hj]
    exact h j

theorem build_agrees (vs : List Value) :
    match ObjectEntries.ofValues vs with
    | .error e => ofValues vs = .ok (.error e)
    | .ok es => ∃ o, ofValues vs = .ok (.ok o) ∧ o.Inv ⟨es, false⟩ := by
  have hadd := addAll_shows .empty vs
  rw [show ObjectEntries.ofValues vs = addEntries vs [] from rfl]
  cases hes : addEntries vs [] with
  | error e =>
    rw [hes] at hadd
    exact hadd
  | ok es =>
    rw [hes] at hadd
    obtain ⟨o, ho, hs⟩ := hadd
    exact ⟨o, ho, hs, fun _ => named_addEntries named_nil hes⟩

theorem read_agrees (reg : Registry) (c : Charset) (payload : Kind → Decoder Payload) (n : Nat) (s : Supply) :
    match TypedDoc.takeEntries reg c payload n [] s with
    | .error e rest => takeEntries reg c payload n empty s = .error e rest
    | .ok es rest => ∃ o, takeEntries reg c payload n empty s = .ok (.ok o) rest ∧ o.Inv ⟨es, false⟩ := by
  rw [takeEntries_eq_add, takeEntries_eq_addAll reg c payload n .empty]
  cases hc : takeChildren reg c payload n s with
  | error e rest => rw [bind_eq_of_error _ hc, bind_eq_of_error _ hc]
  | ok vs rest =>
    rw [bind_eq_of_ok _ hc, bind_eq_of_ok _ hc]
    have hbuild := build_agrees vs
    show match settled (ObjectEntries.ofValues vs) rest with
      | .error e rest' => concluded (ofValues vs) rest = .error e rest'
      | .ok es rest' => ∃ o, concluded (ofValues vs) rest = .ok (.ok o) rest' ∧ o.Inv ⟨es, false⟩
    cases hes : ObjectEntries.ofValues vs with
    | error e =>
      rw [hes] at hbuild
      simp only at hbuild
      rw [hbuild]
      rfl
    | ok es =>
      rw [hes] at hbuild
      obtain ⟨o, ho, hinv⟩ := hbuild
      rw [ho]
      exact ⟨o, rfl, hinv⟩

theorem step_inv {os : ι → Indexed} {ts : ι → Table} (h : ∀ i, (os i).Inv (ts i)) (act : Act ι) :
    ∃ os', step os act = .ok ((Table.step ts act).1, os') ∧ ∀ i, (os' i).Inv ((Table.step ts act).2 i) := by
  cases act with
  | perform i op =>
    obtain ⟨o', ho, hs⟩ := (follows (h i).shows op).shown
    refine ⟨Function.update os i o', ?_, forall_inv_update h ⟨hs, fun hr => ?_⟩ i⟩
    · simp only [step, ho]
      rfl
    · obtain ⟨h1, h2⟩ := Bool.or_eq_false_iff.1 hr
      exact named_onEntries ((h i).named h1) op h2
  | build i vs =>
    have ha := build_agrees vs
    simp only [step, Table.step]
    cases hes : ObjectEntries.ofValues vs with
    | error e =>
      rw [hes] at ha
      simp only at ha
      exact ⟨os, by rw [ha]; rfl, h⟩
    | ok es =>
      rw [hes] at ha
      obtain ⟨o, ho, hinv⟩ := ha
      exact ⟨Function.update os i o, by rw [ho]; rfl, forall_inv_update h hinv i⟩
  | copy i j => exact ⟨_, rfl, forall_inv_update h (h i) j⟩
  | read i reg c levels s =>
    have ha := read_agrees reg c (takePayload reg c (s.size + 1) levels) (s.size + 1) s
    simp only [step, Table.step]
    cases hes : TypedDoc.takeEntries reg c (takePayload reg c (s.size + 1) levels) (s.size + 1) [] s with
    | error e rest =>
      rw [hes] at ha
      simp only at ha
      exact ⟨os, by rw [ha], h⟩
    | ok es rest =>
      rw [hes] at ha
      obtain ⟨o, ho, hinv⟩ := ha
      exact ⟨Function.update os i o, by rw [ho], forall_inv_update h hinv i⟩

theorem run_inv {os : ι → Indexed} {ts : ι → Table} (h : ∀ i, (os i).Inv (ts i)) (acts : List (Act ι)) :
    ∃ os', run os acts = .ok ((Table.run ts acts).1, os') ∧ ∀ i, (os' i).Inv ((Table.run ts acts).2 i) := by
  induction acts generalizing os ts with
  | nil => exact ⟨os, rfl, h⟩
  | cons act rest ih =>
    obtain ⟨os₁, h1, hi1⟩ := step_inv h act
    obtain ⟨os₂, h2, hi2⟩ := ih hi1
    refine ⟨os₂, ?_, hi2⟩
    simp only [run, h1, Table.run]
    show (do
      let (as, os) ← run os₁ rest
      return ((Table.step ts act).1 :: as, os)) = _
    rw [h2]
    rfl

/-- An object that only its index makes different from a list of keys and children. -/
structure Faithful (o : Indexed) (t : Table) : Prop where
  children : o.children.toList = t.entries.map (·.2)
  distinct : (Entries.keys t.entries).Nodup
  keys : ∀ key, key ∈ o.index ↔ key ∈ Entries.keys t.entries
  /-- The index has a key where the list has it. -/
  places : ∀ (key : String) (i : Nat), o.index[key]? = some i ↔ (Entries.keys t.entries)[i]? = some key
  bijection : Set.BijOn (fun key => o.index.getD key 0) {key | key ∈ o.index} (Set.Iio o.children.size)
  follows : ∀ op : Op, o.Follows t.entries op
  named : t.renamed = false → Named t.entries ∧ o.names = Entries.keys t.entries ∧ o.names.Nodup ∧
    ∀ (name : String) (v : Value), o.get name = .ok (some v) ↔ v ∈ o.children.toList ∧ v.name = some name

theorem get_of_named {o : Indexed} {es : List (String × Value)} (h : o.Shows es) (hn : Named es) (name : String) (v : Value) :
    o.get name = .ok (some v) ↔ v ∈ o.children.toList ∧ v.name = some name := by
  rw [get_of_shows h, h.children, Except.ok.injEq, Entries.lookup_eq_some_iff h.distinct, List.mem_map]
  constructor
  · intro hv
    exact ⟨⟨(name, v), hv, rfl⟩, hn (name, v) hv⟩
  · rintro ⟨⟨e, he, rfl⟩, hname⟩
    rw [hn e he] at hname
    cases hname
    exact he

theorem Inv.faithful {o : Indexed} {t : Table} (h : o.Inv t) : o.Faithful t where
  children := h.shows.children
  distinct := h.shows.distinct
  keys := h.shows.mem_index
  places := h.shows.index
  bijection := h.shows.bijOn
  follows := Indexed.follows h.shows
  named hr := by
    have hn := h.named hr
    have hnames : o.names = Entries.keys t.entries := (names_of_shows h.shows).trans (names_of_named hn)
    exact ⟨hn, hnames, hnames ▸ h.shows.distinct, get_of_named h.shows hn⟩

/-- Objects with an index are ordered association lists, whatever is done with them. -/
theorem run_faithful (acts : List (Act ι)) :
    (∃ os : ι → Indexed, run (fun _ => empty) acts = .ok ((Table.run (fun _ => .empty) acts).1, os) ∧
      ∀ i, (os i).Faithful ((Table.run (fun _ => .empty) acts).2 i)) ∧
    ∀ (reg : Registry) (c : Charset) (payload : Kind → Decoder Payload) (budget : Nat),
      (takeEntries reg c payload budget empty = takeChildren reg c payload budget >>= fun vs => concluded (ofValues vs)) ∧
      (TypedDoc.takeEntries reg c payload budget [] =
        takeChildren reg c payload budget >>= fun vs => settled (ObjectEntries.ofValues vs)) := by
  refine ⟨?_, fun reg c payload budget => ⟨?_, ?_⟩⟩
  · obtain ⟨os, hrun, hinv⟩ := run_inv (fun _ => inv_empty) acts
    exact ⟨os, hrun, fun i => (hinv i).faithful⟩
  · exact takeEntries_eq_addAll reg c payload budget .empty
  · exact takeEntries_eq_add reg c payload budget []

end

end Indexed

end TypedDoc
