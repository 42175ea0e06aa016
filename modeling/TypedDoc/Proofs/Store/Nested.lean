/-
  TypedDoc.Proofs.Store.Nested — changes below the root, which a write does not see unless
  it is forced.

  A `Visit` is a walk from the root, of one step at least, and what is done to the node
  where it ends. No visit touches the root's flag (`modified_visitAll`). So a write that is
  not forced is skipped after any number of them, and one that is forced has all of them
  (`nested_local`).
-/

import TypedDoc.Proofs.Store.Failure
import TypedDoc.Proofs.Store.Shared
import TypedDoc.Proofs.Value.Paths

namespace TypedDoc

open Wire

/-! ## Documents -/

structure Visit where
  step : Step
  rest : List Step
  changes : List Mutation

def Visit.path (visit : Visit) : List Step := visit.step :: visit.rest

namespace Document

/-- A walk that ends nowhere changes nothing. -/
def visit (d : Document) (visit : Visit) : Document :=
  match d.updateAt (fun w => (w.mutate visit.changes, ())) visit.path with
  | some (d', ()) => d'
  | none => d

def visitAll (d : Document) (visits : List Visit) : Document := visits.foldl visit d

theorem modified_visit (d : Document) (v : Visit) : (d.visit v).modified = d.modified := by
  unfold visit
  split
  · rename_i d' h
    obtain ⟨⟨root, a⟩, hroot, h⟩ := Option.bind_eq_some_iff.1 h
    cases h
    exact (Value.root_updateAt hroot (List.cons_ne_nil _ _)).2
  · rfl

theorem modified_visitAll (d : Document) (visits : List Visit) : (d.visitAll visits).modified = d.modified := by
  induction visits generalizing d with
  | nil => rfl
  | cons v visits ih => exact (ih (d.visit v)).trans (modified_visit d v)

end Document

/-! ## Stores -/

namespace Store

def visitAll (visits : List Visit) (s : Store) : Store := { s with document := s.document.map (·.visitAll visits) }

variable {s : Store} {d : Document} {h : Host}

theorem writeBy_of_clean (codec : Gzip.Codec) (hd : s.document = some d) (hm : d.modified = false) (h : Host) :
    s.writeBy codec false h = (s, .ok false h) := by
  unfold writeBy
  simp only [hd, hm, Bool.not_false, Bool.and_self, if_true]

/-- A forced write that is answered has written the document, whatever the source is like. -/
theorem writeBy_forced {codec : Gzip.Lossless} {s' : Store} {b : Bool} {h' : Host} (hd : s.document = some d)
    (hw : s.writeBy codec true h = (s', .ok b h')) : b = true ∧ Shows codec (s.source.content h') s.config d := by
  have hwrote := writeBy_wrote codec true s h
  rw [hw] at hwrote
  cases hwrote with
  | skipped _ hforce => cases hforce
  | written hd' he hb hwritten hc =>
    rw [hd] at hd'
    cases hd'
    rw [hb.content_commit hc, hwritten]
    exact ⟨rfl, shows_wrapBy codec s.config he⟩

/-- A change at the end of a path of one step at least. The nodes beside the path are as
    they were; those on it keep their name, their flag, their other children and where
    their index finds them; the root among them. So a root that was clean still is: a write
    is skipped, and leaves all of the host as it was. A forced one that is answered has put
    the changed tree in the source, and it is, if the tree can be encoded and nothing is in
    the way. -/
theorem nested_local :
    (∀ (v w : Value) (path : List Step) (ms : List Mutation), path ≠ [] → v.node? path = some w →
      ∃ v', v.updateAt (fun w => (w.mutate ms, ())) path = some (v', ()) ∧
        (ms ≠ [] → ms.foldlM (Value.mutateAt path) v = some v') ∧
        Value.Swapped path (w.mutate ms) v v' ∧ v'.name = v.name ∧ v'.modified = v.modified) ∧
    ∀ (codec : Gzip.Lossless) (s : Store) (d : Document) (visits : List Visit) (h : Host), s.document = some d →
      d.modified = false →
      (s.visitAll visits).document = some (d.visitAll visits) ∧ (d.visitAll visits).modified = false ∧
      (s.visitAll visits).writeBy codec false h = (s.visitAll visits, .ok false h) ∧
      (∀ s' b h', (s.visitAll visits).writeBy codec true h = (s', .ok b h') →
        b = true ∧ Shows codec (s.source.content h') s.config (d.visitAll visits)) ∧
      ∀ d' bs, (d.visitAll visits).encode = (d', .ok bs) → s.source.accepts h = true →
        ∃ s' h', (s.visitAll visits).writeBy codec true h = (s', .ok true h') ∧
          Shows codec (s.source.content h') s.config (d.visitAll visits) := by
  refine ⟨fun v w path ms hpath hw => ?_, fun codec s d visits h hd hm => ?_⟩
  · obtain ⟨v', hup, hs⟩ := Value.swapped_updateAt (fun w => (w.mutate ms, ())) hw
    refine ⟨v', hup, fun hne => ?_, hs, Value.root_updateAt hup hpath⟩
    obtain ⟨m, ms, rfl⟩ := List.exists_cons_of_ne_nil hne
    rw [Value.foldlM_mutateAt hw m ms, hup]
    rfl
  · have hd' : (s.visitAll visits).document = some (d.visitAll visits) := by
      unfold visitAll
      rw [hd]
      rfl
    have hm' : (d.visitAll visits).modified = false := (d.modified_visitAll visits).trans hm
    refine ⟨hd', hm', writeBy_of_clean codec hd' hm' h, fun s' b h' => writeBy_forced hd', fun d' bs hencode ha => ?_⟩
    have he := (Document.encode_ok hencode).1
    obtain ⟨s', h', hw, hc⟩ := writeBy_of_accepts codec hd' (Or.inl rfl) he ha
    exact ⟨s', h', hw, hc ▸ shows_wrapBy codec _ he⟩

/-- An element of a list gets a child, and a new payload for the one it had: the root and
    the list stay clean, and only a forced write has the changes. -/
theorem nested_local_element :
    let a (x : Int8) (m : Bool) (more : List (String × Value)) : Value :=
      ⟨some "a", .list [⟨some "n", .object (("x", ⟨some "x", .scalar (.byte x), m⟩) :: more), m⟩], false⟩
    let y : Value := .named "y" (.scalar (.boolean true))
    let d (x : Int8) (m : Bool) (more : List (String × Value)) : Document :=
      ⟨.standard, "", [("a", a x m more)], false, .plain⟩
    let node : List Step := [.child "a", .element 0]
    let adds : Visit := ⟨.child "a", [.element 0], [.object (.add y)]⟩
    let sets : Visit := ⟨.child "a", [.element 0, .child "x"], [.setPayload (.scalar (.byte 2))]⟩
    let s : Store := ⟨.cell "s", .standard, .standard, some (d 1 false [])⟩
    let cell : Host := ⟨[("s", .memory none)], .empty⟩
    (∃ v' : Value, [Mutation.object (.add y), .clearModified].foldlM (Value.mutateAt node) (d 1 false []).root = some v' ∧
        v'.modified = false ∧ v'.node? [.child "a", .element 0, .child "y"] = some y.clearModified) ∧
      (s.visitAll [adds, sets]).document = some (d 2 true [("y", y)]) ∧
      (s.visitAll [adds, sets]).writeBy .stored false cell = (s.visitAll [adds, sets], .ok false cell) ∧
      ∃ s' cell', (s.visitAll [adds, sets]).writeBy .stored true cell = (s', .ok true cell') ∧
        Shows .stored (s.source.content cell') .standard (d 2 true [("y", y)]) := by
  intro a y d node adds sets s cell
  obtain ⟨htree, hstore⟩ := nested_local
  have hnode : (d 1 false []).root.node? node = some ⟨some "n", .object [("x", ⟨some "x", .scalar (.byte 1), false⟩)], false⟩ := rfl
  obtain ⟨v', -, hwalks, hswapped, -, hclean⟩ :=
    htree _ _ node [.object (.add y), .clearModified] (List.cons_ne_nil _ _) hnode
  have hvisits : (d 1 false []).visitAll [adds, sets] = d 2 true [("y", y)] := by cbv
  obtain ⟨hdoc, -, hskipped, -, hforced⟩ := hstore .stored s (d 1 false []) [adds, sets] cell rfl rfl
  rw [hvisits] at hdoc hforced
  have hencode : ∃ bs, (d 2 true [("y", y)]).encode = ((d 2 true [("y", y)]).clear, .ok bs) := ⟨_, by cbv⟩
  obtain ⟨bs, hbs⟩ := hencode
  refine ⟨⟨v', hwalks (List.cons_ne_nil _ _), hclean, (hswapped.reached [.child "y"]).trans rfl⟩, hdoc, hskipped, ?_⟩
  exact hforced _ bs hbs rfl

end Store

end TypedDoc
