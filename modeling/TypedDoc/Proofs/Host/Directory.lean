/-
  TypedDoc.Proofs.Host.Directory — what replacing a file through a draft beside it does.

  Where a path lands depends on the folders alone (`landing`); what is there is a file, a
  folder or nothing (`spotAt`). A path and its draft never land in one place
  (`landing_ofDraft`). So opening the file of a draft and taking it away do not show
  (`Drafted.contentAt`, `contentAt_unlink`), and bytes written into it show only where the
  path leads to that very file (`contentAt_overlay`). Once the draft is renamed, what its
  own path led to shows (`contentAt_rename`).

  Two writes, the second where the first ended, are one (`overlay_append`).
-/

import TypedDoc.Host.Directory
import TypedDoc.Proofs.Host.FilePath

namespace TypedDoc.Host.Directory

/-! ## Where a path lands -/

/-- Where steps from a folder lead, if the last of them is to a name. -/
def landing (folders : List Place) (here : Place) : List String → Option Place
  | [] => none
  | "." :: steps => landing folders here steps
  | ".." :: steps => landing folders here.dropLast steps
  | name :: steps =>
    if steps = [] then some (here ++ [name])
    else if folders.contains (here ++ [name]) then landing folders (here ++ [name]) steps
    else none

theorem landing_name (folders : List Place) (here : Place) {name : String} (h : FilePath.IsName name) (steps : List String) :
    landing folders here (name :: steps) =
      if steps = [] then some (here ++ [name])
      else if folders.contains (here ++ [name]) then landing folders (here ++ [name]) steps
      else none := by
  rw [landing]
  · exact h.1
  · exact h.2

theorem landing_eq_none {folders : List Place} {here : Place} {steps : List String}
    (h : ∀ n, steps.getLast? = some n → ¬FilePath.IsName n) : landing folders here steps = none := by
  fun_induction landing folders here steps with
  | case1 => rfl
  | case2 here steps ih =>
    apply ih
    intro n hn
    apply h
    rw [List.getLast?_cons, hn, Option.getD_some]
  | case3 here steps ih =>
    apply ih
    intro n hn
    apply h
    rw [List.getLast?_cons, hn, Option.getD_some]
  | case4 here name h1 h2 => exact absurd ⟨h1, h2⟩ (h name rfl)
  | case5 here name steps _ _ _ _ ih =>
    apply ih
    intro n hn
    apply h
    rw [List.getLast?_cons, hn, Option.getD_some]
  | case6 => rfl

/-- All names behind the same steps land in the same folder, or none does. -/
theorem landing_append (folders : List Place) (steps : List String) (here : Place) :
    ∃ parent : Option Place, ∀ name, FilePath.IsName name →
      landing folders here (steps ++ [name]) = parent.map (· ++ [name]) := by
  induction steps generalizing here with
  | nil =>
    refine ⟨some here, fun name hname => ?_⟩
    rw [List.nil_append, landing_name _ _ hname, if_pos rfl]
    rfl
  | cons step steps ih =>
    by_cases hdot : step = "."
    · subst hdot
      obtain ⟨parent, hp⟩ := ih here
      exact ⟨parent, fun name hname => by rw [List.cons_append, landing]; exact hp name hname⟩
    · by_cases hup : step = ".."
      · subst hup
        obtain ⟨parent, hp⟩ := ih here.dropLast
        exact ⟨parent, fun name hname => by rw [List.cons_append, landing]; exact hp name hname⟩
      · by_cases hin : folders.contains (here ++ [step]) = true
        · obtain ⟨parent, hp⟩ := ih (here ++ [step])
          refine ⟨parent, fun name hname => ?_⟩
          rw [List.cons_append, landing_name _ _ ⟨hdot, hup⟩, if_neg (by simp), if_pos hin]
          exact hp name hname
        · refine ⟨none, fun name _ => ?_⟩
          rw [List.cons_append, landing_name _ _ ⟨hdot, hup⟩, if_neg (by simp), if_neg hin]
          rfl

theorem landing_ofDraft {folders : List Place} {p : FilePath} {place : Place}
    (h : landing folders [] p.steps = some place) :
    ∃ place', landing folders [] p.ofDraft.steps = some place' ∧ place' ≠ place ∧ p.ofDraft.endsInSlash = false := by
  rcases p.steps_ofDraft with hno | ⟨steps, name, name', h1, h2, hn, hn', hne, hs⟩
  · rw [landing_eq_none hno] at h
    cases h
  · obtain ⟨parent, hp⟩ := landing_append folders steps []
    rw [h1, hp name hn] at h
    cases parent with
    | none => cases h
    | some parent =>
      injection h with h
      refine ⟨parent ++ [name'], by rw [h2, hp name' hn']; rfl, ?_, hs⟩
      intro heq
      rw [← h] at heq
      injection List.append_cancel_left heq with heq
      exact hne heq.symm

/-! ## What is there -/

def spotAt (d : Directory) (place : Place) : Spot :=
  match d.files.lookup place with
  | some id => .file place id
  | none => if d.folders.contains place then .folder place else .free place

theorem lookup_iff {d : Directory} {place : Place} {id : Nat} : d.files.lookup place = some id ↔ (place, id) ∈ d.files := by
  constructor
  · intro h
    obtain ⟨l, r, hl, -⟩ := List.lookup_eq_some_iff.1 h
    rw [hl]
    exact List.mem_append_right l List.mem_cons_self
  · intro h
    cases hl : d.files.lookup place with
    | none => exact absurd rfl (bne_iff_ne.1 (List.lookup_eq_none_iff.1 hl _ h))
    | some id' =>
      obtain ⟨l, r, hf, -⟩ := List.lookup_eq_some_iff.1 hl
      have hm : (place, id') ∈ d.files := by rw [hf]; exact List.mem_append_right l List.mem_cons_self
      have heq := file_eq d.distinct hm h (Or.inl rfl)
      injection heq with _ heq
      rw [heq]

theorem lookup_of_folder {d : Directory} {place : Place} (h : d.folders.contains place = true) :
    d.files.lookup place = none := by
  cases hl : d.files.lookup place with
  | none => rfl
  | some id => exact absurd (List.contains_iff_mem.1 h) (d.apart _ (lookup_iff.1 hl))

theorem spotAt_cases (d : Directory) (place : Place) :
    (∃ id, d.files.lookup place = some id ∧ d.spotAt place = .file place id) ∨
      d.files.lookup place = none ∧ place ∈ d.folders ∧ d.spotAt place = .folder place ∨
      d.files.lookup place = none ∧ place ∉ d.folders ∧ d.spotAt place = .free place := by
  unfold spotAt
  cases d.files.lookup place with
  | some id => exact Or.inl ⟨id, rfl, rfl⟩
  | none =>
    by_cases hin : d.folders.contains place = true
    · exact Or.inr (Or.inl ⟨rfl, List.contains_iff_mem.1 hin, if_pos hin⟩)
    · exact Or.inr (Or.inr ⟨rfl, fun hm => hin (List.contains_iff_mem.2 hm), if_neg hin⟩)

theorem follow_name (d : Directory) (here : Place) {name : String} (h : FilePath.IsName name) (steps : List String) :
    d.follow here (name :: steps) =
      match d.files.lookup (here ++ [name]) with
      | some id => if steps = [] then .ok (.file (here ++ [name]) id) else .error .hostOther
      | none =>
        if d.folders.contains (here ++ [name]) then d.follow (here ++ [name]) steps
        else if steps = [] then .ok (.free (here ++ [name]))
        else .error .hostNotFound := by
  rewrite [follow]
  · rfl
  · exact h.1
  · exact h.2

theorem follow_of_landing {d : Directory} {here place : Place} {steps : List String}
    (h : landing d.folders here steps = some place) : d.follow here steps = .ok (d.spotAt place) := by
  fun_induction landing d.folders here steps with
  | case1 => cases h
  | case2 here steps ih => rw [follow]; exact ih h
  | case3 here steps ih => rw [follow]; exact ih h
  | case4 here name h1 h2 =>
    injection h with h
    subst h
    rw [follow_name _ _ ⟨h1, h2⟩]
    unfold spotAt
    cases d.files.lookup (here ++ [name]) with
    | some id => rfl
    | none =>
      by_cases hin : d.folders.contains (here ++ [name]) = true
      · simp only [if_pos hin, follow]
      · simp only [if_neg hin, if_pos]
  | case5 here name steps h1 h2 hne hin ih =>
    rw [follow_name _ _ ⟨h1, h2⟩, lookup_of_folder hin]
    simp only [if_pos hin]
    exact ih h
  | case6 => cases h

theorem landing_of_follow {d : Directory} {here place : Place} {steps : List String} {s : Spot}
    (h : d.follow here steps = .ok s) (hs : (∃ id, s = .file place id) ∨ s = .free place) :
    landing d.folders here steps = some place := by
  fun_induction follow d here steps with
  | case1 here => cases h; rcases hs with ⟨_, hs⟩ | hs <;> cases hs
  | case2 here steps ih => rw [landing]; exact ih h
  | case3 here steps ih => rw [landing]; exact ih h
  | case4 here name h1 h2 at' id found =>
    cases h
    rw [landing_name _ _ ⟨h1, h2⟩, if_pos rfl]
    rcases hs with ⟨_, hs⟩ | hs
    · injection hs with hs _; exact congrArg some hs
    · cases hs
  | case5 => cases h
  | case6 here name steps h1 h2 at' _ hin ih =>
    have hl := ih h
    rw [landing_name _ _ ⟨h1, h2⟩, if_neg, if_pos hin]
    · exact hl
    · intro hnil
      rw [hnil] at hl
      cases hl
  | case7 here name h1 h2 at' found hfolder =>
    cases h
    rw [landing_name _ _ ⟨h1, h2⟩, if_pos rfl]
    rcases hs with ⟨_, hs⟩ | hs
    · cases hs
    · injection hs with hs; exact congrArg some hs
  | case8 => cases h

theorem locate_of_landing {d : Directory} {p : FilePath} {place : Place} (h : landing d.folders [] p.steps = some place)
    (hs : p.endsInSlash = false) : d.locate p = .ok (d.spotAt place) := by
  unfold locate
  rw [follow_of_landing h]
  split
  · rename_i heq
    rw [if_neg (by rw [hs]; exact Bool.false_ne_true)]
    exact heq.symm
  · rfl

theorem landing_of_locate {d : Directory} {p : FilePath} {place : Place} {s : Spot} (h : d.locate p = .ok s)
    (hs : (∃ id, s = .file place id) ∨ s = .free place) : landing d.folders [] p.steps = some place := by
  unfold locate at h
  split at h
  · rename_i hf
    split at h
    · cases h
    · cases h; exact landing_of_follow hf hs
  · exact landing_of_follow h hs

theorem locate_file {d : Directory} {p : FilePath} {place : Place} {id : Nat} (h : d.locate p = .ok (.file place id)) :
    landing d.folders [] p.steps = some place ∧ p.endsInSlash = false ∧ d.files.lookup place = some id := by
  refine ⟨landing_of_locate h (Or.inl ⟨id, rfl⟩), ?_, lookup_iff.2 (mem_of_locate h)⟩
  unfold locate at h
  split at h
  · split at h
    · cases h
    · rename_i hs; exact Bool.eq_false_iff.2 hs
  · rename_i hno
    exact absurd h (hno place id)

/-! ## What a path shows -/

/-- The contents of the file at a path, if there is one. -/
def contentAt (d : Directory) (p : FilePath) : Option (List UInt8) :=
  match d.locate p with
  | .ok (.file _ id) => some (d.content id)
  | _ => none

theorem contentAt_of_landing {d : Directory} {p : FilePath} {place : Place}
    (h : landing d.folders [] p.steps = some place) :
    d.contentAt p = if p.endsInSlash then none else (d.files.lookup place).map d.content := by
  unfold contentAt
  cases hs : p.endsInSlash with
  | false =>
    rw [locate_of_landing h hs]
    rcases d.spotAt_cases place with ⟨id, hl, he⟩ | ⟨hl, -, he⟩ | ⟨hl, -, he⟩
    · rw [he, hl]; rfl
    · rw [he, hl]; rfl
    · rw [he, hl]; rfl
  | true =>
    unfold locate
    rw [follow_of_landing h, if_pos rfl]
    rcases d.spotAt_cases place with ⟨id, -, he⟩ | ⟨-, -, he⟩ | ⟨-, -, he⟩
    · simp only [he, hs, if_pos]
    · simp only [he]
    · simp only [he]

theorem contentAt_of_no_landing {d : Directory} {p : FilePath} (h : landing d.folders [] p.steps = none) :
    d.contentAt p = none := by
  unfold contentAt
  split
  · rename_i place id hl
    rw [landing_of_locate hl (Or.inl ⟨id, rfl⟩)] at h
    cases h
  · rfl

/-- The same folders, and the same file where the path lands: the same is shown. -/
theorem contentAt_congr {d d' : Directory} {p : FilePath} (hf : d'.folders = d.folders)
    (h : ∀ place, landing d.folders [] p.steps = some place →
      (d'.files.lookup place).map d'.content = (d.files.lookup place).map d.content) :
    d'.contentAt p = d.contentAt p := by
  cases hl : landing d.folders [] p.steps with
  | none => rw [contentAt_of_no_landing hl, contentAt_of_no_landing (by rw [hf]; exact hl)]
  | some place => rw [contentAt_of_landing hl, contentAt_of_landing (by rw [hf]; exact hl), h place hl]

/-! ## Changes to files -/

theorem content_setContent_self {d : Directory} {id : Nat} (h : id < d.contents.length) (bs : List UInt8) :
    (d.setContent id bs).content id = bs := by
  unfold content setContent
  rw [List.getElem?_set_self h]
  rfl

theorem content_setContent_of_ne (d : Directory) {id j : Nat} (h : j ≠ id) (bs : List UInt8) :
    (d.setContent id bs).content j = d.content j := by
  unfold content setContent
  rw [List.getElem?_set_ne (Ne.symm h)]

theorem content_grow {d : Directory} {j : Nat} (h : j < d.contents.length) : d.grow.content j = d.content j := by
  unfold content grow
  rw [List.getElem?_append_left h]

theorem lookup_restrict (d : Directory) (keep : Place → Bool) (q : Place) :
    (d.restrict keep).files.lookup q = if keep q then d.files.lookup q else none := by
  apply Option.ext
  intro id
  rw [lookup_iff]
  show (q, id) ∈ d.files.filter _ ↔ _
  rw [List.mem_filter]
  by_cases hk : keep q = true
  · rw [if_pos hk, lookup_iff]
    exact and_iff_left hk
  · rw [if_neg hk]
    exact ⟨fun h => absurd h.2 hk, fun h => by cases h⟩

theorem lookup_withoutFile (d : Directory) (place q : Place) :
    (d.withoutFile place).files.lookup q = if q = place then none else d.files.lookup q := by
  unfold withoutFile
  rw [lookup_restrict]
  by_cases hq : q = place
  · rw [if_pos hq, if_neg (by simp [hq])]
  · rw [if_neg hq, if_pos (by simp [hq])]

theorem lookup_link (d : Directory) (place : Place) (id : Nat) (h1 : place ∉ d.folders)
    (h2 : ∀ f ∈ d.files, f.1 ≠ place ∧ f.2 ≠ id) (h3 : id < d.contents.length) (q : Place) :
    (d.link place id h1 h2 h3).files.lookup q = if q = place then some id else d.files.lookup q := by
  apply Option.ext
  intro j
  rw [lookup_iff]
  show (q, j) ∈ d.files ++ [(place, id)] ↔ _
  rw [List.mem_append, List.mem_singleton]
  by_cases hq : q = place
  · rw [if_pos hq, hq]
    constructor
    · rintro (h | h)
      · exact absurd rfl (h2 _ h).1
      · injection h with _ h; rw [h]
    · rintro h
      injection h with h
      exact Or.inr (by rw [h])
  · rw [if_neg hq, lookup_iff]
    exact or_iff_left fun h => hq (congrArg Prod.fst h)

/-- A file that was moved to where a path lands is what the path shows. -/
theorem contentAt_move {d : Directory} {p : FilePath} {place place' : Place} {id : Nat} (here : (place, id) ∈ d.files)
    (apart : place' ∉ d.folders) (hp : landing d.folders [] p.steps = some place') (hs : p.endsInSlash = false) :
    (d.move place place' id here apart).contentAt p = some (d.content id) := by
  have hlookup : (d.move place place' id here apart).files.lookup place' = some id :=
    (lookup_link _ _ _ _ _ _ place').trans (if_pos rfl)
  have hland : landing (d.move place place' id here apart).folders [] p.steps = some place' := hp
  rw [contentAt_of_landing hland, hlookup, hs]
  rfl

/-- The path leads to this file. -/
def shows (d : Directory) (p : FilePath) (id : Nat) : Bool :=
  match d.locate p with
  | .ok (.file _ j) => j = id
  | _ => false

theorem shows_eq_false {d : Directory} {p : FilePath} {place : Place} {id : Nat} (h : d.files.lookup place = some id)
    (hp : landing d.folders [] p.steps ≠ some place) : d.shows p id = false := by
  unfold shows
  split
  · rename_i place' j hl
    refine decide_eq_false fun hj => hp ?_
    have heq := file_eq d.distinct (mem_of_locate hl) (lookup_iff.1 h) (Or.inr hj)
    injection heq with heq
    rw [(locate_file hl).1, heq]
  · rfl

/-! ## Writing into a file -/

theorem patch_nil (offset : Nat) (old : List UInt8) : patch offset [] old = old := if_pos rfl

theorem patch_of_ne_nil {bs : List UInt8} (h : bs ≠ []) (offset : Nat) (old : List UInt8) :
    patch offset bs old = (old.take offset).rightpad offset 0 ++ (bs ++ old.drop (offset + bs.length)) := if_neg h

/-- What is in front of the bytes written stays, and so does what is behind them. -/
theorem patch_behind (front bs tail : List UInt8) :
    patch front.length bs (front ++ tail) = front ++ (bs ++ tail.drop bs.length) := by
  by_cases hbs : bs = []
  · rw [hbs, patch_nil]
    rfl
  · rw [patch_of_ne_nil hbs, List.take_left, List.rightpad, Nat.sub_self, List.replicate_zero, List.append_nil, List.drop_append]
    rw [List.drop_eq_nil_of_le (Nat.le_add_right _ _), List.nil_append, Nat.add_sub_cancel_left]

/-- At its end a file grows. -/
theorem patch_end (bs old : List UInt8) : patch old.length bs old = old ++ bs := by
  have h := patch_behind old bs []
  rw [List.append_nil, List.drop_nil, List.append_nil] at h
  exact h

theorem patch_append (offset : Nat) (bs cs old : List UInt8) :
    patch (offset + bs.length) cs (patch offset bs old) = patch offset (bs ++ cs) old := by
  by_cases hbs : bs = []
  · rw [hbs, patch_nil, List.nil_append]
    rfl
  · have hlength : ((old.take offset).rightpad offset 0 ++ bs).length = offset + bs.length := by
      rw [List.length_append, List.length_rightpad, List.length_take]
      omega
    rw [patch_of_ne_nil hbs, patch_of_ne_nil (List.append_ne_nil_of_left_ne_nil hbs cs), ← List.append_assoc, ← hlength, patch_behind,
      List.drop_drop, hlength, List.length_append, Nat.add_assoc]
    simp only [List.append_assoc]

theorem content_overlay_self {d : Directory} {id : Nat} (h : id < d.contents.length) (offset : Nat) (bs : List UInt8) :
    (d.overlay id offset bs).content id = patch offset bs (d.content id) :=
  content_setContent_self h _

theorem content_overlay_of_ne (d : Directory) {id j : Nat} (h : j ≠ id) (offset : Nat) (bs : List UInt8) :
    (d.overlay id offset bs).content j = d.content j :=
  content_setContent_of_ne d h _

theorem setContent_content (d : Directory) (id : Nat) : d.setContent id (d.content id) = d := by
  have hset : d.contents.set id (d.content id) = d.contents := by
    unfold content
    by_cases h : id < d.contents.length
    · rw [List.getElem?_eq_getElem h]
      exact List.set_getElem_self h
    · exact List.set_eq_of_length_le (Nat.le_of_not_lt h)
  unfold setContent
  simp only [hset]

theorem overlay_nil (d : Directory) (id offset : Nat) : d.overlay id offset [] = d := by
  unfold overlay
  rw [patch_nil, setContent_content]

theorem overlay_append (d : Directory) (id offset : Nat) (bs cs : List UInt8) :
    (d.overlay id offset bs).overlay id (offset + bs.length) cs = d.overlay id offset (bs ++ cs) := by
  have hset : ∀ xs ys, (d.setContent id xs).setContent id ys = d.setContent id ys := by
    intro xs ys
    unfold setContent
    simp only [List.set_set]
  by_cases h : id < d.contents.length
  · unfold overlay
    rw [hset, content_setContent_self h, patch_append]
  · have hnone : ∀ xs, d.setContent id xs = d := by
      intro xs
      unfold setContent
      simp only [List.set_eq_of_length_le (Nat.le_of_not_lt h)]
    unfold overlay
    rw [hnone, hnone, hnone]

theorem follow_overlay (d : Directory) (id offset : Nat) (bs : List UInt8) (here : Place) (steps : List String) :
    (d.overlay id offset bs).follow here steps = d.follow here steps := by
  induction steps generalizing here with
  | nil => rfl
  | cons step steps ih =>
    by_cases hdot : step = "."
    · subst hdot
      exact ih here
    · by_cases hup : step = ".."
      · subst hup
        exact ih here.dropLast
      · rw [follow_name _ _ ⟨hdot, hup⟩, follow_name _ _ ⟨hdot, hup⟩, ih]
        rfl

theorem locate_overlay (d : Directory) (id offset : Nat) (bs : List UInt8) (p : FilePath) :
    (d.overlay id offset bs).locate p = d.locate p := by
  unfold locate
  rw [follow_overlay]

/-- Bytes that are written into a file are seen where a path leads to it. -/
theorem contentAt_overlay (d : Directory) (id offset : Nat) (bs : List UInt8) (p : FilePath) :
    (d.overlay id offset bs).contentAt p =
      if d.shows p id then (d.contentAt p).map (patch offset bs) else d.contentAt p := by
  unfold contentAt shows
  rw [locate_overlay]
  cases hl : d.locate p with
  | error e => rfl
  | ok spot =>
    cases spot with
    | folder place => rfl
    | free place => rfl
    | file place j =>
      by_cases hj : j = id
      · subst hj
        simp only [decide_true, if_true, Option.map_some]
        rw [content_overlay_self (d.held _ (mem_of_locate hl))]
      · simp only [decide_eq_true_eq, if_neg hj]
        rw [content_overlay_of_ne d hj]

/-! ## Taking away and renaming -/

theorem folders_unlink (d : Directory) (p : FilePath) : (d.unlink p).folders = d.folders := by
  unfold unlink
  split <;> rfl

theorem contents_unlink (d : Directory) (p : FilePath) : (d.unlink p).contents = d.contents := by
  unfold unlink
  split <;> rfl

theorem lookup_unlink {d : Directory} {p : FilePath} {place : Place} (hl : landing d.folders [] p.steps = some place)
    (hs : p.endsInSlash = false) (q : Place) :
    (d.unlink p).files.lookup q = if q = place then none else d.files.lookup q := by
  unfold unlink
  rw [locate_of_landing hl hs]
  rcases d.spotAt_cases place with ⟨id, -, he⟩ | ⟨hnone, -, he⟩ | ⟨hnone, -, he⟩
  · rw [he]
    exact lookup_withoutFile d place q
  all_goals
    rw [he]
    by_cases hq : q = place
    · rw [if_pos hq, hq]
      exact hnone
    · rw [if_neg hq]

/-- A file that is taken away is seen on no other path. -/
theorem contentAt_unlink {d : Directory} {p q : FilePath} {place : Place} (hl : landing d.folders [] p.steps = some place)
    (hs : p.endsInSlash = false) (hq : landing d.folders [] q.steps ≠ some place) :
    (d.unlink p).contentAt q = d.contentAt q := by
  refine contentAt_congr (folders_unlink d p) fun place' hl' => ?_
  have hne : place' ≠ place := fun he => hq (he ▸ hl')
  rw [lookup_unlink hl hs, if_neg hne]
  unfold content
  rw [contents_unlink]

/-- What a rename did: it moved the file that the one path led to where the other lands. -/
theorem persist_of_none {d : Directory} (hf : d.faults.commit = none) (p q : FilePath) : d.persist p q = d.rename p q := by
  unfold persist
  rw [hf]

theorem persist_ok {d d' : Directory} {p q : FilePath} (h : d.persist p q = .ok d') : d.rename p q = .ok d' := by
  unfold persist at h
  split at h
  · cases h
  · exact h

theorem rename_ok {d d' : Directory} {p q : FilePath} (h : d.rename p q = .ok d') :
    ∃ place place' id, ∃ (here : (place, id) ∈ d.files) (apart : place' ∉ d.folders),
      d' = d.move place place' id here apart ∧ d.locate p = .ok (.file place id) ∧
        landing d.folders [] q.steps = some place' ∧ q.endsInSlash = false := by
  unfold rename at h
  split at h
  case h_6 place id place' id' found there =>
    split at h
    · cases h
    · rename_i hs
      cases h
      exact ⟨place, place', id, _, _, rfl, found, (locate_file there).1, Bool.eq_false_iff.2 hs⟩
  case h_7 place id place' found there =>
    split at h
    · cases h
    · rename_i hs
      cases h
      exact ⟨place, place', id, _, _, rfl, found, landing_of_locate there (Or.inr rfl), Bool.eq_false_iff.2 hs⟩
  all_goals cases h

/-- Once a draft is renamed, what its own path led to shows. -/
theorem contentAt_rename {d d' : Directory} {draft p : FilePath} (h : d.rename draft p = .ok d') :
    d'.contentAt p = d.contentAt draft := by
  obtain ⟨place, place', id, here, apart, rfl, hloc, hp, hs⟩ := rename_ok h
  rw [contentAt_move here apart hp hs]
  unfold contentAt
  rw [hloc]

/-! ## Drafts -/

/-- A file is at the path, or there is room for one. -/
def accepts (d : Directory) (p : FilePath) : Bool :=
  !p.endsInSlash &&
    match d.locate p with
    | .ok (.file ..) | .ok (.free _) => true
    | _ => false

theorem accepts_iff {d : Directory} {p : FilePath} :
    d.accepts p = true ↔ p.endsInSlash = false ∧ ∃ place, landing d.folders [] p.steps = some place ∧ place ∉ d.folders := by
  unfold accepts
  rw [Bool.and_eq_true, Bool.not_eq_true']
  refine and_congr_right fun hs => ⟨fun h => ?_, fun ⟨place, hl, hf⟩ => ?_⟩
  · split at h
    · rename_i place id hl
      exact ⟨place, (locate_file hl).1, d.apart _ (lookup_iff.1 (locate_file hl).2.2)⟩
    · rename_i place hl
      exact ⟨place, landing_of_locate hl (Or.inr rfl), (vacant_of_locate hl).1⟩
    · cases h
  · rw [locate_of_landing hl hs]
    rcases d.spotAt_cases place with ⟨id, -, he⟩ | ⟨-, hin, he⟩ | ⟨-, -, he⟩
    · rw [he]
    · exact absurd hin hf
    · rw [he]

theorem accepts_congr {d d' : Directory} (hf : d'.folders = d.folders) (p : FilePath) : d'.accepts p = d.accepts p := by
  rw [Bool.eq_iff_iff, accepts_iff, accepts_iff, hf]

theorem create_of_accepts {d : Directory} {p : FilePath} (h : d.accepts p = true) (hf : d.faults.openWrite = none) :
    ∃ id d', d.create p = .ok (id, d') := by
  unfold accepts at h
  rw [Bool.and_eq_true, Bool.not_eq_true'] at h
  unfold create
  split
  · rename_i hl; rw [hl] at h; cases h.2
  · rename_i hl; rw [hl] at h; cases h.2
  · rename_i he; rw [hf] at he; cases he
  · exact ⟨_, _, rfl⟩
  · rw [if_neg (by rw [h.1]; exact Bool.false_ne_true)]
    exact ⟨_, _, rfl⟩

theorem rename_of_accepts {d : Directory} {p q : FilePath} {place : Place} {id : Nat}
    (hp : d.locate p = .ok (.file place id)) (hq : d.accepts q = true) : ∃ d', d.rename p q = .ok d' := by
  obtain ⟨hslash, target, hl, hf⟩ := accepts_iff.1 hq
  have htarget := locate_of_landing hl hslash
  have hno : ¬q.endsInSlash = true := by rw [hslash]; exact Bool.false_ne_true
  unfold rename
  split
  case h_6 => rw [if_neg hno]; exact ⟨_, rfl⟩
  case h_7 => rw [if_neg hno]; exact ⟨_, rfl⟩
  case h_5 place' found there =>
    rcases d.spotAt_cases target with ⟨_, -, he⟩ | ⟨-, hin, -⟩ | ⟨-, -, he⟩
    · rw [htarget, he] at there; cases there
    · exact absurd hin hf
    · rw [htarget, he] at there; cases there
  case h_2 there => rw [htarget] at there; cases there
  case h_1 found => rw [hp] at found; cases found
  case h_3 found _ => rw [hp] at found; cases found
  case h_4 found _ => rw [hp] at found; cases found

/-- `d'` is `d` with an empty file in one place, the one that was there or a new one. -/
structure Drafted (d : Directory) (place : Place) (id : Nat) (d' : Directory) : Prop where
  folders : d'.folders = d.folders
  here : d'.files.lookup place = some id
  content : d'.content id = []
  known : d.files.lookup place = some id ∨ d.files.lookup place = none ∧ id = d.contents.length
  faults : d'.faults = d.faults
  elsewhere : ∀ q, q ≠ place → (d'.files.lookup q).map d'.content = (d.files.lookup q).map d.content

theorem create_ok {d d' : Directory} {p : FilePath} {id : Nat} (h : d.create p = .ok (id, d')) :
    ∃ place, landing d.folders [] p.steps = some place ∧ p.endsInSlash = false ∧ Drafted d place id d' := by
  unfold create at h
  split at h
  · cases h
  · cases h
  · cases h
  · rename_i place id' found _
    cases h
    obtain ⟨hl, hs, hid⟩ := locate_file found
    refine ⟨place, hl, hs, rfl, hid, content_setContent_self (d.held _ (lookup_iff.1 hid)) [], .inl hid, rfl, fun q hq => ?_⟩
    show (d.files.lookup q).map (d.setContent id []).content = _
    cases hj : d.files.lookup q with
    | none => rfl
    | some j =>
      have hne : j ≠ id := fun he => hq (congrArg Prod.fst (file_eq d.distinct (lookup_iff.1 hj) (lookup_iff.1 hid) (Or.inr he)))
      exact congrArg some (content_setContent_of_ne d hne [])
  · rename_i place found _
    split at h
    · cases h
    · rename_i hs
      cases h
      have hnone : d.files.lookup place = none := by
        cases hj : d.files.lookup place with
        | none => rfl
        | some j => exact absurd rfl ((vacant_of_locate found).2 _ (lookup_iff.1 hj))
      refine ⟨place, landing_of_locate found (Or.inr rfl), Bool.eq_false_iff.2 hs, rfl, ?_, ?_, .inr ⟨hnone, rfl⟩, rfl, fun q hq => ?_⟩
      · exact (lookup_link d.grow place d.contents.length _ _ _ place).trans (if_pos rfl)
      · show d.grow.content d.contents.length = []
        unfold content grow
        rw [List.getElem?_concat_length]
        rfl
      · refine (congrArg (Option.map d.grow.content) ((lookup_link d.grow place d.contents.length _ _ _ q).trans (if_neg hq))).trans ?_
        show (d.files.lookup q).map d.grow.content = _
        cases hj : d.files.lookup q with
        | none => rfl
        | some j => exact congrArg some (content_grow (d.held _ (lookup_iff.1 hj)))

theorem Drafted.locate {d d' : Directory} {place : Place} {id : Nat} (h : Drafted d place id d') {draft : FilePath}
    (hl : landing d.folders [] draft.steps = some place) (hs : draft.endsInSlash = false) :
    d'.locate draft = .ok (.file place id) := by
  rw [locate_of_landing (h.folders ▸ hl) hs]
  unfold spotAt
  rw [h.here]

/-- A draft does not show. -/
theorem Drafted.contentAt {d d' : Directory} {place : Place} {id : Nat} (h : Drafted d place id d') {p : FilePath}
    (hp : landing d.folders [] p.steps ≠ some place) : d'.contentAt p = d.contentAt p :=
  contentAt_congr h.folders fun q hq => h.elsewhere q fun he => hp (he ▸ hq)

end TypedDoc.Host.Directory
