/-
  TypedDoc.Proofs.Host.FilePath — the steps of a path and those of its draft.

  A path that does not end in a name takes no step to a name last. Any other path and its
  draft take the same steps up to the last one, which is a name in both, and not the same
  (`steps_ofDraft`): the name of the draft is what the other name has before its own
  extension, with `.mobf.tmp` behind, and an extension has no dot.
-/

import TypedDoc.Host.FilePath

namespace TypedDoc.Host.FilePath

/-! ## Parts between slashes -/

/-- The parts of a text that are not empty. -/
def parts (cs : List Char) : List (List Char) := (splitSlashes cs).filter (· ≠ [])

theorem splitSlashes_ne_nil (cs : List Char) : splitSlashes cs ≠ [] := by
  cases cs with
  | nil => simp [splitSlashes]
  | cons c cs =>
    simp only [splitSlashes]
    split <;> simp

theorem splitSlashes_append (u v : List Char) : splitSlashes (u ++ '/' :: v) = splitSlashes u ++ splitSlashes v := by
  induction u with
  | nil => rfl
  | cons c u ih =>
    rw [List.cons_append]
    simp only [splitSlashes, ih]
    cases hu : splitSlashes u with
    | nil => exact absurd hu (splitSlashes_ne_nil u)
    | cons part ps => cases isSlash c <;> rfl

theorem splitSlashes_of_not_mem {w : List Char} (h : '/' ∉ w) : splitSlashes w = [w] := by
  induction w with
  | nil => rfl
  | cons c w ih =>
    have hc : isSlash c = false := beq_eq_false_iff_ne.2 fun e => h (e ▸ List.mem_cons_self)
    simp only [splitSlashes, ih fun hm => h (List.mem_cons_of_mem c hm), hc]

theorem parts_append (u v : List Char) : parts (u ++ '/' :: v) = parts u ++ parts v := by
  unfold parts
  rw [splitSlashes_append, List.filter_append]

theorem parts_of_not_mem {w : List Char} (h : '/' ∉ w) (hw : w ≠ []) : parts w = [w] := by
  unfold parts
  rw [splitSlashes_of_not_mem h]
  simp [hw]

theorem steps_eq (p : FilePath) : p.steps = (parts p.text.toList).map String.ofList := by
  unfold steps parts
  rw [List.filter_map]
  congr 1
  apply List.filter_congr
  intro part _
  simp

/-! ## Around the last name -/

/-- What stands behind the last name is slashes and single dots. -/
theorem parts_dropTrailing (cs : List Char) :
    ∃ dots, parts cs.reverse = parts (dropTrailing cs).reverse ++ dots ∧ ∀ w ∈ dots, w = ['.'] := by
  -- The text behind the name begins with a slash, so its parts are parts of the whole.
  suffices h : ∃ v, (cs.reverse = (dropTrailing cs).reverse ∧ parts v = [] ∨
      cs.reverse = (dropTrailing cs).reverse ++ '/' :: v) ∧ ∀ w ∈ parts v, w = ['.'] by
    obtain ⟨v, he | he, hv⟩ := h
    · exact ⟨[], by rw [he.1, List.append_nil], fun w hw => absurd hw List.not_mem_nil⟩
    · exact ⟨parts v, by rw [he, parts_append], hv⟩
  fun_induction dropTrailing cs with
  | case1 cs ih =>
    obtain ⟨v, he | he, hv⟩ := ih
    · refine ⟨[], Or.inr ?_, fun w hw => absurd hw List.not_mem_nil⟩
      rw [List.reverse_cons, he.1]
    · refine ⟨v ++ ['/'], Or.inr ?_, ?_⟩
      · rw [List.reverse_cons, he, List.append_assoc, List.cons_append]
      · intro w hw
        rw [parts_append] at hw
        rcases List.mem_append.1 hw with hw | hw
        · exact hv w hw
        · exact absurd hw List.not_mem_nil
  | case2 cs ih =>
    obtain ⟨v, he | he, hv⟩ := ih
    · refine ⟨['.'], Or.inr ?_, fun w hw => List.mem_singleton.1 hw⟩
      rw [List.reverse_cons, List.reverse_cons, he.1, List.append_assoc, List.singleton_append]
    · refine ⟨v ++ ['/', '.'], Or.inr ?_, ?_⟩
      · rw [List.reverse_cons, List.reverse_cons, he]
        simp only [List.append_assoc, List.cons_append, List.nil_append]
      · intro w hw
        rw [show v ++ ['/', '.'] = v ++ '/' :: ['.'] from rfl, parts_append] at hw
        rcases List.mem_append.1 hw with hw | hw
        · exact hv w hw
        · exact List.mem_singleton.1 hw
  | case3 cs => exact ⟨[], Or.inl ⟨rfl, rfl⟩, fun w hw => absurd hw List.not_mem_nil⟩

theorem dropTrailing_ne_slash (cs rest : List Char) : dropTrailing cs ≠ '/' :: rest := by
  fun_induction dropTrailing cs with
  | case1 cs ih => exact ih
  | case2 cs ih => exact ih
  | case3 cs h1 h2 =>
    intro he
    exact h1 _ he

theorem not_mem_takeWhile {cs : List Char} {c : Char} : c ∉ cs.takeWhile (· != c) := by
  intro h
  have := List.all_eq_true.1 (List.all_takeWhile (p := (· != c)) (l := cs)) c h
  simp at this

theorem dropWhile_notSlash (cs : List Char) :
    cs.dropWhile (!isSlash ·) = [] ∨ ∃ b, cs.dropWhile (!isSlash ·) = '/' :: b := by
  induction cs with
  | nil => exact Or.inl rfl
  | cons c cs ih =>
    by_cases hc : c = '/'
    · subst hc; exact Or.inr ⟨cs, rfl⟩
    · have : (!isSlash c) = true := by simp [isSlash, hc]
      rw [List.dropWhile_cons, if_pos this]
      exact ih

theorem not_mem_takeWhile_notSlash (cs : List Char) : '/' ∉ cs.takeWhile (!isSlash ·) := not_mem_takeWhile

/-- A last part behind a text that is empty or ends in a slash. -/
theorem parts_behind {before w : List Char} (hb : before = [] ∨ ∃ b, before = '/' :: b) (hs : '/' ∉ w) (hw : w ≠ []) :
    parts (before.reverse ++ w) = parts before.reverse ++ [w] := by
  rcases hb with rfl | ⟨b, rfl⟩
  · exact parts_of_not_mem hs hw
  · rw [List.reverse_cons, List.append_assoc, List.singleton_append, parts_append, parts_append, parts_of_not_mem hs hw]
    show _ = parts b.reverse ++ [] ++ [w]
    rw [List.append_nil]

/-- How a path ends: in a name with something before it, both last character first, and
    the parts behind the name. -/
structure Ending (p : FilePath) (before name : List Char) (dots : List (List Char)) : Prop where
  slashed : before = [] ∨ ∃ b, before = '/' :: b
  single : '/' ∉ name
  idle : ∀ w ∈ dots, w = ['.']
  parts_eq : parts p.text.toList = parts (before.reverse ++ name.reverse) ++ dots
  whole : name = [] → before = []
  lastName : p.lastName? = if name = [] ∨ name = ['.'] ∨ name = ['.', '.'] then none else some (before, name)

theorem exists_ending (p : FilePath) : ∃ before name dots, Ending p before name dots := by
  obtain ⟨dots, hparts, hdots⟩ := parts_dropTrailing p.text.toList.reverse
  have hb := dropWhile_notSlash p.reversed
  have hrev : p.reversed.takeWhile (!isSlash ·) ++ p.reversed.dropWhile (!isSlash ·) = p.reversed :=
    List.takeWhile_append_dropWhile
  refine ⟨_, _, dots, hb, not_mem_takeWhile_notSlash p.reversed, hdots, ?_, ?_, rfl⟩
  · rw [← List.reverse_append, hrev]
    rw [List.reverse_reverse] at hparts
    exact hparts
  · intro hnil
    rw [hnil, List.nil_append] at hrev
    rcases hb with h | ⟨b, h⟩
    · exact h
    · exact absurd (hrev.symm.trans h) (dropTrailing_ne_slash _ b)

theorem Ending.steps {p : FilePath} {before name : List Char} {dots : List (List Char)} (h : Ending p before name dots)
    (hne : name ≠ []) :
    p.steps = (parts before.reverse).map String.ofList ++ [String.ofList name.reverse] ++ dots.map String.ofList := by
  have hs : '/' ∉ name.reverse := fun hm => h.single (List.mem_reverse.1 hm)
  rw [steps_eq, h.parts_eq, parts_behind h.slashed hs (by simpa using hne), List.map_append, List.map_append]
  rfl

/-! ## The draft -/

/-- Neither a step that stays nor one that goes up. -/
def IsName (s : String) : Prop := s ≠ "." ∧ s ≠ ".."

def draftExtension : List Char := ['.', 'm', 'o', 'b', 'f', '.', 't', 'm', 'p']

theorem ofDraft_text {p : FilePath} {before name : List Char} (h : p.lastName? = some (before, name)) :
    p.ofDraft.text.toList = before.reverse ++ ((splitExtension name).1.reverse ++ draftExtension) := by
  unfold ofDraft withExtension
  rw [h]
  simp only [String.toList_append, String.toList_ofList, List.reverse_append, List.append_assoc]
  rfl

theorem mem_stem {name : List Char} {c : Char} (h : c ∈ (splitExtension name).1) : c ∈ name := by
  unfold splitExtension at h
  simp only at h
  split at h
  · exact h
  · exact (List.dropWhile_sublist _).subset (List.mem_of_mem_drop h)

/-- The name of a draft is another one. -/
theorem stem_ne (name : List Char) : name.reverse ≠ (splitExtension name).1.reverse ++ draftExtension := by
  intro h
  have hname := congrArg List.reverse h
  rw [List.reverse_reverse, List.reverse_append, List.reverse_reverse] at hname
  unfold splitExtension at hname
  simp only at hname
  split at hname
  · have hl := congrArg List.length hname
    rw [List.length_append] at hl
    exact absurd hl (by simp [draftExtension])
  · rename_i hstem
    -- Both sides have the same stem behind, so the extension and its dot are all in front.
    generalize hrest : name.dropWhile (· != '.') = rest at hname hstem
    cases rest with
    | nil => exact absurd rfl hstem
    | cons c stem =>
      have hsplit : name.takeWhile (· != '.') ++ [c] ++ stem = draftExtension.reverse ++ stem := by
        rw [List.append_assoc, List.singleton_append, ← hrest, List.takeWhile_append_dropWhile]
        exact hname
      have hfront := List.append_cancel_right hsplit
      have hdot : '.' ∈ name.takeWhile (· != '.') := by
        have he : name.takeWhile (· != '.') = draftExtension.reverse.dropLast := by
          rw [← hfront, List.dropLast_concat]
        rw [he]
        decide
      exact not_mem_takeWhile hdot

theorem Ending.not_isName {p : FilePath} {before name : List Char} {dots : List (List Char)}
    (h : Ending p before name dots) (hno : dots ≠ [] ∨ p.lastName? = none) {n : String} (hn : p.steps.getLast? = some n) :
    ¬IsName n := by
  by_cases hd : dots = []
  · have hnone := h.lastName
    rw [hno.resolve_left (not_not_intro hd)] at hnone
    split at hnone
    · rename_i hname
      rcases hname with hnil | hname
      · rw [steps_eq, h.parts_eq, hd, hnil, h.whole hnil] at hn
        cases hn
      · rw [h.steps (by rcases hname with rfl | rfl <;> exact List.cons_ne_nil _ _), hd, List.map_nil, List.append_nil,
          List.getLast?_concat] at hn
        injection hn with hn
        rintro ⟨h1, h2⟩
        rcases hname with rfl | rfl
        · exact h1 hn.symm
        · exact h2 hn.symm
    · cases hnone
  · obtain ⟨front, w, rfl⟩ : ∃ front w, dots = front ++ [w] := ⟨_, _, (List.dropLast_concat_getLast hd).symm⟩
    rw [steps_eq, h.parts_eq, ← List.append_assoc, List.map_append, List.map_singleton, List.getLast?_concat] at hn
    injection hn with hn
    rw [← hn, h.idle w (List.mem_append_right _ List.mem_cons_self)]
    exact fun h => h.1 rfl

/-- A path that does not end in a name, or a path beside its draft. -/
theorem steps_ofDraft (p : FilePath) :
    (∀ n, p.steps.getLast? = some n → ¬IsName n) ∨
      ∃ steps name name', p.steps = steps ++ [name] ∧ p.ofDraft.steps = steps ++ [name'] ∧
        IsName name ∧ IsName name' ∧ name ≠ name' ∧ p.ofDraft.endsInSlash = false := by
  obtain ⟨before, name, dots, h⟩ := exists_ending p
  by_cases hno : dots ≠ [] ∨ p.lastName? = none
  · exact Or.inl fun n hn => h.not_isName hno hn
  right
  obtain ⟨hd, hsome⟩ : dots = [] ∧ p.lastName? ≠ none := by simpa [not_or] using hno
  have hlast := h.lastName
  split at hlast
  · exact absurd hlast hsome
  rename_i hname
  obtain ⟨hne, h1, h2⟩ : name ≠ [] ∧ name ≠ ['.'] ∧ name ≠ ['.', '.'] := by simpa [not_or] using hname
  have htext := ofDraft_text hlast
  have hstem : '/' ∉ (splitExtension name).1.reverse ++ draftExtension := by
    intro hm
    rcases List.mem_append.1 hm with hm | hm
    · exact h.single (mem_stem (List.mem_reverse.1 hm))
    · exact absurd hm (by decide)
  have hlong : 2 < ((splitExtension name).1.reverse ++ draftExtension).length := by
    rw [List.length_append]
    exact Nat.lt_add_left _ (by decide)
  refine ⟨(parts before.reverse).map String.ofList, String.ofList name.reverse,
    String.ofList ((splitExtension name).1.reverse ++ draftExtension), ?_, ?_, ⟨?_, ?_⟩, ⟨?_, ?_⟩, ?_, ?_⟩
  · rw [h.steps hne, hd, List.map_nil, List.append_nil]
  · rw [steps_eq, htext, parts_behind h.slashed hstem (by simp [draftExtension]), List.map_append]
    rfl
  · intro he
    exact h1 (List.reverse_inj.1 (String.ofList_injective he))
  · intro he
    exact h2 (List.reverse_inj.1 (String.ofList_injective he))
  · intro he
    rw [String.ofList_injective he] at hlong
    exact absurd hlong (by decide)
  · intro he
    rw [String.ofList_injective he] at hlong
    exact absurd hlong (by decide)
  · intro he
    exact stem_ne name (String.ofList_injective he)
  · unfold endsInSlash
    rw [htext, draftExtension]
    simp

end TypedDoc.Host.FilePath
