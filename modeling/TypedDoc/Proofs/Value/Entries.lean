/-
  TypedDoc.Proofs.Value.Entries — many entries put one after another, as reading an
  object does.
  - `putAll_of_nodup`: with new and distinct keys they stand as they came.
  - `weight_putAll_lt`: otherwise something is lost, by any measure that gives every
    entry some weight.

  Around the first entry of a key, looking up, putting, erasing and changing are rewritten
  by `lookup_split`, `put_split`, `erase_split` and `map_split`.
-/

import Mathlib
import TypedDoc.Value.Entries

namespace TypedDoc.Entries

variable {α : Type}

theorem put_of_not_mem {k : String} {es : List (String × α)} (v : α) (h : k ∉ keys es) : put k v es = es ++ [(k, v)] := by
  induction es with
  | nil => rfl
  | cons e rest ih =>
    obtain ⟨j, w⟩ := e
    simp only [keys, List.map_cons, List.mem_cons, not_or] at h
    rw [put, if_neg (Ne.symm h.1), ih h.2]
    rfl

theorem mem_put {k : String} {v : α} {es : List (String × α)} {e : String × α} (h : e ∈ put k v es) :
    e ∈ es ∨ e = (k, v) := by
  induction es with
  | nil => exact .inr (List.mem_singleton.1 h)
  | cons e' rest ih =>
    obtain ⟨j, w⟩ := e'
    rw [put] at h
    split at h
    · rcases List.mem_cons.1 h with h | h
      · exact .inr h
      · exact .inl (List.mem_cons_of_mem _ h)
    · rcases List.mem_cons.1 h with h | h
      · exact .inl (h ▸ List.mem_cons_self)
      · rcases ih h with h | h
        · exact .inl (List.mem_cons_of_mem _ h)
        · exact .inr h

/-- The first list of entries, each put into the second in turn. -/
def putAll : List (String × α) → List (String × α) → List (String × α)
  | [], es => es
  | (k, v) :: rest, es => putAll rest (put k v es)

theorem putAll_of_nodup {ps es : List (String × α)} (h : (keys (es ++ ps)).Nodup) : putAll ps es = es ++ ps := by
  induction ps generalizing es with
  | nil => rw [putAll, List.append_nil]
  | cons p rest ih =>
    obtain ⟨k, v⟩ := p
    have happ : es ++ (k, v) :: rest = (es ++ [(k, v)]) ++ rest := by simp
    have hk : k ∉ keys es := by
      intro hk
      simp only [keys, List.map_append, List.map_cons] at h
      exact (List.nodup_append.1 h).2.2 k hk k List.mem_cons_self rfl
    rw [happ] at h
    rw [putAll, put_of_not_mem v hk, ih h, happ]

theorem putAll_nil_of_nodup {ps : List (String × α)} (h : (keys ps).Nodup) : putAll ps [] = ps :=
  (putAll_of_nodup (show (keys ([] ++ ps)).Nodup from h)).trans (List.nil_append ps)

theorem nodup_putAll {ps es : List (String × α)} (h : (keys es).Nodup) : (keys (putAll ps es)).Nodup := by
  induction ps generalizing es with
  | nil => exact h
  | cons p rest ih => exact ih (nodup_put h)

theorem nodup_putAll_nil (ps : List (String × α)) : (keys (putAll ps [])).Nodup :=
  nodup_putAll (show (keys ([] : List (String × α))).Nodup from List.nodup_nil)

theorem mem_putAll {ps es : List (String × α)} {e : String × α} (h : e ∈ putAll ps es) : e ∈ es ∨ e ∈ ps := by
  induction ps generalizing es with
  | nil => exact .inl h
  | cons p rest ih =>
    rcases ih h with h | h
    · rcases mem_put h with h | h
      · exact .inl h
      · exact .inr (h ▸ List.mem_cons_self)
    · exact .inr (List.mem_cons_of_mem _ h)

/-! ## What is lost -/

section

variable (f : String × α → Nat)

def weight (es : List (String × α)) : Nat := (es.map f).sum

theorem weight_put_le (k : String) (v : α) (es : List (String × α)) : weight f (put k v es) ≤ weight f es + f (k, v) := by
  induction es with
  | nil => simp [put, weight]
  | cons e rest ih =>
    obtain ⟨j, w⟩ := e
    simp only [weight] at ih ⊢
    rw [put]
    split
    · simp only [List.map_cons, List.sum_cons]
      omega
    · simp only [List.map_cons, List.sum_cons]
      omega

theorem weight_put_lt {k : String} {es : List (String × α)} (hf : ∀ e, 0 < f e) (v : α) (hk : k ∈ keys es) :
    weight f (put k v es) < weight f es + f (k, v) := by
  induction es with
  | nil => simp [keys] at hk
  | cons e rest ih =>
    obtain ⟨j, w⟩ := e
    simp only [weight] at ih ⊢
    rw [put]
    split
    · have := hf (j, w)
      simp only [List.map_cons, List.sum_cons]
      omega
    · rename_i hj
      have hrest : k ∈ keys rest := by
        rcases List.mem_cons.1 hk with h | h
        · exact absurd h.symm hj
        · exact h
      have := ih hrest
      simp only [List.map_cons, List.sum_cons]
      omega

theorem weight_putAll_le (ps es : List (String × α)) : weight f (putAll ps es) ≤ weight f es + weight f ps := by
  induction ps generalizing es with
  | nil => exact Nat.le_add_right _ _
  | cons p rest ih =>
    obtain ⟨k, v⟩ := p
    have h1 := ih (put k v es)
    have h2 := weight_put_le f k v es
    have h3 : weight f ((k, v) :: rest) = f (k, v) + weight f rest := by simp [weight]
    rw [putAll, h3]
    omega

theorem weight_putAll_lt {ps es : List (String × α)} (hf : ∀ e, 0 < f e) (hes : (keys es).Nodup)
    (h : ¬(keys (es ++ ps)).Nodup) : weight f (putAll ps es) < weight f es + weight f ps := by
  induction ps generalizing es with
  | nil => exact absurd (by simpa using hes) h
  | cons p rest ih =>
    obtain ⟨k, v⟩ := p
    have h3 : weight f ((k, v) :: rest) = f (k, v) + weight f rest := by simp [weight]
    rw [putAll, h3]
    by_cases hk : k ∈ keys es
    · have h1 := weight_putAll_le f rest (put k v es)
      have h2 := weight_put_lt f hf v hk
      omega
    · have happ : es ++ (k, v) :: rest = put k v es ++ rest := by simp [put_of_not_mem v hk]
      rw [happ] at h
      have h1 := ih (nodup_put hes) h
      have h2 := weight_put_le f k v es
      omega

end

theorem weight_one (es : List (String × α)) : weight (fun _ => 1) es = es.length := by
  induction es with
  | nil => rfl
  | cons e rest ih =>
    simp only [weight, List.map_cons, List.sum_cons, List.length_cons] at ih ⊢
    omega

/-- With nothing lost, the keys are distinct. -/
theorem nodup_of_length_putAll {ps : List (String × α)} (h : (putAll ps []).length = ps.length) : (keys ps).Nodup := by
  by_contra hno
  have hnil : (keys ([] : List (String × α))).Nodup := List.nodup_nil
  have hlt := weight_putAll_lt (fun _ => 1) (fun _ => Nat.one_pos) hnil (show ¬(keys ([] ++ ps)).Nodup from hno)
  rw [weight_one, weight_one, weight_one, h, List.length_nil, Nat.zero_add] at hlt
  exact Nat.lt_irrefl _ hlt

/-! ## One entry among others -/

section

variable {k : String} {v w : α} {pre post es : List (String × α)}

theorem keys_append (es es' : List (String × α)) : keys (es ++ es') = keys es ++ keys es' := List.map_append

theorem keys_cons (k : String) (v : α) (es : List (String × α)) : keys ((k, v) :: es) = k :: keys es := rfl

/-- A key stands between others. -/
theorem exists_split {i : Nat} (h : (keys es)[i]? = some k) :
    ∃ pre v post, es = pre ++ (k, v) :: post ∧ pre.length = i := by
  induction es generalizing i with
  | nil => cases h
  | cons e rest ih =>
    obtain ⟨j, w⟩ := e
    cases i with
    | zero =>
      cases h
      exact ⟨[], w, rest, rfl, rfl⟩
    | succ i =>
      obtain ⟨pre, v, post, rfl, hi⟩ := ih h
      exact ⟨(j, w) :: pre, v, post, rfl, congrArg Nat.succ hi⟩

theorem exists_first (h : k ∈ keys es) : ∃ pre v post, es = pre ++ (k, v) :: post ∧ k ∉ keys pre := by
  induction es with
  | nil => cases h
  | cons e rest ih =>
    obtain ⟨j, w⟩ := e
    by_cases hj : k = j
    · exact ⟨[], w, rest, by rw [hj]; rfl, List.not_mem_nil⟩
    · obtain ⟨pre, v, post, rfl, hpre⟩ := ih ((List.mem_cons.1 h).resolve_left hj)
      exact ⟨(j, w) :: pre, v, post, rfl, fun hk => (List.mem_cons.1 hk).elim hj hpre⟩

theorem not_mem_of_split (h : (keys (pre ++ (k, v) :: post)).Nodup) : k ∉ keys pre ∧ k ∉ keys post := by
  rw [keys_append, keys_cons, List.nodup_append, List.nodup_cons] at h
  exact ⟨fun hk => h.2.2 k hk k List.mem_cons_self rfl, h.2.1.1⟩

theorem lookup_split (h : k ∉ keys pre) : (pre ++ (k, v) :: post).lookup k = some v := by
  induction pre with
  | nil => rw [List.nil_append, lookup_cons, if_pos rfl]
  | cons e rest ih =>
    obtain ⟨hj, hrest⟩ := not_or.1 (mt List.mem_cons.2 h)
    rw [List.cons_append, lookup_cons, if_neg hj]
    exact ih hrest

theorem put_split (h : k ∉ keys pre) : put k w (pre ++ (k, v) :: post) = pre ++ (k, w) :: post := by
  induction pre with
  | nil => rw [List.nil_append, put, if_pos rfl, List.nil_append]
  | cons e rest ih =>
    obtain ⟨hj, hrest⟩ := not_or.1 (mt List.mem_cons.2 h)
    rw [List.cons_append, put, if_neg (Ne.symm hj), ih hrest, List.cons_append]

theorem erase_split (h : k ∉ keys pre) : erase k (pre ++ (k, v) :: post) = pre ++ post := by
  induction pre with
  | nil => rw [List.nil_append, erase, if_pos rfl, List.nil_append]
  | cons e rest ih =>
    obtain ⟨hj, hrest⟩ := not_or.1 (mt List.mem_cons.2 h)
    rw [List.cons_append, erase, if_neg (Ne.symm hj), ih hrest, List.cons_append]

theorem erase_of_not_mem (h : k ∉ keys es) : erase k es = es := by
  induction es with
  | nil => rfl
  | cons e rest ih =>
    obtain ⟨hj, hrest⟩ := not_or.1 (mt List.mem_cons.2 h)
    rw [erase, if_neg (Ne.symm hj), ih hrest]

/-- Changing what one key has leaves the others as they are. -/
theorem map_of_not_mem (f : String × α → String × α) (h : k ∉ keys es) :
    es.map (fun e => if e.1 = k then f e else e) = es := by
  induction es with
  | nil => rfl
  | cons e rest ih =>
    obtain ⟨hj, hrest⟩ := not_or.1 (mt List.mem_cons.2 h)
    rw [List.map_cons, if_neg (Ne.symm hj), ih hrest]

theorem map_split (f : String × α → String × α) (hpre : k ∉ keys pre) (hpost : k ∉ keys post) :
    (pre ++ (k, v) :: post).map (fun e => if e.1 = k then f e else e) = pre ++ f (k, v) :: post := by
  rw [List.map_append, List.map_cons, map_of_not_mem f hpre, map_of_not_mem f hpost, if_pos rfl]

theorem lookup_eq_some_iff (h : (keys es).Nodup) : es.lookup k = some v ↔ (k, v) ∈ es := by
  constructor
  · intro hv
    by_cases hk : k ∈ keys es
    · obtain ⟨pre, w, post, rfl, hpre⟩ := exists_first hk
      rw [lookup_split hpre] at hv
      cases hv
      exact List.mem_append_right pre List.mem_cons_self
    · rw [lookup_eq_none hk] at hv
      cases hv
  · intro hv
    obtain ⟨pre, post, rfl⟩ := List.append_of_mem hv
    exact lookup_split (not_mem_of_split h).1

theorem mem_of_mem_erase {e : String × α} (h : e ∈ erase k es) : e ∈ es := by
  by_cases hk : k ∈ keys es
  · obtain ⟨pre, w, post, rfl, hpre⟩ := exists_first hk
    rw [erase_split hpre] at h
    rcases List.mem_append.1 h with h | h
    · exact List.mem_append_left _ h
    · exact List.mem_append_right _ (List.mem_cons_of_mem _ h)
  · rwa [erase_of_not_mem hk] at h

/-- Other values for all keys. -/
theorem keys_mapIdx (f : Nat → String × α → α) (es : List (String × α)) :
    keys (es.mapIdx fun i e => (e.1, f i e)) = keys es := by
  refine List.ext_getElem? fun i => ?_
  simp only [keys, List.getElem?_map, List.getElem?_mapIdx]
  cases es[i]? <;> rfl

end

end TypedDoc.Entries
