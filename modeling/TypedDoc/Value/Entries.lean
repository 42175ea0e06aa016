/-
  TypedDoc.Value.Entries — association lists in the order of first insertion, the shape
  of an object's contents.

  `put` replaces in place or appends; `erase` keeps the order of the rest.
  - `lookup_put`: what a look-up finds afterwards.
  - `keys_put` / `keys_erase`: the keys afterwards; `put` and `erase` keep them distinct.
-/

namespace TypedDoc.Entries

variable {α : Type}

def keys (es : List (String × α)) : List String := es.map (·.1)

/-- The value under `k` becomes `v`; a new key goes to the end. -/
def put (k : String) (v : α) : List (String × α) → List (String × α)
  | [] => [(k, v)]
  | (k', w) :: rest => if k' = k then (k, v) :: rest else (k', w) :: put k v rest

def erase (k : String) : List (String × α) → List (String × α)
  | [] => []
  | (k', w) :: rest => if k' = k then rest else (k', w) :: erase k rest

theorem lookup_cons (k j : String) (w : α) (es : List (String × α)) :
    ((j, w) :: es).lookup k = if k = j then some w else es.lookup k := by
  rw [List.lookup_cons]
  by_cases h : k = j
  · simp [h]
  · have : (k == j) = false := by simpa using h
    simp [this, h]

theorem lookup_put (k k' : String) (v : α) (es : List (String × α)) :
    (put k v es).lookup k' = if k' = k then some v else es.lookup k' := by
  induction es with
  | nil => simp [put, lookup_cons]
  | cons e rest ih =>
    obtain ⟨j, w⟩ := e
    by_cases hj : j = k
    · simp only [put, hj, if_true, lookup_cons]
      split <;> rfl
    · simp only [put, hj, if_false, lookup_cons, ih]
      by_cases h : k' = j
      · have : k' ≠ k := fun e => hj (h.symm.trans e)
        simp [h, hj]
      · simp [h]

theorem keys_put (k : String) (v : α) (es : List (String × α)) :
    keys (put k v es) = if k ∈ keys es then keys es else keys es ++ [k] := by
  induction es with
  | nil => simp [put, keys]
  | cons e rest ih =>
    obtain ⟨j, w⟩ := e
    by_cases hj : j = k
    · simp [put, keys, hj]
    · have hk : k ≠ j := fun h => hj h.symm
      simp only [keys] at ih
      by_cases hm : k ∈ rest.map (·.1)
      · simp [put, keys, hj, ih, hk, hm]
      · simp [put, keys, hj, ih, hk, hm]

theorem keys_erase (k : String) (es : List (String × α)) : keys (erase k es) = (keys es).erase k := by
  induction es with
  | nil => rfl
  | cons e rest ih =>
    obtain ⟨j, w⟩ := e
    by_cases hj : j = k
    · simp [erase, keys, hj]
    · simp only [keys] at ih
      simp [erase, keys, hj, ih]

theorem nodup_put {k : String} {v : α} {es : List (String × α)} (h : (keys es).Nodup) :
    (keys (put k v es)).Nodup := by
  rw [keys_put]
  split
  · exact h
  · rename_i hk
    rw [List.nodup_append]
    exact ⟨h, by simp, fun a ha b hb e => hk (by simp at hb; rw [← hb, ← e]; exact ha)⟩

theorem nodup_erase {k : String} {es : List (String × α)} (h : (keys es).Nodup) :
    (keys (erase k es)).Nodup := by
  rw [keys_erase]
  exact h.erase k

theorem lookup_eq_none {k : String} {es : List (String × α)} (h : k ∉ keys es) : es.lookup k = none := by
  induction es with
  | nil => rfl
  | cons e rest ih =>
    obtain ⟨j, w⟩ := e
    simp only [keys, List.map_cons, List.mem_cons, not_or] at h
    rw [lookup_cons, if_neg h.1]
    exact ih h.2

end TypedDoc.Entries
