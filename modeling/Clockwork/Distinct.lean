namespace Clockwork

/-- Adds an element at the end of a list unless it is listed already. -/
def addNew {α : Type} [DecidableEq α] (xs : List α) (x : α) : List α :=
  if x ∈ xs then xs else xs ++ [x]

def addAllNew {α : Type} [DecidableEq α] (xs ys : List α) : List α :=
  ys.foldl addNew xs

theorem mem_addNew {α : Type} [DecidableEq α] {xs : List α} {x y : α} :
    y ∈ addNew xs x ↔ y ∈ xs ∨ y = x := by
  unfold addNew
  split <;> simp_all

theorem nodup_addNew {α : Type} [DecidableEq α] {xs : List α} {x : α} (h : xs.Nodup) :
    (addNew xs x).Nodup := by
  unfold addNew
  split
  · exact h
  · next hx =>
    refine List.nodup_append.2 ⟨h, by simp, ?_⟩
    rintro a ha b hb rfl
    exact hx (by simpa using List.mem_singleton.1 hb ▸ ha)

theorem getElem?_addNew_idxOf {α : Type} [DecidableEq α] (xs : List α) (x : α) :
    (addNew xs x)[xs.idxOf x]? = some x := by
  unfold addNew
  split
  · next h => rw [List.getElem?_eq_getElem (List.idxOf_lt_length_of_mem h), List.getElem_idxOf]
  · next h => simp [List.idxOf_eq_length h]

theorem getElem?_addNew_of_eq_some {α : Type} [DecidableEq α] {xs : List α} {x y : α} {i : Nat}
    (h : xs[i]? = some y) : (addNew xs x)[i]? = some y := by
  unfold addNew
  split
  · exact h
  · obtain ⟨hi, _⟩ := List.getElem?_eq_some_iff.1 h
    rw [List.getElem?_append_left hi, h]

end Clockwork
