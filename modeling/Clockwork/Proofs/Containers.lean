import Clockwork.Table

namespace Clockwork
set_option autoImplicit true

theorem Except.bind_eq_ok {x : Except ε α} {f : α → Except ε β} (h : x >>= f = .ok r) :
    ∃ y, x = .ok y ∧ f y = .ok r := by
  cases x with
  | error e => cases h
  | ok y => exact ⟨y, rfl, h⟩

theorem Except.bind_eq_error {x : Except ε α} {f : α → Except ε β} (h : x >>= f = .error e) :
    x = .error e ∨ ∃ y, x = .ok y ∧ f y = .error e := by
  cases x with
  | error e' => exact .inl (by cases h; rfl)
  | ok y => exact .inr ⟨y, rfl, h⟩

theorem Except.toOption_eq_some {x : Except ε α} : x.toOption = some y ↔ x = .ok y := by
  cases x <;> simp [Except.toOption]

theorem Except.map_eq_ok {x : Except ε α} {f : α → β} :
    x.map f = .ok z ↔ ∃ y, x = .ok y ∧ z = f y := by
  cases x <;> simp [Except.map, eq_comm]

theorem Except.map_eq_of_mapM {f : α → Except ε β} {xs : List α} {ys : List β}
    (h : xs.mapM f = .ok ys) : xs.map f = ys.map .ok := by
  induction xs generalizing ys with
  | nil =>
    cases h
    rfl
  | cons x xs ih =>
    rw [List.mapM_cons] at h
    obtain ⟨y, hy, htail⟩ := Except.bind_eq_ok h
    obtain ⟨rest, hrest, hys⟩ := Except.bind_eq_ok htail
    cases hys
    rw [List.map_cons, List.map_cons, hy, ih hrest]

theorem Except.exists_of_mapM_eq_error {f : α → Except ε β} {xs : List α}
    (h : xs.mapM f = .error e) : ∃ x ∈ xs, f x = .error e := by
  induction xs with
  | nil => cases h
  | cons x xs ih =>
    rw [List.mapM_cons] at h
    rcases Except.bind_eq_error h with hx | ⟨_, _, h⟩
    · exact ⟨x, List.mem_cons_self, hx⟩
    · rcases Except.bind_eq_error h with hxs | ⟨_, _, h⟩
      · obtain ⟨y, hy, hfy⟩ := ih hxs
        exact ⟨y, List.mem_cons_of_mem _ hy, hfy⟩
      · cases h

theorem Except.mapM_of_map_eq {f : α → Except ε β} {xs : List α} {ys : List β}
    (h : xs.map f = ys.map .ok) : xs.mapM f = .ok ys := by
  induction xs generalizing ys with
  | nil =>
    cases ys with
    | nil => rfl
    | cons => cases h
  | cons x xs ih =>
    cases ys with
    | nil => cases h
    | cons y ys =>
      obtain ⟨hx, hxs⟩ := List.cons.inj h
      rw [List.mapM_cons, hx, ih hxs]
      rfl

theorem Except.exists_map_eq {f : α → Except ε β} {xs : List α} (h : ∀ x ∈ xs, ∃ y, f x = .ok y) :
    ∃ ys : List β, xs.map f = ys.map .ok := by
  induction xs with
  | nil => exact ⟨[], rfl⟩
  | cons x xs ih =>
    obtain ⟨hx, hxs⟩ := List.forall_mem_cons.1 h
    obtain ⟨y, hy⟩ := hx
    obtain ⟨ys, hys⟩ := ih hxs
    exact ⟨y :: ys, by rw [List.map_cons, List.map_cons, hy, hys]⟩

theorem filter_eq_singleton {P : α → Bool} {l : List α}
    (hl : l.Pairwise fun a b => P a = true → P b ≠ true) (ha : a ∈ l) (hp : P a = true) :
    l.filter P = [a] := by
  induction hl with
  | nil => cases ha
  | @cons b l hb _ ih =>
    rcases List.mem_cons.1 ha with rfl | ha
    · rw [List.filter_cons_of_pos hp, List.filter_eq_nil_iff.2 fun c hc => hb c hc hp]
    · rw [List.filter_cons_of_neg fun hpb => hb a ha hpb hp, ih ha]

theorem getLast?_cons_of_eq_some {xs : List α} (h : xs.getLast? = some y) (x : α) :
    (x :: xs).getLast? = some y := by
  rw [List.getLast?_cons, h]
  rfl

theorem eq_nil_of_map_eq {cs : List κ} {f : α → β} {f' : κ → β}
    (h : ([] : List α).map f = cs.map f') : cs = [] :=
  List.map_eq_nil_iff.1 h.symm

theorem eq_cons_of_map_eq {as : List α} {cs : List κ} {f : α → β} {f' : κ → β}
    (h : (a :: as).map f = cs.map f') :
    ∃ c cs', cs = c :: cs' ∧ f a = f' c ∧ as.map f = cs'.map f' := by
  obtain ⟨c, cs', hcs, hc, hrest⟩ := List.map_eq_cons_iff.1 h.symm
  exact ⟨c, cs', hcs, hc.symm, hrest.symm⟩

theorem map_eq_map_of_imp {as : List α} {cs : List κ} {f : α → β} {f' : κ → β} {g : α → γ}
    {g' : κ → γ} (himp : ∀ a c, f a = f' c → g a = g' c) (h : as.map f = cs.map f') :
    as.map g = cs.map g' := by
  induction as generalizing cs with
  | nil =>
    cases eq_nil_of_map_eq h
    rfl
  | cons a as ih =>
    obtain ⟨c, cs, rfl, ha, has⟩ := eq_cons_of_map_eq h
    rw [List.map_cons, himp a c ha, ih has, List.map_cons]

theorem Except.map_eq_map_of_imp {x : Except ε α} {z : Except ε κ} {f : α → β} {f' : κ → β}
    {g : α → γ} {g' : κ → γ} (himp : ∀ a c, f a = f' c → g a = g' c) (h : x.map f = z.map f') :
    x.map g = z.map g' := by
  cases x with
  | error e =>
    cases z with
    | error e' => rw [Except.map, Except.map, Except.error.inj h]
    | ok c => cases h
  | ok a =>
    cases z with
    | error e' => cases h
    | ok c => rw [Except.map, Except.map, himp a c (Except.ok.inj h)]

theorem mem_addAllNew [DecidableEq α] {xs ys : List α} :
    x ∈ addAllNew xs ys ↔ x ∈ xs ∨ x ∈ ys := by
  induction ys generalizing xs with
  | nil => simp [addAllNew]
  | cons y ys ih =>
    have hstep : x ∈ addAllNew (addNew xs y) ys ↔ x ∈ xs ∨ x ∈ y :: ys := by
      rw [ih, mem_addNew, List.mem_cons, or_assoc]
    exact hstep

theorem addAllNew_append [DecidableEq α] (xs ys zs : List α) :
    addAllNew xs (ys ++ zs) = addAllNew (addAllNew xs ys) zs :=
  List.foldl_append

theorem addAllNew_of_subset [DecidableEq α] {xs ys : List α} (h : ∀ y ∈ ys, y ∈ xs) :
    addAllNew xs ys = xs := by
  induction ys with
  | nil => rfl
  | cons y ys ih =>
    obtain ⟨hy, hys⟩ := List.forall_mem_cons.1 h
    have hstep : addAllNew xs (y :: ys) = addAllNew (addNew xs y) ys := rfl
    rw [hstep, addNew, if_pos hy, ih hys]

/-- Adding to a list keeps it and appends what is new, in the order of first occurrence. -/
theorem addAllNew_eq [DecidableEq α] (xs ys : List α) :
    addAllNew xs ys = xs ++ (ys.filter (· ∉ xs)).eraseDups := by
  induction ys generalizing xs with
  | nil => simp [addAllNew]
  | cons y ys ih =>
    have hstep : addAllNew xs (y :: ys) = addAllNew (addNew xs y) ys := rfl
    rw [hstep, ih, addNew]
    by_cases hy : y ∈ xs
    · simp [hy]
    · have hfilter : (ys.filter (· ∉ xs ++ [y])) =
          (ys.filter (· ∉ xs)).filter fun z => !z == y := by
        rw [List.filter_filter]
        apply List.filter_congr
        intro z _
        by_cases hz : z = y <;> simp [hz]
      rw [if_neg hy, List.filter_cons_of_pos (by simpa using hy), List.eraseDups_cons, hfilter,
        List.append_assoc, List.singleton_append]

theorem nodup_addAllNew [DecidableEq α] {xs : List α} (h : xs.Nodup) (ys : List α) :
    (addAllNew xs ys).Nodup := by
  induction ys generalizing xs with
  | nil => exact h
  | cons y ys ih => exact ih (nodup_addNew h)

theorem entryOf?_append [DecidableEq κ] (k : κ) (xs ys : List (κ × α)) :
    entryOf? k (xs ++ ys) = (entryOf? k xs).or (entryOf? k ys) := by
  induction xs with
  | nil => rfl
  | cons entry xs ih =>
    simp only [List.cons_append, entryOf?, ih]
    split <;> rfl

theorem entryOf?_eq_none [DecidableEq κ] {k : κ} {xs : List (κ × α)}
    (h : k ∉ xs.map Prod.fst) : entryOf? k xs = none := by
  rw [← Option.not_isSome_iff_eq_none, isSome_entryOf?]
  exact h

theorem entryOf?_filter [DecidableEq κ] (k : κ) (p : α → Bool) (xs : List (κ × α))
    (h : (xs.map Prod.fst).Nodup) :
    entryOf? k (xs.filter fun entry => p entry.2) = (entryOf? k xs).filter p := by
  induction xs with
  | nil => rfl
  | cons entry xs ih =>
    obtain ⟨j, v⟩ := entry
    obtain ⟨hj, hxs⟩ := List.nodup_cons.1 h
    by_cases hk : j = k
    · subst hk
      have hnone := entryOf?_eq_none hj
      by_cases hp : p v
      · simp [entryOf?, hp, Option.filter]
      · simp [entryOf?, hp, ih hxs, hnone, Option.filter]
    · by_cases hp : p v
      · simp [entryOf?, hp, hk, ih hxs]
      · simp [entryOf?, hp, hk, ih hxs]

theorem entryOf?_mem [DecidableEq κ] {k : κ} {xs : List (κ × α)} (h : entryOf? k xs = some v) :
    (k, v) ∈ xs := by
  induction xs with
  | nil => cases h
  | cons entry xs ih =>
    obtain ⟨j, w⟩ := entry
    rw [entryOf?] at h
    split at h
    · next hj =>
      cases h
      subst hj
      exact List.mem_cons_self
    · exact List.mem_cons_of_mem _ (ih h)

namespace Table

variable [DecidableEq κ] (t : Table κ α)

theorem insertAll_append (xs ys : List (κ × α)) :
    t.insertAll (xs ++ ys) = (t.insertAll xs).insertAll ys :=
  List.foldl_append

/-- The last of several writes to a key wins. -/
theorem insertAll_map (ks : List κ) (v : α) :
    t.insertAll (ks.map (·, v)) = ks.foldl (fun t k => t.insert k v) t :=
  List.foldl_map

theorem get?_insertAll (ws : List (κ × α)) (k : κ) :
    (t.insertAll ws).get? k = (entryOf? k ws.reverse).or (t.get? k) := by
  induction ws generalizing t with
  | nil => rfl
  | cons w ws ih =>
    obtain ⟨j, v⟩ := w
    have hstep : t.insertAll ((j, v) :: ws) = (t.insert j v).insertAll ws := rfl
    rw [hstep, ih, get?_insert, List.reverse_cons, entryOf?_append, Option.or_assoc]
    congr 1
    by_cases hk : k = j
    · simp [entryOf?, hk]
    · have hj : ¬ j = k := fun e => hk e.symm
      simp [entryOf?, hk, hj]

theorem get?_insertAll_of_not_mem {ws : List (κ × α)} {k : κ} (h : k ∉ ws.map Prod.fst) :
    (t.insertAll ws).get? k = t.get? k := by
  have hrev : k ∉ ws.reverse.map Prod.fst := by simpa using h
  rw [get?_insertAll, entryOf?_eq_none hrev, Option.none_or]

theorem get?_ofList (ws : List (κ × α)) (k : κ) :
    (Table.ofList ws).get? k = entryOf? k ws.reverse := by
  rw [ofList, get?_insertAll]
  exact Option.or_none

theorem get?_ofList_cons {ws : List (κ × α)} {j k : κ} {w : α} (h : k ≠ j) :
    (Table.ofList ((j, w) :: ws)).get? k = (Table.ofList ws).get? k := by
  rw [get?_ofList, get?_ofList, List.reverse_cons, entryOf?_append]
  simp [entryOf?, h.symm]

theorem get?_filterValues (p : α → Bool) (k : κ) :
    (t.filterValues p).get? k = (t.get? k).filter p :=
  entryOf?_filter k p t.entries t.nodup_keys

theorem mem_keys_insertIfNew {k j : κ} {v : α} :
    k ∈ (t.insertIfNew j v).keys ↔ k ∈ t.keys ∨ k = j := by
  unfold insertIfNew
  split
  · next h =>
    rw [contains_iff] at h
    constructor
    · exact .inl
    · rintro (hk | rfl)
      · exact hk
      · exact h
  · rw [keys_insert, mem_addNew]

theorem mem_keys_foldl_insertIfNew {k : κ} {entries : List (κ × α)} :
    k ∈ (entries.foldl (fun t (k, v) => t.insertIfNew k v) t).keys ↔
      k ∈ t.keys ∨ k ∈ entries.map Prod.fst := by
  induction entries generalizing t with
  | nil => simp
  | cons entry entries ih =>
    rw [List.foldl_cons, ih, mem_keys_insertIfNew, List.map_cons, List.mem_cons, or_assoc]

end Table

end Clockwork
