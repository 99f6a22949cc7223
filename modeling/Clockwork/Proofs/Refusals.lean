import Clockwork.Proofs.Relabelling

namespace Clockwork
set_option autoImplicit true

/-- The error is that of the first statement of a list which is refused. -/
inductive FirstRefused (refused : Stmt Expr → ProcessError → Prop) :
    List (Stmt Expr) → ProcessError → Prop where
  | here (h : refused s e) : FirstRefused refused (s :: rest) e
  | later (hs : ∀ e, ¬ refused s e) (h : FirstRefused refused rest e) :
    FirstRefused refused (s :: rest) e

/-- A result is an error if a statement of a list is refused, and it is that of the first. -/
inductive Judges (refused : Stmt Expr → ProcessError → Prop) (ss : List (Stmt Expr)) :
    Except ProcessError α → Prop where
  | accepts (h : ∀ s ∈ ss, ∀ e, ¬ refused s e) : Judges refused ss (.ok result)
  | refuses (h : FirstRefused refused ss e) : Judges refused ss (.error e)

section
variable {refused : Stmt Expr → ProcessError → Prop}

theorem FirstRefused.exists_mem (h : FirstRefused refused ss e) : ∃ s ∈ ss, refused s e := by
  induction h with
  | here h => exact ⟨_, List.mem_cons_self, h⟩
  | later _ _ ih =>
    obtain ⟨s, hs, he⟩ := ih
    exact ⟨s, List.mem_cons_of_mem _ hs, he⟩

theorem FirstRefused.append_right (h : FirstRefused refused ss e) (ts : List (Stmt Expr)) :
    FirstRefused refused (ss ++ ts) e := by
  induction h with
  | here h => exact .here h
  | later hs _ ih => exact .later hs ih

theorem FirstRefused.append_left (h : FirstRefused refused ts e)
    (hss : ∀ s ∈ ss, ∀ e, ¬ refused s e) : FirstRefused refused (ss ++ ts) e := by
  induction ss with
  | nil => exact h
  | cons s ss ih =>
    exact .later (hss s List.mem_cons_self) (ih fun t ht => hss t (List.mem_cons_of_mem _ ht))

theorem FirstRefused.unique (hrefused : ∀ s e e', refused s e → refused s e' → e = e')
    (h : FirstRefused refused ss e) (h' : FirstRefused refused ss e') : e = e' := by
  induction h with
  | here h =>
    cases h' with
    | here h' => exact hrefused _ _ _ h h'
    | later hs => exact absurd h (hs _)
  | later hs _ ih =>
    cases h' with
    | here h' => exact absurd h' (hs _)
    | later _ h' => exact ih h'

/-- Of two stages the second is reached if the first accepts. -/
theorem Judges.bind {r : Except ProcessError α} {f : α → Except ProcessError β}
    (h : Judges refused ss r) (hf : ∀ a, Judges refused ts (f a)) :
    Judges refused (ss ++ ts) (r >>= f) := by
  cases h with
  | refuses h => exact .refuses (h.append_right ts)
  | @accepts a hss =>
    show Judges refused (ss ++ ts) (f a)
    generalize f a = r, hf a = h
    cases h with
    | accepts hts =>
      exact .accepts fun s hs => (List.mem_append.1 hs).elim (hss s) (hts s)
    | refuses h => exact .refuses (h.append_left hss)

/-- What is done after the last stage changes no verdict. -/
theorem Judges.map {r : Except ProcessError α} (h : Judges refused ss r) (f : α → β) :
    Judges refused ss (r >>= fun a => .ok (f a)) := by
  cases h with
  | accepts h => exact .accepts h
  | refuses h => exact .refuses h

theorem Judges.cons {r : Except ProcessError α} (hs : ∀ e, ¬ refused s e)
    (h : Judges refused ss r) : Judges refused (s :: ss) r := by
  cases h with
  | accepts h => exact .accepts (List.forall_mem_cons.2 ⟨hs, h⟩)
  | refuses h => exact .refuses (.later hs h)

theorem Judges.leaf (hs : ∀ e, ¬ refused s e) : Judges refused [s] (.ok a) :=
  .cons hs (.accepts (List.forall_mem_nil _))

theorem Judges.exists_ok_iff {r : Except ProcessError α} (h : Judges refused ss r) :
    (∃ a, r = .ok a) ↔ ∀ s ∈ ss, ∀ e, ¬ refused s e := by
  cases h with
  | accepts h => exact iff_of_true ⟨_, rfl⟩ h
  | refuses h =>
    obtain ⟨s, hs, he⟩ := h.exists_mem
    exact iff_of_false (fun ⟨_, hok⟩ => by cases hok) fun hss => hss s hs _ he

theorem Judges.exists_error_iff {r : Except ProcessError α} (h : Judges refused ss r) :
    (∃ e, r = .error e) ↔ ∃ s ∈ ss, ∃ e, refused s e := by
  cases h with
  | accepts h =>
    exact iff_of_false (fun ⟨_, herror⟩ => by cases herror) fun ⟨s, hs, e, he⟩ => h s hs e he
  | refuses h =>
    obtain ⟨s, hs, he⟩ := h.exists_mem
    exact iff_of_true ⟨_, rfl⟩ ⟨s, hs, _, he⟩

theorem Judges.eq_error_iff {r : Except ProcessError α} (h : Judges refused ss r)
    (hrefused : ∀ s e e', refused s e → refused s e' → e = e') :
    r = .error e ↔ FirstRefused refused ss e := by
  cases h with
  | accepts h =>
    simp only [reduceCtorEq, false_iff]
    intro hfirst
    obtain ⟨s, hs, he⟩ := hfirst.exists_mem
    exact h s hs e he
  | refuses h =>
    rw [Except.error.injEq]
    exact ⟨fun heq => heq ▸ h, h.unique hrefused⟩

theorem judges_mapM {f : Stmt Expr → Except ProcessError α}
    (hf : ∀ s, Judges refused [s] (f s)) (ss : List (Stmt Expr)) :
    Judges refused ss (ss.mapM f) := by
  induction ss with
  | nil => exact .accepts (List.forall_mem_nil _)
  | cons s ss ih =>
    rw [List.mapM_cons]
    exact (hf s).bind fun a => ih.map (a :: ·)

end

end Clockwork
