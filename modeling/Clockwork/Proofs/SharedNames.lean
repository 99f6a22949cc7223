import Clockwork.Proofs.Interning
import Clockwork.Proofs.Relabelling

namespace Clockwork
set_option autoImplicit true

namespace Stmt

variable {ε δ : Type}

/-- The names that a statement itself declares, assigns or reads. -/
def ownNames (vars : ε → List String) (s : Stmt ε) : List String :=
  s.targets ++ (s.ownExpr?.map vars).getD []

theorem mem_ownNames {vars : ε → List String} {s : Stmt ε} :
    y ∈ s.ownNames vars ↔ y ∈ s.targets ∨ ∃ v, s.ownExpr? = some v ∧ y ∈ vars v := by
  rw [ownNames, List.mem_append]
  cases s.ownExpr? <;> simp

theorem ownNames_map (f : ε → δ) (vars : δ → List String) (s : Stmt ε) :
    (s.map f).ownNames vars = s.ownNames fun v => vars (f v) := by
  cases s <;> rfl

theorem listNames_append (ss ts : List (Stmt Expr)) :
    listNames (ss ++ ts) = listNames ss ++ listNames ts := by
  induction ss with
  | nil => rfl
  | cons s ss ih => rw [List.cons_append, listNames, listNames, ih, List.append_assoc]

theorem names_eq_append (s : Stmt Expr) :
    s.names = s.ownNames Expr.vars ++ listNames s.inner := by
  cases s <;> simp [names, ownNames, targets, ownExpr?, inner, listNames, listNames_append]

/-- The names of statements are those of each statement at any depth, in source order. -/
theorem listNames_eq_flatMap (ss : List (Stmt Expr)) :
    listNames ss = (nestedList ss).flatMap (ownNames Expr.vars) := by
  cases ss with
  | nil => rfl
  | cons s ss =>
    rw [nestedList_cons, List.flatMap_cons, ← listNames_eq_flatMap (s.inner ++ ss), listNames,
      names_eq_append, listNames_append, List.append_assoc]
termination_by (nestedList ss).length
decreasing_by
  rw [nestedList_cons]
  exact Nat.lt_succ_self _

end Stmt

namespace Pool

variable {p : Pool} {r : ExprRef} {unseen unseen' todo : List ExprRef}
  {names names' : List String}

/-- The names of an expression in the pool, once for each occurrence. -/
def varsOf (p : Pool) (r : ExprRef) : List String := (p.expr r).vars

theorem varsOf_of_denotes (hp : p.WellFormed) (h : p.Denotes r x) : p.varsOf r = x.vars := by
  rw [varsOf, Pool.expr, h.expr? hp]
  rfl

theorem varsOf_eq_nil (h : p.get? r = none) : p.varsOf r = [] := by
  have hindex : p.exprs[r.index]? = none := by
    rw [Array.getElem?_eq_none_iff, size_exprs]
    exact List.getElem?_eq_none_iff.1 h
  rw [varsOf, Pool.expr, Pool.expr?, hindex]
  rfl

theorem varsOf_var (hp : p.WellFormed) (h : p.get? r = some (.var i)) :
    p.varsOf r = [(p.name? i).getD ""] := by
  rw [varsOf, Pool.expr, expr?_of_get? hp h]
  rfl

theorem varsOf_operands (hp : p.WellFormed) (h : p.get? r = some e) (hvar : ∀ i, e ≠ .var i) :
    p.varsOf r = e.operands.flatMap p.varsOf := by
  rw [varsOf, Pool.expr, expr?_of_get? hp h]
  cases e with
  | var i => exact absurd rfl (hvar i)
  | int n => rfl
  | bool b => rfl
  | unary op a => simp [entryExpr, Expr.vars, Entry.operands, varsOf, Pool.expr, Pool.expr?]
  | binary op a b => simp [entryExpr, Expr.vars, Entry.operands, varsOf, Pool.expr, Pool.expr?]
  | ite c t e => simp [entryExpr, Expr.vars, Entry.operands, varsOf, Pool.expr, Pool.expr?]

/-- The names of every expression seen so far are listed, or will be: they come from expressions
before it in the pool that stand at the front of those to do. -/
def Covered (p : Pool) (unseen todo : List ExprRef) (names : List String) : Prop :=
  ∀ a, a ∉ unseen → ∃ front rest, todo = front ++ rest ∧ (∀ b ∈ front, b.index < a.index) ∧
    ∀ s ∈ p.varsOf a, s ∈ names ∨ s ∈ front.flatMap p.varsOf

/-- An expression that gives way to its operands stays covered, and so do those that waited for
it. -/
theorem Covered.step (h : p.Covered unseen (r :: todo) names) (front : List ExprRef)
    (hseen : ∀ a, a ∉ unseen' → a = r ∨ a ∉ unseen) (hnames : ∀ s ∈ names, s ∈ names')
    (hfront : ∀ b ∈ front, b.index < r.index)
    (hr : ∀ s ∈ p.varsOf r, s ∈ names' ∨ s ∈ front.flatMap p.varsOf) :
    p.Covered unseen' (front ++ todo) names' := by
  intro a ha
  rcases hseen a ha with rfl | ha
  · exact ⟨front, todo, rfl, hfront, hr⟩
  · obtain ⟨waits, rest, htodo, hwaits, hcovered⟩ := h a ha
    cases waits with
    | nil =>
      refine ⟨[], front ++ todo, rfl, by simp, ?_⟩
      intro s hs
      exact .inl (hnames s ((hcovered s hs).resolve_right (by simp)))
    | cons w waits =>
      obtain ⟨rfl, rfl⟩ := List.cons.inj htodo
      obtain ⟨hw, hwaits⟩ := List.forall_mem_cons.1 hwaits
      refine ⟨front ++ waits, rest, (List.append_assoc ..).symm, ?_, ?_⟩
      · intro b hb
        rcases List.mem_append.1 hb with hb | hb
        · exact Nat.lt_trans (hfront b hb) hw
        · exact hwaits b hb
      · intro s hs
        rw [List.flatMap_append, List.mem_append]
        rcases hcovered s hs with hs | hs
        · exact .inl (hnames s hs)
        · rw [List.flatMap_cons, List.mem_append] at hs
          rcases hs with hs | hs
          · exact (hr s hs).imp_right .inl
          · exact .inr (.inr hs)

/-- An expression that is met again has all its names listed: nothing before it is waiting. -/
theorem Covered.mem_names (h : p.Covered unseen (r :: todo) names) (hr : r ∉ unseen) :
    ∀ s ∈ p.varsOf r, s ∈ names := by
  obtain ⟨front, rest, htodo, hfront, hcovered⟩ := h r hr
  cases front with
  | nil =>
    intro s hs
    exact (hcovered s hs).resolve_right (by simp)
  | cons b front =>
    obtain ⟨rfl, _⟩ := List.cons.inj htodo
    exact absurd (hfront r List.mem_cons_self) (Nat.lt_irrefl _)

theorem not_mem_erase {a : ExprRef} (h : a ∉ unseen.erase r) : a = r ∨ a ∉ unseen := by
  by_cases har : a = r
  · exact .inl har
  · exact .inr fun ha => h ((List.mem_erase_of_ne har).2 ha)

/-- Looking into each shared expression once finds the same names in the same order as reading the
whole expressions. -/
theorem collect_eq (hp : p.WellFormed) (h : p.Covered unseen todo names) :
    p.collect unseen todo names = addAllNew names (todo.flatMap p.varsOf) := by
  fun_induction p.collect unseen todo names with
  | case1 => rfl
  | case2 unseen names r todo _ _ _ hget ih =>
    have hvars := varsOf_eq_nil hget
    rw [ih (h.step [] (fun _ => not_mem_erase) (fun _ hs => hs) (by simp) (by simp [hvars]))]
    rw [List.flatMap_cons, hvars, List.nil_append]
  | case3 unseen names r todo _ _ _ i hget ih =>
    have hvars := varsOf_var hp hget
    rw [ih (h.step [] (fun _ => not_mem_erase) (fun _ hs => mem_addNew.2 (.inl hs)) (by simp)
      (by simp [hvars, mem_addNew]))]
    rw [List.flatMap_cons, hvars]
    rfl
  | case4 unseen names r todo _ _ _ e hvar hget ih =>
    have hvars := varsOf_operands hp hget hvar
    rw [ih (h.step e.operands (fun _ => not_mem_erase) (fun _ hs => hs)
      (hp.operand_lt r.index e hget) (fun s hs => .inr (hvars ▸ hs)))]
    rw [List.flatMap_append, List.flatMap_cons, hvars]
  | case5 unseen names r todo hr ih =>
    have hlisted := h.mem_names hr
    rw [ih (h.step [] (fun _ => .inr) (fun _ hs => hs) (by simp) (fun s hs => .inl (hlisted s hs)))]
    rw [List.flatMap_cons, addAllNew_append, addAllNew_of_subset hlisted]

theorem collectVars_eq (hp : p.WellFormed) (r : ExprRef) (names : List String) :
    p.collectVars r names = addAllNew names (p.varsOf r) := by
  rw [collectVars, collect_eq hp, List.flatMap_singleton]
  intro a ha
  refine ⟨[], [r], rfl, by simp, ?_⟩
  have hget : p.get? a = none := by
    apply List.getElem?_eq_none
    apply Nat.le_of_not_lt
    intro hlt
    exact ha (List.mem_map.2 ⟨a.index, List.mem_range.2 hlt, rfl⟩)
  simp [varsOf_eq_nil hget]

theorem collectOwnNames_eq (hp : p.WellFormed) (names : List String) (s : Stmt ExprRef) :
    p.collectOwnNames names s = addAllNew names (s.ownNames p.varsOf) := by
  rw [collectOwnNames, Stmt.ownNames]
  cases s.ownExpr? with
  | none => rw [Option.map_none, Option.getD_none, List.append_nil]
  | some v =>
    rw [Option.map_some, Option.getD_some, addAllNew_append]
    exact collectVars_eq hp v _

/-- Every statement is looked at once, and the statements at any depth come in source order. -/
theorem collectNames_eq_foldl (p : Pool) (todo : List (Stmt ExprRef)) (names : List String) :
    p.collectNames todo names = (Stmt.nestedList todo).foldl p.collectOwnNames names := by
  fun_induction p.collectNames todo names with
  | case1 names => rfl
  | case2 names s todo ih => rw [ih, Stmt.nestedList_cons, List.foldl_cons]

theorem foldl_collectOwnNames_eq (hp : p.WellFormed) (names : List String)
    (ss : List (Stmt ExprRef)) :
    ss.foldl p.collectOwnNames names = addAllNew names (ss.flatMap (Stmt.ownNames p.varsOf)) := by
  induction ss generalizing names with
  | nil => rfl
  | cons s ss ih =>
    rw [List.foldl_cons, ih, collectOwnNames_eq hp, List.flatMap_cons, addAllNew_append]

theorem processNames_eq_addAllNew (hp : p.WellFormed) (process : ClockedProcess ExprRef) :
    p.processNames process = addAllNew process.ports.keys
      ((Stmt.nestedList process.body).flatMap (Stmt.ownNames p.varsOf)) := by
  rw [processNames, collectNames_eq_foldl, foldl_collectOwnNames_eq hp]

/-- The names of a process do not depend on how its expressions are shared. -/
theorem processNames_eq (hp : p.WellFormed) (process : ClockedProcess ExprRef) :
    p.processNames process = (process.map p.expr).names := by
  have hown (s : Stmt ExprRef) : s.ownNames p.varsOf = (s.map p.expr).ownNames Expr.vars :=
    (s.ownNames_map p.expr Expr.vars).symm
  rw [processNames_eq_addAllNew hp, ClockedProcess.names, Stmt.listNames_eq_flatMap,
    ClockedProcess.map, Stmt.nestedList_mapList, List.flatMap_map, funext hown]

end Pool

end Clockwork
