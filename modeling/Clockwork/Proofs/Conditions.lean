import Clockwork.Proofs.StateName

namespace Clockwork
set_option autoImplicit true

variable {e a b : Expr} {es : List Expr} {env : Env} {v : Valuation} {ts us : List (Transition Expr)}
  {m : Machine Expr} {g : Graph}

/-- Whether an expression counts as true, if it has a value. -/
def Expr.verdict (env : Env) (e : Expr) : Option Bool :=
  (e.eval env).map Value.truth

namespace Expr

theorem verdict_and (env : Env) (a b : Expr) :
    (binary .and a b).verdict env =
      (a.verdict env).bind fun x => (b.verdict env).map fun y => x && y := by
  rw [verdict, verdict, verdict, eval]
  cases a.eval env with
  | none => rfl
  | some x =>
    cases b.eval env with
    | none => rfl
    | some y => rfl

theorem verdict_and_eq_true : (binary .and a b).verdict env = some true ↔
    a.verdict env = some true ∧ b.verdict env = some true := by
  rw [verdict_and]
  cases a.verdict env with
  | none => simp
  | some x => cases b.verdict env <;> simp

theorem isSome_verdict_and : ((binary .and a b).verdict env).isSome ↔
    (a.verdict env).isSome ∧ (b.verdict env).isSome := by
  rw [verdict_and]
  cases a.verdict env with
  | none => simp
  | some x => simp

theorem verdict_congr {env' : Env} (h : ∀ x ∈ e.vars, env x = env' x) :
    e.verdict env = e.verdict env' := by
  rw [verdict, verdict, eval_congr h]

end Expr

/-- What is shared between a conjunction and its two operands is shared between a condition and all
its parts. -/
theorem Expr.forall_foldl_and (P : Expr → Prop) (hand : ∀ a b, P (binary .and a b) ↔ P a ∧ P b)
    (e : Expr) (es : List Expr) : P (es.foldl (binary .and) e) ↔ ∀ d ∈ e :: es, P d := by
  induction es generalizing e with
  | nil => simp
  | cons d es ih =>
    rw [List.foldl_cons, ih, List.forall_mem_cons, hand, and_assoc, ← List.forall_mem_cons,
      ← List.forall_mem_cons]

namespace Valuation

theorem holdAll_eq_true : v.holdAll es = .ok true ↔ ∀ d ∈ es, d.verdict v.get? = some true := by
  induction es with
  | nil => simp [holdAll]
  | cons d es ih =>
    rw [List.forall_mem_cons, ← ih]
    cases hd : d.verdict v.get? with
    | none => rw [holdAll_of_none hd]; simp
    | some b =>
      rw [holdAll_of_some hd]
      cases b <;> simp

/-- Without undefined conditions it makes no difference where the evaluation stops. -/
theorem holdAll_of_defined (h : ∀ d ∈ es, (d.verdict v.get?).isSome) :
    ∃ b, v.holdAll es = .ok b := by
  induction es with
  | nil => exact ⟨true, rfl⟩
  | cons d es ih =>
    obtain ⟨hd, hes⟩ := List.forall_mem_cons.1 h
    obtain ⟨b, hb⟩ := Option.isSome_iff_exists.1 hd
    rw [holdAll_of_some hb]
    cases b with
    | true => exact ih hes
    | false => exact ⟨false, rfl⟩

end Valuation

namespace Transition

theorem condition_eq_true (t : Transition Expr) (v : Valuation) :
    t.condition.verdict v.get? = some true ↔ t.fires v = .ok true := by
  rw [fires, Valuation.holdAll_eq_true]
  exact Expr.forall_foldl_and (fun d => d.verdict v.get? = some true)
    (fun a b => Expr.verdict_and_eq_true) t.activation t.guards

theorem condition_eq_false {t : Transition Expr} (h : t.condition.verdict v.get? = some false) :
    t.fires v = .ok false := by
  have hdefined : ∀ d ∈ t.activation :: t.guards, (d.verdict v.get?).isSome := by
    apply (Expr.forall_foldl_and (fun d => (d.verdict v.get?).isSome)
      (fun a b => Expr.isSome_verdict_and) t.activation t.guards).1
    have hsome : (t.condition.verdict v.get?).isSome := by
      rw [h]
      rfl
    exact hsome
  obtain ⟨b, hb⟩ := Valuation.holdAll_of_defined hdefined
  cases b with
  | false => exact hb
  | true =>
    have htrue := (t.condition_eq_true v).2 hb
    rw [h] at htrue
    cases htrue

/-- The condition of the transition counts as true. -/
def Enabled (env : Env) (t : Transition Expr) : Prop :=
  t.condition.verdict env = some true

instance (env : Env) (t : Transition Expr) : Decidable (t.Enabled env) :=
  inferInstanceAs (Decidable (_ = _))

end Transition

theorem firing_of_defined (h : ∀ t ∈ ts, ∃ b, t.fires v = .ok b) :
    firing v ts = .ok (ts.filter fun t => t.Enabled v.get?) := by
  induction ts with
  | nil => rfl
  | cons t ts ih =>
    obtain ⟨⟨b, hb⟩, hts⟩ := List.forall_mem_cons.1 h
    have henabled : t.Enabled v.get? ↔ b = true := by
      rw [Transition.Enabled, t.condition_eq_true, hb, Except.ok.injEq]
    rw [firing, hb, ih hts, List.filter_cons]
    cases b with
    | true =>
      rw [if_pos (decide_eq_true (henabled.2 rfl))]
      rfl
    | false =>
      rw [decide_eq_false fun ht => Bool.false_ne_true (henabled.1 ht)]
      rfl

theorem firing_eq_ok (h : firing v ts = .ok us) : us = ts.filter fun t => t.Enabled v.get? := by
  have hfilter := firing_of_defined fun t ht => fires_of_firing_ok h ht
  exact Except.ok.inj (h.symm.trans hfilter)

/-- The values that an environment gives to some names. -/
def Env.tabulate (env : Env) (xs : List String) : Valuation :=
  .ofList (xs.filterMap fun x => (env x).map fun w => (x, w))

theorem Env.get?_tabulate (env : Env) (h : x ∈ xs) : (env.tabulate xs).get? x = env x := by
  have hentry (ys : List String) :
      entryOf? x (ys.filterMap fun y => (env y).map fun w => (y, w)) =
        if x ∈ ys then env x else none := by
    induction ys with
    | nil => rfl
    | cons y ys ih =>
      by_cases hy : y = x
      · subst hy
        cases hw : env y with
        | none => simp [hw, ih]
        | some w => simp [hw, entryOf?]
      · have hx : ¬ x = y := fun he => hy he.symm
        cases hw : env y with
        | none => simp [hw, ih, hx]
        | some w => simp [hw, ih, entryOf?, hy, hx]
  rw [tabulate, Table.get?_ofList, ← List.filterMap_reverse, hentry, if_pos (List.mem_reverse.2 h)]

theorem Transition.Apart.enabled {t u : Transition Expr} (h : Transition.Apart v t u)
    (ht : t.Enabled v.get?) : ¬ u.Enabled v.get? := by
  intro hu
  have hidle : u.fires v = .ok false := h.1 ((t.condition_eq_true v).1 ht)
  have hfires : u.fires v = .ok true := (u.condition_eq_true v).1 hu
  rw [hidle] at hfires
  cases hfires

/-- An environment enables at most one transition: the conditions read finitely many names, so that
some valuation gives them the same values. -/
theorem Machine.Realizes.enabled_le_one (hm : m.Realizes g) (hcount : m.suspensionCount < 2 ^ 64)
    (env : Env) : (m.transitions.filter fun t => t.Enabled env).length ≤ 1 := by
  obtain ⟨depth, paths, hpaths, hts⟩ := hm.transitions
  let v := env.tabulate (m.transitions.flatMap fun t => t.condition.vars)
  have hapart := hm.built.transitions_apart (hm.count ▸ hcount) hpaths m.stateVar v
  rw [← hts] at hapart
  have hsame : ∀ t ∈ m.transitions, decide (t.Enabled env) = decide (t.Enabled v.get?) := by
    intro t ht
    have hverdict : t.condition.verdict env = t.condition.verdict v.get? := by
      apply Expr.verdict_congr
      intro x hx
      exact (env.get?_tabulate (List.mem_flatMap.2 ⟨t, ht, hx⟩)).symm
    exact decide_eq_decide.2 (Eq.congr_left hverdict)
  rw [List.filter_congr hsame]
  have hexclude : m.transitions.Pairwise fun t u =>
      decide (t.Enabled v.get?) = true → decide (u.Enabled v.get?) ≠ true := by
    apply hapart.imp
    intro t u htu ht hu
    exact htu.enabled (of_decide_eq_true ht) (of_decide_eq_true hu)
  cases hfilter : m.transitions.filter fun t => t.Enabled v.get? with
  | nil => exact Nat.zero_le 1
  | cons t rest =>
    have hmem : t ∈ m.transitions.filter fun t => t.Enabled v.get? := by
      rw [hfilter]
      exact List.mem_cons_self
    obtain ⟨ht, henabled⟩ := List.mem_filter.1 hmem
    rw [filter_eq_singleton hexclude ht henabled] at hfilter
    rw [← hfilter]
    exact Nat.le_refl 1

/-- The condition of a transition counts as true exactly where the simulation finds that the
transition fires. Of the conditions of a compiled machine at most one does. -/
theorem condition_selects :
    (∀ (t : Transition Expr) (v : Valuation),
      (t.condition.verdict v.get? = some true ↔ t.fires v = .ok true) ∧
      (t.condition.verdict v.get? = some false → t.fires v = .ok false)) ∧
    ∀ (p : ClockedProcess Expr) (options : Options) (m : Machine Expr),
      p.compile options = .ok m → m.suspensionCount < 2 ^ 64 →
      (∀ env : Env, (m.transitions.filter fun t => t.Enabled env).length ≤ 1) ∧
      ∀ (r : MachineRun) (id : Nat), (r.step m).1 = .ok id →
        ∃ t, (m.transitions.filter fun t => t.Enabled r.values.get?) = [t] ∧ t.target = id := by
  constructor
  · intro t v
    exact ⟨t.condition_eq_true v, Transition.condition_eq_false⟩
  · intro p options m h hcount
    obtain ⟨flow, _, hm⟩ := ClockedProcess.compile_realizes h
    constructor
    · intro env
      exact hm.enabled_le_one hcount env
    · intro r id hok
      obtain ⟨t, ws, hfiring, hwrites⟩ := MachineRun.firing_of_step_ok hok
      rw [MachineRun.step_of_firing hfiring hwrites] at hok
      exact ⟨t, (firing_eq_ok hfiring).symm, Except.ok.inj hok⟩

/-- A transition with a guard after one that is false. -/
def guardedTransition : Transition Expr where
  source := 0
  activation := .binary .eq (.var "state") (.int 0)
  guards := [.var "a", .binary .div (.int 1) (.var "b")]
  effects := []
  target := 1
  move := .assign ["state"] (.int 1)

def guardedValues (b : Int64) : Valuation :=
  .ofList [("state", .int 0), ("a", .bool false), ("b", .int b)]

/-- The second guard divides by zero: the simulation does not get there if the first one is false,
the condition does. -/
example : guardedTransition.condition.verdict (guardedValues 0).get? = none ∧
    (guardedTransition.fires (guardedValues 0)).toOption = some false := by
  decide

theorem condition_selects_gatedProcess :
    guardedTransition.condition.verdict (guardedValues 2).get? = some false ∧
    guardedTransition.fires (guardedValues 2) = .ok false ∧
    ∃ m r, gatedProcess.compile .default = .ok m ∧ m.suspensionCount < 2 ^ 64 ∧
      m.transitions.length = 8 ∧ r = (MachineRun.run m .zero [.set "a" (.int 5)]).2 ∧
      (m.transitions.filter fun t => t.Enabled r.values.get?).length ≤ 1 ∧ (r.step m).1 = .ok 1 ∧
      ∃ t, (m.transitions.filter fun t => t.Enabled r.values.get?) = [t] ∧ t.target = 1 := by
  obtain ⟨hagrees, hcompiled⟩ := condition_selects
  have hfalse : guardedTransition.condition.verdict (guardedValues 2).get? = some false := by
    decide
  have heval : ((gatedProcess.compile .default).toOption.map fun m =>
      (m.suspensionCount, m.transitions.length,
        ((MachineRun.run m .zero [.set "a" (.int 5)]).2.step m).1.toOption)) =
      some (3, 8, some 1) := by
    decide +kernel
  obtain ⟨m, hm, hm'⟩ := Option.map_eq_some_iff.1 heval
  rw [Except.toOption_eq_some] at hm
  simp only [Prod.mk.injEq, Except.toOption_eq_some] at hm'
  obtain ⟨hcount, hlength, hok⟩ := hm'
  have hlt : m.suspensionCount < 2 ^ 64 := by
    rw [hcount]
    decide
  obtain ⟨hunique, hstep⟩ := hcompiled _ _ m hm hlt
  exact ⟨hfalse, (hagrees guardedTransition _).2 hfalse, m, _, hm, hlt, hlength, rfl, hunique _,
    hok, hstep _ 1 hok⟩

end Clockwork
