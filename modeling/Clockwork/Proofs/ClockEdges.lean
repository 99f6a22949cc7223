import Clockwork.Proofs.Conditions

namespace Clockwork
set_option autoImplicit true

variable {v : Valuation} {ts us : List (Transition Expr)} {t : Transition Expr} {m : Machine Expr}
  {r : MachineRun} {id : Nat}

/-- The value that a statement assigns to a name. -/
def Stmt.assigned? (x : String) : Stmt Expr → Option Expr
  | .assign xs e => if x ∈ xs then some e else none
  | _ => none

/-- The value that a name is assigned by the last of the statements that assign it. -/
def Stmt.lastAssigned? (x : String) : List (Stmt Expr) → Option Expr
  | [] => none
  | s :: rest => (Stmt.lastAssigned? x rest).or (s.assigned? x)

theorem entryOf?_targets (x : String) (xs : List String) (w : Value) :
    entryOf? x (xs.map (·, w)).reverse = if x ∈ xs then some w else none := by
  split
  · next hx =>
    have hkey : x ∈ (xs.map (·, w)).reverse.map Prod.fst := by simpa using hx
    obtain ⟨w', hw⟩ := Option.isSome_iff_exists.1 ((isSome_entryOf? x _).2 hkey)
    obtain ⟨y, _, he⟩ := List.mem_map.1 (List.mem_reverse.1 (entryOf?_mem hw))
    cases he
    exact hw
  · next hx =>
    apply entryOf?_eq_none
    simpa using hx

/-- The last write to a name has the value of the last assignment to it, and every assigned value is
defined. -/
theorem Valuation.lastAssigned?_of_writes (h : v.writes ss = .ok ws) (x : String) :
    (Stmt.lastAssigned? x ss).map (Expr.eval v.get?) = (entryOf? x ws.reverse).map some := by
  induction ss generalizing ws with
  | nil =>
    cases h
    rfl
  | cons s ss ih =>
    cases s with
    | assign xs e =>
      obtain ⟨w, hw, htail⟩ := Except.bind_eq_ok h
      obtain ⟨rest, hrest, hws⟩ := Except.bind_eq_ok htail
      cases hws
      rw [Valuation.eval_eq_ok] at hw
      rw [Stmt.lastAssigned?, Stmt.assigned?, List.reverse_append, entryOf?_append, Option.map_or,
        Option.map_or, ih hrest, entryOf?_targets]
      congr 1
      split
      · exact congrArg some hw
      · rfl
    | register | update | expr | branch | loop | suspend | wait =>
      simp only [Stmt.lastAssigned?, Stmt.assigned?, Option.or_none]
      exact ih h

/-- The order of the transitions does not matter where one of them fires. -/
theorem firing_perm (hts : ts.Perm us) (h : firing v us = .ok [t]) : firing v ts = .ok [t] := by
  have hdefined : ∀ u ∈ ts, ∃ b, u.fires v = .ok b := by
    intro u hu
    exact fires_of_firing_ok h (hts.mem_iff.1 hu)
  have hperm := hts.filter fun u => u.Enabled v.get?
  rw [← firing_eq_ok h, List.perm_singleton] at hperm
  rw [firing_of_defined hdefined, hperm]

namespace MachineRun

theorem step_perm (hts : ts.Perm m.transitions) (hok : (r.step m).1 = .ok id) :
    r.step { m with transitions := ts } = r.step m := by
  obtain ⟨t, ws, hfiring, hwrites⟩ := firing_of_step_ok hok
  have hfiring' : firing r.values { m with transitions := ts }.transitions = .ok [t] :=
    firing_perm hts hfiring
  rw [step_of_firing hfiring hwrites, step_of_firing hfiring' hwrites]

end MachineRun

/-- A step of a machine happens as a whole or not at all, reads the values from before the clock
edge, and does not depend on the order of the transitions. -/
theorem step_atomic (m : Machine Expr) (r : MachineRun) :
    (∀ err, (r.step m).1 = .error err → (r.step m).2 = r) ∧
    ∀ id, (r.step m).1 = .ok id →
      (∃ t, firing r.values m.transitions = .ok [t] ∧ t.target = id ∧
        (∀ x e, Stmt.lastAssigned? x t.actions = some e →
          ∃ w, e.eval r.values.get? = some w ∧ (r.step m).2.values.get? x = some w) ∧
        ∀ x, Stmt.lastAssigned? x t.actions = none →
          (r.step m).2.values.get? x = r.values.get? x) ∧
      (r.step m).2.steps = r.steps + 1 ∧
      ∀ ts, ts.Perm m.transitions → r.step { m with transitions := ts } = r.step m := by
  constructor
  · intro err herr
    exact MachineRun.step_eq_error herr
  · intro id hok
    have hperm := fun ts (hts : List.Perm ts m.transitions) => MachineRun.step_perm hts hok
    obtain ⟨t, ws, hfiring, hwrites⟩ := MachineRun.firing_of_step_ok hok
    have hstep := MachineRun.step_of_firing hfiring hwrites
    rw [hstep] at hok
    rw [hstep]
    have hlast := Valuation.lastAssigned?_of_writes hwrites
    refine ⟨⟨t, hfiring, Except.ok.inj hok, ?_, ?_⟩, rfl, hstep ▸ hperm⟩
    · intro x e he
      have hentry := hlast x
      rw [he, Option.map_some] at hentry
      obtain ⟨w, hw, heval⟩ := Option.map_eq_some_iff.1 hentry.symm
      refine ⟨w, heval.symm, ?_⟩
      rw [Table.get?_insertAll, hw]
      rfl
    · intro x hx
      have hentry := hlast x
      rw [hx, Option.map_none] at hentry
      rw [Table.get?_insertAll, Option.map_eq_none_iff.1 hentry.symm]
      rfl

/-- Assignments to several targets each, the second one to a name of the first one. -/
def exchangePaths : List Path :=
  [.ofNodes [.suspend 1, .branch (.var "go") true,
      .block [.assign ["a", "b"] (.var "b"),
        .assign ["b", "c"] (.binary .div (.var "a") (.var "d"))],
      .suspend 2],
    .ofNodes [.suspend 1, .branch (.var "go") false, .suspend 1]]

def exchangeMachine : Machine Expr :=
  .ofPaths ⟨"exchange", .empty, []⟩ [("a", 4), ("b", 4)] 2 "state" exchangePaths

def exchangeRun (divisor : Int64) : MachineRun where
  values := .ofList [("state", .int 1), ("go", .bool true), ("a", .int 3), ("b", .int 8),
    ("d", .int divisor)]
  steps := 4

theorem step_atomic_exchangeMachine :
    ((exchangeRun 0).step exchangeMachine).1 =
        .error (.undefined (.expr (.binary .div (.var "b") (.var "d")))) ∧
      ((exchangeRun 0).step exchangeMachine).2 = exchangeRun 0 ∧
      ((exchangeRun 2).step exchangeMachine).1 = .ok 2 ∧
      ((exchangeRun 2).step exchangeMachine).2.steps = 5 ∧
      ((exchangeRun 2).step exchangeMachine).2.values.get? "b" = some (.int 4) ∧
      ((exchangeRun 2).step exchangeMachine).2.values.get? "d" = some (.int 2) ∧
      (exchangeRun 2).step
          { exchangeMachine with transitions := exchangeMachine.transitions.reverse } =
        (exchangeRun 2).step exchangeMachine := by
  have hfails : ((exchangeRun 0).step exchangeMachine).1 =
      .error (.undefined (.expr (.binary .div (.var "b") (.var "d")))) := by
    rfl
  have hok : ((exchangeRun 2).step exchangeMachine).1 = .ok 2 := by
    rfl
  have hassigned : ((firing (exchangeRun 2).values exchangeMachine.transitions).toOption.map
      (·.map fun t => (Stmt.lastAssigned? "b" t.actions, Stmt.lastAssigned? "d" t.actions))) =
      some [(some (.binary .div (.var "b") (.var "d")), none)] := by
    decide
  have hunchanged := (step_atomic exchangeMachine (exchangeRun 0)).1 _ hfails
  obtain ⟨⟨t, hfiring, _, hassign, hkeep⟩, hsteps, hperm⟩ :=
    (step_atomic exchangeMachine (exchangeRun 2)).2 2 hok
  rw [hfiring] at hassigned
  simp only [Except.toOption, Option.map_some, List.map_cons, List.map_nil, Option.some.injEq,
    List.cons.injEq, Prod.mk.injEq, and_true] at hassigned
  obtain ⟨w, hw, hb⟩ := hassign "b" _ hassigned.1
  have hquotient : (Expr.binary .div (.var "b") (.var "d")).eval (exchangeRun 2).values.get? =
      some (.int 4) := by
    decide
  rw [hquotient] at hw
  cases hw
  exact ⟨hfails, hunchanged, hok, hsteps, hb, hkeep "d" hassigned.2,
    hperm _ (List.reverse_perm _)⟩

end Clockwork
