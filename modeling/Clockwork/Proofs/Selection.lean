import Clockwork.Proofs.Passes
import Clockwork.Proofs.Runs
import Clockwork.Proofs.Transitions

namespace Clockwork
set_option autoImplicit true

variable {g : Graph} {leaf : Stmt Expr → Prop} {test : Expr → Prop} {v : Valuation}
  {ts : List (Transition Expr)} {m : Machine Expr} {r : MachineRun}

theorem firing_eq_nil (h : ∀ t ∈ ts, t.fires v = .ok false) : firing v ts = .ok [] := by
  induction ts with
  | nil => rfl
  | cons t ts ih =>
    rw [firing, h t List.mem_cons_self, ih fun u hu => h u (List.mem_cons_of_mem _ hu)]
    rfl

theorem firing_eq_singleton (hts : ts.Pairwise (Transition.Apart v)) (ht : t ∈ ts)
    (hfires : t.fires v = .ok true) : firing v ts = .ok [t] := by
  induction ts with
  | nil => cases ht
  | cons u ts ih =>
    obtain ⟨hu, hts⟩ := List.pairwise_cons.1 hts
    rw [firing]
    rcases List.mem_cons.1 ht with rfl | ht
    · rw [hfires, firing_eq_nil fun u hmem => (hu u hmem).1 hfires]
      rfl
    · have hidle : u.fires v = .ok false := (hu t ht).2 hfires
      rw [hidle, ih hts ht]
      rfl

theorem firing_eq_error (h : firing v ts = .error err) : ∃ t ∈ ts, t.fires v = .error err := by
  induction ts with
  | nil => cases h
  | cons t ts ih =>
    rw [firing] at h
    cases ht : t.fires v with
    | error e =>
      rw [ht] at h
      cases h
      exact ⟨t, List.mem_cons_self, ht⟩
    | ok b =>
      rw [ht] at h
      cases hts : firing v ts with
      | error e =>
        rw [hts] at h
        cases h
        obtain ⟨u, hu, hfires⟩ := ih hts
        exact ⟨u, List.mem_cons_of_mem _ hu, hfires⟩
      | ok us => rw [hts] at h; cases h

theorem fires_of_firing_ok (h : firing v ts = .ok us) (ht : t ∈ ts) : ∃ b, t.fires v = .ok b := by
  induction ts generalizing us with
  | nil => cases ht
  | cons u ts ih =>
    obtain ⟨b, hb, htail⟩ := Except.bind_eq_ok h
    obtain ⟨rest, hrest, _⟩ := Except.bind_eq_ok htail
    rcases List.mem_cons.1 ht with rfl | ht
    · exact ⟨b, hb⟩
    · exact ih hrest ht

theorem mem_of_firing_ok (h : firing v ts = .ok us) (ht : t ∈ ts) (hfires : t.fires v = .ok true) :
    t ∈ us := by
  induction ts generalizing us with
  | nil => cases ht
  | cons u ts ih =>
    obtain ⟨b, hb, htail⟩ := Except.bind_eq_ok h
    obtain ⟨rest, hrest, hus⟩ := Except.bind_eq_ok htail
    cases hus
    rcases List.mem_cons.1 ht with rfl | ht
    · rw [hfires] at hb
      cases hb
      exact List.mem_cons_self
    · cases b with
      | true => exact List.mem_cons_of_mem u (ih hrest ht)
      | false => exact ih hrest ht

theorem Valuation.writes_eq_error (h : v.writes ss = .error err) :
    ∃ culprit, err = .undefined culprit := by
  induction ss with
  | nil => cases h
  | cons s ss ih =>
    rcases s.eq_assign_or_writes with ⟨xs, e, rfl⟩ | hskip
    · rw [writes] at h
      cases he : v.eval e with
      | error e' =>
        rw [he] at h
        cases h
        exact ⟨_, Valuation.eval_eq_error he⟩
      | ok w =>
        rw [he] at h
        cases hss : v.writes ss with
        | error e' =>
          rw [hss] at h
          cases h
          exact ih hss
        | ok ws => rw [hss] at h; cases h
    · rw [hskip] at h
      exact ih h

/-- The move of a transition is the last of its writes. -/
theorem Path.writes_transition (p : Path) (x : String) :
    v.writes (p.transition x).actions =
      (v.writes p.stmts).map (· ++ [(x, .int (Int64.ofNat p.endId))]) := by
  have hmove : v.writes [.assign [x] (stateLiteral p.endId)] =
      .ok [(x, .int (Int64.ofNat p.endId))] :=
    Valuation.writes_assign rfl
  rw [Transition.actions, Path.transition, Valuation.writes_append, hmove]
  cases v.writes p.stmts <;> rfl

theorem Start.writes_transition (s : Start) (x : String) (route : List Waypoint) :
    v.writes (s.transition x route).actions = .ok us ↔
      ∃ ws, v.writes (Waypoint.effects .empty route) = .ok ws ∧
        us = ws ++ [(x, .int (Int64.ofNat (s.transition x route).target))] := by
  rw [← effects_transition s x, Start.transition, Path.writes_transition]
  exact Except.map_eq_ok

namespace MachineRun

theorem step_of_firing (hfiring : firing r.values m.transitions = .ok [t])
    (hwrites : r.values.writes t.actions = .ok ws) :
    r.step m = (.ok t.target, ⟨r.values.insertAll ws, r.steps + 1⟩) := by
  rw [step, hfiring]
  simp only [hwrites]

theorem firing_of_step_ok {id : Nat} (h : (r.step m).1 = .ok id) :
    ∃ t ws, firing r.values m.transitions = .ok [t] ∧ r.values.writes t.actions = .ok ws := by
  rw [step] at h
  split at h
  · cases h
  · cases h
  · next t hfiring =>
    split at h
    · cases h
    · next ws hws => exact ⟨t, ws, hfiring, hws⟩
  · cases h

theorem step_eq_error {e : RunError} (h : (r.step m).1 = .error e) : (r.step m).2 = r := by
  rw [step] at h ⊢
  split
  · rfl
  · rfl
  · next t hfiring =>
    rw [hfiring] at h
    split
    · rfl
    · next ws hws =>
      simp only [hws] at h
      cases h
  · rfl

end MachineRun

/-- A machine with a transition for each path of a graph. -/
structure Machine.Realizes (m : Machine Expr) (g : Graph) : Prop where
  built : g.WellBuilt (fun _ => True) (fun _ => True)
  count : m.suspensionCount = g.suspensionCount
  transitions : ∃ depth paths, g.paths depth = .ok paths ∧
    m.transitions = paths.map fun p => p.propagate.transition m.stateVar

theorem ClockedProcess.compile_realizes {p : ClockedProcess Expr} (h : p.compile options = .ok m) :
    ∃ flow, p.flow = .ok flow ∧ m.Realizes (flow.graph.simplify options.bypass) := by
  obtain ⟨flow, paths, hflow, _, hpaths, rfl⟩ := ClockedProcess.compile_eq_ok h
  obtain ⟨expansion, _, hgraph, _⟩ := ClockedProcess.flow_eq_ok hflow
  have hbuilt := (Graph.wellBuilt_shape hgraph).within
    (Graph.simplify_within options.bypass flow.graph)
  exact ⟨flow, hflow, hbuilt, rfl, _, paths, hpaths, rfl⟩

/-- From a start on, the transition of an open route is the only one that fires. -/
theorem Machine.Realizes.routes (hm : m.Realizes g) (hcount : m.suspensionCount < 2 ^ 64)
    (hs : (s, i) ∈ g.starts) :
    ∃ depth routes, g.suffixes depth ((g.node? i).bind Node.next?) = .ok routes ∧
      ∀ v : Valuation, v.get? m.stateVar = some (.int (Int64.ofNat s.stateId)) →
        ∀ route ∈ routes, s.transition m.stateVar route ∈ m.transitions ∧
          (s.transition m.stateVar route).fires v = v.holdAll (Waypoint.guards .empty route) ∧
          (v.holdAll (Waypoint.guards .empty route) = .ok true →
            firing v m.transitions = .ok [s.transition m.stateVar route]) := by
  obtain ⟨depth, paths, hpaths, hts⟩ := hm.transitions
  obtain ⟨routes, hroutes, hmem⟩ := Graph.routes_of_start hpaths hs
  refine ⟨depth, routes, hroutes, ?_⟩
  intro v hv route hroute
  have hfires := (s.fires_transition route hv).trans (if_pos rfl)
  have hmem' := hmem m.stateVar route hroute
  rw [← hts] at hmem'
  refine ⟨hmem', hfires, ?_⟩
  intro hopen
  have hapart := hm.built.transitions_apart (hm.count ▸ hcount) hpaths m.stateVar v
  rw [← hts] at hapart
  exact firing_eq_singleton hapart hmem' (hfires.trans hopen)

namespace MachineRun

/-- The state variable holds the state of a start. -/
def AtStart (g : Graph) (m : Machine Expr) (r : MachineRun) : Prop :=
  ∃ s i, (s, i) ∈ g.starts ∧ r.values.get? m.stateVar = some (.int (Int64.ofNat s.stateId))

theorem get?_insertAll_move (v : Valuation) (ws : List (String × Value)) (x : String) (w : Value) :
    (v.insertAll (ws ++ [(x, w)])).get? x = some w := by
  rw [Table.get?_insertAll, List.reverse_append]
  simp [entryOf?]

theorem step_cases (hm : m.Realizes g) (hcount : m.suspensionCount < 2 ^ 64)
    (hr : r.AtStart g m) :
    (∃ i id next, g.node? i = some (.suspend id next) ∧ (r.step m).1 = .ok id ∧
      (r.step m).2.values.get? m.stateVar = some (.int (Int64.ofNat id))) ∨
    ∃ culprit, r.step m = (.error (.undefined culprit), r) := by
  obtain ⟨s, i, hs, hstate⟩ := hr
  obtain ⟨depth, routes, hroutes, hselect⟩ := hm.routes hcount hs
  obtain ⟨route, hroute, hopen⟩ := Graph.suffixes_complete hroutes .empty r.values
  obtain ⟨hmem, hfires, hfiring⟩ := hselect r.values hstate route hroute
  cases hall : firing r.values m.transitions with
  | error err =>
    obtain ⟨t, _, ht⟩ := firing_eq_error hall
    obtain ⟨culprit, rfl⟩ := Valuation.holdAll_eq_error ht
    exact .inr ⟨culprit, by rw [step, hall]⟩
  | ok us =>
    obtain ⟨b, hb⟩ := fires_of_firing_ok hall hmem
    rw [hfires] at hb
    cases b with
    | false => exact (hopen hb).elim
    | true =>
      cases hwrites : r.values.writes (s.transition m.stateVar route).actions with
      | error err =>
        obtain ⟨culprit, rfl⟩ := Valuation.writes_eq_error hwrites
        refine .inr ⟨culprit, ?_⟩
        rw [step, hfiring hb]
        simp only [hwrites]
      | ok us =>
        obtain ⟨ws, _, rfl⟩ := (s.writes_transition m.stateVar route).1 hwrites
        obtain ⟨j, id, next, hj, hlast⟩ := Graph.suffixes_last hroutes route hroute
        rw [step_of_firing (hfiring hb) hwrites, s.target_transition m.stateVar hlast]
        exact .inl ⟨j, id, next, hj, rfl, get?_insertAll_move ..⟩

theorem atStart_init (g : Graph) (m : Machine Expr) (reset : Reset) :
    (init m reset).AtStart g m := by
  refine ⟨.head, g.head, Graph.mem_starts.2 (.inl ⟨rfl, rfl⟩), ?_⟩
  rw [init, Table.get?_insert, if_pos rfl]
  rfl

theorem AtStart.step (hm : m.Realizes g) (hcount : m.suspensionCount < 2 ^ 64)
    (hr : r.AtStart g m) : (r.step m).2.AtStart g m := by
  rcases step_cases hm hcount hr with ⟨i, id, next, hi, _, hstate⟩ | ⟨culprit, hstep⟩
  · exact ⟨.suspension id, i, Graph.mem_starts.2 (.inr ⟨id, next, rfl, hi⟩), hstate⟩
  · rw [hstep]
    exact hr

end MachineRun

/-- The command does not set a variable. -/
def Command.Spares (x : String) : Command → Prop
  | .set y _ => y ≠ x
  | .init _ | .step => True

theorem MachineRun.atStart_run (hm : m.Realizes g) (hcount : m.suspensionCount < 2 ^ 64)
    (reset : Reset) (hcs : ∀ c ∈ cs, Command.Spares m.stateVar c) :
    (run m reset cs).2.AtStart g m := by
  apply Command.obeyAll_invariant ?_ (atStart_init g m reset) hcs
  intro r c hc hr
  cases c with
  | init reset => exact atStart_init g m reset
  | set x v =>
    obtain ⟨s, i, hs, hstate⟩ := hr
    refine ⟨s, i, hs, ?_⟩
    rw [obey, set, Table.get?_insert, if_neg (Ne.symm hc), hstate]
  | step => exact hr.step hm hcount

/-- Every step of a compiled machine moves to a suspension and stores its id in the state variable,
unless something is undefined: no step finds two transitions enabled, or none. -/
theorem compile_deterministic {p : ClockedProcess Expr} (h : p.compile options = .ok m)
    (hcount : m.suspensionCount < 2 ^ 64) (reset : Reset) (cs : List Command)
    (hcs : ∀ c ∈ cs, Command.Spares m.stateVar c) :
    let r := (MachineRun.run m reset cs).2
    (∃ id, (r.step m).1 = .ok id ∧ 1 ≤ id ∧ id ≤ m.suspensionCount ∧
      (r.step m).2.values.get? m.stateVar = some (.int (Int64.ofNat id))) ∨
    ∃ culprit, (r.step m).1 = .error (.undefined culprit) := by
  obtain ⟨flow, _, hm⟩ := ClockedProcess.compile_realizes h
  have hstart := MachineRun.atStart_run hm hcount reset hcs
  rcases MachineRun.step_cases hm hcount hstart with ⟨i, id, next, hi, hid, hstate⟩ | ⟨c, hstep⟩
  · obtain ⟨hpos, hle⟩ := hm.built.id_range i id next hi
    exact .inl ⟨id, hid, hpos, hm.count ▸ hle, hstate⟩
  · exact .inr ⟨c, congrArg Prod.fst hstep⟩

/-- A process that branches on a port of any type and changes the state variable itself. -/
def gatedProcess : ClockedProcess Expr where
  name := "gated"
  ports := Table.empty.insert "a" .input
  body := [.register "n" (.int 4),
    .loop (.bool true)
      [.branch (.var "a") [.suspend] [.update "yield_state" .add (.var "n"), .wait (.int 3)]]]

theorem compile_deterministic_gatedProcess :
    ∃ m, gatedProcess.compile .default = .ok m ∧ m.suspensionCount = 3 ∧
      (let cs := [.set "a" (.int 5), .step, .set "a" (.bool false)]
        let r := (MachineRun.run m .zero cs).2
        (∀ c ∈ cs, Command.Spares m.stateVar c) ∧ (r.step m).1.toOption = some 2 ∧
        ((∃ id, (r.step m).1 = .ok id ∧ 1 ≤ id ∧ id ≤ m.suspensionCount ∧
            (r.step m).2.values.get? m.stateVar = some (.int (Int64.ofNat id))) ∨
          ∃ culprit, (r.step m).1 = .error (.undefined culprit))) := by
  have heval : ((gatedProcess.compile .default).toOption.map fun m =>
      (m.suspensionCount, m.stateVar, ((MachineRun.run m .zero
        [.set "a" (.int 5), .step, .set "a" (.bool false)]).2.step m).1.toOption)) =
      some (3, "yield_state", some 2) := by
    decide +kernel
  obtain ⟨m, hm, hm'⟩ := Option.map_eq_some_iff.1 heval
  rw [Except.toOption_eq_some] at hm
  simp only [Prod.mk.injEq] at hm'
  obtain ⟨hcount, hvar, hstep⟩ := hm'
  have hspares : ∀ c ∈ [.set "a" (.int 5), .step, .set "a" (.bool false)],
      Command.Spares m.stateVar c := by
    rw [hvar]
    simp [Command.Spares]
  have hlt : m.suspensionCount < 2 ^ 64 := by
    rw [hcount]
    decide
  exact ⟨m, hm, hcount, hspares, hstep, compile_deterministic hm hlt .zero _ hspares⟩

end Clockwork
