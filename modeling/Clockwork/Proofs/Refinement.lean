import Clockwork.Proofs.Routes
import Clockwork.Proofs.Selection
import Clockwork.Proofs.Simplification
import Clockwork.Proofs.WaitExpansion

namespace Clockwork
set_option autoImplicit true

variable {g : Graph} {Γ : Typing} {u v : Valuation} {m : Machine Expr} {r : GraphRun}
  {q : MachineRun} {id : Nat}

theorem Valuation.holdAll_mono (h : ∀ x w, v.get? x = some w → u.get? x = some w)
    (hv : v.holdAll es = .ok b) : u.holdAll es = .ok b := by
  induction es with
  | nil => exact hv
  | cons e es ih =>
    obtain ⟨w, hw, _⟩ := Except.bind_eq_ok hv
    have hv' : (e.eval v.get?).map Value.truth = some w.truth := by
      rw [eval_eq_ok.1 hw]
      rfl
    have hu' : (e.eval u.get?).map Value.truth = some w.truth := by
      rw [Expr.eval_mono h (eval_eq_ok.1 hw)]
      rfl
    rw [holdAll_of_some hv'] at hv
    rw [holdAll_of_some hu']
    split
    · next htruth =>
      rw [if_pos htruth] at hv
      exact ih hv
    · next htruth =>
      rw [if_neg htruth] at hv
      exact hv

theorem Valuation.writes_mono (h : ∀ x w, v.get? x = some w → u.get? x = some w)
    (hv : v.writes ss = .ok ws) : u.writes ss = .ok ws := by
  induction ss generalizing ws with
  | nil => exact hv
  | cons s ss ih =>
    rcases s.eq_assign_or_writes with ⟨xs, e, rfl⟩ | hskip
    · obtain ⟨w, hw, htail⟩ := Except.bind_eq_ok hv
      obtain ⟨rest, hrest, hws⟩ := Except.bind_eq_ok htail
      cases hws
      have hw' : u.eval e = .ok w := eval_eq_ok.2 (Expr.eval_mono h (eval_eq_ok.1 hw))
      rw [writes, hw', ih hrest]
      rfl
    · rw [hskip] at hv ⊢
      exact ih hv

theorem Reset.get?_zero (registers : List (String × Nat)) (x : String) :
    (Reset.zero.values registers).get? x =
      if x ∈ registers.map Prod.fst then some (.int 0) else none := by
  have hkeys : (registers.map fun entry => (entry.1, Value.int 0)).reverse.map Prod.fst =
      (registers.map Prod.fst).reverse := by
    rw [List.map_reverse, List.map_map]
    rfl
  rw [Reset.values, Table.get?_ofList]
  split
  · next hx =>
    have hmem : x ∈ (registers.map fun entry => (entry.1, Value.int 0)).reverse.map Prod.fst := by
      rw [hkeys]
      exact List.mem_reverse.2 hx
    obtain ⟨w, hw⟩ := Option.isSome_iff_exists.1 ((isSome_entryOf? x _).2 hmem)
    obtain ⟨entry, _, he⟩ := List.mem_map.1 (List.mem_reverse.1 (entryOf?_mem hw))
    cases he
    exact hw
  · next hx =>
    apply entryOf?_eq_none
    rw [hkeys]
    exact fun hmem => hx (List.mem_reverse.1 hmem)

theorem mem_keys_promote {p : ClockedProcess Expr} (hx : x ∈ registers.keys) :
    x ∈ (promote p ts registers y).keys := by
  unfold promote
  split
  · exact hx
  · rw [Table.keys_insert]
    exact mem_addNew.2 (.inl hx)

theorem Machine.mem_registers_ofPaths {p : ClockedProcess Expr} {declared : List (String × Nat)}
    (hx : x ∈ declared.map Prod.fst) :
    x ∈ (Machine.ofPaths p declared n y paths).registers.keys := by
  have hpromote {ts : List (Transition Expr)} {registers : Table String Nat} (read : List String)
      (hx : x ∈ registers.keys) : x ∈ (read.foldl (promote p ts) registers).keys := by
    induction read generalizing registers with
    | nil => exact hx
    | cons y read ih => exact ih (mem_keys_promote hx)
  exact hpromote _ (Table.mem_keys_foldl_insertIfNew _ |>.2 (.inr hx))

/-- A machine with the paths of a graph whose types fit and which leaves the state variable
alone. -/
structure Machine.Implements (m : Machine Expr) (Γ : Typing) (g : Graph) : Prop where
  realizes : m.Realizes g
  count : m.suspensionCount < 2 ^ 64
  typed : g.WellBuilt (Stmt.Checks Γ) fun c => (c.type? Γ).isSome
  unused : g.WellBuilt (fun s => m.stateVar ∉ s.names) fun _ => True
  registers : ∀ x ∈ g.registers.map Prod.fst, x ∈ m.registers.keys

theorem GraphRun.step_eq_ok (h : (r.step g).1 = .ok id) :
    ∃ v j, g.walk visitLimit r.values ((g.node? r.position).bind Node.next?) = (v, .ok (j, id)) ∧
      r.step g = (.ok id, ⟨v, j, r.steps + 1⟩) := by
  unfold step at h ⊢
  split at h
  · next v j _ heq =>
    cases h
    exact ⟨v, j, heq, rfl⟩
  · cases h

namespace MachineRun

/-- The machine waits in the state of the graph's position. It knows the values of the graph; a
name that has no value in the graph still has its first value in the machine. -/
structure Mirrors (m : Machine Expr) (Γ : Typing) (g : Graph) (r : GraphRun) (q : MachineRun) :
    Prop where
  typed : Env.Respects r.values.get? Γ
  unused : r.values.get? m.stateVar = none
  values : ∀ x, x ≠ m.stateVar →
    q.values.get? x = (r.values.get? x).or ((init m .zero).values.get? x)
  state : ∃ s, (s, r.position) ∈ g.starts ∧
    q.values.get? m.stateVar = some (.int (Int64.ofNat s.stateId))

theorem Mirrors.bound (h : Mirrors m Γ g r q) (x : String) (w : Value)
    (hx : r.values.get? x = some w) : q.values.get? x = some w := by
  have hne : x ≠ m.stateVar := by
    intro he
    rw [he, h.unused] at hx
    cases hx
  rw [h.values x hne, hx]
  rfl

theorem Mirrors.init (hm : m.Implements Γ g) :
    Mirrors m Γ g (.init g .zero) (.init m .zero) where
  typed x w hx := by
    rw [GraphRun.init, Reset.get?_zero] at hx
    split at hx
    · next hmem =>
      obtain ⟨_, htype, _⟩ := hm.typed.declared x hmem
      cases hx
      exact htype.symm
    · cases hx
  unused := by
    rw [GraphRun.init, Reset.get?_zero, if_neg]
    intro hmem
    obtain ⟨w, hnames⟩ := hm.unused.declared m.stateVar hmem
    exact hnames List.mem_cons_self
  values x hx := by
    rw [GraphRun.init, Reset.get?_zero]
    split
    · next hmem =>
      have hkeys : x ∈ m.registers.entries.map Prod.fst := hm.registers x hmem
      rw [MachineRun.init, Table.get?_insert, if_neg hx, Reset.get?_zero, if_pos hkeys]
      rfl
    · rfl
  state := by
    refine ⟨.head, Graph.mem_starts.2 (.inl ⟨rfl, rfl⟩), ?_⟩
    rw [MachineRun.init, Table.get?_insert, if_pos rfl]
    rfl

theorem Mirrors.set (h : Mirrors m Γ g r q) (hx : x ≠ m.stateVar) (hw : w.type = Γ x) :
    Mirrors m Γ g (r.set x w) (q.set x w) where
  typed y a hy := by
    rw [GraphRun.set, Table.get?_insert] at hy
    split at hy
    · next he =>
      cases hy
      rw [he, hw]
    · exact h.typed y a hy
  unused := by
    rw [GraphRun.set, Table.get?_insert, if_neg hx.symm, h.unused]
  values y hy := by
    rw [GraphRun.set, MachineRun.set, Table.get?_insert, Table.get?_insert]
    split
    · rfl
    · exact h.values y hy
  state := by
    obtain ⟨s, hs, hstate⟩ := h.state
    refine ⟨s, hs, ?_⟩
    rw [MachineRun.set, Table.get?_insert, if_neg hx.symm, hstate]

/-- A step of the graph that succeeds is the one transition of the machine that fires. -/
theorem Mirrors.step (hm : m.Implements Γ g) (h : Mirrors m Γ g r q)
    (hok : (r.step g).1 = .ok id) :
    (q.step m).1 = .ok id ∧ Mirrors m Γ g (r.step g).2 (q.step m).2 := by
  obtain ⟨v, j, hwalk, hr⟩ := GraphRun.step_eq_ok hok
  obtain ⟨s, hs, hstate⟩ := h.state
  obtain ⟨depth, routes, hroutes, hselect⟩ := hm.realizes.routes hm.count hs
  obtain ⟨route, hroute, hleads⟩ :=
    hm.typed.route_of_walk h.typed hroutes (.empty Γ r.values) hwalk
  obtain ⟨ws, hws, hv⟩ := hleads.effects
  -- What is defined in the graph has the same value in the machine, which may know more names.
  have hopen := Valuation.holdAll_mono h.bound hleads.isOpen
  have hfiring := (hselect q.values hstate route hroute).2.2 hopen
  have hactions := (s.writes_transition m.stateVar route).2
    ⟨ws, Valuation.writes_mono h.bound hws, rfl⟩
  have htarget := s.target_transition m.stateVar hleads.last
  have hq := step_of_firing hfiring hactions
  rw [htarget] at hq
  rw [hr, hq]
  obtain ⟨next, hj⟩ := Graph.node?_of_walk hwalk
  refine ⟨rfl, ?_, ?_, ?_, ?_⟩
  · have htyped := hm.typed.walk_invariant (P := fun v => Env.Respects v.get? Γ)
      (fun s v ws hs hws => hs.respects hws) h.typed visitLimit
      ((g.node? r.position).bind Node.next?)
    rw [hwalk] at htyped
    exact htyped
  · have hunused := hm.unused.walk_invariant (P := fun v => v.get? m.stateVar = none)
      (fun s v ws hs hws hv => (Stmt.get?_assignments hs hws).trans hv) h.unused visitLimit
      ((g.node? r.position).bind Node.next?)
    rw [hwalk] at hunused
    exact hunused
  · intro x hx
    have hmove : x ∉ [(m.stateVar, Value.int (Int64.ofNat id))].map Prod.fst := by
      simpa using hx
    rw [Table.insertAll_append, Table.get?_insertAll_of_not_mem _ hmove, Table.get?_insertAll,
      h.values x hx, hv, Table.get?_insertAll, Option.or_assoc]
  · exact ⟨.suspension id, Graph.mem_starts.2 (.inr ⟨id, next, rfl, hj⟩),
      get?_insertAll_move ..⟩

end MachineRun

/-- A command that leaves the state variable alone and keeps to the types; a reset is to zero. -/
def Command.Fits (stateVar : String) (Γ : Typing) : Command → Prop
  | .set x v => x ≠ stateVar ∧ v.type = Γ x
  | .init reset => reset = .zero
  | .step => True

theorem MachineRun.Mirrors.run (hm : m.Implements Γ g) (cs : List Command)
    (hcs : ∀ c ∈ cs, Command.Fits m.stateVar Γ c)
    (hok : ∀ result ∈ (GraphRun.run g .zero cs).1, ∃ id, result = .ok id) :
    (MachineRun.run m .zero cs).1 = (GraphRun.run g .zero cs).1 ∧
      Mirrors m Γ g (GraphRun.run g .zero cs).2 (MachineRun.run m .zero cs).2 := by
  apply Command.obeyAll_simulation (Command.Fits m.stateVar Γ) ?_ (Mirrors.init hm) hcs hok
  intro r q c hc h hok
  cases c with
  | init reset =>
    cases hc
    exact ⟨rfl, Mirrors.init hm⟩
  | set x v => exact ⟨rfl, h.set hc.1 hc.2⟩
  | step =>
    obtain ⟨id, hid⟩ := hok _ rfl
    obtain ⟨hresult, hmirrors⟩ := h.step hm hid
    exact ⟨congrArg some (hresult.trans hid.symm), hmirrors⟩

theorem ClockedProcess.compile_implements {p : ClockedProcess Expr} {flow : Flow}
    (h : p.compile options = .ok m) (hflow : p.flow = .ok flow) (hvar : options.stateVar ∉ p.names)
    (hcount : m.suspensionCount < 2 ^ 64) (hbody : Stmt.ListWellTyped Γ p.body)
    (hcounters : ∀ x ∈ flow.counters.map Prod.fst, Γ x = .int) :
    m.Implements Γ (flow.graph.simplify options.bypass) := by
  obtain ⟨flow', hflow', hrealizes⟩ := ClockedProcess.compile_realizes h
  cases hflow.symm.trans hflow'
  obtain ⟨flow', paths, hflow', hregisters, _, rfl⟩ := ClockedProcess.compile_eq_ok h
  cases hflow.symm.trans hflow'
  obtain ⟨expansion, hexpand, hgraph, heq⟩ := ClockedProcess.flow_eq_ok hflow
  have hwithin := Graph.simplify_within options.bypass flow.graph
  have htyped : Stmt.ListWellTyped Γ expansion.body := by
    apply ClockedProcess.everywhere_expandWaits trivial hbody hexpand
    intro x hx n
    exact countingLoop_wellTyped (hcounters x (heq ▸ hx)) n
  have hunused : Stmt.ListEverywhere (fun s => options.stateVar ∉ s.names) (fun _ => True)
      expansion.body := by
    have hnames : options.stateVar ∉ Stmt.listNames p.body :=
      fun hx => hvar (mem_addAllNew.2 (.inr hx))
    apply ClockedProcess.everywhere_expandWaits List.not_mem_nil
      (Stmt.listEverywhere_of_not_mem_names p.body hnames) hexpand
    intro x hx n
    apply Stmt.listEverywhere_of_not_mem_names
    apply countingLoop_names
    intro he
    apply hregisters
    rw [Flow.registers, List.map_append, heq, ← he]
    exact List.mem_append_right _ hx
  refine ⟨hrealizes, hcount, (Graph.wellBuilt_ofBody hgraph htyped).within hwithin,
    (Graph.wellBuilt_ofBody hgraph hunused).within hwithin, ?_⟩
  intro x hx
  apply Machine.mem_registers_ofPaths
  rw [Flow.registers, List.map_append]
  exact List.mem_append_left _ hx

/-- The compiled machine follows every run of the process as it is written, as long as the steps of
the process succeed. -/
theorem compile_refines {p : ClockedProcess Expr} {flow : Flow} (h : p.compile options = .ok m)
    (hflow : p.flow = .ok flow) (hvar : options.stateVar ∉ p.names)
    (hcount : m.suspensionCount < 2 ^ 64) (hbody : Stmt.ListWellTyped Γ p.body)
    (hcounters : ∀ x ∈ flow.counters.map Prod.fst, Γ x = .int) (cs : List Command)
    (hcs : ∀ c ∈ cs, Command.Fits m.stateVar Γ c)
    (hok : ∀ result ∈ (GraphRun.run flow.graph .zero cs).1, ∃ id, result = .ok id) :
    let source := GraphRun.run flow.graph .zero cs
    let target := MachineRun.run m .zero cs
    target.1 = source.1 ∧
      (∀ x v, source.2.values.get? x = some v → target.2.values.get? x = some v) ∧
      ∀ x, source.2.values.get? x = none → x ≠ m.stateVar →
        target.2.values.get? x = (MachineRun.init m .zero).values.get? x := by
  have himplements := ClockedProcess.compile_implements h hflow hvar hcount hbody hcounters
  obtain ⟨expansion, _, hgraph, _⟩ := ClockedProcess.flow_eq_ok hflow
  have hsimplified := Graph.run_simplify hgraph options.bypass hok
  rw [← hsimplified] at hok ⊢
  obtain ⟨hresults, hmirrors⟩ := MachineRun.Mirrors.run himplements cs hcs hok
  refine ⟨hresults, hmirrors.bound, ?_⟩
  intro x hx hne
  rw [hmirrors.values x hne, hx]
  rfl

/-- A process that counts while it is ready and waits after each count. -/
def countingProcess : ClockedProcess Expr where
  name := "counting"
  ports := Table.empty.insert "ready" .input
  body := [.register "n" (.int 4),
    .loop (.bool true)
      [.branch (.binary .and (.var "ready") (.binary .lt (.var "n") (.int 9)))
        [.update "n" .add (.int 1), .wait (.int 2)] [.suspend]]]

def countingTypes : Typing := fun x => if x = "ready" then .bool else .int

def countingCommands : List Command :=
  [.set "ready" (.bool true), .step, .step, .set "ready" (.bool false), .step]

theorem compile_refines_countingProcess :
    ∃ m flow, countingProcess.compile .default = .ok m ∧ countingProcess.flow = .ok flow ∧
      flow.counters = [("__repeat0", 1)] ∧
      Stmt.ListWellTyped countingTypes countingProcess.body ∧
      (let source := GraphRun.run flow.graph .zero countingCommands
        let target := MachineRun.run m .zero countingCommands
        source.1.map Except.toOption = [some 1, some 2, some 3] ∧
          source.2.values.get? "n" = some (.int 1) ∧ target.1 = source.1 ∧
          (∀ x v, source.2.values.get? x = some v → target.2.values.get? x = some v) ∧
          ∀ x, source.2.values.get? x = none → x ≠ m.stateVar →
            target.2.values.get? x = (MachineRun.init m .zero).values.get? x) := by
  have hmachine : ((countingProcess.compile .default).toOption.map fun m =>
      (m.suspensionCount, m.stateVar)) = some (3, "yield_state") := by
    decide +kernel
  have hsource : (countingProcess.flow.toOption.map fun flow =>
      (flow.counters, (GraphRun.run flow.graph .zero countingCommands).1.map Except.toOption,
        (GraphRun.run flow.graph .zero countingCommands).2.values.get? "n")) =
      some ([("__repeat0", 1)], [some 1, some 2, some 3], some (.int 1)) := by
    decide +kernel
  obtain ⟨m, hm, hm'⟩ := Option.map_eq_some_iff.1 hmachine
  obtain ⟨flow, hflow, hflow'⟩ := Option.map_eq_some_iff.1 hsource
  rw [Except.toOption_eq_some] at hm hflow
  simp only [Prod.mk.injEq] at hm' hflow'
  obtain ⟨hcount, hvar⟩ := hm'
  obtain ⟨hcounters, hresults, hn⟩ := hflow'
  have hnames : Options.default.stateVar ∉ countingProcess.names := by
    decide +kernel
  have hlt : m.suspensionCount < 2 ^ 64 := by
    rw [hcount]
    decide
  have htyped : Stmt.ListWellTyped countingTypes countingProcess.body := by
    simp [countingProcess, countingTypes, Stmt.ListWellTyped, Stmt.ListEverywhere,
      Stmt.Everywhere, Stmt.Checks, Expr.type?, BinaryOp.type?]
  have hinduction : ∀ x ∈ flow.counters.map Prod.fst, countingTypes x = .int := by
    rw [hcounters]
    decide
  have hfits : ∀ c ∈ countingCommands, Command.Fits m.stateVar countingTypes c := by
    rw [hvar]
    simp [countingCommands, Command.Fits, countingTypes, Value.type]
  have hok : ∀ result ∈ (GraphRun.run flow.graph .zero countingCommands).1,
      ∃ id, result = .ok id := by
    intro result hresult
    have hmem := List.mem_map_of_mem (f := Except.toOption) hresult
    rw [hresults] at hmem
    cases result with
    | error e => simp [Except.toOption] at hmem
    | ok id => exact ⟨id, rfl⟩
  exact ⟨m, flow, hm, hflow, hcounters, htyped, hresults, hn,
    compile_refines hm hflow hnames hlt htyped hinduction countingCommands hfits hok⟩

end Clockwork
