import Clockwork.Proofs.Bypass
import Clockwork.Proofs.Refinement
import Clockwork.Proofs.Registers

namespace Clockwork
set_option autoImplicit true

variable {g h : Graph} {m n : Machine Expr} {r q : MachineRun} {id : Nat}

theorem Table.get?_insertAll_mono [DecidableEq κ] {t u : Table κ α}
    (h : ∀ x w, t.get? x = some w → u.get? x = some w) {ws : List (κ × α)}
    (hx : (t.insertAll ws).get? x = some w) : (u.insertAll ws).get? x = some w := by
  rw [get?_insertAll] at hx ⊢
  rcases Option.or_eq_some_iff.1 hx with hws | ⟨hws, ht⟩
  · rw [hws]
    rfl
  · rw [hws, h x w ht]
    rfl

/-- A step that succeeds follows an open route from the current start. -/
theorem MachineRun.step_eq_ok (hm : m.Realizes g) (hs : (s, i) ∈ g.starts)
    (hstate : r.values.get? m.stateVar = some (.int (Int64.ofNat s.stateId)))
    (hok : (r.step m).1 = .ok id) :
    ∃ route ws, g.Route ((g.node? i).bind Node.next?) route ∧
      route.getLast? = some (.suspend id) ∧
      r.values.holdAll (Waypoint.guards .empty route) = .ok true ∧
      r.values.writes (Waypoint.effects .empty route) = .ok ws ∧
      r.step m = (.ok id,
        ⟨r.values.insertAll (ws ++ [(m.stateVar, .int (Int64.ofNat id))]), r.steps + 1⟩) := by
  obtain ⟨depth, paths, hpaths, hts⟩ := hm.transitions
  obtain ⟨routes, hroutes, hmem⟩ := Graph.routes_of_start hpaths hs
  obtain ⟨route, hroute, hopen⟩ := Graph.suffixes_complete hroutes .empty r.values
  have ht := hmem m.stateVar route hroute
  rw [← hts] at ht
  have hfires := (s.fires_transition route hstate).trans (if_pos rfl)
  obtain ⟨t, us, hfiring, hwrites⟩ := firing_of_step_ok hok
  obtain ⟨b, hb⟩ := fires_of_firing_ok hfiring ht
  cases b with
  | false => exact (hopen (hfires.symm.trans hb)).elim
  | true =>
    cases List.mem_singleton.1 (mem_of_firing_ok hfiring ht hb)
    obtain ⟨ws, hws, rfl⟩ := (s.writes_transition m.stateVar route).1 hwrites
    obtain ⟨_, id', _, _, hlast⟩ := Graph.suffixes_last hroutes route hroute
    have hstep := step_of_firing hfiring hwrites
    rw [s.target_transition m.stateVar hlast] at hstep
    rw [hstep] at hok
    cases hok
    exact ⟨route, ws, (Graph.mem_suffixes hroutes).1 hroute, hlast, hfires.symm.trans hb, hws,
      hstep⟩

/-- The transition of an open route is taken. -/
theorem MachineRun.step_of_route (hm : m.Realizes g) (hcount : m.suspensionCount < 2 ^ 64)
    (hs : (s, i) ∈ g.starts)
    (hstate : r.values.get? m.stateVar = some (.int (Int64.ofNat s.stateId)))
    (hroute : g.Route ((g.node? i).bind Node.next?) route)
    (hlast : route.getLast? = some (.suspend id))
    (hopen : r.values.holdAll (Waypoint.guards .empty route) = .ok true)
    (hws : r.values.writes (Waypoint.effects .empty route) = .ok ws) :
    r.step m = (.ok id,
      ⟨r.values.insertAll (ws ++ [(m.stateVar, .int (Int64.ofNat id))]), r.steps + 1⟩) := by
  obtain ⟨depth, routes, hroutes, hselect⟩ := hm.routes hcount hs
  have hmem := (Graph.mem_suffixes hroutes).2 hroute
  have hfiring := (hselect r.values hstate route hmem).2.2 hopen
  have hwrites := (s.writes_transition m.stateVar route).2 ⟨ws, hws, rfl⟩
  have hstep := step_of_firing hfiring hwrites
  rw [s.target_transition m.stateVar hlast] at hstep
  exact hstep

/-- Two machines with the same state variable, the first one with the paths of a graph in which
blocks lead past branches of the second one's graph. -/
structure Machine.Prunes (m n : Machine Expr) (g h : Graph) : Prop where
  left : m.Realizes g
  right : n.Realizes h
  bypasses : g.Bypasses h
  sound : g.Sound
  sound' : h.Sound
  stateVar : m.stateVar = n.stateVar
  fits : n.suspensionCount < 2 ^ 64
  registers : ∀ x ∈ m.registers.keys, x ∈ n.registers.keys

namespace MachineRun

/-- The second run knows all that the first one knows, and the first one waits in a state of its
machine. -/
structure Shadows (g : Graph) (m : Machine Expr) (r q : MachineRun) : Prop where
  start : r.AtStart g m
  steps : q.steps = r.steps
  values : ∀ x w, r.values.get? x = some w → q.values.get? x = some w

theorem Shadows.init (hmn : m.Prunes n g h) :
    Shadows g m (.init m .zero) (.init n .zero) where
  start := atStart_init g m .zero
  steps := rfl
  values x w hx := by
    rw [MachineRun.init, Table.get?_insert] at hx ⊢
    rw [hmn.stateVar] at hx
    split at hx
    · next he => rw [if_pos he, ← hx]
    · next hne =>
      rw [if_neg hne]
      rw [Reset.get?_zero] at hx ⊢
      split at hx
      · next hmem =>
        have hmem' : x ∈ n.registers.entries.map Prod.fst := hmn.registers x hmem
        rw [if_pos hmem', ← hx]
      · cases hx

theorem Shadows.set (hrq : Shadows g m r q) (hx : x ≠ m.stateVar) (w : Value) :
    Shadows g m (r.set x w) (q.set x w) where
  start := by
    obtain ⟨s, i, hs, hstate⟩ := hrq.start
    refine ⟨s, i, hs, ?_⟩
    rw [MachineRun.set, Table.get?_insert, if_neg hx.symm, hstate]
  steps := hrq.steps
  values y a hy := by
    rw [MachineRun.set, Table.get?_insert] at hy ⊢
    split at hy
    · next he => rw [if_pos he, hy]
    · next hne => rw [if_neg hne, hrq.values y a hy]

theorem Shadows.step (hmn : m.Prunes n g h) (hrq : Shadows g m r q) (hok : (r.step m).1 = .ok id) :
    (q.step n).1 = .ok id ∧ Shadows g m (r.step m).2 (q.step n).2 := by
  have hcount : m.suspensionCount < 2 ^ 64 := by
    rw [hmn.left.count, hmn.bypasses.count, ← hmn.right.count]
    exact hmn.fits
  have hnext := hrq.start.step hmn.left hcount
  obtain ⟨s, i, hs, hstate⟩ := hrq.start
  obtain ⟨route, ws, hroute, hlast, hopen, hws, hr⟩ := step_eq_ok hmn.left hs hstate hok
  obtain ⟨route', hroute', hspells, hlast'⟩ := hmn.bypasses.exists_route hroute
  obtain ⟨hguards, _, heffects⟩ := hspells.holdAll .empty q.values
  -- The other graph is left along the same edge.
  have hexit := hmn.bypasses.exit_iff.1 (hmn.sound.exit_iff.2 ⟨i, hs, rfl⟩)
  obtain ⟨j, hs', hedge⟩ := hmn.sound'.exit_iff.1 hexit
  rw [← hedge] at hroute'
  rw [hmn.stateVar] at hstate
  have hq := step_of_route hmn.right hmn.fits hs' (hrq.values _ _ hstate) hroute'
    (hlast'.trans hlast) (hguards.trans (Valuation.holdAll_mono hrq.values hopen))
    (heffects ▸ Valuation.writes_mono hrq.values hws)
  rw [hr] at hnext ⊢
  rw [hq]
  refine ⟨rfl, hnext, congrArg (· + 1) hrq.steps, ?_⟩
  intro x w hx
  rw [← hmn.stateVar]
  exact Table.get?_insertAll_mono hrq.values hx

end MachineRun

/-- A command that leaves the state variable alone; a reset is to zero. -/
def Command.Drives (stateVar : String) : Command → Prop
  | .set x _ => x ≠ stateVar
  | .init reset => reset = .zero
  | .step => True

theorem MachineRun.Shadows.run (hmn : m.Prunes n g h) (cs : List Command)
    (hcs : ∀ c ∈ cs, c.Drives m.stateVar)
    (hok : ∀ result ∈ (MachineRun.run m .zero cs).1, ∃ id, result = .ok id) :
    (MachineRun.run n .zero cs).1 = (MachineRun.run m .zero cs).1 ∧
      Shadows g m (MachineRun.run m .zero cs).2 (MachineRun.run n .zero cs).2 := by
  apply Command.obeyAll_simulation (Command.Drives m.stateVar) ?_ (Shadows.init hmn) hcs hok
  intro r q c hc hrq hok
  cases c with
  | init reset =>
    cases hc
    exact ⟨rfl, Shadows.init hmn⟩
  | set x w => exact ⟨rfl, hrq.set hc w⟩
  | step =>
    obtain ⟨id, hid⟩ := hok _ rfl
    obtain ⟨hresult, hshadows⟩ := hrq.step hmn hid
    exact ⟨congrArg some (hresult.trans hid.symm), hshadows⟩

/-- A guard of a path with shortcuts is one of the path without them. -/
theorem Graph.Bypasses.guards (hgh : g.Bypasses h) (hg : g.Sound) (hh : h.Sound)
    (hps : g.paths depth = .ok ps) (hqs : h.paths depth = .ok qs) (y : String) :
    ∀ t ∈ ps.map fun p => p.propagate.transition y,
      ∃ u ∈ qs.map fun p => p.propagate.transition y, t.guards ⊆ u.guards := by
  intro t ht
  obtain ⟨p, hp, rfl⟩ := List.mem_map.1 ht
  obtain ⟨s, edge, route, hexit, hroute, rfl⟩ := (hg.mem_paths hps).1 hp
  obtain ⟨route', hroute', hspells, _⟩ := hgh.exists_route hroute
  have hmem := (hh.mem_paths hqs).2 ⟨s, edge, route', hgh.exit_iff.1 hexit, hroute', rfl⟩
  refine ⟨_, List.mem_map_of_mem hmem, ?_⟩
  have hguards := (hspells.holdAll .empty .empty).2.1
  rw [← s.guards_transition y, ← s.guards_transition y] at hguards
  exact hguards

theorem ClockedProcess.isPort_of_compile {p : ClockedProcess Expr} (h : p.compile options = .ok m) :
    p.isPort options.stateVar = false := by
  obtain ⟨flow', hsimplified, _⟩ := Except.bind_eq_ok h
  obtain ⟨flow, _, htail⟩ := Except.bind_eq_ok hsimplified
  split at htail
  · cases htail
  · next hfree =>
    simp only [Bool.or_eq_true, not_or, Bool.not_eq_true] at hfree
    exact hfree.1

theorem ClockedProcess.compile_prunes {p : ClockedProcess Expr} {options : Options}
    (h : p.compile { options with bypass := false } = .ok n) (hcount : n.suspensionCount < 2 ^ 64) :
    ∃ m g g', p.compile { options with bypass := true } = .ok m ∧ m.Prunes n g g' ∧
      m.stateVar = options.stateVar := by
  obtain ⟨flow, qs, hflow, hregister, hqs, rfl⟩ := ClockedProcess.compile_eq_ok h
  have hport := p.isPort_of_compile h
  dsimp only at hregister hqs hport
  obtain ⟨expansion, _, hgraph, _⟩ := ClockedProcess.flow_eq_ok hflow
  have hbuilt := Graph.sound_ofBody hgraph
  have hbypasses := flow.graph.bypasses_simplify
  have hsound (bypass : Bool) : (flow.graph.simplify bypass).Sound := by
    rw [Graph.simplify_eq_afterPasses]
    exact hbuilt.afterPasses _
  obtain ⟨ps, hps⟩ := hbypasses.paths (hsound true) (hsound false) hqs
  have hm : p.compile { options with bypass := true } =
      .ok ((flow.simplify true).machine p options.stateVar ps) := by
    have hcompile : p.compile { options with bypass := true } = _ :=
      ClockedProcess.compile_eq hflow hport hregister
    dsimp only at hcompile
    rw [hcompile, hps]
    rfl
  obtain ⟨flow₁, hflow₁, hleft⟩ := ClockedProcess.compile_realizes hm
  cases hflow.symm.trans hflow₁
  obtain ⟨flow₂, hflow₂, hright⟩ := ClockedProcess.compile_realizes h
  cases hflow.symm.trans hflow₂
  refine ⟨_, _, _, hm, ⟨hleft, hright, hbypasses, hsound true, hsound false, rfl, hcount, ?_⟩, rfl⟩
  intro x hx
  have hregisters : (flow.simplify true).registers = (flow.simplify false).registers :=
    congrArg (· ++ flow.counters) hbypasses.registers
  rw [Flow.machine, Machine.mem_keys_ofPaths, hregisters] at hx
  apply (Machine.mem_keys_ofPaths ..).2
  refine hx.imp_right (Or.imp_right ?_)
  rintro ⟨hx, t, ht, hguard⟩
  obtain ⟨u, hu, hsub⟩ :=
    hbypasses.guards (hsound true) (hsound false) hps hqs options.stateVar t ht
  obtain ⟨e, he, hvar⟩ := List.mem_flatMap.1 hguard
  exact ⟨hx, u, hu, List.mem_flatMap.2 ⟨e, hsub he, hvar⟩⟩

/-- Shortcuts past decided branches only take transitions away that can never fire: as long as the
steps with shortcuts succeed, those without have the same results. -/
theorem compile_bypass {p : ClockedProcess Expr} {options : Options}
    (h : p.compile { options with bypass := false } = .ok n) (hcount : n.suspensionCount < 2 ^ 64) :
    ∃ m, p.compile { options with bypass := true } = .ok m ∧
      ∀ cs : List Command, (∀ c ∈ cs, c.Drives options.stateVar) →
        (∀ result ∈ (MachineRun.run m .zero cs).1, ∃ id, result = .ok id) →
        (MachineRun.run n .zero cs).1 = (MachineRun.run m .zero cs).1 ∧
          ∀ x w, (MachineRun.run m .zero cs).2.values.get? x = some w →
            (MachineRun.run n .zero cs).2.values.get? x = some w := by
  obtain ⟨m, g, g', hm, hprunes, hvar⟩ := p.compile_prunes h hcount
  refine ⟨m, hm, ?_⟩
  intro cs hcs hok
  obtain ⟨hresults, hshadows⟩ := MachineRun.Shadows.run hprunes cs (hvar ▸ hcs) hok
  exact ⟨hresults, hshadows.values⟩

/-- A process with a branch that the assignment before it decides. -/
def settledProcess : ClockedProcess Expr where
  name := "settled"
  ports := (Table.empty.insert "a" .input).insert "b" .output
  body := [.loop (.bool true)
    [.assign ["mode"] (.int 1),
      .branch (.binary .eq (.var "mode") (.int 1))
        [.branch (.var "a") [.suspend] [], .update "n" .add (.var "mode"), .suspend]
        [.assign ["b"] (.var "mode"), .suspend]]]

def settledCommands : List Command :=
  [.set "a" (.bool true), .set "n" (.bool true), .step, .step, .set "a" (.int 0), .step]

theorem compile_bypass_settledProcess :
    ∃ m n, settledProcess.compile ⟨"state", 9, false⟩ = .ok n ∧
      settledProcess.compile ⟨"state", 9, true⟩ = .ok m ∧
      n.transitions.length = 10 ∧ m.transitions.length = 7 ∧
      (∀ c ∈ settledCommands, c.Drives "state") ∧
      (MachineRun.run m .zero settledCommands).1.map Except.toOption = [some 1, some 2, some 2] ∧
      (MachineRun.run n .zero settledCommands).1 = (MachineRun.run m .zero settledCommands).1 ∧
      ∀ x w, (MachineRun.run m .zero settledCommands).2.values.get? x = some w →
        (MachineRun.run n .zero settledCommands).2.values.get? x = some w := by
  have hwithout : ((settledProcess.compile ⟨"state", 9, false⟩).toOption.map fun n =>
      (n.transitions.length, n.suspensionCount)) = some (10, 3) := by
    decide +kernel
  have hwith : ((settledProcess.compile ⟨"state", 9, true⟩).toOption.map fun m =>
      (m.transitions.length, (MachineRun.run m .zero settledCommands).1.map Except.toOption)) =
      some (7, [some 1, some 2, some 2]) := by
    decide +kernel
  obtain ⟨n, hn, hn'⟩ := Option.map_eq_some_iff.1 hwithout
  obtain ⟨m, hm, hm'⟩ := Option.map_eq_some_iff.1 hwith
  rw [Except.toOption_eq_some] at hn hm
  simp only [Prod.mk.injEq] at hn' hm'
  obtain ⟨hlength, hcount⟩ := hn'
  obtain ⟨hlength', hresults⟩ := hm'
  have hlt : n.suspensionCount < 2 ^ 64 := by
    rw [hcount]
    decide
  have hdrives : ∀ c ∈ settledCommands, c.Drives "state" := by
    simp [settledCommands, Command.Drives]
  have hok : ∀ result ∈ (MachineRun.run m .zero settledCommands).1, ∃ id, result = .ok id := by
    intro result hresult
    have hmem := List.mem_map_of_mem (f := Except.toOption) hresult
    rw [hresults] at hmem
    cases result with
    | error e => simp [Except.toOption] at hmem
    | ok id => exact ⟨id, rfl⟩
  obtain ⟨m', hm', hruns⟩ := @compile_bypass n settledProcess ⟨"state", 9, true⟩ hn hlt
  cases hm.symm.trans hm'
  obtain ⟨hsame, hvalues⟩ := hruns settledCommands hdrives hok
  exact ⟨m, n, hn, hm, hlength, hlength', hdrives, hresults, hsame, hvalues⟩

end Clockwork
