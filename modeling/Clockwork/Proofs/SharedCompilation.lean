import Clockwork.Pool.Compile
import Clockwork.Proofs.SharedFlow
import Clockwork.Proofs.SharedMachine

namespace Clockwork
set_option autoImplicit true

namespace Pool

variable {p q : Pool} {process : ClockedProcess ExprRef} {process' : ClockedProcess Expr}

/-- A control flow stands for another one, with the same counters. -/
def FlowDenotes (p : Pool) (f : Flow ExprRef) (f' : Flow) : Prop :=
  f.graph.map p.expr? = f'.graph.map some ∧ f.counters = f'.counters

theorem FlowDenotes.registers_eq {f : Flow ExprRef} {f' : Flow} (h : p.FlowDenotes f f') :
    f.registers = f'.registers := by
  obtain ⟨hgraph, hcounters⟩ := h
  obtain ⟨_, _, hregisters⟩ := Graph.mk.inj hgraph
  rw [Flow.registers, Flow.registers, hregisters, hcounters]

theorem matches_flow (hp : p.WellFormed) (hprocess : process.map p.expr? = process'.map some) :
    (flow process).Matches p process'.flow FlowDenotes := by
  apply (matches_expandProcess hp hprocess).bind
  rintro q expansion expansion' hq ⟨hbody, hcounters⟩
  apply Attempt.Matches.get
  apply Attempt.Matches.bindAgrees hq.wellFormed (agrees_graphOf hq.wellFormed hbody)
  intro g g' hg
  exact .pure hq.wellFormed ⟨hg, hcounters⟩

theorem matches_simplifiedFlow (hp : p.WellFormed)
    (hprocess : process.map p.expr? = process'.map some) (options : Options) :
    (simplifiedFlow process options).Matches p (process'.simplifiedFlow options) FlowDenotes := by
  obtain ⟨_, hports, _⟩ := ClockedProcess.mk.inj hprocess
  apply (matches_flow hp hprocess).bind
  intro q f f' hq hf
  apply Attempt.Matches.bindAdds (adds_addName hq.wellFormed options.stateVar)
  intro q₁ _ hq₁ _
  have hgraph := Graph.map_eq_of_imp (fun _ _ => hq₁.expr? hq.wellFormed) hf.1
  rw [hf.registers_eq, ClockedProcess.isPort, ClockedProcess.isPort, hports]
  split
  · exact .throw hq₁.wellFormed rfl
  · apply Attempt.Matches.bindAdds (adds_simplify hq₁.wellFormed hgraph options.bypass)
    intro q₂ g hq₂ hg
    exact .pure hq₂.wellFormed ⟨hg, hf.2⟩

theorem matches_attempt (hp : p.WellFormed) (hprocess : process.map p.expr? = process'.map some)
    (options : Options) :
    (attempt process options).Matches p (process'.compile options) fun q m m' =>
      m.map q.expr? = m'.map some := by
  obtain ⟨hname, hports, _⟩ := ClockedProcess.mk.inj hprocess
  apply (matches_simplifiedFlow hp hprocess options).bind
  intro q f f' hq hf
  obtain ⟨_, hcount, _⟩ := Graph.mk.inj hf.1
  have hpaths : q.Agrees (fun ps ps' => ps.map (Path.map q.expr?) = ps'.map (Path.map some))
      (f.graph.paths options.maxPathDepth) (f'.graph.paths options.maxPathDepth) := by
    apply Agrees.of_relabel
    rw [Graph.paths_map, hf.1, Graph.paths_map]
  apply Attempt.Matches.bindAgrees hq.wellFormed hpaths
  intro ps ps' hps
  have hmachine := adds_machineOf hq.wellFormed hname hports hps f'.registers
    f'.graph.suspensionCount options.stateVar
  rw [hf.registers_eq, hcount]
  exact ⟨hmachine.grows, .ok hmachine.result⟩

/-- The outcome of a compilation, with every reference replaced by what it stands for. -/
def outcome (p : Pool) (result : Except ProcessError (Machine ExprRef)) :
    Except ProcessError (Machine (Option Expr)) :=
  result.map (Machine.map p.expr?)

/-- Compiling in a pool gives what compiling outside of it gives. -/
theorem adds_compile (hp : p.WellFormed) (hprocess : process.map p.expr? = process'.map some)
    (options : Options) :
    Adds (compile process options) p fun q result =>
      q.outcome result = (process'.compile options).map (Machine.map some) := by
  apply Adds.bind (matches_attempt hp hprocess options)
  intro q result hq hagrees
  generalize process'.compile options = tree at hagrees ⊢
  cases hagrees with
  | ok h => exact .pure hq.wellFormed (congrArg Except.ok h)
  | @error e e' h =>
    have hread : e.map q.expr = e' :=
      (ProcessError.map_eq_of_imp expr_of_expr? h).trans e'.map_id
    apply Adds.get
    exact .pure hq.wellFormed (congrArg Except.error hread)

end Pool

end Clockwork
