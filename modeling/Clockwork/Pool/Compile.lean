import Clockwork.Compile
import Clockwork.Pool.Graph
import Clockwork.Pool.Machine
import Clockwork.Pool.Waits

namespace Clockwork.Pool

def machine (p : Pool) (shared : Machine ExprRef) : Machine Expr :=
  let exprs := p.exprs
  shared.map fun r => exprs[r.index]?.getD (.bool false)

def flow (process : ClockedProcess ExprRef) : Attempt (Flow ExprRef) := do
  let expansion ← expandProcess process
  return ⟨← (← get).graphOf expansion.body, expansion.counters⟩

def simplifiedFlow (process : ClockedProcess ExprRef) (options : Options) :
    Attempt (Flow ExprRef) := do
  let flow ← flow process
  let _ ← addName options.stateVar
  if process.isPort options.stateVar || options.stateVar ∈ flow.registers.map Prod.fst then
    throw (.stateVarUsed options.stateVar)
  return { flow with graph := (← simplify options.bypass flow.graph) }

/-- The state machine of a process. Its errors keep their expressions in the pool. -/
def attempt (process : ClockedProcess ExprRef) (options : Options) :
    Attempt (Machine ExprRef) := do
  let flow ← simplifiedFlow process options
  let paths ← flow.graph.paths options.maxPathDepth
  machineOf process flow.registers flow.graph.suspensionCount options.stateVar paths

/-- Compiles a process with shared expressions: every pass looks them up in the pool and adds to
it. -/
def compile (process : ClockedProcess ExprRef) (options : Options) :
    StateM Pool (Except ProcessError (Machine ExprRef)) := do
  match ← (attempt process options).run with
  | .error e => return .error (e.map (← get).expr)
  | .ok machine => return .ok machine

end Clockwork.Pool
