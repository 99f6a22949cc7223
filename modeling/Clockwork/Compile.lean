import Clockwork.Dot
import Clockwork.Graph.OfBody
import Clockwork.Graph.Paths
import Clockwork.Graph.Simplify
import Clockwork.Machine.OfPaths
import Clockwork.Waits

namespace Clockwork

structure Options where
  /-- The variable that holds the current state. -/
  stateVar : String
  /-- The number of nodes that a path may have after its start. -/
  maxPathDepth : Nat
  /-- Whether blocks lead past the branches that they decide. -/
  bypass : Bool
deriving DecidableEq, Repr

def Options.default : Options := ⟨"yield_state", 1024, true⟩

/-- A process on its way to a machine: its control flow and the counters of its waits. -/
structure Flow (ε : Type := Expr) where
  graph : Graph ε
  counters : List (String × Nat)
deriving DecidableEq, Repr

def Flow.registers {ε : Type} (f : Flow ε) : List (String × Nat) :=
  f.graph.registers ++ f.counters

def Flow.simplify (bypass : Bool) (f : Flow) : Flow :=
  { f with graph := f.graph.simplify bypass }

def ClockedProcess.flow (p : ClockedProcess Expr) : Except ProcessError Flow := do
  let expansion ← p.expandWaits
  return ⟨← Graph.ofBody expansion.body, expansion.counters⟩

/-- The simplified control flow of a process that leaves the state variable free. -/
def ClockedProcess.simplifiedFlow (p : ClockedProcess Expr) (options : Options) :
    Except ProcessError Flow := do
  let flow ← p.flow
  if p.isPort options.stateVar || options.stateVar ∈ flow.registers.map Prod.fst then
    throw (.stateVarUsed options.stateVar)
  return flow.simplify options.bypass

def Flow.machine (f : Flow) (p : ClockedProcess Expr) (stateVar : String) (paths : List Path) :
    Machine Expr :=
  .ofPaths p f.registers f.graph.suspensionCount stateVar paths

/-- The state machine of a process: one transition for each path between two clock edges. -/
def ClockedProcess.compile (p : ClockedProcess Expr) (options : Options) :
    Except ProcessError (Machine Expr) := do
  let flow ← p.simplifiedFlow options
  let paths ← flow.graph.paths options.maxPathDepth
  return flow.machine p options.stateVar paths

/-- The drawing that shows why a process has no machine: its control flow, if some path is too
long. -/
def ClockedProcess.failureDot? (p : ClockedProcess Expr) (options : Options) :
    Option String :=
  match p.simplifiedFlow options with
  | .error _ => none
  | .ok flow =>
    match flow.graph.paths options.maxPathDepth with
    | .error (.pathTooLong ..) => some flow.graph.dot
    | _ => none

end Clockwork
