import Clockwork.Machine.OfPaths
import Clockwork.Pool.Propagation
import Clockwork.Pool.Vars

namespace Clockwork.Pool

def guardOf : ExprRef × Bool → StateM Pool ExprRef
  | (c, true) => return c
  | (c, false) => do fold (← add (.unary .not c))

def transition (stateVar : String) (path : Path ExprRef) : StateM Pool (Transition ExprRef) :=
  return {
    source := path.startId
    activation := (← addExpr (.binary .eq (.var stateVar) (stateLiteral path.startId)))
    guards := (← path.branches.mapM guardOf)
    effects := path.stmts
    target := path.endId
    move := .assign [stateVar] (← addExpr (stateLiteral path.endId)) }

/-- The width that a statement shows a variable to need: that of a literal assigned to it. -/
def literalWidth? (p : Pool) (x : String) (s : Stmt ExprRef) : Option Nat :=
  match s.singleTarget? with
  | some (y, v) =>
    match p.get? v with
    | some (.int n) => if y = x ∧ 0 ≤ n then some (bitWidth n.toInt.toNat) else none
    | _ => none
  | none => none

def widthOf (p : Pool) (transitions : List (Transition ExprRef)) (x : String) : Nat :=
  ((transitions.flatMap Transition.effects).filterMap (p.literalWidth? x)).foldl max 1

/-- Adds a variable that some guard reads to the registers, unless it is among the ports or the
registers already. -/
def promote (p : Pool) (process : ClockedProcess ExprRef)
    (transitions : List (Transition ExprRef)) (registers : Table String Nat) (x : String) :
    Table String Nat :=
  if process.isPort x || registers.contains x then registers
  else registers.insert x (p.widthOf transitions x)

/-- The state machine of a process whose paths are given. -/
def machineOf (process : ClockedProcess ExprRef) (declared : List (String × Nat))
    (suspensionCount : Nat) (stateVar : String) (paths : List (Path ExprRef)) :
    StateM Pool (Machine ExprRef) := do
  let _ ← addVar stateVar
  let transitions ← paths.mapM fun path => do transition stateVar (← propagatePath path)
  let registers := Table.empty.insert stateVar (bitWidth suspensionCount)
  let registers := declared.foldl (fun t (x, w) => t.insertIfNew x w) registers
  let p ← get
  let read := transitions.flatMap fun t => t.guards.flatMap p.distinctVars
  return {
    name := process.name
    stateVar
    transitions
    registers := read.foldl (p.promote process transitions) registers
    suspensionCount }

end Clockwork.Pool
