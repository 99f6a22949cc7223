import Clockwork.Machine.Basic
import Clockwork.Propagation

namespace Clockwork

def guardOf : Expr × Bool → Expr
  | (c, true) => c
  | (c, false) => (Expr.unary .not c).fold

def stateLiteral (id : Nat) : Expr :=
  .int (Int64.ofNat id)

/-- The transition of a path: it fires in the state where the path starts if control would follow
the path, has the effects of the path, and moves to the state where the path ends. -/
def Path.transition (stateVar : String) (p : Path) : Transition Expr where
  source := p.startId
  activation := .binary .eq (.var stateVar) (stateLiteral p.startId)
  guards := p.branches.map guardOf
  effects := p.stmts
  target := p.endId
  move := .assign [stateVar] (stateLiteral p.endId)

/-- The width that a statement shows a variable to need: that of a literal assigned to it. -/
def Stmt.literalWidth? (x : String) (s : Stmt Expr) : Option Nat :=
  match s.singleTarget? with
  | some (y, .int n) => if y = x ∧ 0 ≤ n then some (bitWidth n.toInt.toNat) else none
  | _ => none

/-- The width of the widest literal that a transition assigns to a variable, at least one. -/
def widthOf (transitions : List (Transition Expr)) (x : String) : Nat :=
  ((transitions.flatMap Transition.effects).filterMap (Stmt.literalWidth? x)).foldl max 1

/-- Adds a variable that some guard reads to the registers, unless it is among the ports or the
registers already: its value has to last until the clock edge. -/
def promote (p : ClockedProcess Expr) (transitions : List (Transition Expr))
    (registers : Table String Nat) (x : String) : Table String Nat :=
  if p.isPort x || registers.contains x then registers
  else registers.insert x (widthOf transitions x)

/-- The state machine of a process whose paths are given. Its registers are the state variable, the
declared ones and those that guards read. -/
def Machine.ofPaths (p : ClockedProcess Expr) (declared : List (String × Nat))
    (suspensionCount : Nat) (stateVar : String) (paths : List Path) : Machine Expr :=
  let transitions := paths.map fun path => path.propagate.transition stateVar
  let registers := Table.empty.insert stateVar (bitWidth suspensionCount)
  let registers := declared.foldl (fun t (x, w) => t.insertIfNew x w) registers
  let read := transitions.flatMap fun t => t.guards.flatMap Expr.vars
  { name := p.name
    stateVar
    transitions
    registers := read.foldl (promote p transitions) registers
    suspensionCount }

end Clockwork
