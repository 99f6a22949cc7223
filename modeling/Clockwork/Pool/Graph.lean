import Clockwork.Graph.OfBody
import Clockwork.Graph.Simplify
import Clockwork.Pool.Propagation

namespace Clockwork.Pool

def isInfiniteLoop (p : Pool) : Stmt ExprRef → Bool
  | .loop c _ => (((p.expr c).eval .empty).map Value.truth).getD false
  | _ => false

def declaration (p : Pool) : Stmt ExprRef → Except (ProcessError ExprRef) (String × Nat)
  | .register x w =>
    match p.get? w with
    | some (.int n) =>
      if 0 < n.toInt ∧ n.toInt < UInt32.size then .ok (x, n.toInt.toNat)
      else .error (.registerWidth x w)
    | _ => .error (.registerWidth x w)
  | s => .error (.notDeclaration s)

/-- The control flow of a body that declares registers and then loops forever. -/
def graphOf (p : Pool) (body : List (Stmt ExprRef)) :
    Except (ProcessError ExprRef) (Graph ExprRef) :=
  match body.getLast? with
  | none => .error .emptyBody
  | some last => do
    if !p.isInfiniteLoop last then
      throw (.noMainLoop last)
    let registers ← body.dropLast.mapM p.declaration
    let d ← (Draft.start registers).addStmt last
    return d.graph

def sweep (change? : Graph ExprRef → NodeId → StateM Pool (Option (Graph ExprRef)))
    (g : Graph ExprRef) : StateM Pool (Graph ExprRef) :=
  (List.range g.nodes.size).foldlM (fun g i => return (← change? g i).getD g) g

/-- Lets a block lead past the branch that follows it if the statements of the block decide the
branch. -/
def withShortcut? (g : Graph ExprRef) (i : NodeId) : StateM Pool (Option (Graph ExprRef)) :=
  match g.node? i with
  | some (.block ss (some branch)) =>
    match g.node? branch with
    | some (.branch c t f) => do
      let c ← reduce (← knownLiterals ss) c
      let taken? := (← get).truth? c
      return taken?.map fun taken => g.modify i (Node.withNext (if taken then t else f))
    | _ => return none
  | _ => return none

def withoutLiteralBranch? (g : Graph ExprRef) (i : NodeId) :
    StateM Pool (Option (Graph ExprRef)) := do
  match g.node? i with
  | some (.branch c t f) =>
    return ((← get).truth? c).bind fun taken =>
      let target := if taken then t else f
      if target = some i then none else some (g.splice i target)
  | _ => return none

def simplify (bypass : Bool) (g : Graph ExprRef) : StateM Pool (Graph ExprRef) := do
  let g := g.pruneEmptyBlocks.1
  let g ← if bypass then sweep withShortcut? g else pure g
  sweep withoutLiteralBranch? g

end Clockwork.Pool
