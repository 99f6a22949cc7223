import Clockwork.Graph.Basic
import Clockwork.ProcessError

namespace Clockwork

/-- A graph under construction and the block to which the next statements are added. -/
structure Draft (ε : Type := Expr) where
  graph : Graph ε
  current : NodeId
deriving DecidableEq, Repr

variable {ε : Type}

namespace Draft

def fresh (d : Draft ε) : NodeId :=
  d.graph.nodes.size

def push (d : Draft ε) (n : Node ε) : Draft ε :=
  { d with graph.nodes := d.graph.nodes.push (some n) }

def modify (d : Draft ε) (i : NodeId) (f : Node ε → Node ε) : Draft ε :=
  { d with graph := d.graph.modify i f }

def connect (d : Draft ε) (source target : NodeId) : Draft ε :=
  d.modify source (Node.withNext (some target))

def startBlock (d : Draft ε) : Draft ε :=
  { d.push (.block [] none) with current := d.fresh }

/-- Ends the current block in a branch and starts a block on its true edge. -/
def startBranch (d : Draft ε) (cond : ε) : Draft ε :=
  ((d.push (.branch cond (some (d.fresh + 1)) none)).connect d.current d.fresh).startBlock

def startFalse (d : Draft ε) (branch : NodeId) : Draft ε :=
  (d.modify branch (Node.withFalse (some d.fresh))).startBlock

/-- Ends the current block in a suspension with the next id and starts a block after it. -/
def suspend (d : Draft ε) : Draft ε :=
  let id := d.graph.suspensionCount + 1
  let d := (d.push (.suspend id (some (d.fresh + 1)))).connect d.current d.fresh
  { d with graph.suspensionCount := id }.startBlock

def append (d : Draft ε) (s : Stmt ε) : Draft ε :=
  d.modify d.current (Node.append s)

def start (registers : List (String × Nat)) : Draft ε where
  graph := ⟨#[some (.head (some 1)), some (.block [] none)], 0, registers⟩
  current := 1

end Draft

mutual

/-- Adds the control flow of a statement after the current block. -/
def Draft.addStmt (d : Draft ε) : Stmt ε → Except (ProcessError ε) (Draft ε)
  | .loop c body => do
    let branch := d.fresh
    let d ← (d.startBranch c).addStmts body
    return (d.connect d.current branch).startFalse branch
  | .branch c ts [] => do
    let branch := d.fresh
    let d ← (d.startBranch c).addStmts ts
    return (d.connect d.current d.fresh).startFalse branch
  | .branch c ts (e :: es) => do
    let branch := d.fresh
    let d ← (d.startBranch c).addStmts ts
    let endOfTrue := d.current
    let d ← (d.startFalse branch).addStmt e
    let d ← d.addStmts es
    return ((d.connect endOfTrue d.fresh).connect d.current d.fresh).startBlock
  | .suspend => return d.suspend
  | .assign [x] v => return d.append (.assign [x] v)
  | .assign xs v => throw (.targetCount (.assign xs v))
  | .update x op v => return d.append (.update x op v)
  | .expr v => return d.append (.expr v)
  | .wait n => throw (.unexpandedWait (.wait n))
  | .register x _ => throw (.lateRegister x)

def Draft.addStmts (d : Draft ε) : List (Stmt ε) → Except (ProcessError ε) (Draft ε)
  | [] => return d
  | s :: rest => do (← d.addStmt s).addStmts rest

end

/-- Whether a statement is a loop that is entered whatever the variables hold. -/
def Stmt.isInfiniteLoop : Stmt Expr → Bool
  | .loop c _ => ((c.eval .empty).map Value.truth).getD false
  | _ => false

/-- The name and the width of a declaration. Widths have at most 32 bits. -/
def Stmt.declaration : Stmt Expr → Except ProcessError (String × Nat)
  | .register x (.int w) =>
    if 0 < w.toInt ∧ w.toInt < UInt32.size then .ok (x, w.toInt.toNat)
    else .error (.registerWidth x (.int w))
  | .register x w => .error (.registerWidth x w)
  | s => .error (.notDeclaration s)

/-- The control flow of a body that declares registers and then loops forever. Suspensions are
numbered from one in source order. -/
def Graph.ofBody (body : List (Stmt Expr)) : Except ProcessError Graph :=
  match body.getLast? with
  | none => .error .emptyBody
  | some last => do
    if !last.isInfiniteLoop then
      throw (.noMainLoop last)
    let registers ← body.dropLast.mapM Stmt.declaration
    let d ← (Draft.start registers).addStmt last
    return d.graph

end Clockwork
