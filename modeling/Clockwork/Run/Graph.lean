import Clockwork.Graph.Basic
import Clockwork.Run.Basic

namespace Clockwork

/-- The assignments that a statement of a block makes. An update reads its target before its
operand. -/
def Stmt.assignments (v : Valuation) : Stmt Expr → Except RunError (List (String × Value))
  | .assign xs e => do
    let w ← v.eval e
    return xs.map (·, w)
  | .update x op e =>
    match v.get? x with
    | none => .error (.undefined (.name x))
    | some current => do
      match op.apply current (← v.eval e) with
      | none => .error (.undefined (.stmt (.update x op e)))
      | some w => return [(x, w)]
  | _ => .ok []

/-- Executes statements one after the other up to the first failure. -/
def Stmt.execList (v : Valuation) : List (Stmt Expr) → Valuation × Option RunError
  | [] => (v, none)
  | s :: rest =>
    match s.assignments v with
    | .ok writes => Stmt.execList (v.insertAll writes) rest
    | .error e => (v, some e)

def visitLimit : Nat := 100000

/-- Follows an edge to the next suspension over at most `budget` nodes. The values are those up to
the suspension or the failure. -/
def Graph.walk (g : Graph) :
    (budget : Nat) → Valuation → Option NodeId → Valuation × Except RunError (NodeId × Nat)
  | 0, v, _ => (v, .error (.runaway visitLimit))
  | _ + 1, v, none => (v, .error .ended)
  | budget + 1, v, some i =>
    match g.node? i with
    | none => (v, .error .ended)
    | some (.head next) => g.walk budget v next
    | some (.block ss next) =>
      match Stmt.execList v ss with
      | (v, none) => g.walk budget v next
      | (v, some e) => (v, .error e)
    | some (.branch c t f) =>
      match v.eval c with
      | .error e => (v, .error e)
      | .ok w => g.walk budget v (if w.truth then t else f)
    | some (.suspend id _) => (v, .ok (i, id))

/-- A simulation of a graph, waiting in the head or a suspension. -/
structure GraphRun where
  values : Valuation
  position : NodeId
  steps : Nat
deriving DecidableEq, Repr

namespace GraphRun

def start (g : Graph) : GraphRun := ⟨.empty, g.head, 0⟩

def init (g : Graph) (reset : Reset) : GraphRun := ⟨reset.values g.registers, g.head, 0⟩

def set (r : GraphRun) (x : String) (v : Value) : GraphRun :=
  { r with values := r.values.insert x v }

/-- Runs to the next suspension and gives its id. A step that fails keeps the assignments made on
the way and the position. -/
def step (g : Graph) (r : GraphRun) : Except RunError Nat × GraphRun :=
  match g.walk visitLimit r.values ((g.node? r.position).bind Node.next?) with
  | (v, .ok (i, id)) => (.ok id, ⟨v, i, r.steps + 1⟩)
  | (v, .error e) => (.error e, { r with values := v })

def obey (g : Graph) (r : GraphRun) : Command → Option (Except RunError Nat) × GraphRun
  | .init reset => (none, init g reset)
  | .set x v => (none, r.set x v)
  | .step => let (result, r) := r.step g; (some result, r)

end GraphRun

end Clockwork
