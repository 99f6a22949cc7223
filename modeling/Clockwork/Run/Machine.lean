import Clockwork.Machine.Basic
import Clockwork.Run.Basic

namespace Clockwork

/-- Whether all conditions hold; those after the first that does not are not evaluated. -/
def Valuation.holdAll (v : Valuation) : List Expr → Except RunError Bool
  | [] => .ok true
  | e :: rest => do
    if (← v.eval e).truth then v.holdAll rest else return false

def Transition.fires (v : Valuation) (t : Transition Expr) : Except RunError Bool :=
  v.holdAll (t.activation :: t.guards)

def firing (v : Valuation) :
    List (Transition Expr) → Except RunError (List (Transition Expr))
  | [] => .ok []
  | t :: rest => do
    let enabled ← t.fires v
    let rest ← firing v rest
    return if enabled then t :: rest else rest

/-- The assignments of actions in order, with the values that they have under one valuation. -/
def Valuation.writes (v : Valuation) : List (Stmt Expr) → Except RunError (List (String × Value))
  | [] => .ok []
  | .assign xs e :: rest => do
    let w ← v.eval e
    let rest ← v.writes rest
    return xs.map (·, w) ++ rest
  | _ :: rest => v.writes rest

structure MachineRun where
  values : Valuation
  steps : Nat
deriving DecidableEq, Repr

namespace MachineRun

def start : MachineRun := ⟨.empty, 0⟩

/-- The machine starts in state zero whatever the other registers hold. -/
def init (m : Machine Expr) (reset : Reset) : MachineRun :=
  ⟨(reset.values m.registers.entries).insert m.stateVar (.int 0), 0⟩

def set (r : MachineRun) (x : String) (v : Value) : MachineRun :=
  { r with values := r.values.insert x v }

/-- The state in the lowest 32 bits of the state variable. -/
def state (m : Machine Expr) (r : MachineRun) : Nat :=
  ((r.values.get? m.stateVar).map fun v => v.toInt64.toUInt64.toUInt32.toNat).getD 0

/-- Fires the one enabled transition and gives the state that it moves to. All actions read the
values from before the clock edge; a step that fails changes nothing. -/
def step (m : Machine Expr) (r : MachineRun) : Except RunError Nat × MachineRun :=
  match firing r.values m.transitions with
  | .error e => (.error e, r)
  | .ok [] => (.error (.blocked (r.state m)), r)
  | .ok [t] =>
    match r.values.writes t.actions with
    | .error e => (.error e, r)
    | .ok writes => (.ok t.target, ⟨r.values.insertAll writes, r.steps + 1⟩)
  | .ok enabled => (.error (.ambiguous enabled.length (r.state m)), r)

def obey (m : Machine Expr) (r : MachineRun) : Command → Option (Except RunError Nat) × MachineRun
  | .init reset => (none, init m reset)
  | .set x v => (none, r.set x v)
  | .step => let (result, r) := r.step m; (some result, r)

end MachineRun

end Clockwork
