import Clockwork.ClockedProcess

namespace Clockwork

/-- A transition of a state machine: it fires at a clock edge if the activation and all guards
hold, and moves from one state to another. -/
structure Transition (ε : Type) where
  source : Nat
  activation : ε
  guards : List ε
  effects : List (Stmt ε)
  target : Nat
  /-- Stores the target in the state variable. -/
  move : Stmt ε
deriving DecidableEq, Repr

/-- A synchronous state machine. State zero is the one after a reset. -/
structure Machine (ε : Type) where
  name : String
  stateVar : String
  transitions : List (Transition ε)
  /-- The widths of the variables that keep their value from one clock edge to the next. -/
  registers : Table String Nat
  suspensionCount : Nat
deriving DecidableEq, Repr

variable {ε δ : Type}

def Transition.actions (t : Transition ε) : List (Stmt ε) :=
  t.effects ++ [t.move]

def Transition.condition (t : Transition Expr) : Expr :=
  t.guards.foldl (.binary .and) t.activation

def Transition.text (t : Transition Expr) : String :=
  "state " ++ toString t.source ++ " -> " ++ toString t.target ++ ":\n  when " ++
    t.activation.text ++
    String.join (t.guards.map fun g => "\n  guard " ++ g.text) ++
    String.join (t.actions.map fun s => "\n  " ++ s.text)

def Transition.map (f : ε → δ) (t : Transition ε) : Transition δ where
  source := t.source
  activation := f t.activation
  guards := t.guards.map f
  effects := Stmt.mapList f t.effects
  target := t.target
  move := t.move.map f

namespace Machine

def transitionsFrom (m : Machine ε) (id : Nat) : List (Transition ε) :=
  m.transitions.filter fun t => t.source = id

def text (m : Machine Expr) : String :=
  "fsm " ++ m.name ++
    String.join (m.registers.entries.map fun (x, w) =>
      "\nreg " ++ x ++ ": bv<" ++ toString w ++ ">") ++
    String.join (m.transitions.map fun t => "\n" ++ t.text)

def map (f : ε → δ) (m : Machine ε) : Machine δ where
  name := m.name
  stateVar := m.stateVar
  transitions := m.transitions.map (Transition.map f)
  registers := m.registers
  suspensionCount := m.suspensionCount

end Machine

end Clockwork
