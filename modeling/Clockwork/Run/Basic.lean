import Clockwork.Expr.Basic
import Clockwork.Random
import Clockwork.Stmt.Text
import Clockwork.Table

namespace Clockwork

/-- The variables of a simulation that have a value. -/
abbrev Valuation := Table String Value

inductive Culprit where
  | expr (e : Expr)
  | name (x : String)
  | stmt (s : Stmt Expr)
deriving DecidableEq, Repr

def Culprit.text : Culprit → String
  | .expr e => e.text
  | .name x => x
  | .stmt s => s.text

inductive RunError where
  | undefined (culprit : Culprit)
  | runaway (visited : Nat)
  | ended
  | ambiguous (enabled state : Nat)
  | blocked (state : Nat)
deriving DecidableEq, Repr

def RunError.message : RunError → String
  | .undefined c => "cannot evaluate `" ++ c.text ++ "`, is a variable undefined?"
  | .runaway n => "no suspension point reached after visiting " ++ toString n ++ " nodes"
  | .ended => "control reached the end of the process"
  | .ambiguous n id => toString n ++ " states are enabled in state " ++ toString id
  | .blocked id => "no state is enabled in state " ++ toString id

def Valuation.eval (v : Valuation) (e : Expr) : Except RunError Value :=
  match e.eval v.get? with
  | some w => .ok w
  | none => .error (.undefined (.expr e))

inductive Reset where
  | zero
  | random (seed : UInt64)
deriving DecidableEq, Repr

/-- A random value of a register. Only the lowest 63 bits of a wide register are random, so that
the value is never negative. -/
def randomValue (width : Nat) (word : UInt64) : Value :=
  .int (Int64.ofNat (word.toNat % (1 <<< min width 63)))

def randomValues : Xoshiro → List (String × Nat) → List (String × Value)
  | _, [] => []
  | r, (x, width) :: rest => (x, randomValue width r.next.1) :: randomValues r.next.2 rest

/-- The values of registers at the start; the last entry of a repeated name wins. -/
def Reset.values (registers : List (String × Nat)) : Reset → Valuation
  | .zero => .ofList (registers.map fun (x, _) => (x, .int 0))
  | .random seed => .ofList (randomValues (.ofSeed seed) registers)

inductive Command where
  | init (reset : Reset)
  | set (name : String) (value : Value)
  | step
deriving DecidableEq, Repr

end Clockwork
