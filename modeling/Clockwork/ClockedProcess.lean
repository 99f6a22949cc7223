import Clockwork.Stmt.Text
import Clockwork.Table

namespace Clockwork

inductive Direction where
  | input | output
deriving DecidableEq, Repr

def Direction.text : Direction → String
  | .input => "input"
  | .output => "output"

/-- A process that talks to its surroundings through named ports and advances at clock edges. -/
structure ClockedProcess (ε : Type) where
  name : String
  ports : Table String Direction
  body : List (Stmt ε)
deriving DecidableEq, Repr

namespace ClockedProcess

variable {ε δ : Type}

def isPort (p : ClockedProcess ε) (x : String) : Bool :=
  p.ports.contains x

def portsOf (p : ClockedProcess ε) (d : Direction) : List String :=
  (p.ports.entries.filter fun entry => entry.2 = d).map Prod.fst

def map (f : ε → δ) (p : ClockedProcess ε) : ClockedProcess δ where
  name := p.name
  ports := p.ports
  body := Stmt.mapList f p.body

end ClockedProcess

mutual

/-- The names that a statement declares, assigns or reads, in source order: its own names, those of
its own expression, then those of the nested statements. -/
def Stmt.names : Stmt Expr → List String
  | .register x w => x :: w.vars
  | .assign xs v => xs ++ v.vars
  | .update x _ v => x :: v.vars
  | .expr v => v.vars
  | .branch c ts es => c.vars ++ Stmt.listNames ts ++ Stmt.listNames es
  | .loop c body => c.vars ++ Stmt.listNames body
  | .suspend => []
  | .wait n => n.vars

def Stmt.listNames : List (Stmt Expr) → List String
  | [] => []
  | s :: rest => s.names ++ Stmt.listNames rest

end

/-- Every name of a process once: its ports first, then those of its body in source order. -/
def ClockedProcess.names (p : ClockedProcess Expr) : List String :=
  addAllNew p.ports.keys (Stmt.listNames p.body)

def ClockedProcess.text (p : ClockedProcess Expr) : String :=
  "process " ++ p.name ++ "\n" ++
    String.join (p.ports.entries.map fun (x, d) => d.text ++ " " ++ x ++ "\n") ++
    Stmt.listText p.body

end Clockwork
