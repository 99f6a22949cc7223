import Clockwork.Stmt.Text

namespace Clockwork

/-- A node as a path passes through it; a branch keeps the edge that the path takes. -/
inductive Waypoint (ε : Type := Expr) where
  | head
  | block (stmts : List (Stmt ε))
  | branch (cond : ε) (taken : Bool)
  | suspend (id : Nat)
deriving DecidableEq, Repr

/-- A walk from the entry or a suspension of a process to the next suspension. -/
structure Path (ε : Type := Expr) where
  nodes : List (Waypoint ε)
  /-- Whether the statements and conditions read only the values at the start of the path. -/
  propagated : Bool
deriving DecidableEq, Repr

variable {ε : Type}

def takenText (taken : Bool) : String :=
  if taken then "T" else "F"

def Waypoint.text : Waypoint → String
  | .head => "head"
  | .block ss => "[" ++ "; ".intercalate (ss.map Stmt.text) ++ "]"
  | .branch c taken => takenText taken ++ "(" ++ c.text ++ ")"
  | .suspend id => "suspend " ++ toString id

/-- The number under which a state machine knows a node: the id of a suspension, zero for the
entry. -/
def Waypoint.stateId : Waypoint ε → Nat
  | .suspend id => id
  | _ => 0

namespace Path

/-- A path whose statements and conditions read the values at their own place. -/
def ofNodes (nodes : List (Waypoint ε)) : Path ε := ⟨nodes, false⟩

def text (p : Path) : String :=
  " -> ".intercalate (p.nodes.map Waypoint.text)

def startId (p : Path ε) : Nat :=
  (p.nodes.head?.map Waypoint.stateId).getD 0

def endId (p : Path ε) : Nat :=
  (p.nodes.getLast?.map Waypoint.stateId).getD 0

def branches (p : Path ε) : List (ε × Bool) :=
  p.nodes.filterMap fun
    | .branch c taken => some (c, taken)
    | _ => none

def stmts (p : Path ε) : List (Stmt ε) :=
  p.nodes.flatMap fun
    | .block ss => ss
    | _ => []

end Path

end Clockwork
