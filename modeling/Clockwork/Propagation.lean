import Clockwork.Expr.Fold
import Clockwork.Path

namespace Clockwork

/-- Lets a statement read only the values from before the statements that the table stands for, and
adds its own effect to the table. An update becomes an assignment. -/
def Stmt.propagate (table : Substitution) : Stmt Expr → Stmt Expr × Substitution
  | .assign xs v =>
    let w := v.reduce table
    (.assign xs w, xs.foldl (fun table x => table.insert x w) table)
  | .update x op v =>
    let w := (Expr.binary op (.var x) v).reduce table
    (.assign [x] w, table.insert x w)
  | .expr v => (.expr (v.reduce table), table)
  | s => (s, table)

def Stmt.propagateList (table : Substitution) : List (Stmt Expr) → List (Stmt Expr) × Substitution
  | [] => ([], table)
  | s :: rest =>
    let (s, table) := s.propagate table
    let (rest, table) := Stmt.propagateList table rest
    (s :: rest, table)

/-- The names that hold a known literal after some statements, whatever they held before. -/
def knownLiterals (ss : List (Stmt Expr)) : Substitution :=
  (Stmt.propagateList .empty ss).2.filterValues fun e => e.literal?.isSome

def Waypoint.propagateList (table : Substitution) : List Waypoint → List Waypoint
  | [] => []
  | .block ss :: rest =>
    let (ss, table) := Stmt.propagateList table ss
    .block ss :: Waypoint.propagateList table rest
  | .branch c taken :: rest => .branch (c.reduce table) taken :: Waypoint.propagateList table rest
  | n :: rest => n :: Waypoint.propagateList table rest

/-- Lets all statements and conditions of a path read the values at its start. A path that does so
already stays as it is. -/
def Path.propagate (p : Path) : Path :=
  if p.propagated then p else ⟨Waypoint.propagateList .empty p.nodes, true⟩

end Clockwork
