import Clockwork.Path
import Clockwork.Pool.Fold

namespace Clockwork.Pool

/-- Lets a statement read only the values from before the statements that the table stands for, and
adds its own effect to the table. -/
def propagate (table : Table NameRef ExprRef) :
    Stmt ExprRef → StateM Pool (Stmt ExprRef × Table NameRef ExprRef)
  | .assign xs v => do
    let w ← reduce table v
    let names ← addNames xs
    return (.assign xs w, names.foldl (fun table x => table.insert x w) table)
  | .update x op v => do
    let name ← addName x
    let w ← reduce table (← add (.binary op (← add (.var name)) v))
    return (.assign [x] w, table.insert name w)
  | .expr v => return (.expr (← reduce table v), table)
  | s => return (s, table)

def propagateList (table : Table NameRef ExprRef) :
    List (Stmt ExprRef) → StateM Pool (List (Stmt ExprRef) × Table NameRef ExprRef)
  | [] => return ([], table)
  | s :: rest => do
    let (s, table) ← propagate table s
    let (rest, table) ← propagateList table rest
    return (s :: rest, table)

/-- The names that hold a known literal after some statements, whatever they held before. -/
def knownLiterals (ss : List (Stmt ExprRef)) : StateM Pool (Table NameRef ExprRef) := do
  let (_, table) ← propagateList .empty ss
  let p ← get
  return table.filterValues fun r => (p.literal? r).isSome

def propagateNodes (table : Table NameRef ExprRef) :
    List (Waypoint ExprRef) → StateM Pool (List (Waypoint ExprRef))
  | [] => return []
  | .block ss :: rest => do
    let (ss, table) ← propagateList table ss
    return .block ss :: (← propagateNodes table rest)
  | .branch c taken :: rest => do
    return .branch (← reduce table c) taken :: (← propagateNodes table rest)
  | n :: rest => return n :: (← propagateNodes table rest)

/-- Lets all statements and conditions of a path read the values at its start. -/
def propagatePath (path : Path ExprRef) : StateM Pool (Path ExprRef) := do
  if path.propagated then return path
  else return ⟨← propagateNodes .empty path.nodes, true⟩

end Clockwork.Pool
