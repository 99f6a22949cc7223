import Clockwork.Pool.Basic

namespace Clockwork.Pool

/-- Adds the names of the expressions to do, in the order of their first occurrence. An expression
that is not among the unseen ones any more is skipped, so each is looked into once. -/
def collect (p : Pool) (unseen todo : List ExprRef) (names : List String) : List String :=
  match todo with
  | [] => names
  | r :: todo =>
    if h : r ∈ unseen then
      have := List.length_erase_of_mem h
      have := List.length_pos_of_mem h
      match p.get? r with
      | none => p.collect (unseen.erase r) todo names
      | some (.var x) => p.collect (unseen.erase r) todo (addNew names ((p.name? x).getD ""))
      | some e => p.collect (unseen.erase r) (e.operands ++ todo) names
    else p.collect unseen todo names
termination_by (unseen.length, todo.length)

def collectVars (p : Pool) (r : ExprRef) (names : List String) : List String :=
  p.collect ((List.range p.entries.length).map ExprRef.mk) [r] names

def distinctVars (p : Pool) (r : ExprRef) : List String :=
  p.collectVars r []

def collectOwnNames (p : Pool) (names : List String) (s : Stmt ExprRef) : List String :=
  match s.ownExpr? with
  | some v => p.collectVars v (addAllNew names s.targets)
  | none => addAllNew names s.targets

/-- Adds the names of the statements to do. The names of a statement itself are added at once; the
statements inside it are put in front of the others, so that they come next. -/
def collectNames (p : Pool) (todo : List (Stmt ExprRef)) (names : List String) : List String :=
  match todo with
  | [] => names
  | s :: todo => p.collectNames (s.inner ++ todo) (p.collectOwnNames names s)
termination_by (Stmt.nestedList todo).length
decreasing_by
  rw [Stmt.nestedList_cons]
  exact Nat.lt_succ_self _

/-- Every name of a process once, its ports first. -/
def processNames (p : Pool) (process : ClockedProcess ExprRef) : List String :=
  p.collectNames process.body process.ports.keys

end Clockwork.Pool
