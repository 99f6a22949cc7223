import Clockwork.Pool.Basic

namespace Clockwork.Pool

inductive Task where
  /-- Look at the operands first. -/
  | visit (r : ExprRef)
  /-- The results of the operands are there. -/
  | combine (r : ExprRef)
deriving DecidableEq, Repr

variable {σ ρ : Type}

/-- What a traversal does at an expression: it gets the reference, the entry and the results of the
operands, and may change a state. -/
abbrev Visitor (σ ρ : Type) := ExprRef → Entry → List ρ → StateM σ ρ

/-- Works off tasks from the first to the last. The results of operands lie on a stack, the latest
on top, until the expression that they belong to takes them off. -/
def work? (pool : σ → Pool) (visitor : Visitor σ ρ) :
    (fuel : Nat) → List Task → List ρ → StateM σ (Option ρ)
  | _, [], [result] => return some result
  | _, [], _ => return none
  | 0, _ :: _, _ => return none
  | fuel + 1, .visit r :: todo, results => do
    match (pool (← get)).get? r with
    | none => return none
    | some e =>
      if e.operands.isEmpty then
        work? pool visitor fuel todo ((← visitor r e []) :: results)
      else
        work? pool visitor fuel (e.operands.map .visit ++ .combine r :: todo) results
  | fuel + 1, .combine r :: todo, results => do
    match (pool (← get)).get? r with
    | none => return none
    | some e =>
      let count := e.operands.length
      if results.length < count then return none
      else
        let result ← visitor r e (results.take count).reverse
        work? pool visitor fuel todo (result :: results.drop count)

/-- Visits an expression from its leaves to its root and from left to right, once for each
occurrence. The visitor may add to the pool, which is a part of its state. -/
def traverse? (pool : σ → Pool) (visitor : Visitor σ ρ) (r : ExprRef) : StateM σ (Option ρ) := do
  -- Every occurrence takes at most two tasks.
  work? pool visitor (2 * ((pool (← get)).expr r).size) [.visit r] []

/-- Visits an expression of a pool that stays as it is. -/
def survey? (p : Pool) (visitor : Visitor σ ρ) (r : ExprRef) : StateM σ (Option ρ) :=
  traverse? (fun _ => p) visitor r

def nodeCount (r : ExprRef) : StateM Pool Nat :=
  return ((survey? (← get) (fun _ _ counts => return counts.foldl (· + ·) 0 + 1) r).run ()).1.getD 0

def depth (r : ExprRef) : StateM Pool Nat :=
  return ((survey? (← get) (fun _ _ depths => return depths.foldl max 0 + 1) r).run ()).1.getD 0

def postorder (r : ExprRef) : StateM Pool (List Entry) :=
  return ((survey? (← get) (fun _ e orders => return orders.flatten ++ [e]) r).run ()).1.getD []

end Clockwork.Pool
