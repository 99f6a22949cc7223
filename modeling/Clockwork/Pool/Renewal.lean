import Clockwork.Pool.Traversal

namespace Clockwork

def Entry.withOperands (e : Entry) (operands : List ExprRef) : Entry :=
  match e, operands with
  | .unary op _, [a] => .unary op a
  | .binary op _ _, [a, b] => .binary op a b
  | .ite _ _ _, [c, t, e] => .ite c t e
  | e, _ => e

namespace Pool

/-- The expression with other operands; it stays in its place if they are the same. -/
def rebuild (r : ExprRef) (e : Entry) (operands : List ExprRef) : StateM Pool ExprRef :=
  if e.operands = operands then return r else add (e.withOperands operands)

/-- A pool while one of its expressions is renewed, and what became of the expressions met so far. -/
structure Renewal where
  pool : Pool
  results : Table ExprRef ExprRef
deriving DecidableEq, Repr

def Renewal.note (r : ExprRef) (change : StateM Pool ExprRef) : StateM Renewal ExprRef := fun s =>
  let (t, pool) := change.run s.pool
  (t, ⟨pool, s.results.insert r t⟩)

/-- Renews an expression whose operands are nested less than `depth` deep. -/
def renewWithin (change : Visitor Pool ExprRef) :
    (depth : Nat) → ExprRef → StateM Renewal ExprRef
  | 0, r => return r
  | depth + 1, r => do
    let s ← get
    match s.results.get? r, s.pool.get? r with
    | some t, _ => return t
    | none, none => return r
    | none, some e =>
      let operands ← e.operands.mapM (renewWithin change depth)
      Renewal.note r (change r e operands)

/-- Changes an expression from its leaves to its root and from left to right. An expression that
occurs again has its result already, so the work grows with the pool and not with its occurrences. -/
def renew (change : Visitor Pool ExprRef) (r : ExprRef) : StateM Pool ExprRef := fun p =>
  -- Operands stand before the expressions they belong to, so none is nested deeper than its index.
  let (t, s) := (renewWithin change (r.index + 1) r).run ⟨p, .empty⟩
  (t, s.pool)

end Pool

end Clockwork
