import Clockwork.Pool.Renewal

namespace Clockwork.Pool

/-- A name gives way to its entry in the table; any other expression gets its new operands. -/
def substituteAt (table : Table NameRef ExprRef) : Visitor Pool ExprRef := fun r e operands =>
  match e with
  | .var x => return (table.get? x).getD r
  | e => rebuild r e operands

def substitute (table : Table NameRef ExprRef) : ExprRef → StateM Pool ExprRef :=
  renew (substituteAt table)

/-- A connective with one known operand is decided by it, or is its other operand. -/
def decided (r : ExprRef) (op : BinaryOp) (known : Bool) (other : ExprRef) :
    StateM Pool ExprRef :=
  match op, known with
  | .and, true => return other
  | .and, false => add (.bool false)
  | .or, true => add (.bool true)
  | .or, false => return other
  | _, _ => return r

def foldRoot (r : ExprRef) : StateM Pool ExprRef := do
  let p ← get
  match p.get? r with
  | some (.unary op a) =>
    match p.literal? a with
    | some v => ((op.apply v).map addValue).getD (return r)
    | none =>
      match op, p.get? a with
      | .not, some (.unary .not b) => return b
      | _, _ => return r
  | some (.binary op a b) =>
    match p.literal? a, p.literal? b with
    | some x, some y => ((op.apply x y).map addValue).getD (return r)
    | some x, none => decided r op x.truth b
    | none, some y => decided r op y.truth a
    | none, none => return r
  | some (.ite c t e) =>
    if t = e then return t
    else
      match p.literal? c with
      | some v => return if v.truth then t else e
      | none => return r
  | _ => return r

/-- Gives an expression its new operands and simplifies it. -/
def foldAt : Visitor Pool ExprRef := fun r e operands => do
  foldRoot (← rebuild r e operands)

def fold : ExprRef → StateM Pool ExprRef :=
  renew foldAt

def reduce (table : Table NameRef ExprRef) (r : ExprRef) : StateM Pool ExprRef := do
  fold (← substitute table r)

end Clockwork.Pool
