import Clockwork.Expr.Basic
import Clockwork.Table

namespace Clockwork

/-- The expressions that are known to equal some of the names. -/
abbrev Substitution := Table String Expr

/-- Replaces every name with an entry in the table by that entry. All replacements happen at once,
so names inside of an entry stay. -/
def Expr.substitute (table : Substitution) : Expr → Expr
  | .var x => (table.get? x).getD (.var x)
  | .int n => .int n
  | .bool b => .bool b
  | .unary op a => .unary op (a.substitute table)
  | .binary op a b => .binary op (a.substitute table) (b.substitute table)
  | .ite c t e => .ite (c.substitute table) (t.substitute table) (e.substitute table)

/-- A connective with one known operand is decided by it, or is its other operand. -/
def BinaryOp.decided? (op : BinaryOp) (known : Bool) (other : Expr) : Option Expr :=
  match op, known with
  | .and, true => some other
  | .and, false => some (.bool false)
  | .or, true => some (.bool true)
  | .or, false => some other
  | _, _ => none

/-- Simplifies an expression whose operands are simplified already. An operation on literals gives
its value where it is defined. -/
def Expr.foldRoot : Expr → Expr
  | .unary op a =>
    match a.literal? with
    | some v => ((op.apply v).map .ofValue).getD (.unary op a)
    | none =>
      match op, a with
      | .not, .unary .not b => b
      | _, _ => .unary op a
  | .binary op a b =>
    match a.literal?, b.literal? with
    | some x, some y => ((op.apply x y).map .ofValue).getD (.binary op a b)
    | some x, none => (op.decided? x.truth b).getD (.binary op a b)
    | none, some y => (op.decided? y.truth a).getD (.binary op a b)
    | none, none => .binary op a b
  | .ite c t e =>
    -- With equal arms the condition may even be undefined.
    if t = e then t
    else
      match c.truth? with
      | some b => if b then t else e
      | none => .ite c t e
  | e => e

def Expr.fold : Expr → Expr
  | .var x => .var x
  | .int n => .int n
  | .bool b => .bool b
  | .unary op a => (Expr.unary op a.fold).foldRoot
  | .binary op a b => (Expr.binary op a.fold b.fold).foldRoot
  | .ite c t e => (Expr.ite c.fold t.fold e.fold).foldRoot

/-- What is left of an expression once the entries of the table are known. -/
def Expr.reduce (table : Substitution) (e : Expr) : Expr :=
  (e.substitute table).fold

end Clockwork
