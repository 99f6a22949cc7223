import Clockwork.Operator

namespace Clockwork

/-- Expressions over named variables. -/
inductive Expr where
  | var (name : String)
  | int (n : Int64)
  | bool (b : Bool)
  | unary (op : UnaryOp) (a : Expr)
  | binary (op : BinaryOp) (a b : Expr)
  | ite (c t e : Expr)
deriving DecidableEq, Repr

def Expr.ofValue : Value → Expr
  | .int n => .int n
  | .bool b => .bool b

def Expr.literal? : Expr → Option Value
  | .int n => some (.int n)
  | .bool b => some (.bool b)
  | _ => none

@[simp] theorem Expr.literal?_ofValue (v : Value) : (Expr.ofValue v).literal? = some v := by
  cases v <;> rfl

theorem Expr.eq_ofValue_of_literal? {e : Expr} {v : Value} (h : e.literal? = some v) :
    e = .ofValue v := by
  cases e <;> simp_all [Expr.literal?] <;> subst h <;> rfl

/-- Whether a literal counts as true; undefined on any other expression. -/
def Expr.truth? (e : Expr) : Option Bool :=
  e.literal?.map Value.truth

def Expr.children : Expr → List Expr
  | .var _ | .int _ | .bool _ => []
  | .unary _ a => [a]
  | .binary _ a b => [a, b]
  | .ite c t e => [c, t, e]

/-- The number of nodes; a subexpression counts once for each of its occurrences. -/
def Expr.size : Expr → Nat
  | .var _ | .int _ | .bool _ => 1
  | .unary _ a => a.size + 1
  | .binary _ a b => a.size + b.size + 1
  | .ite c t e => c.size + t.size + e.size + 1

abbrev Env := String → Option Value

/-- The value of an expression, if every name it needs is bound and every operation it performs is
defined. Only the selected arm of a conditional is evaluated. -/
def Expr.eval (env : Env) : Expr → Option Value
  | .var x => env x
  | .int n => some (.int n)
  | .bool b => some (.bool b)
  | .unary op a => (a.eval env).bind op.apply
  | .binary op a b => (a.eval env).bind fun x => (b.eval env).bind fun y => op.apply x y
  | .ite c t e => (c.eval env).bind fun v => if v.truth then t.eval env else e.eval env

@[simp] theorem Expr.eval_ofValue (env : Env) (v : Value) :
    (Expr.ofValue v).eval env = some v := by
  cases v <;> rfl

def Env.empty : Env := fun _ => none

/-- The first entry of a name binds it. -/
def Env.ofList (bindings : List (String × Value)) : Env := fun x => bindings.lookup x

/-- The names of an expression from left to right, once for each occurrence. -/
def Expr.vars : Expr → List String
  | .var x => [x]
  | .int _ | .bool _ => []
  | .unary _ a => a.vars
  | .binary _ a b => a.vars ++ b.vars
  | .ite c t e => c.vars ++ t.vars ++ e.vars

/-- Whether an expression is written in parentheses when it is an operand. -/
def Expr.isCompound : Expr → Bool
  | .binary .. | .ite .. => true
  | _ => false

def parenthesize (wrap : Bool) (text : String) : String :=
  if wrap then "(" ++ text ++ ")" else text

/-- The text of an expression. Operators have no precedence: an operand that is itself a binary
operation or a conditional stands in parentheses. -/
def Expr.text : Expr → String
  | .var x => x
  | .int n => toString n.toInt
  | .bool b => if b then "true" else "false"
  | .unary op a => op.glyph ++ parenthesize a.isCompound a.text
  | .binary op a b =>
    parenthesize a.isCompound a.text ++ " " ++ op.glyph ++ " " ++
      parenthesize b.isCompound b.text
  | .ite c t e =>
    parenthesize t.isCompound t.text ++ " if " ++ parenthesize c.isCompound c.text ++ " else " ++
      parenthesize e.isCompound e.text

end Clockwork
