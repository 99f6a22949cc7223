import Clockwork.ClockedProcess

namespace Clockwork

/-- The place of a name in a pool. -/
structure NameRef where
  index : Nat
deriving DecidableEq, Repr

structure ExprRef where
  index : Nat
deriving DecidableEq, Repr

/-- An expression whose names and operands are shared. -/
inductive Entry where
  | var (name : NameRef)
  | int (n : Int64)
  | bool (b : Bool)
  | unary (op : UnaryOp) (a : ExprRef)
  | binary (op : BinaryOp) (a b : ExprRef)
  | ite (c t e : ExprRef)
deriving DecidableEq, Repr

def Entry.operands : Entry → List ExprRef
  | .var _ | .int _ | .bool _ => []
  | .unary _ a => [a]
  | .binary _ a b => [a, b]
  | .ite c t e => [c, t, e]

def Entry.literal? : Entry → Option Value
  | .int n => some (.int n)
  | .bool b => some (.bool b)
  | _ => none

/-- A pool of shared expressions. A name or an entry that is added again keeps its first place, so
equal expressions have equal references. -/
structure Pool where
  names : List String
  entries : List Entry
deriving DecidableEq, Repr

namespace Pool

def empty : Pool := ⟨[], []⟩

def name? (p : Pool) (r : NameRef) : Option String := p.names[r.index]?

def get? (p : Pool) (r : ExprRef) : Option Entry := p.entries[r.index]?

def literal? (p : Pool) (r : ExprRef) : Option Value :=
  (p.get? r).bind Entry.literal?

def truth? (p : Pool) (r : ExprRef) : Option Bool :=
  (p.literal? r).map Value.truth

def nameRef? (p : Pool) (x : String) : Option NameRef :=
  (p.names.idxOf? x).map NameRef.mk

/-- Entries refer to earlier entries and to names of the pool, and nothing is stored twice. -/
structure WellFormed (p : Pool) : Prop where
  nodup_names : p.names.Nodup
  nodup_entries : p.entries.Nodup
  operand_lt : ∀ (i : Nat) (e : Entry), p.entries[i]? = some e → ∀ r ∈ e.operands, r.index < i
  name_lt : ∀ (i : Nat) (r : NameRef),
    p.entries[i]? = some (.var r) → r.index < p.names.length

/-- The expression of an entry, given those of the entries before it. A reference that leads
nowhere reads as an empty name or as false. -/
def entryExpr (names : List String) (earlier : Array Expr) : Entry → Expr :=
  let operand (r : ExprRef) : Expr := earlier[r.index]?.getD (.bool false)
  fun
    | .var x => .var (names[x.index]?.getD "")
    | .int n => .int n
    | .bool b => .bool b
    | .unary op a => .unary op (operand a)
    | .binary op a b => .binary op (operand a) (operand b)
    | .ite c t e => .ite (operand c) (operand t) (operand e)

def exprs (p : Pool) : Array Expr :=
  p.entries.foldl (fun earlier e => earlier.push (entryExpr p.names earlier e)) #[]

/-- The expression that a reference stands for, if it leads somewhere. -/
def expr? (p : Pool) (r : ExprRef) : Option Expr := p.exprs[r.index]?

def expr (p : Pool) (r : ExprRef) : Expr :=
  (p.expr? r).getD (.bool false)

def addName (x : String) : StateM Pool NameRef := fun p =>
  (⟨p.names.idxOf x⟩, { p with names := addNew p.names x })

/-- Adds an entry to the pool, unless it is there. -/
def add (e : Entry) : StateM Pool ExprRef := fun p =>
  (⟨p.entries.idxOf e⟩, { p with entries := addNew p.entries e })

theorem get?_add (e : Entry) (p : Pool) : ((add e).run p).2.get? ((add e).run p).1 = some e :=
  getElem?_addNew_idxOf p.entries e

theorem get?_add_of_eq_some {p : Pool} {r : ExprRef} {e e' : Entry} (h : p.get? r = some e) :
    ((add e').run p).2.get? r = some e :=
  getElem?_addNew_of_eq_some h

theorem name?_addName (x : String) (p : Pool) :
    ((addName x).run p).2.name? ((addName x).run p).1 = some x :=
  getElem?_addNew_idxOf p.names x

theorem name?_addName_of_eq_some {p : Pool} {r : NameRef} {x y : String}
    (h : p.name? r = some x) : ((addName y).run p).2.name? r = some x :=
  getElem?_addNew_of_eq_some h

def addValue : Value → StateM Pool ExprRef
  | .int n => add (.int n)
  | .bool b => add (.bool b)

def addVar (x : String) : StateM Pool ExprRef := do
  add (.var (← addName x))

/-- Adds an expression, its operands first and from left to right. -/
def addExpr : Expr → StateM Pool ExprRef
  | .var x => addVar x
  | .int n => add (.int n)
  | .bool b => add (.bool b)
  | .unary op a => do add (.unary op (← addExpr a))
  | .binary op a b => do
    let a ← addExpr a
    let b ← addExpr b
    add (.binary op a b)
  | .ite c t e => do
    let c ← addExpr c
    let t ← addExpr t
    let e ← addExpr e
    add (.ite c t e)

def addNames (xs : List String) : StateM Pool (List NameRef) :=
  xs.mapM addName

def addStmts (ss : List (Stmt Expr)) : StateM Pool (List (Stmt ExprRef)) :=
  Stmt.mapListM addExpr ss

def addProcess (process : ClockedProcess Expr) : StateM Pool (ClockedProcess ExprRef) :=
  return { name := process.name, ports := process.ports, body := (← addStmts process.body) }

end Pool

end Clockwork
