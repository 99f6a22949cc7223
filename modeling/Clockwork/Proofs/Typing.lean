import Clockwork.ClockedProcess
import Clockwork.Expr.Basic

namespace Clockwork
set_option autoImplicit true

/-- The two kinds of values. -/
inductive Ty where
  | int | bool
deriving DecidableEq, Repr

def Value.type : Value → Ty
  | .int _ => .int
  | .bool _ => .bool

/-- A type for every name. -/
abbrev Typing := String → Ty

/-- Negation in logic takes a truth value only; inversion keeps the type of its operand. -/
def UnaryOp.type? : UnaryOp → Ty → Option Ty
  | .not, .bool => some .bool
  | .not, .int => none
  | .invert, τ => some τ
  | .negate, _ => some .int

/-- A connective takes truth values only. A bitwise operator gives a truth value on two of them and
a number otherwise. A comparison gives a truth value, every other operator a number. -/
def BinaryOp.type? : BinaryOp → Ty → Ty → Option Ty
  | .and, .bool, .bool | .or, .bool, .bool => some .bool
  | .and, _, _ | .or, _, _ => none
  | .bitAnd, .bool, .bool | .bitOr, .bool, .bool | .bitXor, .bool, .bool => some .bool
  | .eq, _, _ | .ne, _, _ | .lt, _, _ | .le, _, _ | .gt, _, _ | .ge, _, _ => some .bool
  | _, _, _ => some .int

/-- The type of an expression, if it has one. The arms of a conditional need the same type, its
condition any type. -/
def Expr.type? (Γ : Typing) : Expr → Option Ty
  | .var x => some (Γ x)
  | .int _ => some .int
  | .bool _ => some .bool
  | .unary op a => (a.type? Γ).bind op.type?
  | .binary op a b => (a.type? Γ).bind fun τ => (b.type? Γ).bind (op.type? τ)
  | .ite c t e =>
    (c.type? Γ).bind fun _ => (t.type? Γ).bind fun τ => (e.type? Γ).bind fun τ' =>
      if τ = τ' then some τ else none

/-- Every bound name has a value of its type. -/
def Env.Respects (env : Env) (Γ : Typing) : Prop :=
  ∀ x v, env x = some v → v.type = Γ x

theorem Value.ofInt?_type (h : Value.ofInt? n = some v) : v.type = .int := by
  unfold Value.ofInt? at h
  split at h
  · cases h
    rfl
  · cases h

theorem UnaryOp.apply_type {op : UnaryOp} (ht : op.type? v.type = some τ)
    (hw : op.apply v = some w) : w.type = τ := by
  cases op with
  | not =>
    cases v with
    | int n => cases ht
    | bool b => cases ht; cases hw; rfl
  | invert => cases v <;> cases ht <;> cases hw <;> rfl
  | negate => cases ht; exact Value.ofInt?_type hw

theorem Value.bitwise_type (f : Bool → Bool → Bool) (g : Int64 → Int64 → Int64) (v w : Value) :
    (Value.bitwise f g v w).type = if v.type = .bool ∧ w.type = .bool then .bool else .int := by
  cases v <;> cases w <;> simp [Value.bitwise, Value.type]

theorem BinaryOp.apply_type {op : BinaryOp} (ht : op.type? v.type w.type = some τ)
    (hu : op.apply v w = some u) : u.type = τ := by
  cases op
  case add | sub | mul =>
    cases ht
    exact Value.ofInt?_type hu
  case div =>
    cases ht
    simp only [BinaryOp.apply] at hu
    split at hu
    · cases hu
    · exact Value.ofInt?_type hu
  case mod =>
    cases ht
    simp only [BinaryOp.apply] at hu
    split at hu
    · cases hu
    · obtain ⟨_, _, hu⟩ := Option.bind_eq_some_iff.1 hu
      exact Value.ofInt?_type hu
  case shiftLeft | shiftRight =>
    cases ht
    simp only [BinaryOp.apply] at hu
    split at hu
    · cases hu
      rfl
    · cases hu
  case bitAnd | bitOr | bitXor =>
    cases hu
    rw [Value.bitwise_type]
    cases hv : v.type <;> cases hw : w.type <;> simp_all [BinaryOp.type?]
  case and | or =>
    cases hu
    cases hv : v.type <;> cases hw : w.type <;> simp_all [BinaryOp.type?, Value.type]
  case eq | ne | lt | le | gt | ge =>
    cases ht
    cases hu
    rfl

theorem Expr.type?_ite_iff : (Expr.ite c t e).type? Γ = some τ ↔
    (c.type? Γ).isSome ∧ t.type? Γ = some τ ∧ e.type? Γ = some τ := by
  rw [Expr.type?]
  cases c.type? Γ <;> cases t.type? Γ <;> cases e.type? Γ <;> simp [eq_comm]
  grind

/-- The value of a well typed expression has its type. -/
theorem Expr.eval_type (henv : env.Respects Γ) (ht : e.type? Γ = some τ)
    (hv : Expr.eval env e = some v) : v.type = τ := by
  induction e generalizing τ v with
  | var x => cases ht; exact henv x v hv
  | int n => cases ht; cases hv; rfl
  | bool b => cases ht; cases hv; rfl
  | unary op a iha =>
    obtain ⟨σ, ha, hop⟩ := Option.bind_eq_some_iff.1 ht
    obtain ⟨x, hx, hv⟩ := Option.bind_eq_some_iff.1 hv
    have hxσ := iha ha hx
    subst hxσ
    exact UnaryOp.apply_type hop hv
  | binary op a b iha ihb =>
    obtain ⟨σ, ha, ht⟩ := Option.bind_eq_some_iff.1 ht
    obtain ⟨ρ, hb, hop⟩ := Option.bind_eq_some_iff.1 ht
    obtain ⟨x, hx, hv⟩ := Option.bind_eq_some_iff.1 hv
    obtain ⟨y, hy, hv⟩ := Option.bind_eq_some_iff.1 hv
    have hxσ := iha ha hx
    have hyρ := ihb hb hy
    subst hxσ hyρ
    exact BinaryOp.apply_type hop hv
  | ite c t e ihc iht ihe =>
    obtain ⟨_, ht, he⟩ := Expr.type?_ite_iff.1 ht
    obtain ⟨x, hx, hv⟩ := Option.bind_eq_some_iff.1 hv
    split at hv
    · exact iht ht hv
    · exact ihe he hv

mutual

/-- Every statement without nested statements satisfies `leaf` and every condition `test`. -/
def Stmt.Everywhere (leaf : Stmt Expr → Prop) (test : Expr → Prop) : Stmt Expr → Prop
  | .branch c ts es =>
    test c ∧ Stmt.ListEverywhere leaf test ts ∧ Stmt.ListEverywhere leaf test es
  | .loop c body => test c ∧ Stmt.ListEverywhere leaf test body
  | s => leaf s

def Stmt.ListEverywhere (leaf : Stmt Expr → Prop) (test : Expr → Prop) : List (Stmt Expr) → Prop
  | [] => True
  | s :: rest => s.Everywhere leaf test ∧ Stmt.ListEverywhere leaf test rest

end

mutual

theorem Stmt.everywhere_of_nested {leaf : Stmt Expr → Prop} {test : Expr → Prop} (s : Stmt Expr)
    (hleaf : ∀ t ∈ s.nested, leaf t) (htest : ∀ c, test c) : s.Everywhere leaf test := by
  match s with
  | .branch c ts es =>
    rw [nested, List.forall_mem_cons, List.forall_mem_append] at hleaf
    exact ⟨htest c, Stmt.listEverywhere_of_nested ts hleaf.2.1 htest,
      Stmt.listEverywhere_of_nested es hleaf.2.2 htest⟩
  | .loop c body =>
    rw [nested, List.forall_mem_cons] at hleaf
    exact ⟨htest c, Stmt.listEverywhere_of_nested body hleaf.2 htest⟩
  | .assign xs v => exact hleaf _ List.mem_cons_self
  | .update x op v => exact hleaf _ List.mem_cons_self
  | .expr v => exact hleaf _ List.mem_cons_self
  | .register x w => exact hleaf _ List.mem_cons_self
  | .wait n => exact hleaf _ List.mem_cons_self
  | .suspend => exact hleaf _ List.mem_cons_self

theorem Stmt.listEverywhere_of_nested {leaf : Stmt Expr → Prop} {test : Expr → Prop}
    (ss : List (Stmt Expr)) (hleaf : ∀ t ∈ nestedList ss, leaf t) (htest : ∀ c, test c) :
    Stmt.ListEverywhere leaf test ss := by
  match ss with
  | [] => trivial
  | s :: ss =>
    rw [nestedList, List.forall_mem_append] at hleaf
    exact ⟨Stmt.everywhere_of_nested s hleaf.1 htest,
      Stmt.listEverywhere_of_nested ss hleaf.2 htest⟩

end

theorem Stmt.listEverywhere_append : Stmt.ListEverywhere leaf test (ss ++ ts) ↔
    Stmt.ListEverywhere leaf test ss ∧ Stmt.ListEverywhere leaf test ts := by
  induction ss with
  | nil => simp [Stmt.ListEverywhere]
  | cons s ss ih => simp only [List.cons_append, Stmt.ListEverywhere, ih, and_assoc]

theorem Stmt.ListEverywhere.of_mem (h : Stmt.ListEverywhere leaf test ss) (hs : s ∈ ss) :
    s.Everywhere leaf test := by
  induction ss with
  | nil => cases hs
  | cons t ss ih =>
    rcases List.mem_cons.1 hs with rfl | hs
    · exact h.1
    · exact ih h.2 hs

/-- The types in a statement without nested statements fit: a register holds a number, and an
assignment stores a value of the type of its targets. -/
def Stmt.Checks (Γ : Typing) : Stmt Expr → Prop
  | .register x w => Γ x = .int ∧ (w.type? Γ).isSome
  | .assign xs v => ∃ τ, v.type? Γ = some τ ∧ ∀ x ∈ xs, Γ x = τ
  | .update x op v => (Expr.binary op (.var x) v).type? Γ = some (Γ x)
  | .expr v => (v.type? Γ).isSome
  | .wait n => (n.type? Γ).isSome
  | .branch .. | .loop .. | .suspend => True

/-- All types in a body fit; a condition may have any type. -/
def Stmt.ListWellTyped (Γ : Typing) : List (Stmt Expr) → Prop :=
  Stmt.ListEverywhere (Stmt.Checks Γ) fun c => (c.type? Γ).isSome

end Clockwork
