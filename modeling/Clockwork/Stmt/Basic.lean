import Clockwork.Operator

namespace Clockwork

/-- Statements of a clocked process, over any representation `ε` of its expressions. -/
inductive Stmt (ε : Type) where
  /-- Declares a register and its width in bits. -/
  | register (name : String) (width : ε)
  /-- Stores one value in each of the targets. -/
  | assign (targets : List String) (value : ε)
  /-- Combines a variable with a value and stores the result in it. -/
  | update (target : String) (op : BinaryOp) (value : ε)
  /-- An expression on its own; it changes nothing. -/
  | expr (value : ε)
  | branch (cond : ε) (onTrue onFalse : List (Stmt ε))
  | loop (cond : ε) (body : List (Stmt ε))
  /-- Waits for the next clock edge. -/
  | suspend
  /-- Waits for as many clock edges as the count says. -/
  | wait (count : ε)
deriving Repr, Inhabited

variable {ε δ : Type}

mutual

def Stmt.decEq [DecidableEq ε] : (s t : Stmt ε) → Decidable (s = t)
  | .register n w, t => match t with
    | .register n' w' => decidable_of_iff (n = n' ∧ w = w') (by simp)
    | .assign .. | .update .. | .expr .. | .branch .. | .loop .. | .suspend | .wait .. =>
      isFalse (by simp)
  | .assign xs v, t => match t with
    | .assign xs' v' => decidable_of_iff (xs = xs' ∧ v = v') (by simp)
    | .register .. | .update .. | .expr .. | .branch .. | .loop .. | .suspend | .wait .. =>
      isFalse (by simp)
  | .update x op v, t => match t with
    | .update x' op' v' => decidable_of_iff (x = x' ∧ op = op' ∧ v = v') (by simp)
    | .register .. | .assign .. | .expr .. | .branch .. | .loop .. | .suspend | .wait .. =>
      isFalse (by simp)
  | .expr v, t => match t with
    | .expr v' => decidable_of_iff (v = v') (by simp)
    | .register .. | .assign .. | .update .. | .branch .. | .loop .. | .suspend | .wait .. =>
      isFalse (by simp)
  | .branch c ts es, t => match t with
    | .branch c' ts' es' =>
      have := Stmt.decEqList ts ts'
      have := Stmt.decEqList es es'
      decidable_of_iff (c = c' ∧ ts = ts' ∧ es = es') (by simp)
    | .register .. | .assign .. | .update .. | .expr .. | .loop .. | .suspend | .wait .. =>
      isFalse (by simp)
  | .loop c body, t => match t with
    | .loop c' body' =>
      have := Stmt.decEqList body body'
      decidable_of_iff (c = c' ∧ body = body') (by simp)
    | .register .. | .assign .. | .update .. | .expr .. | .branch .. | .suspend | .wait .. =>
      isFalse (by simp)
  | .suspend, t => match t with
    | .suspend => isTrue rfl
    | .register .. | .assign .. | .update .. | .expr .. | .branch .. | .loop .. | .wait .. =>
      isFalse (by simp)
  | .wait n, t => match t with
    | .wait n' => decidable_of_iff (n = n') (by simp)
    | .register .. | .assign .. | .update .. | .expr .. | .branch .. | .loop .. | .suspend =>
      isFalse (by simp)

def Stmt.decEqList [DecidableEq ε] : (ss ts : List (Stmt ε)) → Decidable (ss = ts)
  | [], [] => isTrue rfl
  | [], _ :: _ => isFalse (by simp)
  | _ :: _, [] => isFalse (by simp)
  | s :: ss, t :: ts =>
    have := Stmt.decEq s t
    have := Stmt.decEqList ss ts
    decidable_of_iff (s = t ∧ ss = ts) (by simp)

end

instance [DecidableEq ε] : DecidableEq (Stmt ε) := Stmt.decEq

/-- The target and the value of an assignment to a single name. -/
def Stmt.singleTarget? : Stmt ε → Option (String × ε)
  | .assign [x] v => some (x, v)
  | _ => none

/-- The statements of a basic block: they neither branch nor wait nor declare. -/
def Stmt.isStraight : Stmt ε → Bool
  | .assign .. | .update .. | .expr .. => true
  | _ => false

/-- The expression that a statement itself evaluates, those of nested statements apart. -/
def Stmt.ownExpr? : Stmt ε → Option ε
  | .register _ v | .assign _ v | .update _ _ v | .expr v => some v
  | .branch c _ _ | .loop c _ => some c
  | .suspend => none
  | .wait n => some n

/-- The names that a statement itself declares or assigns. -/
def Stmt.targets : Stmt ε → List String
  | .register x _ | .update x _ _ => [x]
  | .assign xs _ => xs
  | .expr _ | .branch _ _ _ | .loop _ _ | .suspend | .wait _ => []

/-- The statements directly inside a statement, in source order. -/
def Stmt.inner : Stmt ε → List (Stmt ε)
  | .branch _ ts es => ts ++ es
  | .loop _ body => body
  | .register _ _ | .assign _ _ | .update _ _ _ | .expr _ | .suspend | .wait _ => []

mutual

/-- A statement and all statements inside it, in source order. -/
def Stmt.nested : Stmt ε → List (Stmt ε)
  | .branch c ts es => .branch c ts es :: (Stmt.nestedList ts ++ Stmt.nestedList es)
  | .loop c body => .loop c body :: Stmt.nestedList body
  | s => [s]

def Stmt.nestedList : List (Stmt ε) → List (Stmt ε)
  | [] => []
  | s :: rest => s.nested ++ Stmt.nestedList rest

end

theorem Stmt.nestedList_append (ss ts : List (Stmt ε)) :
    nestedList (ss ++ ts) = nestedList ss ++ nestedList ts := by
  induction ss with
  | nil => rfl
  | cons s ss ih => rw [List.cons_append, nestedList, nestedList, ih, List.append_assoc]

theorem Stmt.nested_eq_cons (s : Stmt ε) : s.nested = s :: nestedList s.inner := by
  cases s with
  | branch c ts es => rw [nested, inner, nestedList_append]
  | loop c body => rw [nested, inner]
  | _ => rfl

theorem Stmt.nestedList_cons (s : Stmt ε) (rest : List (Stmt ε)) :
    nestedList (s :: rest) = s :: nestedList (s.inner ++ rest) := by
  rw [nestedList, nested_eq_cons, nestedList_append, List.cons_append]

mutual

def Stmt.map (f : ε → δ) : Stmt ε → Stmt δ
  | .register x w => .register x (f w)
  | .assign xs v => .assign xs (f v)
  | .update x op v => .update x op (f v)
  | .expr v => .expr (f v)
  | .branch c ts es => .branch (f c) (Stmt.mapList f ts) (Stmt.mapList f es)
  | .loop c body => .loop (f c) (Stmt.mapList f body)
  | .suspend => .suspend
  | .wait n => .wait (f n)

def Stmt.mapList (f : ε → δ) : List (Stmt ε) → List (Stmt δ)
  | [] => []
  | s :: rest => s.map f :: Stmt.mapList f rest

end

mutual

def Stmt.mapM {m : Type → Type} [Monad m] (f : ε → m δ) : Stmt ε → m (Stmt δ)
  | .register x w => return .register x (← f w)
  | .assign xs v => return .assign xs (← f v)
  | .update x op v => return .update x op (← f v)
  | .expr v => return .expr (← f v)
  | .branch c ts es => return .branch (← f c) (← Stmt.mapListM f ts) (← Stmt.mapListM f es)
  | .loop c body => return .loop (← f c) (← Stmt.mapListM f body)
  | .suspend => return .suspend
  | .wait n => return .wait (← f n)

def Stmt.mapListM {m : Type → Type} [Monad m] (f : ε → m δ) : List (Stmt ε) → m (List (Stmt δ))
  | [] => return []
  | s :: rest => return (← s.mapM f) :: (← Stmt.mapListM f rest)

end

end Clockwork
