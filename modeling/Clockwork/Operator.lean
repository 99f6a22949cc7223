namespace Clockwork

/-- A value of the language: a signed integer of 64 bits or a truth value. -/
inductive Value where
  | int (n : Int64)
  | bool (b : Bool)
deriving DecidableEq, Repr

/-- An integer counts as true unless it is zero. -/
def Value.truth : Value → Bool
  | .int n => n != 0
  | .bool b => b

/-- The number of a value; truth values count as zero and one. -/
def Value.toInt64 : Value → Int64
  | .int n => n
  | .bool b => if b then 1 else 0

/-- The integer value of a mathematical integer, if it fits in 64 bits. -/
def Value.ofInt? (n : Int) : Option Value :=
  if Int64.minValue.toInt ≤ n ∧ n ≤ Int64.maxValue.toInt then some (.int (Int64.ofInt n)) else none

/-- The number of bits that hold every number up to `n`; at least one. -/
def bitWidth (n : Nat) : Nat :=
  n.log2 + 1

inductive UnaryOp where
  | not | invert | negate
deriving DecidableEq, Repr

inductive BinaryOp where
  | add | sub | mul | div | mod
  | bitAnd | bitOr | bitXor | shiftLeft | shiftRight
  | and | or
  | eq | ne | lt | le | gt | ge
deriving DecidableEq, Repr

def BinaryOp.glyph : BinaryOp → String
  | .add => "+"
  | .sub => "-"
  | .mul => "*"
  | .div => "/"
  | .mod => "%"
  | .bitAnd => "&"
  | .bitOr => "|"
  | .bitXor => "^"
  | .shiftLeft => "<<"
  | .shiftRight => ">>"
  | .and => "and"
  | .or => "or"
  | .eq => "=="
  | .ne => "!="
  | .lt => "<"
  | .le => "<="
  | .gt => ">"
  | .ge => ">="

def UnaryOp.glyph : UnaryOp → String
  | .not => "not "
  | .invert => "~"
  | .negate => "-"

/-- Inversion keeps the kind of its operand; negation is undefined where the result does not fit. -/
def UnaryOp.apply : UnaryOp → Value → Option Value
  | .not, v => some (.bool !v.truth)
  | .invert, .bool b => some (.bool !b)
  | .invert, .int n => some (.int (~~~n))
  | .negate, v => Value.ofInt? (-v.toInt64.toInt)

/-- A bitwise connective keeps two truth values a truth value and works on the numbers otherwise. -/
def Value.bitwise (onBool : Bool → Bool → Bool) (onInt : Int64 → Int64 → Int64) :
    Value → Value → Value
  | .bool a, .bool b => .bool (onBool a b)
  | a, b => .int (onInt a.toInt64 b.toInt64)

/-- The shift amounts for which a shift is defined. -/
def IsShift (y : Int64) : Prop := 0 ≤ y ∧ y < 64

instance (y : Int64) : Decidable (IsShift y) :=
  inferInstanceAs (Decidable (0 ≤ y ∧ y < 64))

/-- Arithmetic is exact and undefined where the result does not fit in 64 bits. Quotient and
remainder are Euclidean, and both operands of a connective have to be defined. -/
def BinaryOp.apply (op : BinaryOp) (a b : Value) : Option Value :=
  let x := a.toInt64
  let y := b.toInt64
  match op with
  | .add => Value.ofInt? (x.toInt + y.toInt)
  | .sub => Value.ofInt? (x.toInt - y.toInt)
  | .mul => Value.ofInt? (x.toInt * y.toInt)
  | .div => if y = 0 then none else Value.ofInt? (x.toInt / y.toInt)
  | .mod =>
    -- A remainder is defined exactly where the quotient is.
    if y = 0 then none
    else (Value.ofInt? (x.toInt / y.toInt)).bind fun _ => Value.ofInt? (x.toInt % y.toInt)
  | .bitAnd => some (.bitwise (· && ·) (· &&& ·) a b)
  | .bitOr => some (.bitwise (· || ·) (· ||| ·) a b)
  | .bitXor => some (.bitwise Bool.xor (· ^^^ ·) a b)
  -- A left shift drops the bits that leave the word.
  | .shiftLeft => if IsShift y then some (.int (x <<< y)) else none
  | .shiftRight => if IsShift y then some (.int (x >>> y)) else none
  | .and => some (.bool (a.truth && b.truth))
  | .or => some (.bool (a.truth || b.truth))
  | .eq => some (.bool (decide (x = y)))
  | .ne => some (.bool (decide (x ≠ y)))
  | .lt => some (.bool (decide (x < y)))
  | .le => some (.bool (decide (x ≤ y)))
  | .gt => some (.bool (decide (y < x)))
  | .ge => some (.bool (decide (y ≤ x)))

end Clockwork
