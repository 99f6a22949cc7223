import Clockwork.Operator
import Mathlib.Algebra.Group.Int.Defs
import Mathlib.Algebra.Group.Nat.Defs

namespace Clockwork
set_option autoImplicit true

/-- The integers that are numbers of the language. -/
def Representable (n : Int) : Prop := -2 ^ 63 ≤ n ∧ n < 2 ^ 63

instance (n : Int) : Decidable (Representable n) :=
  inferInstanceAs (Decidable (-2 ^ 63 ≤ n ∧ n < 2 ^ 63))

/-- The integer that a value counts as. -/
def Value.number (v : Value) : Int := v.toInt64.toInt

namespace BinaryOp

/-- The operators that calculate with the numbers of their operands. -/
def IsArithmetic (op : BinaryOp) : Prop :=
  op ∈ [add, sub, mul, div, mod, shiftLeft, shiftRight]

instance (op : BinaryOp) : Decidable op.IsArithmetic :=
  inferInstanceAs (Decidable (op ∈ _))

/-- The result of an operator over the integers. Quotient and remainder are Euclidean, a left shift
multiplies by a power of two, and a right shift divides by one and rounds down. -/
def Exact : BinaryOp → Int → Int → Int → Prop
  | .add, x, y, r => r = x + y
  | .sub, x, y, r => r = x - y
  | .mul, x, y, r => r = x * y
  | .div, x, y, q => ∃ r, x = y * q + r ∧ 0 ≤ r ∧ r < y.natAbs
  | .mod, x, y, r => ∃ q, x = y * q + r ∧ 0 ≤ r ∧ r < y.natAbs
  | .shiftLeft, x, y, r => ∃ k : Nat, k ≤ 63 ∧ y = k ∧ r = x * 2 ^ k
  | .shiftRight, x, y, r => ∃ k : Nat, k ≤ 63 ∧ y = k ∧ r * 2 ^ k ≤ x ∧ x < (r + 1) * 2 ^ k
  | _, _, _, _ => False

/-- The second operands for which an operator has no result: zero as a divisor, and shift amounts
that are negative or exceed the word. -/
def Excludes : BinaryOp → Int → Prop
  | .div, y | .mod, y => y = 0
  | .shiftLeft, y | .shiftRight, y => y < 0 ∨ 63 < y
  | _, _ => False

end BinaryOp

theorem representable_toInt (n : Int64) : Representable n.toInt :=
  ⟨n.le_toInt, n.toInt_lt⟩

theorem Value.ofInt?_eq_some_iff :
    Value.ofInt? n = some v ↔ ∃ m : Int64, v = .int m ∧ m.toInt = n := by
  have hmin : Int64.minValue.toInt = -2 ^ 63 := rfl
  have hmax : Int64.maxValue.toInt = 2 ^ 63 - 1 := rfl
  rw [Value.ofInt?, hmin, hmax]
  constructor
  · intro h
    split at h
    · next hn =>
      cases h
      exact ⟨_, rfl, Int64.toInt_ofInt_of_le hn.1 (Int.lt_of_le_sub_one hn.2)⟩
    · cases h
  · intro h
    obtain ⟨m, rfl, rfl⟩ := h
    rw [if_pos ⟨m.le_toInt, Int.le_sub_one_of_lt m.toInt_lt⟩, Int64.ofInt_toInt]

section Shifts

variable {x y : Int64} {k : Nat}

theorem isShift_iff : IsShift y ↔ ∃ k : Nat, k ≤ 63 ∧ y.toInt = k := by
  have h0 : (0 : Int64).toInt = 0 := rfl
  have h64 : (64 : Int64).toInt = 64 := rfl
  rw [IsShift, Int64.le_iff_toInt_le, Int64.lt_iff_toInt_lt, h0, h64]
  constructor
  · intro h
    exact ⟨y.toInt.toNat, by omega, by omega⟩
  · intro h
    obtain ⟨k, hk, he⟩ := h
    omega

/-- An amount below the width of a word is not reduced. -/
theorem toNat_shiftAmount (hk : k ≤ 63) (hy : y.toInt = k) : (y.toBitVec.smod 64).toNat = k := by
  have h64 : (64 : BitVec 64).toInt = 64 := rfl
  have hbits : y.toBitVec.toInt = k := hy
  have hmod : (y.toBitVec.smod 64).toInt = k := by
    rw [BitVec.toInt_smod, h64, hbits, Int.fmod_eq_emod_of_nonneg _ (by decide)]
    exact Int.emod_eq_of_lt (by omega) (by omega)
  have hsign := BitVec.toInt_eq_toNat_cond (y.toBitVec.smod 64)
  split at hsign <;> omega

theorem toInt_shiftLeft (hk : k ≤ 63) (hy : y.toInt = k) :
    (x <<< y).toInt = (x.toInt * 2 ^ k).bmod (2 ^ 64) := by
  change (x <<< y).toBitVec.toInt = (x.toBitVec.toInt * 2 ^ k).bmod (2 ^ 64)
  rw [Int64.toBitVec_shiftLeft, BitVec.shiftLeft_eq', toNat_shiftAmount hk hy,
    BitVec.toInt_shiftLeft, Nat.shiftLeft_eq, BitVec.toInt_eq_toNat_bmod, Int.bmod_mul_bmod]
  push_cast
  rfl

theorem toInt_shiftRight (hk : k ≤ 63) (hy : y.toInt = k) :
    (x >>> y).toInt = x.toInt / 2 ^ k := by
  change (x >>> y).toBitVec.toInt = x.toBitVec.toInt / 2 ^ k
  rw [Int64.toBitVec_shiftRight, BitVec.sshiftRight', toNat_shiftAmount hk hy,
    BitVec.toInt_sshiftRight, Int.shiftRight_eq_div_pow]
  push_cast
  rfl

end Shifts

theorem divMod_of_euclidean {x y q r : Int} (hx : x = y * q + r) (h0 : 0 ≤ r)
    (hr : r < y.natAbs) : y ≠ 0 ∧ x / y = q ∧ x % y = r := by
  have hsum : r + y * q = x := by rw [hx, Int.add_comm]
  rcases Int.lt_trichotomy y 0 with hy | hy | hy
  · exact ⟨by omega, (Int.ediv_emod_unique' hy).2 ⟨hsum, h0, by omega⟩⟩
  · omega
  · exact ⟨by omega, (Int.ediv_emod_unique hy).2 ⟨hsum, h0, by omega⟩⟩

namespace BinaryOp

section Results

variable {x y r r' : Int} {op : BinaryOp}

theorem exact_div_iff : Exact .div x y r ↔ y ≠ 0 ∧ r = x / y := by
  constructor
  · intro h
    obtain ⟨rest, hx, h0, hrest⟩ := h
    obtain ⟨hy, hdiv, _⟩ := divMod_of_euclidean hx h0 hrest
    exact ⟨hy, hdiv.symm⟩
  · intro h
    obtain ⟨hy, rfl⟩ := h
    exact ⟨x % y, (Int.mul_ediv_add_emod x y).symm, Int.emod_nonneg x hy, Int.emod_lt x hy⟩

theorem exact_mod_iff : Exact .mod x y r ↔ y ≠ 0 ∧ r = x % y := by
  constructor
  · intro h
    obtain ⟨q, hx, h0, hr⟩ := h
    obtain ⟨hy, _, hmod⟩ := divMod_of_euclidean hx h0 hr
    exact ⟨hy, hmod.symm⟩
  · intro h
    obtain ⟨hy, rfl⟩ := h
    exact ⟨x / y, (Int.mul_ediv_add_emod x y).symm, Int.emod_nonneg x hy, Int.emod_lt x hy⟩

theorem exact_shiftRight_iff :
    Exact .shiftRight x y r ↔ ∃ k : Nat, k ≤ 63 ∧ y = k ∧ r = x / 2 ^ k := by
  have hfloor (k : Nat) : r = x / 2 ^ k ↔ r * 2 ^ k ≤ x ∧ x < (r + 1) * 2 ^ k := by
    have hpow : (0 : Int) < 2 ^ k := Int.pow_pos (by decide)
    rw [← Int.le_ediv_iff_mul_le hpow, ← Int.ediv_lt_iff_lt_mul hpow]
    omega
  simp only [Exact, hfloor]

theorem Exact.unique (h : op.Exact x y r) (h' : op.Exact x y r') : r = r' := by
  cases op with
  | add => exact h.trans h'.symm
  | sub => exact h.trans h'.symm
  | mul => exact h.trans h'.symm
  | div => exact (exact_div_iff.1 h).2.trans (exact_div_iff.1 h').2.symm
  | mod => exact (exact_mod_iff.1 h).2.trans (exact_mod_iff.1 h').2.symm
  | shiftLeft =>
    obtain ⟨k, _, hk, rfl⟩ := h
    obtain ⟨l, _, hl, rfl⟩ := h'
    rw [Int.ofNat_inj.1 (hk.symm.trans hl)]
  | shiftRight =>
    obtain ⟨k, _, hk, rfl⟩ := exact_shiftRight_iff.1 h
    obtain ⟨l, _, hl, rfl⟩ := exact_shiftRight_iff.1 h'
    rw [Int.ofNat_inj.1 (hk.symm.trans hl)]
  | _ => exact h.elim

/-- An excluded operand leaves an operator without a result. -/
theorem Excludes.not_exact (h : op.Excludes y) (x : Int) : ¬ op.Exact x y r := by
  intro hr
  cases op with
  | div => exact (exact_div_iff.1 hr).1 h
  | mod => exact (exact_mod_iff.1 hr).1 h
  | shiftLeft =>
    obtain ⟨k, hk, rfl, _⟩ := hr
    simp only [Excludes] at h
    omega
  | shiftRight =>
    obtain ⟨k, hk, rfl, _⟩ := hr
    simp only [Excludes] at h
    omega
  | _ => exact h.elim

end Results

section Values

variable {a b v : Value} {op : BinaryOp}

theorem toInt64_eq_zero_iff : b.toInt64 = 0 ↔ b.number = 0 :=
  Int64.toInt_inj.symm

theorem apply_div_iff :
    div.apply a b = some v ↔ ∃ n : Int64, v = .int n ∧ Exact .div a.number b.number n.toInt := by
  simp only [apply, Option.ite_none_left_eq_some, toInt64_eq_zero_iff, Value.ofInt?_eq_some_iff,
    exact_div_iff]
  constructor
  · intro h
    obtain ⟨hb, n, hv, hn⟩ := h
    exact ⟨n, hv, hb, hn⟩
  · intro h
    obtain ⟨n, hv, hb, hn⟩ := h
    exact ⟨hb, n, hv, hn⟩

/-- A remainder is defined where the quotient is a number as well. -/
theorem apply_mod_iff :
    mod.apply a b = some v ↔ ∃ n : Int64, v = .int n ∧ Exact .mod a.number b.number n.toInt ∧
      ∃ q : Int64, Exact .div a.number b.number q.toInt := by
  simp only [apply, Option.ite_none_left_eq_some, toInt64_eq_zero_iff, Option.bind_eq_some_iff,
    Value.ofInt?_eq_some_iff, exact_mod_iff, exact_div_iff]
  constructor
  · intro h
    obtain ⟨hb, _, ⟨q, _, hq⟩, n, hv, hn⟩ := h
    exact ⟨n, hv, ⟨hb, hn⟩, q, hb, hq⟩
  · intro h
    obtain ⟨n, hv, ⟨hb, hn⟩, q, _, hq⟩ := h
    exact ⟨hb, .int q, ⟨q, rfl, hq⟩, n, hv, hn⟩

theorem apply_shiftRight_iff : shiftRight.apply a b = some v ↔
    ∃ n : Int64, v = .int n ∧ Exact .shiftRight a.number b.number n.toInt := by
  simp only [apply, Option.ite_none_right_eq_some, isShift_iff, Option.some.injEq,
    exact_shiftRight_iff]
  constructor
  · intro h
    obtain ⟨⟨k, hk, hb⟩, rfl⟩ := h
    exact ⟨_, rfl, k, hk, hb, toInt_shiftRight hk hb⟩
  · intro h
    obtain ⟨n, rfl, k, hk, hb, hn⟩ := h
    rw [Value.number, ← toInt_shiftRight hk hb, Int64.toInt_inj] at hn
    exact ⟨⟨k, hk, hb⟩, congrArg Value.int hn.symm⟩

/-- A left shift keeps the low bits of the exact result. -/
theorem apply_shiftLeft (h : Exact .shiftLeft a.number b.number r) :
    ∃ n : Int64, shiftLeft.apply a b = some (.int n) ∧ n.toInt = r.bmod (2 ^ 64) := by
  obtain ⟨k, hk, hb, rfl⟩ := h
  exact ⟨_, if_pos (isShift_iff.2 ⟨k, hk, hb⟩), toInt_shiftLeft hk hb⟩

theorem apply_shiftLeft_excluded (h : Excludes .shiftLeft b.number) :
    shiftLeft.apply a b = none := by
  apply if_neg
  intro hshift
  obtain ⟨k, hk, hb⟩ := isShift_iff.1 hshift
  exact h.not_exact a.number ⟨k, hk, hb, rfl⟩

theorem apply_eq_some_iff (hop : op.IsArithmetic) (hne : op ≠ shiftLeft) :
    op.apply a b = some v ↔ ∃ n : Int64, v = .int n ∧ op.Exact a.number b.number n.toInt ∧
      (op = mod → ∃ q : Int64, Exact .div a.number b.number q.toInt) := by
  simp only [IsArithmetic, List.mem_cons, List.not_mem_nil, or_false] at hop
  rcases hop with rfl | rfl | rfl | rfl | rfl | rfl | rfl <;>
    simp only [reduceCtorEq, false_implies, true_implies, and_true]
  · exact Value.ofInt?_eq_some_iff
  · exact Value.ofInt?_eq_some_iff
  · exact Value.ofInt?_eq_some_iff
  · exact apply_div_iff
  · exact apply_mod_iff
  · exact (hne rfl).elim
  · exact apply_shiftRight_iff

end Values

/-- What an operator gives is the exact result. It gives nothing where that is no number of the
language and for an operand that it excludes. -/
structure Checked (op : BinaryOp) (a b : Value) : Prop where
  exact : ∀ v, op.apply a b = some v →
    ∃ n : Int64, v = .int n ∧ op.Exact a.number b.number n.toInt
  overflow : ∀ r, op.Exact a.number b.number r → ¬ Representable r → op.apply a b = none
  excluded : op.Excludes b.number → op.apply a b = none

theorem checked_of_ne_shiftLeft (hop : op.IsArithmetic) (hne : op ≠ shiftLeft) (a b : Value) :
    op.Checked a b := by
  have hexact (v : Value) (h : op.apply a b = some v) :
      ∃ n : Int64, v = .int n ∧ op.Exact a.number b.number n.toInt := by
    obtain ⟨n, hv, hn, _⟩ := (apply_eq_some_iff hop hne).1 h
    exact ⟨n, hv, hn⟩
  constructor
  case exact => exact hexact
  case overflow =>
    intro r hr hno
    apply Option.eq_none_iff_forall_ne_some.2
    intro v hv
    obtain ⟨n, _, hn⟩ := hexact v hv
    rw [hr.unique hn] at hno
    exact hno (representable_toInt n)
  case excluded =>
    intro hexcluded
    apply Option.eq_none_iff_forall_ne_some.2
    intro v hv
    obtain ⟨n, _, hn⟩ := hexact v hv
    exact hexcluded.not_exact a.number hn

end BinaryOp

theorem bmod_eq_self_iff {r : Int} : r.bmod (2 ^ 64) = r ↔ Representable r := by
  constructor
  · intro h
    rw [← h]
    exact ⟨Int.le_bmod (by decide), Int.bmod_lt (by decide)⟩
  · intro h
    exact Int.bmod_eq_of_le h.1 h.2

/-- Each arithmetic operator gives the exact result wherever it is a number, but a remainder asks
the same of the quotient, and a left shift drops the bits that leave the word. -/
theorem arithmetic_checked (a b : Value) :
    ((∀ v, UnaryOp.negate.apply a = some v ↔ ∃ n : Int64, v = .int n ∧ n.toInt = -a.number) ∧
      (¬ Representable (-a.number) → UnaryOp.negate.apply a = none)) ∧
    (∀ op : BinaryOp, op.IsArithmetic → op ≠ .shiftLeft → op.Checked a b ∧
      ∀ n : Int64, op.Exact a.number b.number n.toInt →
        (op = .mod → ∃ q : Int64, BinaryOp.div.Exact a.number b.number q.toInt) →
        op.apply a b = some (.int n)) ∧
    (BinaryOp.shiftLeft.Excludes b.number → BinaryOp.shiftLeft.apply a b = none) ∧
    ∀ r, BinaryOp.shiftLeft.Exact a.number b.number r →
      ∃ n : Int64, BinaryOp.shiftLeft.apply a b = some (.int n) ∧ n.toInt = r.bmod (2 ^ 64) ∧
        (n.toInt = r ↔ Representable r) := by
  have hnegate (v : Value) : UnaryOp.negate.apply a = some v ↔
      ∃ n : Int64, v = .int n ∧ n.toInt = -a.number := Value.ofInt?_eq_some_iff
  refine ⟨⟨hnegate, ?_⟩, ?_, ?_, ?_⟩
  · intro hno
    apply Option.eq_none_iff_forall_ne_some.2
    intro v hv
    obtain ⟨n, _, hn⟩ := (hnegate v).1 hv
    exact hno (hn ▸ representable_toInt n)
  · intro op hop hne
    refine ⟨BinaryOp.checked_of_ne_shiftLeft hop hne a b, ?_⟩
    intro n hn hquotient
    exact (BinaryOp.apply_eq_some_iff hop hne).2 ⟨n, rfl, hn, hquotient⟩
  · exact BinaryOp.apply_shiftLeft_excluded
  · intro r hr
    obtain ⟨n, happly, hn⟩ := BinaryOp.apply_shiftLeft hr
    exact ⟨n, happly, hn, hn ▸ bmod_eq_self_iff⟩

theorem arithmetic_checked_extremes :
    UnaryOp.negate.apply (.int Int64.minValue) = none ∧
    (BinaryOp.div.Exact (-2 ^ 63) (-1) (2 ^ 63) ∧
      BinaryOp.div.apply (.int Int64.minValue) (.int (-1)) = none) ∧
    (BinaryOp.mod.Exact (-7) (-2) 1 ∧
      BinaryOp.mod.apply (.int (-7)) (.int (-2)) = some (.int 1)) ∧
    (BinaryOp.shiftLeft.Excludes 64 ∧ BinaryOp.shiftLeft.apply (.int 0) (.int 64) = none) ∧
    ∃ n : Int64, BinaryOp.shiftLeft.apply (.int (-3)) (.int 62) = some (.int n) ∧
      n.toInt = (-3 * 2 ^ 62 : Int).bmod (2 ^ 64) ∧ ¬ Representable (-3 * 2 ^ 62) := by
  have hexact : BinaryOp.div.Exact (-2 ^ 63) (-1) (2 ^ 63) := ⟨0, by decide⟩
  have hrest : BinaryOp.mod.Exact (-7) (-2) 1 := ⟨4, by decide⟩
  have hquotient : BinaryOp.div.Exact (-7) (-2) 4 := ⟨1, by decide⟩
  have hexcludes : BinaryOp.shiftLeft.Excludes 64 := .inr (by decide)
  obtain ⟨⟨_, hnegate⟩, hleast, _⟩ := arithmetic_checked (.int Int64.minValue) (.int (-1))
  obtain ⟨hdiv, _⟩ := hleast .div (by decide) (by decide)
  obtain ⟨_, hseven, _⟩ := arithmetic_checked (.int (-7)) (.int (-2))
  obtain ⟨_, hmod⟩ := hseven .mod (by decide) (by decide)
  obtain ⟨_, _, hwide, _⟩ := arithmetic_checked (.int 0) (.int 64)
  obtain ⟨_, _, _, hshift⟩ := arithmetic_checked (.int (-3)) (.int 62)
  obtain ⟨n, happly, hn, _⟩ := hshift (-3 * 2 ^ 62) ⟨62, by decide⟩
  exact ⟨hnegate (by decide), ⟨hexact, hdiv.overflow _ hexact (by decide)⟩,
    ⟨hrest, hmod 1 hrest fun _ => ⟨4, hquotient⟩⟩, ⟨hexcludes, hwide hexcludes⟩, n, happly, hn,
    by decide⟩

/-- A left shift loses the bits that leave the word. -/
theorem shiftLeft_not_checked :
    BinaryOp.shiftLeft.apply (.int 1) (.int 63) = some (.int Int64.minValue) ∧
      ¬ BinaryOp.shiftLeft.Checked (.int 1) (.int 63) := by
  have hresult : BinaryOp.shiftLeft.apply (.int 1) (.int 63) = some (.int Int64.minValue) := by
    decide
  refine ⟨hresult, ?_⟩
  intro hchecked
  have hnone := hchecked.overflow (2 ^ 63) ⟨63, by decide⟩ (by decide)
  rw [hnone] at hresult
  cases hresult

end Clockwork
