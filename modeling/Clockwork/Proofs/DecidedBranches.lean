import Clockwork.Proofs.Guards
import Clockwork.Proofs.KnownLiterals

namespace Clockwork
set_option autoImplicit true

variable {a a' b b' c c' t t' e e' : Expr} {l v w : Value} {table table' : Substitution}

namespace Expr

theorem foldRoot_unary_ofValue (h : UnaryOp.apply op v = some w) :
    (unary op (.ofValue v)).foldRoot = .ofValue w := by
  simp only [foldRoot, literal?_ofValue, h, Option.map_some, Option.getD_some]

theorem foldRoot_binary_ofValue (h : BinaryOp.apply op v w = some l) :
    (binary op (.ofValue v) (.ofValue w)).foldRoot = .ofValue l := by
  simp only [foldRoot, literal?_ofValue, h, Option.map_some, Option.getD_some]

theorem decided?_of_constant (hf : BinaryOp.connective? op = some f)
    (hconst : ∀ y, .bool (f k y) = l) (other : Expr) : op.decided? k other = some (.ofValue l) := by
  have htrue := hconst true
  have hfalse := hconst false
  cases op <;> cases hf <;> cases k <;> subst htrue <;> cases hfalse <;> rfl

/-- A connective that one literal decides has its value whatever the other operand is. -/
theorem foldRoot_decided_left (hf : BinaryOp.connective? op = some f)
    (hconst : ∀ y, .bool (f v.truth y) = l) (b : Expr) :
    (binary op (.ofValue v) b).foldRoot = .ofValue l := by
  rcases b.literal?_eq_none_or with hb | ⟨w, rfl⟩
  · simp only [foldRoot, literal?_ofValue, hb, decided?_of_constant hf hconst, Option.getD_some]
  · apply foldRoot_binary_ofValue
    rw [BinaryOp.apply_connective hf, hconst]

theorem foldRoot_decided_right (hf : BinaryOp.connective? op = some f)
    (hconst : ∀ y, .bool (f w.truth y) = l) (a : Expr) :
    (binary op a (.ofValue w)).foldRoot = .ofValue l := by
  rcases a.literal?_eq_none_or with ha | ⟨v, rfl⟩
  · simp only [foldRoot, literal?_ofValue, ha, decided?_of_constant hf hconst, Option.getD_some]
  · apply foldRoot_binary_ofValue
    rw [BinaryOp.apply_connective hf, BinaryOp.connective_comm hf, hconst]

theorem foldRoot_ite_ofValue (v : Value) (t e : Expr) :
    (ite (.ofValue v) t e).foldRoot = if v.truth then t else e := by
  simp only [foldRoot, truth?, literal?_ofValue, Option.map_some]
  split
  · next h => rw [h, ite_self]
  · rfl

/-- With a literal for every value that it needs, an expression is reduced to its value. -/
theorem reduce_of_eval {env : Env}
    (h : ∀ x w, env x = some w → table.get? x = some (.ofValue w))
    (hv : e.eval env = some v) : e.reduce table = .ofValue v := by
  induction e generalizing v with
  | var x => rw [reduce, substitute, h x v hv, Option.getD_some, (Folded.ofValue v).fold_eq]
  | int n =>
    cases hv
    rfl
  | bool b =>
    cases hv
    rfl
  | unary op a iha =>
    obtain ⟨x, hx, hop⟩ := Option.bind_eq_some_iff.1 hv
    change (unary op (a.reduce table)).foldRoot = .ofValue v
    rw [iha hx, foldRoot_unary_ofValue hop]
  | binary op a b iha ihb =>
    obtain ⟨x, hx, hrest⟩ := Option.bind_eq_some_iff.1 hv
    obtain ⟨y, hy, hop⟩ := Option.bind_eq_some_iff.1 hrest
    change (binary op (a.reduce table) (b.reduce table)).foldRoot = .ofValue v
    rw [iha hx, ihb hy, foldRoot_binary_ofValue hop]
  | ite c t e ihc iht ihe =>
    obtain ⟨x, hx, harm⟩ := Option.bind_eq_some_iff.1 hv
    change (ite (c.reduce table) (t.reduce table) (e.reduce table)).foldRoot = .ofValue v
    rw [ihc hx, foldRoot_ite_ofValue]
    split at harm
    · next htruth => rw [if_pos htruth, iht harm]
    · next htruth => rw [if_neg htruth, ihe harm]

/-- If the first expression is a literal, the second one is the same literal. -/
def KnownTo (a b : Expr) : Prop :=
  ∀ l, a = .ofValue l → b = .ofValue l

theorem KnownTo.foldRoot_unary (h : a.KnownTo a') (hfolded : a.Folded) (op : UnaryOp) :
    (unary op a).foldRoot.KnownTo (unary op a').foldRoot := by
  intro l hl
  rcases foldRoot_unary_cases op a with ⟨v, w, hv, hw, hr⟩ | ⟨b, _, rfl, hr⟩ | hr
  · rw [h v hv, foldRoot_unary_ofValue hw, ← hr, hl]
  · rw [hr] at hl
    exact (ofValue_ne_of_literal? hfolded.not_operand hl).elim
  · rw [hr] at hl
    exact (ofValue_ne_of_literal? rfl hl).elim

theorem KnownTo.foldRoot_binary (ha : a.KnownTo a') (hb : b.KnownTo b') (op : BinaryOp) :
    (binary op a b).foldRoot.KnownTo (binary op a' b').foldRoot := by
  intro l hl
  rcases foldRoot_binary_cases op a b with
    ⟨v, w, z, hv, hw, hz, hr⟩ | ⟨v, r, hv, hopen, hd, hr⟩ | ⟨w, r, hopen, hw, hd, hr⟩ | hr
  · rw [ha v hv, hb w hw, foldRoot_binary_ofValue hz, ← hr, hl]
  · rw [← hr, hl] at hd
    obtain ⟨f, hf, hconst⟩ := decided?_eq_ofValue hd hopen
    rw [ha v hv]
    exact foldRoot_decided_left hf hconst _
  · rw [← hr, hl] at hd
    obtain ⟨f, hf, hconst⟩ := decided?_eq_ofValue hd hopen
    rw [hb w hw]
    exact foldRoot_decided_right hf hconst _
  · rw [hr] at hl
    exact (ofValue_ne_of_literal? rfl hl).elim

theorem KnownTo.foldRoot_ite (hc : c.KnownTo c') (ht : t.KnownTo t') (he : e.KnownTo e') :
    (ite c t e).foldRoot.KnownTo (ite c' t' e').foldRoot := by
  intro l hl
  rcases foldRoot_ite_cases c t e with ⟨hsame, hr⟩ | ⟨v, hv, hr⟩ | hr
  · rw [hr] at hl
    rw [ht l hl, he l (hsame.symm.trans hl), foldRoot, if_pos rfl]
  · rw [hr] at hl
    rw [hc v hv, foldRoot_ite_ofValue]
    split at hl
    · next htruth => rw [if_pos htruth, ht l hl]
    · next htruth => rw [if_neg htruth, he l hl]
  · rw [hr] at hl
    exact (ofValue_ne_of_literal? rfl hl).elim

end Expr

namespace Substitution

/-- One table knows the literals of another one. Of the other entries nothing is said: what they
become depends on the values before the statements for which the tables stand. -/
structure KnownTo (table table' : Substitution) : Prop where
  folded : ∀ x e, table.get? x = some e → e.Folded
  literal : ∀ x l, table.get? x = some (.ofValue l) → table'.get? x = some (.ofValue l)

/-- An expression of which one table leaves a literal is the same literal under the other one. -/
theorem KnownTo.reduce (h : table.KnownTo table') (e : Expr) :
    (e.reduce table).KnownTo (e.reduce table') := by
  induction e with
  | var x =>
    intro l hl
    rw [Expr.reduce, Expr.substitute] at hl
    cases hx : table.get? x with
    | none => rw [hx] at hl; cases l <;> cases hl
    | some e =>
      rw [hx, Option.getD_some, (h.folded x e hx).fold_eq] at hl
      subst hl
      rw [Expr.reduce, Expr.substitute, h.literal x l hx, Option.getD_some,
        (Expr.Folded.ofValue l).fold_eq]
  | int n => exact fun _ hl => hl
  | bool b => exact fun _ hl => hl
  | unary op a iha => exact iha.foldRoot_unary (Expr.folded_fold _) op
  | binary op a b iha ihb => exact iha.foldRoot_binary ihb op
  | ite c t e ihc iht ihe => exact ihc.foldRoot_ite iht ihe

theorem KnownTo.empty (table : Substitution) : KnownTo .empty table where
  folded := nofun
  literal := nofun

theorem KnownTo.insert (h : table.KnownTo table') (hfolded : a.Folded)
    (hliteral : a.KnownTo b) (x : String) :
    KnownTo (table.insert x a) (table'.insert x b) where
  folded y e hy := by
    rw [Table.get?_insert] at hy
    split at hy
    · cases hy
      exact hfolded
    · exact h.folded y e hy
  literal y l hy := by
    rw [Table.get?_insert] at hy ⊢
    split at hy
    · next hyx => rw [if_pos hyx, hliteral l (Option.some.inj hy)]
    · next hyx => rw [if_neg hyx, h.literal y l hy]

end Substitution

theorem Stmt.propagate_knownTo (h : table.KnownTo table') (s : Stmt Expr) :
    (s.propagate table).2.KnownTo (s.propagate table').2 := by
  cases s with
  | assign xs e =>
    exact List.foldl_rel h fun x _ _ _ hknown => hknown.insert (Expr.folded_fold _) (h.reduce e) x
  | update x op e => exact h.insert (Expr.folded_fold _) (h.reduce _) x
  | register => exact h
  | expr => exact h
  | branch => exact h
  | loop => exact h
  | suspend => exact h
  | wait => exact h

theorem Stmt.propagateList_knownTo (h : table.KnownTo table') (ss : List (Stmt Expr)) :
    (Stmt.propagateList table ss).2.KnownTo (Stmt.propagateList table' ss).2 := by
  induction ss generalizing table table' with
  | nil => exact h
  | cons s ss ih => exact ih (Stmt.propagate_knownTo h s)

/-- What a block decides on its own stays decided in whatever comes before the block. -/
theorem truth?_reduce_of_knownLiterals (h : (c.reduce (knownLiterals ss)).truth? = some taken)
    (table : Substitution) : (c.reduce (Stmt.propagateList table ss).2).truth? = some taken := by
  have hblock := Stmt.propagateList_knownTo (.empty table) ss
  have hknown : (knownLiterals ss).KnownTo (Stmt.propagateList table ss).2 :=
    ⟨fun x e he => hblock.folded x e (get?_knownLiterals.1 he).1,
      fun x l he => hblock.literal x l (get?_knownLiterals.1 he).1⟩
  obtain ⟨l, hl, rfl⟩ := Option.map_eq_some_iff.1 h
  rw [hknown.reduce c l (Expr.eq_ofValue_of_literal? hl), Expr.truth?, Expr.literal?_ofValue]
  rfl

/-- The guard of a branch that is decided the way it is taken holds without any value. -/
theorem Valuation.holdAll_guardOf_decided {v : Valuation} (hc : c.truth? = some taken)
    (hfolded : c.Folded) (es : List Expr) :
    v.holdAll (guardOf (c, taken) :: es) = v.holdAll es := by
  obtain ⟨l, hl, rfl⟩ := Option.map_eq_some_iff.1 hc
  have heval : c.eval v.get? = some l := by
    rw [Expr.eq_ofValue_of_literal? hl, Expr.eval_ofValue]
  rw [holdAll_guardOf_of_some hfolded heval, beq_self_eq_true, if_pos rfl]

end Clockwork
