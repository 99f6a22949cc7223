import Clockwork.Proofs.Reduction

namespace Clockwork
set_option autoImplicit true

variable {a b c t e : Expr} {l v w : Value} {table : Substitution} {now now' : Valuation}

/-- The literals of a table are right. Nothing is said of the other entries: folding may have
changed their value, but never to a literal. -/
structure Substitution.Knows (table : Substitution) (now : Valuation) : Prop where
  folded : ∀ x e, table.get? x = some e → e.Folded
  literal : ∀ x l v, table.get? x = some (.ofValue l) → now.get? x = some v → v = l

theorem Expr.ofValue_injective (h : Expr.ofValue v = .ofValue w) : v = w := by
  have hlit := congrArg Expr.literal? h
  rw [Expr.literal?_ofValue, Expr.literal?_ofValue] at hlit
  exact Option.some.inj hlit

theorem Expr.ofValue_ne_of_literal? (h : e.literal? = none) : e ≠ .ofValue v := by
  rintro rfl
  rw [Expr.literal?_ofValue] at h
  cases h

theorem Expr.decided?_eq_ofValue (hd : BinaryOp.decided? op k b = some (.ofValue l))
    (hb : b.literal? = none) : ∃ f, op.connective? = some f ∧ ∀ y, .bool (f k y) = l := by
  obtain ⟨f, hf, ⟨he, _⟩ | ⟨d, he, hconst⟩⟩ := BinaryOp.decided?_cases hd
  · exact (Expr.ofValue_ne_of_literal? hb he.symm).elim
  · refine ⟨f, hf, fun y => ?_⟩
    rw [hconst]
    exact Expr.ofValue_injective (v := .bool d) he.symm

/-- A literal that is left of an expression is its value. -/
theorem Substitution.Knows.eq_of_reduce (h : table.Knows now) (hl : e.reduce table = .ofValue l)
    (hv : e.eval now.get? = some v) : v = l := by
  induction e generalizing l v with
  | var x =>
    rw [Expr.reduce, Expr.substitute] at hl
    cases hx : table.get? x with
    | none => rw [hx] at hl; cases l <;> cases hl
    | some e =>
      rw [hx, Option.getD_some, (h.folded x e hx).fold_eq] at hl
      rw [hl] at hx
      exact h.literal x l v hx hv
  | int n => cases hv; exact Expr.ofValue_injective (v := .int n) hl
  | bool b => cases hv; exact Expr.ofValue_injective (v := .bool b) hl
  | unary op a iha =>
    obtain ⟨x, hx, hop⟩ := Option.bind_eq_some_iff.1 hv
    change (Expr.unary op (a.reduce table)).foldRoot = .ofValue l at hl
    rcases Expr.foldRoot_unary_cases op (a.reduce table) with
      ⟨p, q, hp, hpq, hr⟩ | ⟨b, _, hb, hr⟩ | hr
    · rw [iha hp hx, hpq] at hop
      rw [hr] at hl
      cases hop
      exact Expr.ofValue_injective hl
    · have hfolded : (Expr.unary .not b).Folded := by
        rw [← hb]
        exact Expr.folded_fold _
      rw [hr] at hl
      exact (Expr.ofValue_ne_of_literal? hfolded.not_operand hl).elim
    · rw [hr] at hl
      exact (Expr.ofValue_ne_of_literal? rfl hl).elim
  | binary op a b iha ihb =>
    obtain ⟨x, hx, hrest⟩ := Option.bind_eq_some_iff.1 hv
    obtain ⟨y, hy, hop⟩ := Option.bind_eq_some_iff.1 hrest
    change (Expr.binary op (a.reduce table) (b.reduce table)).foldRoot = .ofValue l at hl
    rcases Expr.foldRoot_binary_cases op (a.reduce table) (b.reduce table) with
      ⟨p, q, z, hp, hq, hz, hr⟩ | ⟨p, r, hp, hb, hd, hr⟩ | ⟨q, r, ha, hq, hd, hr⟩ | hr
    · rw [iha hp hx, ihb hq hy, hz] at hop
      rw [hr] at hl
      cases hop
      exact Expr.ofValue_injective hl
    · rw [← hr, hl] at hd
      obtain ⟨f, hf, hconst⟩ := Expr.decided?_eq_ofValue hd hb
      rw [iha hp hx, BinaryOp.apply_connective hf, hconst] at hop
      exact (Option.some.inj hop).symm
    · rw [← hr, hl] at hd
      obtain ⟨f, hf, hconst⟩ := Expr.decided?_eq_ofValue hd ha
      rw [ihb hq hy, BinaryOp.apply_connective hf, BinaryOp.connective_comm hf, hconst] at hop
      exact (Option.some.inj hop).symm
    · rw [hr] at hl
      exact (Expr.ofValue_ne_of_literal? rfl hl).elim
  | ite c t e ihc iht ihe =>
    obtain ⟨x, hx, harm⟩ := Option.bind_eq_some_iff.1 hv
    change (Expr.ite (c.reduce table) (t.reduce table) (e.reduce table)).foldRoot = .ofValue l at hl
    rcases Expr.foldRoot_ite_cases (c.reduce table) (t.reduce table) (e.reduce table) with
      ⟨he, hr⟩ | ⟨p, hp, hr⟩ | hr
    · rw [hr] at hl
      split at harm
      · exact iht hl harm
      · rw [he] at hl
        exact ihe hl harm
    · rw [ihc hp hx] at harm
      rw [hr] at hl
      split at harm
      · next hxt => rw [if_pos hxt] at hl; exact iht hl harm
      · next hxt => rw [if_neg hxt] at hl; exact ihe hl harm
    · rw [hr] at hl
      exact (Expr.ofValue_ne_of_literal? rfl hl).elim

theorem Substitution.Knows.empty (now : Valuation) : Substitution.Knows .empty now where
  folded := nofun
  literal := nofun

theorem Substitution.Knows.insert (h : table.Knows now) (he : e.Folded)
    (hv : ∀ l, e = .ofValue l → v = l) :
    Substitution.Knows (table.insert x e) (now.insert x v) where
  folded y f hy := by
    rw [Table.get?_insert] at hy
    split at hy
    · cases hy
      exact he
    · exact h.folded y f hy
  literal y l w hy hw := by
    rw [Table.get?_insert] at hy hw
    split at hy
    · next hyx =>
      rw [if_pos hyx] at hw
      cases hw
      exact hv l (Option.some.inj hy)
    · next hyx =>
      rw [if_neg hyx] at hw
      exact h.literal y l w hy hw

section Invariants

variable {I : Substitution → Valuation → Prop} {R : Expr → Value → Prop}

/-- What a table says of the present values stays true along statements. `R` relates what is left of
an expression to the value of that expression. -/
theorem Stmt.propagateList_invariant
    (hreduce : ∀ table now (e : Expr) v, I table now → e.eval now.get? = some v →
      R (e.reduce table) v)
    (hinsert : ∀ table now x e v, I table now → R e v → I (table.insert x e) (now.insert x v))
    (h : I table now) (hexec : Stmt.execList now ss = (now', none)) :
    I (Stmt.propagateList table ss).2 now' := by
  induction ss generalizing table now with
  | nil =>
    cases hexec
    exact h
  | cons s ss ih =>
    obtain ⟨ws, hws, hexec⟩ := Stmt.execList_cons_eq hexec
    have hstep : I (s.propagate table).2 (now.insertAll ws) := by
      rcases Stmt.assignments_eq_ok hws with
        ⟨xs, e, v, rfl, hv, rfl⟩ | ⟨x, op, e, v, rfl, hv, rfl⟩ | ⟨rfl, hidle⟩
      · rw [Table.insertAll_map]
        exact List.foldl_rel h fun x _ _ _ hI => hinsert _ _ x _ _ hI (hreduce _ _ _ _ h hv)
      · exact hinsert _ _ _ _ _ h (hreduce _ _ _ _ h hv)
      · rw [(hidle.propagate table).1]
        exact h
    exact ih hstep hexec

end Invariants

theorem Stmt.propagateList_knows (h : table.Knows now)
    (hexec : Stmt.execList now ss = (now', none)) :
    (Stmt.propagateList table ss).2.Knows now' := by
  apply Stmt.propagateList_invariant
    (R := fun e v => e.Folded ∧ ∀ l, e = .ofValue l → v = l) _ _ h hexec
  · intro table now e v h hv
    exact ⟨Expr.folded_fold _, fun l hl => h.eq_of_reduce hl hv⟩
  · intro table now x e v h hR
    exact h.insert hR.1 hR.2

/-- Every name that has an entry has a value. -/
def Substitution.BoundIn (table : Substitution) (now : Valuation) : Prop :=
  ∀ x e, table.get? x = some e → ∃ v, now.get? x = some v

theorem Substitution.BoundIn.insert (h : table.BoundIn now) (x : String) (e : Expr) (v : Value) :
    Substitution.BoundIn (table.insert x e) (now.insert x v) := by
  intro y f hy
  rw [Table.get?_insert] at hy ⊢
  split
  · exact ⟨v, rfl⟩
  · next hyx =>
    rw [if_neg hyx] at hy
    exact h y f hy

theorem Stmt.propagateList_boundIn (h : table.BoundIn now)
    (hexec : Stmt.execList now ss = (now', none)) :
    (Stmt.propagateList table ss).2.BoundIn now' := by
  apply Stmt.propagateList_invariant (R := fun _ _ => True) _ _ h hexec
  · intro table now e v _ _
    trivial
  · intro table now x e v h _
    exact h.insert x e v

theorem get?_knownLiterals : (knownLiterals ss).get? x = some e ↔
    (Stmt.propagateList .empty ss).2.get? x = some e ∧ ∃ l, e = .ofValue l := by
  rw [knownLiterals, Table.get?_filterValues, Option.filter_eq_some_iff, Option.isSome_iff_exists]
  refine and_congr_right fun _ => exists_congr fun l => ?_
  constructor
  · exact Expr.eq_ofValue_of_literal?
  · rintro rfl
    exact Expr.literal?_ofValue l

theorem knownLiterals_knows (hexec : Stmt.execList now ss = (now', none)) :
    (knownLiterals ss).Knows now' := by
  have h := Stmt.propagateList_knows (.empty now) hexec
  exact ⟨fun x e he => h.folded x e (get?_knownLiterals.1 he).1,
    fun x l v he => h.literal x l v (get?_knownLiterals.1 he).1⟩

/-- Every known literal is the value of its name. -/
theorem get?_of_knownLiterals (hexec : Stmt.execList now ss = (now', none))
    (hx : (knownLiterals ss).get? x = some e) : ∃ l, e = .ofValue l ∧ now'.get? x = some l := by
  obtain ⟨hnoted, l, rfl⟩ := get?_knownLiterals.1 hx
  have hempty : Substitution.BoundIn .empty now := fun y f h => by cases h
  obtain ⟨v, hv⟩ := Stmt.propagateList_boundIn hempty hexec x _ hnoted
  have hvl := (knownLiterals_knows hexec).literal x l v hx hv
  exact ⟨l, rfl, hvl ▸ hv⟩

/-- A branch that the statements before it decide goes the decided way. -/
theorem truth_of_reduce_knownLiterals (hexec : Stmt.execList now ss = (now', none))
    (hc : (c.reduce (knownLiterals ss)).truth? = some taken) (hv : c.eval now'.get? = some v) :
    v.truth = taken := by
  obtain ⟨l, hl, htaken⟩ := Option.map_eq_some_iff.1 hc
  rw [(knownLiterals_knows hexec).eq_of_reduce (Expr.eq_ofValue_of_literal? hl) hv, htaken]

end Clockwork
