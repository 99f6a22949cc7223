import Clockwork.Proofs.DecidedBranches
import Clockwork.Proofs.SharedNames
import Clockwork.Proofs.SharedValues
import Mathlib.Logic.Relation

namespace Clockwork
set_option autoImplicit true

namespace Expr

variable {a b c e : Expr}

/-- There is nothing to simplify at the root: no defined operation on literals, no double `not`, no
connective with a literal operand, and no conditional that is one of its arms. -/
def Irreducible : Expr → Prop
  | var _ | int _ | bool _ => True
  | unary op a =>
    (∀ v, a.literal? = some v → op.apply v = none) ∧ (op = .not → ∀ b, a ≠ unary .not b)
  | binary op a b =>
    (∀ v w, a.literal? = some v → b.literal? = some w → op.apply v w = none) ∧
      (op = .and ∨ op = .or → a.literal? = none ∧ b.literal? = none)
  | ite c t e => c.literal? = none ∧ t ≠ e

theorem size_lt_of_mem_children (h : a ∈ e.children) : a.size < e.size := by
  cases e with
  | var => cases h
  | int => cases h
  | bool => cases h
  | unary op b =>
    cases List.mem_singleton.1 h
    rw [size]
    omega
  | binary op b c =>
    simp only [children, List.mem_cons, List.not_mem_nil, or_false] at h
    rcases h with rfl | rfl <;> simp only [size] <;> omega
  | ite c t e =>
    simp only [children, List.mem_cons, List.not_mem_nil, or_false] at h
    rcases h with rfl | rfl | rfl <;> simp only [size] <;> omega

theorem ne_of_mem_children (h : a ∈ e.children) : a ≠ e := by
  rintro rfl
  exact Nat.lt_irrefl _ (size_lt_of_mem_children h)

theorem irreducible_unary (h : (unary op a).foldRoot = unary op a) :
    (unary op a).Irreducible := by
  constructor
  · intro v hv
    cases hw : op.apply v with
    | none => rfl
    | some w =>
      rw [eq_ofValue_of_literal? hv, foldRoot_unary_ofValue hw] at h
      exact absurd h.symm (ofValue_ne_of_literal? rfl)
  · rintro rfl b rfl
    have hfolded : b = unary .not (unary .not b) := h
    have hinner : b.size < (unary .not b).size :=
      size_lt_of_mem_children (List.mem_singleton.2 rfl)
    have houter : (unary .not b).size < (unary .not (unary .not b)).size :=
      size_lt_of_mem_children (List.mem_singleton.2 rfl)
    rw [← hfolded] at houter
    exact absurd hinner (Nat.lt_asymm houter)

/-- A connective that a literal operand decides is not what it is decided to be. -/
theorem decided?_ne_self (hother : b ∈ e.children) (hopen : e.literal? = none) :
    BinaryOp.decided? op k b ≠ some e := by
  intro hd
  obtain ⟨f, _, ⟨rfl, _⟩ | ⟨d, rfl, _⟩⟩ := BinaryOp.decided?_cases hd
  · exact ne_of_mem_children hother rfl
  · cases hopen

theorem exists_decided? (hop : op = .and ∨ op = .or) (k : Bool) (b : Expr) :
    ∃ r, BinaryOp.decided? op k b = some r := by
  rcases hop with rfl | rfl <;> cases k <;> exact ⟨_, rfl⟩

theorem irreducible_binary (h : (binary op a b).foldRoot = binary op a b) :
    (binary op a b).Irreducible := by
  have hundefined (v w : Value) (hv : a.literal? = some v) (hw : b.literal? = some w) :
      op.apply v w = none := by
    cases hz : op.apply v w with
    | none => rfl
    | some z =>
      rw [eq_ofValue_of_literal? hv, eq_ofValue_of_literal? hw, foldRoot_binary_ofValue hz] at h
      exact absurd h.symm (ofValue_ne_of_literal? rfl)
  refine ⟨hundefined, ?_⟩
  intro hop
  have hdefined (v w : Value) : op.apply v w ≠ none := by
    rcases hop with rfl | rfl <;> exact Option.some_ne_none _
  cases hv : a.literal? with
  | none =>
    cases hw : b.literal? with
    | none => exact ⟨rfl, rfl⟩
    | some w =>
      obtain ⟨r, hr⟩ := exists_decided? hop w.truth a
      simp only [foldRoot, hv, hw, hr, Option.getD_some] at h
      exact absurd (h ▸ hr) (decided?_ne_self (by simp [children]) rfl)
  | some v =>
    cases hw : b.literal? with
    | none =>
      obtain ⟨r, hr⟩ := exists_decided? hop v.truth b
      simp only [foldRoot, hv, hw, hr, Option.getD_some] at h
      exact absurd (h ▸ hr) (decided?_ne_self (by simp [children]) rfl)
    | some w => exact absurd (hundefined v w hv hw) (hdefined v w)

theorem irreducible_ite (h : (ite c a b).foldRoot = ite c a b) : (ite c a b).Irreducible := by
  have htrue : a ≠ ite c a b := ne_of_mem_children (by simp [children])
  have hfalse : b ≠ ite c a b := ne_of_mem_children (by simp [children])
  constructor
  · rcases c.literal?_eq_none_or with hc | ⟨v, rfl⟩
    · exact hc
    · rw [foldRoot_ite_ofValue] at h
      split at h
      · exact absurd h htrue
      · exact absurd h hfalse
  · rintro rfl
    rw [foldRoot, if_pos rfl] at h
    exact absurd h htrue

theorem Folded.irreducible (h : e.Folded) : e.Irreducible := by
  cases e with
  | var => trivial
  | int => trivial
  | bool => trivial
  | unary => exact irreducible_unary h.2
  | binary => exact irreducible_binary h.2.2
  | ite => exact irreducible_ite h.2.2.2

theorem Folded.of_mem_children (h : e.Folded) (ha : a ∈ e.children) : a.Folded := by
  cases e with
  | var => cases ha
  | int => cases ha
  | bool => cases ha
  | unary op b =>
    cases List.mem_singleton.1 ha
    exact h.1
  | binary op b c =>
    simp only [children, List.mem_cons, List.not_mem_nil, or_false] at ha
    rcases ha with rfl | rfl
    · exact h.1
    · exact h.2.1
  | ite c t e =>
    simp only [children, List.mem_cons, List.not_mem_nil, or_false] at ha
    rcases ha with rfl | rfl | rfl
    · exact h.1
    · exact h.2.1
    · exact h.2.2.1

theorem vars_ofValue (v : Value) : (ofValue v).vars = [] := by
  cases v <;> rfl

theorem mem_vars_of_decided? (hd : BinaryOp.decided? op k b = some e) (hs : s ∈ e.vars) :
    s ∈ b.vars := by
  obtain ⟨f, _, ⟨rfl, _⟩ | ⟨d, rfl, _⟩⟩ := BinaryOp.decided?_cases hd
  · exact hs
  · cases hs

theorem mem_vars_of_foldRoot (hs : s ∈ e.foldRoot.vars) : s ∈ e.vars := by
  cases e with
  | var => exact hs
  | int => exact hs
  | bool => exact hs
  | unary op a =>
    rcases foldRoot_unary_cases op a with ⟨v, w, _, _, hr⟩ | ⟨b, _, rfl, hr⟩ | hr
    · rw [hr, vars_ofValue] at hs
      cases hs
    · rw [hr] at hs
      exact hs
    · rw [hr] at hs
      exact hs
  | binary op a b =>
    rw [vars, List.mem_append]
    rcases foldRoot_binary_cases op a b with
      ⟨v, w, z, _, _, _, hr⟩ | ⟨v, r, _, _, hd, hr⟩ | ⟨w, r, _, _, hd, hr⟩ | hr
    · rw [hr, vars_ofValue] at hs
      cases hs
    · rw [hr] at hs
      exact .inr (mem_vars_of_decided? hd hs)
    · rw [hr] at hs
      exact .inl (mem_vars_of_decided? hd hs)
    · rw [hr, vars, List.mem_append] at hs
      exact hs
  | ite c t e =>
    have harms : s ∈ t.vars ∨ s ∈ e.vars → s ∈ (ite c t e).vars := by
      simp only [vars, List.mem_append]
      exact Or.imp_left .inr
    rcases foldRoot_ite_cases c t e with ⟨_, hr⟩ | ⟨v, _, hr⟩ | hr
    · rw [hr] at hs
      exact harms (.inl hs)
    · rw [hr] at hs
      split at hs
      · exact harms (.inl hs)
      · exact harms (.inr hs)
    · rw [hr] at hs
      exact hs

theorem mem_vars_of_fold (hs : s ∈ e.fold.vars) : s ∈ e.vars := by
  induction e with
  | var => exact hs
  | int => exact hs
  | bool => exact hs
  | unary op a iha =>
    have hroot : s ∈ (unary op a.fold).vars := mem_vars_of_foldRoot hs
    exact iha hroot
  | binary op a b iha ihb =>
    have hroot := mem_vars_of_foldRoot hs
    simp only [vars, List.mem_append] at hroot ⊢
    exact hroot.imp iha ihb
  | ite c t e ihc iht ihe =>
    have hroot := mem_vars_of_foldRoot hs
    simp only [vars, List.mem_append] at hroot ⊢
    exact hroot.imp (Or.imp ihc iht) ihe

end Expr

namespace Pool

variable {p q : Pool} {r a s t : ExprRef} {x y : Expr}

theorem mem_distinctVars (hp : p.WellFormed) (h : p.Denotes r x) :
    n ∈ p.distinctVars r ↔ n ∈ x.vars := by
  rw [distinctVars, collectVars_eq hp, mem_addAllNew, varsOf_of_denotes hp h]
  simp only [List.not_mem_nil, false_or]

/-- The second expression is an operand of the first one. -/
def HasOperand (p : Pool) (r a : ExprRef) : Prop :=
  ∃ e, p.get? r = some e ∧ a ∈ e.operands

/-- The second expression is the first one or occurs in it. -/
def Contains (p : Pool) : ExprRef → ExprRef → Prop :=
  Relation.ReflTransGen p.HasOperand

theorem Denotes.of_hasOperand (hp : p.WellFormed) (h : p.Denotes r x) (ha : p.HasOperand r a) :
    ∃ y ∈ x.children, p.Denotes a y := by
  obtain ⟨e, he, hmem⟩ := ha
  have hread := List.mem_map_of_mem (f := p.expr?) hmem
  rw [h.operands hp he] at hread
  obtain ⟨y, hy, hay⟩ := List.mem_map.1 hread
  exact ⟨y, hy, (expr?_eq_some hp).1 hay.symm⟩

/-- There is nothing to simplify anywhere in the expression. -/
def Normal (p : Pool) (r : ExprRef) : Prop :=
  ∀ s, p.Contains r s → ∃ y, p.expr? s = some y ∧ y.Irreducible

theorem Normal.of_contains (h : p.Normal r) (hs : p.Contains r s) : p.Normal s :=
  fun a ha => h a (hs.trans ha)

/-- What is folded consists of folded expressions. -/
theorem Denotes.folded_of_contains (hp : p.WellFormed) (h : p.Denotes r x) (hx : x.Folded)
    (hs : p.Contains r s) : ∃ y, p.Denotes s y ∧ y.Folded := by
  induction hs with
  | refl => exact ⟨x, h, hx⟩
  | tail _ hoperand ih =>
    obtain ⟨y, hy, hfolded⟩ := ih
    obtain ⟨z, hz, hdenotes⟩ := hy.of_hasOperand hp hoperand
    exact ⟨z, hdenotes, hfolded.of_mem_children hz⟩

theorem Denotes.normal (hp : p.WellFormed) (h : p.Denotes r x) (hx : x.Folded) : p.Normal r := by
  intro s hs
  obtain ⟨y, hy, hfolded⟩ := h.folded_of_contains hp hx hs
  exact ⟨y, hy.expr? hp, hfolded.irreducible⟩

section Unchanged

variable {change : Visitor Pool ExprRef} {m : Renewal}

/-- Nothing has been added to the pool, and every expression met so far has become itself. -/
def Renewal.Unchanged (p : Pool) (m : Renewal) : Prop :=
  m.pool = p ∧ ∀ a b, m.results.get? a = some b → b = a

/-- A renewal that gives a result without any change. -/
def Leaves (p : Pool) (f : StateM Renewal α) (v : α) : Prop :=
  ∀ m : Renewal, m.Unchanged p → ∃ m', m'.Unchanged p ∧ f.run m = (v, m')

theorem Leaves.pure (p : Pool) (v : α) : p.Leaves (pure v) v :=
  fun m hm => ⟨m, hm, rfl⟩

theorem Leaves.bind {f : StateM Renewal α} {g : α → StateM Renewal β} (hf : p.Leaves f v)
    (hg : p.Leaves (g v) w) : p.Leaves (f >>= g) w := by
  intro m hm
  obtain ⟨m₁, hm₁, hrun₁⟩ := hf m hm
  obtain ⟨m₂, hm₂, hrun₂⟩ := hg m₁ hm₁
  refine ⟨m₂, hm₂, ?_⟩
  rw [StateT.run_bind, hrun₁]
  exact hrun₂

theorem leaves_mapM {f : ExprRef → StateM Renewal ExprRef} {ts : List ExprRef}
    (h : ∀ a ∈ ts, p.Leaves (f a) a) : p.Leaves (ts.mapM f) ts := by
  induction ts with
  | nil => exact .pure p []
  | cons a ts ih =>
    obtain ⟨ha, hts⟩ := List.forall_mem_cons.1 h
    rw [List.mapM_cons]
    exact ha.bind ((ih hts).bind (.pure p _))

theorem leaves_note (h : (f : StateM Pool ExprRef).run p = (r, p)) :
    p.Leaves (Renewal.note r f) r := by
  rintro ⟨pool, results⟩ ⟨rfl, hresults⟩
  refine ⟨⟨pool, results.insert r r⟩, ⟨rfl, ?_⟩, ?_⟩
  · intro a b hab
    rw [Table.get?_insert] at hab
    split at hab
    · next har =>
      cases hab
      exact har.symm
    · exact hresults a b hab
  · have hnote : (Renewal.note r f).run ⟨pool, results⟩ =
        ((f.run pool).1, ⟨(f.run pool).2, results.insert r (f.run pool).1⟩) := rfl
    rw [hnote, h]

/-- By induction on the depth, as for any renewal; here the pool stays the same all along. -/
theorem leaves_renewWithin
    (h : ∀ a e, p.Contains r a → p.get? a = some e → (change a e e.operands).run p = (a, p))
    (depth : Nat) : p.Leaves (renewWithin change depth r) r := by
  induction depth generalizing r with
  | zero => exact .pure p r
  | succ depth ih =>
    intro m hm
    cases hknown : m.results.get? r with
    | some t =>
      cases hm.2 r t hknown
      exact ⟨m, hm, run_renewWithin_known change hknown depth⟩
    | none =>
      cases hget : m.pool.get? r with
      | none =>
        refine ⟨m, hm, ?_⟩
        simp only [renewWithin, StateT.run_bind, StateT.run_get, pure_bind, hknown, hget]
        rfl
      | some e =>
        rw [run_renewWithin_new change hknown hget depth]
        rw [hm.1] at hget
        have hoperands (a : ExprRef) (ha : a ∈ e.operands) :
            p.Leaves (renewWithin change depth a) a := by
          apply ih
          intro b f hb
          exact h b f (.head ⟨e, hget, ha⟩ hb)
        exact (leaves_mapM hoperands).bind (leaves_note (h r e .refl hget)) m hm

/-- A change that keeps every expression that occurs leaves the pool as it is. -/
theorem run_renew_eq
    (h : ∀ a e, p.Contains r a → p.get? a = some e → (change a e e.operands).run p = (a, p)) :
    (renew change r).run p = (r, p) := by
  have hempty : (Renewal.mk p .empty).Unchanged p := ⟨rfl, fun a b hab => by cases hab⟩
  obtain ⟨m, ⟨hpool, _⟩, hrun⟩ := leaves_renewWithin h (r.index + 1) _ hempty
  have hrenew : (renew change r).run p =
      (((renewWithin change (r.index + 1) r).run ⟨p, .empty⟩).1,
        ((renewWithin change (r.index + 1) r).run ⟨p, .empty⟩).2.pool) := rfl
  rw [hrenew, hrun, hpool]

end Unchanged

theorem run_decided_eq (hop : ¬ (op = .and ∨ op = .or)) (k : Bool) :
    (decided r op k a).run p = (r, p) := by
  cases op with
  | and => exact absurd (.inl rfl) hop
  | or => exact absurd (.inr rfl) hop
  | _ => rfl

theorem run_foldRoot_unary (hr : p.Denotes r (.unary op x)) (hx : (Expr.unary op x).Irreducible) :
    (foldRoot r).run p = (r, p) := by
  obtain ⟨hundefined, hnot⟩ := hx
  cases hr with
  | unary h ha =>
    simp only [foldRoot, StateT.run_bind, StateT.run_get, pure_bind, h, ha.literal?]
    cases hv : x.literal? with
    | some v =>
      simp only [hundefined v hv]
      rfl
    | none =>
      cases op with
      | not =>
        cases ha with
        | @unary _ inner _ _ h' _ =>
          cases inner with
          | not => exact absurd rfl (hnot rfl _)
          | _ =>
            simp only [h']
            rfl
        | var h' _ | int h' | bool h' | binary h' _ _ | ite h' _ _ _ =>
          simp only [h']
          rfl
      | _ => rfl

theorem run_foldRoot_binary (hr : p.Denotes r (.binary op x y))
    (hx : (Expr.binary op x y).Irreducible) : (foldRoot r).run p = (r, p) := by
  obtain ⟨hundefined, hconnective⟩ := hx
  cases hr with
  | binary h ha hb =>
    simp only [foldRoot, StateT.run_bind, StateT.run_get, pure_bind, h, ha.literal?, hb.literal?]
    by_cases hop : op = .and ∨ op = .or
    · obtain ⟨hv, hw⟩ := hconnective hop
      simp only [hv, hw]
      rfl
    · cases hv : x.literal? with
      | none =>
        cases hw : y.literal? with
        | none => rfl
        | some w => exact run_decided_eq hop w.truth
      | some v =>
        cases hw : y.literal? with
        | none => exact run_decided_eq hop v.truth
        | some w =>
          simp only [hundefined v w hv hw]
          rfl

theorem run_foldRoot_ite (hp : p.WellFormed) (hr : p.Denotes r (.ite x y z))
    (hx : (Expr.ite x y z).Irreducible) : (foldRoot r).run p = (r, p) := by
  obtain ⟨hopen, harms⟩ := hx
  cases hr with
  | @ite _ c t e _ _ _ h hc ht he =>
    -- Arms are compared as references, and equal ones would be one expression.
    have hne : t ≠ e := by
      rintro rfl
      exact harms (ht.unique hp he)
    simp only [foldRoot, StateT.run_bind, StateT.run_get, pure_bind, h, hc.literal?, hopen,
      if_neg hne]
    rfl

/-- Where there is nothing to simplify, simplifying adds nothing. -/
theorem run_foldRoot_eq (hp : p.WellFormed) (hr : p.Denotes r x) (hx : x.Irreducible) :
    (foldRoot r).run p = (r, p) := by
  have hroot := hr
  cases hr with
  | var h _ | int h | bool h =>
    simp only [foldRoot, StateT.run_bind, StateT.run_get, pure_bind, h]
    rfl
  | unary => exact run_foldRoot_unary hroot hx
  | binary => exact run_foldRoot_binary hroot hx
  | ite => exact run_foldRoot_ite hp hroot hx

theorem run_fold_eq (hp : p.WellFormed) (h : p.Normal r) : (fold r).run p = (r, p) := by
  apply run_renew_eq
  intro a e ha _
  obtain ⟨y, hy, hirreducible⟩ := h a ha
  have hkept : rebuild a e e.operands = pure a := if_pos rfl
  rw [foldAt, hkept, pure_bind]
  exact run_foldRoot_eq hp ((expr?_eq_some hp).1 hy) hirreducible

end Pool

open Pool

/-- Folding gives a normal form: nothing is left to simplify at any place in it, folding it again
gives it back, and it has no new names. -/
theorem fold_normalizes {p q : Pool} {r t : ExprRef} {x : Expr} (hp : p.WellFormed)
    (hr : p.expr? r = some x) (hrun : (Pool.fold r).run p = (t, q)) :
    (Pool.fold t).run q = (t, q) ∧ (∀ n ∈ q.distinctVars t, n ∈ p.distinctVars r) ∧
      (∀ s, q.Contains t s → (Pool.fold s).run q = (s, q)) ∧ q.Normal t ∧
      (p.Normal r → (t, q) = (r, p)) := by
  have hx := (expr?_eq_some hp).1 hr
  obtain ⟨hq, ht⟩ := (adds_fold hp hx).of_run hrun
  have hnormal := ht.normal hq x.folded_fold
  refine ⟨run_fold_eq hq hnormal, ?_, ?_, hnormal, ?_⟩
  · intro n hn
    rw [mem_distinctVars hq ht] at hn
    rw [mem_distinctVars hp hx]
    exact Expr.mem_vars_of_fold hn
  · intro s hs
    exact run_fold_eq hq (hnormal.of_contains hs)
  · intro h
    rw [← hrun, run_fold_eq hp h]

/-- A quotient where `b` is true and a connective elsewhere. -/
def guardedQuotient : Expr :=
  .ite (.unary .not (.unary .not (.var "b"))) (.binary .div (.var "x") (.var "y"))
    (.binary .and (.var "b") (.var "z"))

/-- Once `x`, `y` and `z` are replaced by literals, every operand folds to another expression but
the quotient, which stays as it is because it is undefined. -/
theorem fold_normalizes_guardedQuotient :
    let built := ([guardedQuotient, .int 1, .int 0, .bool true].mapM addExpr).run .empty
    let table := Table.ofList [(⟨1⟩, ⟨9⟩), (⟨2⟩, ⟨10⟩), (⟨3⟩, ⟨11⟩)]
    let replaced := (Pool.substitute table ⟨8⟩).run built.2
    let folded := (Pool.fold replaced.1).run replaced.2
    let quotient : Expr := .binary .div (.int 1) (.int 0)
    replaced.2.WellFormed ∧
      replaced.2.expr? replaced.1 = some (.ite (.unary .not (.unary .not (.var "b"))) quotient
        (.binary .and (.var "b") (.bool true))) ∧
      folded.2.expr? folded.1 = some (.ite (.var "b") quotient (.var "b")) ∧
      (Pool.fold folded.1).run folded.2 = (folded.1, folded.2) ∧
      ∀ s, folded.2.Contains folded.1 s → (Pool.fold s).run folded.2 = (s, folded.2) := by
  intro built table replaced folded quotient
  have hbuilt : built.2.WellFormed := (adds_addExprs wellFormed_empty _).grows.wellFormed
  have htable : built.2.Stores table := by decide +kernel
  have hread : built.2.expr? ⟨8⟩ = some guardedQuotient := by decide +kernel
  obtain ⟨known, hknown⟩ := exists_tabulates hbuilt htable
  have hreplaced : replaced.2.WellFormed :=
    (adds_substitute hbuilt hknown ((expr?_eq_some hbuilt).1 hread)).grows.wellFormed
  have hr : replaced.2.expr? replaced.1 = some (.ite (.unary .not (.unary .not (.var "b")))
      quotient (.binary .and (.var "b") (.bool true))) := by decide +kernel
  obtain ⟨hagain, _, hwithin, _⟩ := fold_normalizes hreplaced hr (Prod.eta folded).symm
  exact ⟨hreplaced, hr, by decide +kernel, hagain, hwithin⟩

end Clockwork
