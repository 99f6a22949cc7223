import Clockwork.Expr.Fold
import Clockwork.Proofs.Typing

namespace Clockwork
set_option autoImplicit true

variable {a b c t e : Expr} {env : Env} {v w : Value}

theorem Expr.literal?_eq_none_or (e : Expr) : e.literal? = none ∨ ∃ v, e = .ofValue v := by
  cases h : e.literal? with
  | none => exact .inl rfl
  | some v => exact .inr ⟨v, Expr.eq_ofValue_of_literal? h⟩

theorem Expr.foldRoot_unary_cases (op : UnaryOp) (a : Expr) :
    (∃ v w, a = .ofValue v ∧ op.apply v = some w ∧ (Expr.unary op a).foldRoot = .ofValue w) ∨
      (∃ b, op = .not ∧ a = .unary .not b ∧ (Expr.unary op a).foldRoot = b) ∨
      (Expr.unary op a).foldRoot = .unary op a := by
  rcases a.literal?_eq_none_or with ha | ⟨v, rfl⟩
  · by_cases h : ∃ b, op = .not ∧ a = .unary .not b
    · obtain ⟨b, rfl, rfl⟩ := h
      exact .inr (.inl ⟨b, rfl, rfl, rfl⟩)
    · refine .inr (.inr ?_)
      simp only [Expr.foldRoot, ha]
      split
      · next b => exact (h ⟨b, rfl, rfl⟩).elim
      · rfl
  · cases hw : op.apply v with
    | none => exact .inr (.inr (by simp [Expr.foldRoot, hw]))
    | some w => exact .inl ⟨v, w, rfl, hw, by simp [Expr.foldRoot, hw]⟩

/-- The function of a logical connective on truth values. -/
def BinaryOp.connective? : BinaryOp → Option (Bool → Bool → Bool)
  | .and => some (· && ·)
  | .or => some (· || ·)
  | _ => none

theorem BinaryOp.apply_connective {op : BinaryOp} (h : op.connective? = some f) (x y : Value) :
    op.apply x y = some (.bool (f x.truth y.truth)) := by
  cases op <;> cases h <;> rfl

theorem BinaryOp.connective_comm {op : BinaryOp} (h : op.connective? = some f) (x y : Bool) :
    f x y = f y x := by
  cases op <;> cases h <;> cases x <;> cases y <;> rfl

theorem BinaryOp.decided?_cases {op : BinaryOp} (h : op.decided? known other = some r) :
    ∃ f, op.connective? = some f ∧
      ((r = other ∧ ∀ y, f known y = y) ∨ ∃ b, r = .bool b ∧ ∀ y, f known y = b) := by
  cases op <;> cases known <;> cases h
  · exact ⟨_, rfl, .inr ⟨false, rfl, fun _ => rfl⟩⟩
  · exact ⟨_, rfl, .inl ⟨rfl, Bool.true_and⟩⟩
  · exact ⟨_, rfl, .inl ⟨rfl, Bool.false_or⟩⟩
  · exact ⟨_, rfl, .inr ⟨true, rfl, Bool.true_or⟩⟩

theorem Expr.foldRoot_binary_cases (op : BinaryOp) (a b : Expr) :
    (∃ x y z, a = .ofValue x ∧ b = .ofValue y ∧ op.apply x y = some z ∧
        (Expr.binary op a b).foldRoot = .ofValue z) ∨
      (∃ x r, a = .ofValue x ∧ b.literal? = none ∧ op.decided? x.truth b = some r ∧
        (Expr.binary op a b).foldRoot = r) ∨
      (∃ y r, a.literal? = none ∧ b = .ofValue y ∧ op.decided? y.truth a = some r ∧
        (Expr.binary op a b).foldRoot = r) ∨
      (Expr.binary op a b).foldRoot = .binary op a b := by
  rcases a.literal?_eq_none_or with ha | ⟨x, rfl⟩ <;>
    rcases b.literal?_eq_none_or with hb | ⟨y, rfl⟩
  · exact .inr (.inr (.inr (by simp only [Expr.foldRoot, ha, hb])))
  · cases hr : op.decided? y.truth a with
    | none => exact .inr (.inr (.inr (by simp [Expr.foldRoot, ha, hr])))
    | some r => exact .inr (.inr (.inl ⟨y, r, ha, rfl, hr, by simp [Expr.foldRoot, ha, hr]⟩))
  · cases hr : op.decided? x.truth b with
    | none => exact .inr (.inr (.inr (by simp [Expr.foldRoot, hb, hr])))
    | some r => exact .inr (.inl ⟨x, r, rfl, hb, hr, by simp [Expr.foldRoot, hb, hr]⟩)
  · cases hz : op.apply x y with
    | none => exact .inr (.inr (.inr (by simp [Expr.foldRoot, hz])))
    | some z => exact .inl ⟨x, y, z, rfl, rfl, hz, by simp [Expr.foldRoot, hz]⟩

theorem Expr.foldRoot_ite_cases (c t e : Expr) :
    (t = e ∧ (Expr.ite c t e).foldRoot = t) ∨
      (∃ v, c = .ofValue v ∧ (Expr.ite c t e).foldRoot = if v.truth then t else e) ∨
      (Expr.ite c t e).foldRoot = .ite c t e := by
  by_cases h : t = e
  · exact .inl ⟨h, by simp only [Expr.foldRoot, if_pos h]⟩
  · rcases c.literal?_eq_none_or with hc | ⟨v, rfl⟩
    · exact .inr (.inr (by simp [Expr.foldRoot, h, Expr.truth?, hc]))
    · exact .inr (.inl ⟨v, rfl, by simp [Expr.foldRoot, h, Expr.truth?]⟩)

/-- No rule of folding applies anywhere in the expression. -/
def Expr.Folded : Expr → Prop
  | .var _ | .int _ | .bool _ => True
  | .unary op a => a.Folded ∧ (Expr.unary op a).foldRoot = .unary op a
  | .binary op a b => a.Folded ∧ b.Folded ∧ (Expr.binary op a b).foldRoot = .binary op a b
  | .ite c t e => c.Folded ∧ t.Folded ∧ e.Folded ∧ (Expr.ite c t e).foldRoot = .ite c t e

theorem Expr.Folded.ofValue (v : Value) : (Expr.ofValue v).Folded := by
  cases v <;> trivial

theorem Expr.Folded.decided (ha : a.Folded) (h : BinaryOp.decided? op known a = some e) :
    e.Folded := by
  obtain ⟨f, _, ⟨rfl, _⟩ | ⟨b, rfl, _⟩⟩ := BinaryOp.decided?_cases h
  · exact ha
  · trivial

theorem Expr.folded_fold (e : Expr) : e.fold.Folded := by
  induction e with
  | var => trivial
  | int => trivial
  | bool => trivial
  | unary op a iha =>
    rw [Expr.fold]
    rcases Expr.foldRoot_unary_cases op a.fold with ⟨v, w, _, _, hr⟩ | ⟨b, _, ha, hr⟩ | hr
    · rw [hr]
      exact .ofValue w
    · rw [ha] at iha
      rw [hr]
      exact iha.1
    · rw [hr]
      exact ⟨iha, hr⟩
  | binary op a b iha ihb =>
    rw [Expr.fold]
    rcases Expr.foldRoot_binary_cases op a.fold b.fold with
      ⟨x, y, z, _, _, _, hr⟩ | ⟨x, r, _, _, hd, hr⟩ | ⟨y, r, _, _, hd, hr⟩ | hr
    · rw [hr]
      exact .ofValue z
    · rw [hr]
      exact ihb.decided hd
    · rw [hr]
      exact iha.decided hd
    · rw [hr]
      exact ⟨iha, ihb, hr⟩
  | ite c t e ihc iht ihe =>
    rw [Expr.fold]
    rcases Expr.foldRoot_ite_cases c.fold t.fold e.fold with ⟨_, hr⟩ | ⟨v, _, hr⟩ | hr
    · rw [hr]
      exact iht
    · rw [hr]
      split
      · exact iht
      · exact ihe
    · rw [hr]
      exact ⟨ihc, iht, ihe, hr⟩

theorem Expr.Folded.fold_eq (h : e.Folded) : e.fold = e := by
  induction e with
  | var => rfl
  | int => rfl
  | bool => rfl
  | unary op a iha => rw [Expr.fold, iha h.1, h.2]
  | binary op a b iha ihb => rw [Expr.fold, iha h.1, ihb h.2.1, h.2.2]
  | ite c t e ihc iht ihe => rw [Expr.fold, ihc h.1, iht h.2.1, ihe h.2.2.1, h.2.2.2]

theorem Expr.Folded.not_operand (h : (Expr.unary .not a).Folded) : a.literal? = none := by
  rcases a.literal?_eq_none_or with ha | ⟨v, rfl⟩
  · exact ha
  · have hr := h.2
    simp [Expr.foldRoot, UnaryOp.apply] at hr
    cases hr

theorem BinaryOp.connective_type {op : BinaryOp} (hf : op.connective? = some f)
    (ht : op.type? σ ρ = some τ) : σ = .bool ∧ ρ = .bool ∧ τ = .bool := by
  cases op <;> cases hf <;> cases σ <;> cases ρ <;> cases ht <;> exact ⟨rfl, rfl, rfl⟩

theorem Expr.type?_ofValue (Γ : Typing) (v : Value) : (Expr.ofValue v).type? Γ = some v.type := by
  cases v <;> rfl

theorem Expr.type?_decided (hb : b.type? Γ = some .bool)
    (hd : BinaryOp.decided? op k b = some e) : e.type? Γ = some .bool := by
  obtain ⟨f, _, ⟨rfl, _⟩ | ⟨d, rfl, _⟩⟩ := BinaryOp.decided?_cases hd
  · exact hb
  · rfl

theorem Expr.type?_foldRoot (ht : e.type? Γ = some τ) : e.foldRoot.type? Γ = some τ := by
  cases e with
  | var x => exact ht
  | int n => exact ht
  | bool b => exact ht
  | unary op a =>
    rcases Expr.foldRoot_unary_cases op a with ⟨x, y, rfl, hxy, hr⟩ | ⟨b, rfl, rfl, hr⟩ | hr
    · rw [Expr.type?, Expr.type?_ofValue] at ht
      rw [hr, Expr.type?_ofValue, UnaryOp.apply_type ht hxy]
    · rw [Expr.type?, Expr.type?] at ht
      rw [hr]
      cases hb : b.type? Γ with
      | none => rw [hb] at ht; cases ht
      | some σ => rw [hb] at ht; cases σ <;> cases ht; rfl
    · rw [hr]
      exact ht
  | binary op a b =>
    obtain ⟨σ, ha, hrest⟩ := Option.bind_eq_some_iff.1 ht
    obtain ⟨ρ, hb, hop⟩ := Option.bind_eq_some_iff.1 hrest
    rcases Expr.foldRoot_binary_cases op a b with
      ⟨x, y, z, rfl, rfl, hz, hr⟩ | ⟨x, r, rfl, _, hd, hr⟩ | ⟨y, r, _, rfl, hd, hr⟩ | hr
    · rw [Expr.type?_ofValue] at ha hb
      cases ha
      cases hb
      rw [hr, Expr.type?_ofValue, BinaryOp.apply_type hop hz]
    · obtain ⟨f, hf, _⟩ := BinaryOp.decided?_cases hd
      obtain ⟨rfl, rfl, rfl⟩ := BinaryOp.connective_type hf hop
      rw [hr, Expr.type?_decided hb hd]
    · obtain ⟨f, hf, _⟩ := BinaryOp.decided?_cases hd
      obtain ⟨rfl, rfl, rfl⟩ := BinaryOp.connective_type hf hop
      rw [hr, Expr.type?_decided ha hd]
    · rw [hr]
      exact ht
  | ite c t e =>
    obtain ⟨_, htt, hte⟩ := Expr.type?_ite_iff.1 ht
    rcases Expr.foldRoot_ite_cases c t e with ⟨_, hr⟩ | ⟨v, _, hr⟩ | hr
    · rw [hr, htt]
    · rw [hr]
      split
      · exact htt
      · exact hte
    · rw [hr, ht]

theorem Expr.type?_fold (ht : e.type? Γ = some τ) : e.fold.type? Γ = some τ := by
  induction e generalizing τ with
  | var => exact ht
  | int => exact ht
  | bool => exact ht
  | unary op a iha =>
    obtain ⟨σ, ha, hop⟩ := Option.bind_eq_some_iff.1 ht
    apply Expr.type?_foldRoot
    rw [Expr.type?, iha ha]
    exact hop
  | binary op a b iha ihb =>
    obtain ⟨σ, ha, hop⟩ := Option.bind_eq_some_iff.1 ht
    obtain ⟨ρ, hb, hop⟩ := Option.bind_eq_some_iff.1 hop
    apply Expr.type?_foldRoot
    rw [Expr.type?, iha ha, ihb hb]
    exact hop
  | ite c t e ihc iht ihe =>
    obtain ⟨hc, ht, he⟩ := Expr.type?_ite_iff.1 ht
    obtain ⟨σ, hc⟩ := Option.isSome_iff_exists.1 hc
    apply Expr.type?_foldRoot
    rw [Expr.type?_ite_iff, ihc hc]
    exact ⟨rfl, iht ht, ihe he⟩

end Clockwork
