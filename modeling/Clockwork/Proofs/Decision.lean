import Clockwork.Proofs.Folding

namespace Clockwork
set_option autoImplicit true

variable {a b c t e : Expr} {env : Env} {v w : Value}

/-- The expression has no value other than a truth value. -/
def Expr.GivesBool (env : Env) (e : Expr) : Prop :=
  ∀ v, e.eval env = some v → v.type = .bool

/-- Folding puts an operand in the place of a connective: the one below a double `not`, or the one
beside a literal that does not decide. -/
inductive Expr.GivesWayTo : Expr → Expr → Prop
  | not {a b : Expr} (ha : a.fold = .unary .not b) : GivesWayTo (.unary .not a) b
  | right {a b : Expr} (ha : a.fold = .ofValue x) (hb : b.fold.literal? = none)
      (hd : BinaryOp.decided? op x.truth b.fold = some b.fold) : GivesWayTo (.binary op a b) b.fold
  | left {a b : Expr} (ha : a.fold.literal? = none) (hb : b.fold = .ofValue y)
      (hd : BinaryOp.decided? op y.truth a.fold = some a.fold) : GivesWayTo (.binary op a b) a.fold

/-- Whatever folding puts in the place of a connective gives a truth value, where the value of the
connective counts as a number. The flag says whether the value of the expression itself does. -/
def Expr.LogicOnBools (env : Env) : Bool → Expr → Prop
  | _, .var _ | _, .int _ | _, .bool _ => True
  -- A connective asks its operands for their truth alone, any other operator for their numbers.
  | counts, .unary .not a =>
    a.LogicOnBools env false ∧
      (counts = true → ∀ o, (Expr.unary .not a).GivesWayTo o → o.GivesBool env)
  | _, .unary _ a => a.LogicOnBools env true
  | counts, .binary op a b =>
    if op.connective?.isSome then
      a.LogicOnBools env false ∧ b.LogicOnBools env false ∧
        (counts = true → ∀ o, (Expr.binary op a b).GivesWayTo o → o.GivesBool env)
    else a.LogicOnBools env true ∧ b.LogicOnBools env true
  -- The arm that is not selected does not matter.
  | counts, .ite c t e =>
    c.LogicOnBools env false ∧ ∀ v, c.eval env = some v →
      if v.truth then t.LogicOnBools env counts else e.LogicOnBools env counts

theorem Value.eq_bool_truth (h : v.type = .bool) : v = .bool v.truth := by
  cases v with
  | int n => cases h
  | bool b => rfl

/-- A value that may stand for another one: it is as true and, if it counts as a number, the same. -/
def Value.Matches (counts : Bool) (w v : Value) : Prop :=
  w.truth = v.truth ∧ (counts = true → w = v)

theorem Value.Matches.refl (counts : Bool) (v : Value) : v.Matches counts v :=
  ⟨rfl, fun _ => rfl⟩

theorem Value.Matches.bool (h : w.truth = d) (hb : counts = true → w.type = .bool) :
    w.Matches counts (.bool d) := by
  refine ⟨h, fun hc => ?_⟩
  rw [← h]
  exact Value.eq_bool_truth (hb hc)

/-- What the result of folding an expression of value `v` has to satisfy. -/
def Expr.Stands (env : Env) (counts : Bool) (v : Value) (e : Expr) : Prop :=
  ∃ w, e.eval env = some w ∧ w.Matches counts v

theorem Expr.Stands.ofValue : (Expr.ofValue v).Stands env counts v :=
  ⟨v, Expr.eval_ofValue env v, .refl counts v⟩

theorem Expr.Stands.fold_not (ha : a.fold.Stands env false v)
    (hbool : counts = true → ∀ o, (Expr.unary .not a).GivesWayTo o → o.GivesBool env) :
    (Expr.unary .not a).fold.Stands env counts (.bool !v.truth) := by
  obtain ⟨w, hw, htruth, _⟩ := ha
  rw [Expr.fold]
  rcases Expr.foldRoot_unary_cases .not a.fold with ⟨x, y, hx, hxy, hr⟩ | ⟨b, _, hb, hr⟩ | hr
  · rw [hx, Expr.eval_ofValue] at hw
    cases hw
    cases hxy
    rw [hr, htruth]
    exact .ofValue
  · rw [hb] at hw
    obtain ⟨u, hu, huw⟩ := Option.bind_eq_some_iff.1 hw
    cases huw
    rw [hr]
    refine ⟨u, hu, .bool ?_ fun hc => hbool hc b (.not hb) u hu⟩
    rw [← htruth]
    exact (Bool.not_not _).symm
  · rw [hr]
    refine ⟨.bool !w.truth, ?_, ?_⟩
    · simp [Expr.eval, hw, UnaryOp.apply]
    · rw [htruth]
      exact .refl _ _

theorem Expr.Stands.foldRoot_unary (hop : op ≠ .not) (ha : a.Stands env true v)
    (hu : UnaryOp.apply op v = some u) : (Expr.unary op a).foldRoot.Stands env counts u := by
  obtain ⟨w, hw, _, hexact⟩ := ha
  have he := hexact rfl
  subst he
  rcases Expr.foldRoot_unary_cases op a with ⟨x, y, rfl, hxy, hr⟩ | ⟨b, hn, _, _⟩ | hr
  · rw [Expr.eval_ofValue] at hw
    cases hw
    rw [hu] at hxy
    cases hxy
    rw [hr]
    exact .ofValue
  · exact (hop hn).elim
  · rw [hr]
    refine ⟨u, ?_, .refl _ _⟩
    rw [Expr.eval, hw]
    exact hu

/-- The rules for a connective beside a literal. -/
theorem Expr.Stands.decided (hf : BinaryOp.connective? op = some f) (hb : b.Stands env false y)
    (hbool : counts = true → op.decided? k b = some b → b.GivesBool env)
    (hd : op.decided? k b = some e) : e.Stands env counts (.bool (f k y.truth)) := by
  obtain ⟨g, hg, h⟩ := BinaryOp.decided?_cases hd
  rw [hf] at hg
  cases hg
  rcases h with ⟨rfl, hid⟩ | ⟨d, rfl, hconst⟩
  · obtain ⟨w, hw, htruth, _⟩ := hb
    rw [hid]
    exact ⟨w, hw, .bool htruth fun hc => hbool hc hd w hw⟩
  · rw [hconst]
    exact Expr.Stands.ofValue (v := .bool d)

theorem Expr.Stands.fold_connective (hf : BinaryOp.connective? op = some f)
    (ha : a.fold.Stands env false x) (hb : b.fold.Stands env false y)
    (hbool : counts = true → ∀ o, (Expr.binary op a b).GivesWayTo o → o.GivesBool env) :
    (Expr.binary op a b).fold.Stands env counts (.bool (f x.truth y.truth)) := by
  have ha' := ha
  have hb' := hb
  obtain ⟨u, hu, hut, _⟩ := ha
  obtain ⟨w, hw, hwt, _⟩ := hb
  rw [Expr.fold]
  rcases Expr.foldRoot_binary_cases op a.fold b.fold with
    ⟨p, q, z, hp, hq, hz, hr⟩ | ⟨p, r, hp, hq, hd, hr⟩ | ⟨q, r, hp, hq, hd, hr⟩ | hr
  · rw [hp, Expr.eval_ofValue] at hu
    rw [hq, Expr.eval_ofValue] at hw
    cases hu
    cases hw
    rw [BinaryOp.apply_connective hf, hut, hwt] at hz
    cases hz
    rw [hr]
    exact .ofValue
  · rw [hp, Expr.eval_ofValue] at hu
    cases hu
    rw [hr, ← hut]
    exact hb'.decided hf (fun hc hkeep => hbool hc _ (.right hp hq hkeep)) hd
  · rw [hq, Expr.eval_ofValue] at hw
    cases hw
    rw [hr, ← hwt, BinaryOp.connective_comm hf]
    exact ha'.decided hf (fun hc hkeep => hbool hc _ (.left hp hq hkeep)) hd
  · rw [hr]
    refine ⟨.bool (f u.truth w.truth), ?_, ?_⟩
    · simp only [Expr.eval, hu, hw, Option.bind_some]
      exact BinaryOp.apply_connective hf u w
    · rw [hut, hwt]
      exact .refl _ _

theorem Expr.Stands.foldRoot_binary (hop : BinaryOp.connective? op = none)
    (ha : a.Stands env true x) (hb : b.Stands env true y) (hz : op.apply x y = some z) :
    (Expr.binary op a b).foldRoot.Stands env counts z := by
  obtain ⟨u, hu, _, hux⟩ := ha
  obtain ⟨w, hw, _, hwx⟩ := hb
  have heu := hux rfl
  have hew := hwx rfl
  subst heu hew
  rcases Expr.foldRoot_binary_cases op a b with
    ⟨p, q, r, rfl, rfl, hpq, hr⟩ | ⟨p, r, _, _, hd, _⟩ | ⟨q, r, _, _, hd, _⟩ | hr
  · rw [Expr.eval_ofValue] at hu hw
    cases hu
    cases hw
    rw [hz] at hpq
    cases hpq
    rw [hr]
    exact .ofValue
  · obtain ⟨f, hf, _⟩ := BinaryOp.decided?_cases hd
    rw [hop] at hf
    cases hf
  · obtain ⟨f, hf, _⟩ := BinaryOp.decided?_cases hd
    rw [hop] at hf
    cases hf
  · rw [hr]
    refine ⟨z, ?_, .refl _ _⟩
    simp only [Expr.eval, hu, hw, Option.bind_some]
    exact hz

theorem Expr.Stands.foldRoot_ite (hc : c.Stands env false x)
    (h : if x.truth then t.Stands env counts v else e.Stands env counts v) :
    (Expr.ite c t e).foldRoot.Stands env counts v := by
  obtain ⟨u, hu, hut, _⟩ := hc
  rcases Expr.foldRoot_ite_cases c t e with ⟨rfl, hr⟩ | ⟨p, rfl, hr⟩ | hr
  · rw [ite_self] at h
    rw [hr]
    exact h
  · rw [Expr.eval_ofValue] at hu
    cases hu
    rw [hr, hut]
    split at h
    · next hx => rw [if_pos hx]; exact h
    · next hx => rw [if_neg hx]; exact h
  · rw [hr]
    split at h
    · next hx =>
      obtain ⟨w, hw, hm⟩ := h
      refine ⟨w, ?_, hm⟩
      simp only [Expr.eval, hu, Option.bind_some, hut, hx, if_true, hw]
    · next hx =>
      obtain ⟨w, hw, hm⟩ := h
      refine ⟨w, ?_, hm⟩
      simp only [Expr.eval, hu, Option.bind_some, hut, hx, hw]
      rfl

/-- Folding keeps what is asked of a value. -/
theorem Expr.LogicOnBools.fold_stands (h : e.LogicOnBools env counts) (hv : e.eval env = some v) :
    e.fold.Stands env counts v := by
  induction e generalizing counts v with
  | var x => exact ⟨v, hv, .refl _ _⟩
  | int n => cases hv; exact Expr.Stands.ofValue (v := .int n)
  | bool b => cases hv; exact Expr.Stands.ofValue (v := .bool b)
  | unary op a iha =>
    obtain ⟨x, hx, hop⟩ := Option.bind_eq_some_iff.1 hv
    by_cases hn : op = .not
    · subst hn
      cases hop
      exact (iha h.1 hx).fold_not h.2
    · have ha : a.LogicOnBools env true := by
        cases op with
        | not => exact (hn rfl).elim
        | invert => exact h
        | negate => exact h
      exact (iha ha hx).foldRoot_unary hn hop
  | binary op a b iha ihb =>
    obtain ⟨x, hx, hv⟩ := Option.bind_eq_some_iff.1 hv
    obtain ⟨y, hy, hop⟩ := Option.bind_eq_some_iff.1 hv
    rw [Expr.LogicOnBools] at h
    cases hf : op.connective? with
    | some f =>
      rw [hf] at h
      obtain ⟨ha, hb, hbool⟩ := h
      rw [BinaryOp.apply_connective hf] at hop
      cases hop
      exact (iha ha hx).fold_connective hf (ihb hb hy) hbool
    | none =>
      rw [hf] at h
      exact (iha h.1 hx).foldRoot_binary hf (ihb h.2 hy) hop
  | ite c t e ihc iht ihe =>
    obtain ⟨x, hx, hv⟩ := Option.bind_eq_some_iff.1 hv
    have harm := h.2 x hx
    rw [Expr.fold]
    apply (ihc h.1 hx).foldRoot_ite
    split
    · next hxt =>
      rw [if_pos hxt] at harm hv
      exact iht harm hv
    · next hxt =>
      rw [if_neg hxt] at harm hv
      exact ihe harm hv

/-- Folding never changes a decision as long as it puts only truth values in the place of
connectives whose number counts. -/
theorem fold_keeps_decision (h : e.LogicOnBools env false) (hv : e.eval env = some v) :
    ∃ w, e.fold.eval env = some w ∧ w.truth = v.truth := by
  obtain ⟨w, hw, htruth, _⟩ := h.fold_stands hv
  exact ⟨w, hw, htruth⟩

/-- A number decides at the root and below a connective that stays, while its number counts. -/
theorem fold_keeps_decision_mixed :
    let env := Env.ofList [("a", .int 5), ("b", .bool true)]
    let e : Expr := .binary .and (.binary .and (.var "a") (.bool true))
      (.binary .eq (.binary .or (.var "a") (.var "b")) (.binary .and (.var "b") (.bool true)))
    e.LogicOnBools env false ∧ e.eval env = some (.bool true) ∧
      ∃ w, e.fold.eval env = some w ∧ w.truth = true := by
  intro env e
  have hvar (x : String) (v : Value) : (Expr.var x).fold ≠ .ofValue v :=
    fun h => by cases v <;> cases h
  have hstays (o : Expr) (h : (Expr.binary .or (.var "a") (.var "b")).GivesWayTo o) :
      o.GivesBool env := by
    cases h with
    | right ha => exact (hvar _ _ ha).elim
    | left _ hb => exact (hvar _ _ hb).elim
  have hgives (o : Expr) (h : (Expr.binary .and (.var "b") (.bool true)).GivesWayTo o) :
      o.GivesBool env := by
    cases h with
    | right ha => exact (hvar _ _ ha).elim
    | left =>
      rintro v ⟨⟩
      rfl
  have hlogic : e.LogicOnBools env false := by
    exact ⟨⟨trivial, trivial, nofun⟩, ⟨⟨trivial, trivial, fun _ => hstays⟩,
      ⟨trivial, trivial, fun _ => hgives⟩⟩, nofun⟩
  have hv : e.eval env = some (.bool true) := by decide
  exact ⟨hlogic, hv, fold_keeps_decision hlogic hv⟩

/-- A connective that counts as a number may lose its truth value: `(a and true) == 1` holds for
five, and `a == 1` does not. -/
theorem fold_changes_decision : ¬ ∀ (e : Expr) (env : Env) (v : Value), e.eval env = some v →
    ∃ w, e.fold.eval env = some w ∧ w.truth = v.truth := by
  intro h
  obtain ⟨w, hw, htruth⟩ := h
    (.binary .eq (.binary .and (.var "a") (.bool true)) (.int 1))
    (Env.ofList [("a", .int 5)]) (.bool true) rfl
  cases hw
  cases htruth

theorem Expr.GivesBool.of_type (henv : env.Respects Γ) (ht : e.type? Γ = some .bool) :
    e.GivesBool env :=
  fun _ hv => Expr.eval_type henv ht hv

/-- Folding keeps types, so it puts truth values in the place of truth values. -/
theorem Expr.GivesWayTo.givesBool (henv : env.Respects Γ) (h : e.GivesWayTo a)
    (ht : e.type? Γ = some τ) : a.GivesBool env := by
  cases h with
  | not ha =>
    obtain ⟨σ, hσ, hop⟩ := Option.bind_eq_some_iff.1 ht
    have hfold := Expr.type?_fold hσ
    rw [ha] at hfold
    obtain ⟨ρ, hρ, hop⟩ := Option.bind_eq_some_iff.1 hfold
    cases ρ with
    | int => cases hop
    | bool => exact .of_type henv hρ
  | right _ _ hd =>
    obtain ⟨σ, _, ht⟩ := Option.bind_eq_some_iff.1 ht
    obtain ⟨ρ, hb, hop⟩ := Option.bind_eq_some_iff.1 ht
    obtain ⟨f, hf, _⟩ := BinaryOp.decided?_cases hd
    obtain ⟨_, rfl, _⟩ := BinaryOp.connective_type hf hop
    exact .of_type henv (Expr.type?_fold hb)
  | left _ _ hd =>
    obtain ⟨σ, ha, ht⟩ := Option.bind_eq_some_iff.1 ht
    obtain ⟨ρ, _, hop⟩ := Option.bind_eq_some_iff.1 ht
    obtain ⟨f, hf, _⟩ := BinaryOp.decided?_cases hd
    obtain ⟨rfl, _, _⟩ := BinaryOp.connective_type hf hop
    exact .of_type henv (Expr.type?_fold ha)

theorem Expr.logicOnBools_of_type (henv : env.Respects Γ) (ht : e.type? Γ = some τ)
    (counts : Bool) : e.LogicOnBools env counts := by
  induction e generalizing τ counts with
  | var => trivial
  | int => trivial
  | bool => trivial
  | unary op a iha =>
    obtain ⟨σ, ha, _⟩ := Option.bind_eq_some_iff.1 ht
    cases op with
    | not => exact ⟨iha ha _, fun _ o ho => ho.givesBool henv ht⟩
    | invert => exact iha ha _
    | negate => exact iha ha _
  | binary op a b iha ihb =>
    obtain ⟨σ, ha, hrest⟩ := Option.bind_eq_some_iff.1 ht
    obtain ⟨ρ, hb, _⟩ := Option.bind_eq_some_iff.1 hrest
    rw [Expr.LogicOnBools]
    split
    · exact ⟨iha ha _, ihb hb _, fun _ o ho => ho.givesBool henv ht⟩
    · exact ⟨iha ha _, ihb hb _⟩
  | ite c t e ihc iht ihe =>
    obtain ⟨hc, ht, he⟩ := Expr.type?_ite_iff.1 ht
    obtain ⟨σ, hc⟩ := Option.isSome_iff_exists.1 hc
    refine ⟨ihc hc _, fun v _ => ?_⟩
    split
    · exact iht ht _
    · exact ihe he _

/-- Folding keeps the value of a well typed expression. -/
theorem Expr.eval_fold_of_type (henv : env.Respects Γ) (ht : e.type? Γ = some τ)
    (hv : e.eval env = some v) : e.fold.eval env = some v := by
  obtain ⟨w, hw, _, hexact⟩ := (Expr.logicOnBools_of_type henv ht true).fold_stands hv
  rw [hw, hexact rfl]

end Clockwork
