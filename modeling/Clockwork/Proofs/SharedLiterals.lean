import Clockwork.Proofs.SharedValues
import Clockwork.Proofs.SharedWaits

namespace Clockwork
set_option autoImplicit true

variable {table : Substitution} {now now' : Valuation}

/-- The literal of every value is known. -/
def Substitution.Determines (table : Substitution) (now : Valuation) : Prop :=
  ∀ x v, now.get? x = some v → table.get? x = some (.ofValue v)

theorem Substitution.Determines.insert (h : table.Determines now) (x : String) (v : Value) :
    Substitution.Determines (table.insert x (.ofValue v)) (now.insert x v) := by
  intro y w hw
  rw [Table.get?_insert] at hw ⊢
  split
  · next hyx =>
    rw [if_pos hyx] at hw
    cases hw
    rfl
  · next hyx =>
    rw [if_neg hyx] at hw
    exact h y w hw

theorem Stmt.propagateList_determines (h : table.Determines now)
    (hexec : Stmt.execList now ss = (now', none)) :
    (Stmt.propagateList table ss).2.Determines now' := by
  apply Stmt.propagateList_invariant (R := fun e v => e = .ofValue v) _ _ h hexec
  · intro table now e v h hv
    exact Expr.reduce_of_eval h hv
  · intro table now x e v h he
    rw [he]
    exact h.insert x v

/-- Statements that need no value from before leave no value unknown. -/
theorem knownLiterals_determines (hexec : Stmt.execList .empty ss = (now, none)) :
    (knownLiterals ss).Determines now := by
  have hempty : Substitution.Determines .empty .empty := fun x v h => by cases h
  intro x v hv
  exact get?_knownLiterals.2 ⟨Stmt.propagateList_determines hempty hexec x v hv, v, rfl⟩

open Pool

/-- Statements that are executed leave every known literal as the value of its name, and a condition
decided by known literals has that value. -/
theorem knownLiterals_hold {p q : Pool} {ss : List (Stmt ExprRef)} {ts : List (Stmt Expr)}
    {start now : Valuation} {table : Table NameRef ExprRef} (hp : p.WellFormed)
    (hss : ss.map (Stmt.map p.expr?) = ts.map (Stmt.map some))
    (hexec : Stmt.execList start ts = (now, none))
    (hrun : (Pool.knownLiterals ss).run p = (table, q)) :
    (∀ i a, table.get? i = some a →
      ∃ s l, q.name? i = some s ∧ q.expr? a = some (.ofValue l) ∧ now.get? s = some l) ∧
    (∀ c t q' l v, (Pool.reduce table c).run q = (t, q') → q'.expr? t = some (.ofValue l) →
      q.eval now.get? c = some v → v = l) ∧
    (start = .empty → ∀ s v, now.get? s = some v →
      ∃ i a, q.name? i = some s ∧ table.get? i = some a ∧ q.expr? a = some (.ofValue v)) := by
  obtain ⟨hq, htable⟩ := (adds_knownLiterals hp hss).of_run hrun
  refine ⟨?_, ?_, ?_⟩
  · intro i a ha
    obtain ⟨s, y, hi, hy, hay⟩ := htable.known_of_entry hq ha
    obtain ⟨l, rfl, hl⟩ := get?_of_knownLiterals hexec hy
    exact ⟨s, l, hi, hay, hl⟩
  · intro c t q' l v hreduce ht hv
    obtain ⟨x, hx, hv⟩ := eval_eq_some hq hv
    obtain ⟨hq', ht'⟩ := (adds_reduce hq htable hx).of_run hreduce
    have hliteral := Option.some.inj ((ht'.expr? hq').symm.trans ht)
    exact (knownLiterals_knows hexec).eq_of_reduce hliteral hv
  · rintro rfl s v hv
    exact htable.entry_of_known hq (knownLiterals_determines hexec s v hv)

/-- After the first statement `b` is noted as `a`, which is five where `b` is true. -/
def scaledStmts : List (Stmt Expr) :=
  [.assign ["b"] (.binary .and (.var "a") (.bool true)),
    .assign ["c", "d"] (.ite (.var "b") (.int 3) (.int 3)),
    .update "c" .mul (.int 2),
    .assign ["d"] (.var "a"),
    .expr (.binary .or (.var "b") (.binary .eq (.var "c") (.int 6)))]

theorem knownLiterals_hold_scaledStmts :
    let built := (addStmts scaledStmts).run .empty
    let now : Valuation := .ofList [("a", .int 5), ("b", .bool true), ("c", .int 6), ("d", .int 5)]
    let known := (Pool.knownLiterals built.1).run built.2
    let reduced := (Pool.reduce known.1 ⟨10⟩).run known.2
    built.2.WellFormed ∧ built.1.map (Stmt.map built.2.expr?) = scaledStmts.map (Stmt.map some) ∧
      Stmt.execList (.ofList [("a", .int 5)]) scaledStmts = (now, none) ∧
      known.1.entries = [(⟨2⟩, ⟨8⟩)] ∧
      (∃ s l, known.2.name? ⟨2⟩ = some s ∧ known.2.expr? ⟨8⟩ = some (.ofValue l) ∧
        now.get? s = some l) ∧
      reduced.2.expr? reduced.1 = some (.bool true) ∧
      ∀ v, known.2.eval now.get? ⟨10⟩ = some v → v = .bool true := by
  intro built now known reduced
  have hbuilt := adds_addStmts wellFormed_empty scaledStmts
  have hexec : Stmt.execList (.ofList [("a", .int 5)]) scaledStmts = (now, none) := by
    decide +kernel
  have hliteral : reduced.2.expr? reduced.1 = some (.bool true) := by decide +kernel
  obtain ⟨hentries, hconditions, _⟩ :=
    knownLiterals_hold hbuilt.grows.wellFormed hbuilt.result hexec (Prod.eta known).symm
  exact ⟨hbuilt.grows.wellFormed, hbuilt.result, hexec, by decide +kernel,
    hentries ⟨2⟩ ⟨8⟩ (by decide +kernel), hliteral,
    fun v hv => hconditions ⟨10⟩ _ _ (.bool true) v (Prod.eta reduced).symm hliteral hv⟩

end Clockwork
