import Clockwork.Proofs.History

namespace Clockwork
set_option autoImplicit true

theorem addNew_of_getElem? {α : Type} [DecidableEq α] {xs : List α} {x : α} {i : Nat}
    (h : xs[i]? = some x) : addNew xs x = xs :=
  if_pos (List.mem_of_getElem? h)

namespace Pool

variable {p q : Pool} {r : ExprRef} {x y : Expr}

theorem run_bind_eq {f : StateM Pool α} {g : α → StateM Pool β} (h : f.run p = (v, p)) :
    (f >>= g).run p = (g v).run p := by
  rw [StateT.run_bind, h]
  rfl

/-- A name that is there is not added again. -/
theorem run_addName_eq (hp : p.WellFormed) {i : NameRef} (h : p.name? i = some s) :
    (addName s).run p = (i, p) := by
  have hpool : ((addName s).run p).2 = p :=
    congrArg (fun names => { p with names }) (addNew_of_getElem? h)
  have hadded := name?_addName s p
  rw [hpool] at hadded
  exact Prod.ext (name?_injective hp hadded h) hpool

/-- An entry that is there is not added again. -/
theorem run_add_eq (hp : p.WellFormed) {e : Entry} (h : p.get? r = some e) :
    (add e).run p = (r, p) := by
  have hpool : ((add e).run p).2 = p :=
    congrArg (fun entries => { p with entries }) (addNew_of_getElem? h)
  have hadded := get?_add e p
  rw [hpool] at hadded
  exact Prod.ext (get?_injective hp hadded h) hpool

/-- Adding an expression that is there gives its reference and leaves the pool as it is. -/
theorem Denotes.run_addExpr (hp : p.WellFormed) (h : p.Denotes r x) :
    (addExpr x).run p = (r, p) := by
  induction h with
  | var h hx =>
    rw [addExpr, addVar, run_bind_eq (run_addName_eq hp hx)]
    exact run_add_eq hp h
  | int h => exact run_add_eq hp h
  | bool h => exact run_add_eq hp h
  | unary h _ iha =>
    rw [addExpr, run_bind_eq iha]
    exact run_add_eq hp h
  | binary h _ _ iha ihb =>
    rw [addExpr, run_bind_eq iha, run_bind_eq ihb]
    exact run_add_eq hp h
  | ite h _ _ _ ihc iht ihe =>
    rw [addExpr, run_bind_eq ihc, run_bind_eq iht, run_bind_eq ihe]
    exact run_add_eq hp h

theorem Denotes.eq_iff (hp : p.WellFormed) (hr : p.Denotes r x) (hs : p.Denotes s y) :
    r = s ↔ x = y := by
  constructor
  · rintro rfl
    exact hr.unique hp hs
  · rintro rfl
    exact hr.injective hp hs

theorem Denotes.iff_of_grows (hpq : p.Grows q) (h : p.Denotes r x) : q.Denotes r y ↔ y = x := by
  have hkept : q.Denotes r x := h.mono hpq
  constructor
  · intro hy
    exact hy.unique hpq.wellFormed hkept
  · rintro rfl
    exact hkept

end Pool

open Pool

/-- However a pool has been used, references are as equal as the expressions they stand for, and no
later use changes what they stand for. -/
theorem references_canonical {p : Pool} (h : History .empty p) :
    p.WellFormed ∧ (∀ r, (∃ x, p.Denotes r x) ↔ r.index < p.entries.length) ∧
      (∀ r s x y, p.Denotes r x → p.Denotes s y → (r = s ↔ x = y)) ∧
      (∀ i s, p.name? i = some s → (addName s).run p = (i, p)) ∧
      (∀ r x, p.Denotes r x → (addExpr x).run p = (r, p)) ∧
      ∀ q, History p q → (∀ i s, p.name? i = some s → q.name? i = some s) ∧
        ∀ r x, p.Denotes r x → ∀ y, q.Denotes r y ↔ y = x := by
  have hp : p.WellFormed := (h.grows wellFormed_empty).wellFormed
  refine ⟨hp, ?_, ?_, ?_, ?_, ?_⟩
  · intro r
    constructor
    · rintro ⟨x, hx⟩
      exact hx.lt
    · exact exists_denotes hp
  · intro r s x y hr hs
    exact hr.eq_iff hp hs
  · intro i s hs
    exact run_addName_eq hp hs
  · intro r x hx
    exact hx.run_addExpr hp
  · intro q hlater
    have hgrows : p.Grows q := hlater.grows hp
    constructor
    · exact hgrows.name?
    · intro r x hx y
      exact hx.iff_of_grows hgrows

/-- A double negation is added and folded before a compilation and a new name. -/
theorem references_canonical_echoProcess :
    let built := (addProcess echoProcess).run .empty
    let negated := (add (.unary .not ⟨2⟩)).run built.2
    let p := ((Pool.fold negated.1).run negated.2).2
    let q := ((addName "go").run ((Pool.compile built.1 .default).run p).2).2
    let x : Expr := .unary .not (.unary .not (.var "in"))
    History .empty p ∧ p.Denotes ⟨4⟩ x ∧ p.name? ⟨0⟩ = some "in" ∧ History p q ∧ "go" ∉ p.names ∧
      (∃ i, q.name? i = some "go") ∧ p.WellFormed ∧ (∀ s, p.Denotes s x → ⟨4⟩ = s) ∧
      (addName "in").run p = (⟨0⟩, p) ∧ (addExpr x).run p = (⟨4⟩, p) ∧
      q.name? ⟨0⟩ = some "in" ∧ ∀ y, q.Denotes ⟨4⟩ y ↔ y = x := by
  intro built negated p q x
  have hbuilt := adds_addProcess wellFormed_empty echoProcess
  have hwfBuilt : built.2.WellFormed := hbuilt.grows.wellFormed
  have hentry : built.2.Use negated.2 := .entry _ (by decide +kernel) (by simp)
  have hnegated : negated.2.Denotes negated.1 x :=
    (expr?_eq_some (hentry.grows hwfBuilt).wellFormed).1 (by decide +kernel)
  have hfolded : History built.2 p := (Relation.ReflTransGen.single hentry).tail (.fold hnegated)
  have hp : History .empty p := .head (.process echoProcess) hfolded
  have hread : p.expr? ⟨4⟩ = some x := by decide +kernel
  have hname : p.name? ⟨0⟩ = some "in" := by decide +kernel
  have hnew : "go" ∉ p.names := by decide +kernel
  obtain ⟨hwf, _, hequal, hnamed, hfound, hlater⟩ := references_canonical hp
  have hx : p.Denotes ⟨4⟩ x := (expr?_eq_some hwf).1 hread
  have hprocess := (hfolded.grows hwfBuilt).map_process hwfBuilt hbuilt.result
  have hq : History p q := (Relation.ReflTransGen.single (.compile hprocess .default)).tail
    (.name "go")
  obtain ⟨hnames, hexprs⟩ := hlater q hq
  exact ⟨hp, hx, hname, hq, hnew, ⟨_, name?_addName "go" _⟩, hwf,
    fun s hs => (hequal _ _ _ _ hx hs).2 rfl, hnamed _ _ hname, hfound _ _ hx, hnames _ _ hname,
    hexprs _ _ hx⟩

end Clockwork
