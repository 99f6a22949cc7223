import Clockwork.Proofs.History
import Clockwork.Proofs.NormalForms
import Mathlib.Data.List.Nodup

namespace Clockwork
set_option autoImplicit true

namespace Pool

variable {p : Pool} {r a b : ExprRef} {unseen todo : List ExprRef} {names : List String} {x : Expr}

section Search

/-- The operands of an expression in the pool. -/
def operandsOf (p : Pool) (r : ExprRef) : List ExprRef :=
  ((p.get? r).map Entry.operands).getD []

/-- Adds the name of an expression that is a variable. -/
def addOwnName (p : Pool) (names : List String) (r : ExprRef) : List String :=
  match p.get? r with
  | some (.var x) => addNew names ((p.name? x).getD "")
  | _ => names

/-- The expressions that a collection of names looks into, in this order. -/
def entered (p : Pool) (unseen todo : List ExprRef) : List ExprRef :=
  match todo with
  | [] => []
  | r :: todo =>
    if h : r ∈ unseen then
      have := List.length_erase_of_mem h
      have := List.length_pos_of_mem h
      r :: p.entered (unseen.erase r) (p.operandsOf r ++ todo)
    else p.entered unseen todo
termination_by (unseen.length, todo.length)

theorem mem_operandsOf : a ∈ p.operandsOf r ↔ p.HasOperand r a := by
  unfold operandsOf HasOperand
  cases p.get? r <;> simp

/-- All that a collection does is to look into these expressions one after the other. -/
theorem collect_eq_foldl (p : Pool) (unseen todo : List ExprRef) (names : List String) :
    p.collect unseen todo names = (p.entered unseen todo).foldl p.addOwnName names := by
  fun_induction p.collect unseen todo names with
  | case1 =>
    rw [entered]
    rfl
  | case2 unseen names r todo h _ _ hget ih =>
    rw [entered, dif_pos h, List.foldl_cons, ih]
    simp only [operandsOf, addOwnName, hget, Option.map_none, Option.getD_none, List.nil_append]
  | case3 unseen names r todo h _ _ i hget ih =>
    rw [entered, dif_pos h, List.foldl_cons, ih]
    simp only [operandsOf, addOwnName, hget, Option.map_some, Option.getD_some, Entry.operands,
      List.nil_append]
  | case4 unseen names r todo h _ _ e hvar hget ih =>
    have hnames : p.addOwnName names r = names := by
      unfold addOwnName
      rw [hget]
      cases e with
      | var i => exact absurd rfl (hvar i)
      | int | bool | unary | binary | ite => rfl
    rw [entered, dif_pos h, List.foldl_cons, ih, hnames]
    simp only [operandsOf, hget, Option.map_some, Option.getD_some]
  | case5 unseen names r todo h ih => rw [entered, dif_neg h, ih]

theorem mem_unseen_of_mem_entered (h : a ∈ p.entered unseen todo) : a ∈ unseen := by
  fun_induction p.entered unseen todo with
  | case1 => cases h
  | case2 unseen r todo hr _ _ ih =>
    rcases List.mem_cons.1 h with rfl | h
    · exact hr
    · exact List.mem_of_mem_erase (ih h)
  | case3 unseen r todo _ ih => exact ih h

theorem nodup_entered (h : unseen.Nodup) : (p.entered unseen todo).Nodup := by
  fun_induction p.entered unseen todo with
  | case1 => exact List.nodup_nil
  | case2 unseen r todo _ _ _ ih =>
    have hnot : r ∉ p.entered (unseen.erase r) (p.operandsOf r ++ todo) :=
      fun hr => h.not_mem_erase (mem_unseen_of_mem_entered hr)
    exact List.nodup_cons.2 ⟨hnot, ih (h.erase r)⟩
  | case3 unseen r todo _ ih => exact ih h

theorem contains_of_mem_entered (h : a ∈ p.entered unseen todo) : ∃ b ∈ todo, p.Contains b a := by
  fun_induction p.entered unseen todo with
  | case1 => cases h
  | case2 unseen r todo _ _ _ ih =>
    rcases List.mem_cons.1 h with rfl | h
    · exact ⟨a, List.mem_cons_self, .refl⟩
    · obtain ⟨b, hb, hcontains⟩ := ih h
      rcases List.mem_append.1 hb with hb | hb
      · exact ⟨r, List.mem_cons_self, .head (mem_operandsOf.1 hb) hcontains⟩
      · exact ⟨b, List.mem_cons_of_mem r hb, hcontains⟩
  | case3 unseen r todo _ ih =>
    obtain ⟨b, hb, hcontains⟩ := ih h
    exact ⟨b, List.mem_cons_of_mem r hb, hcontains⟩

/-- The operands of every expression seen so far have been seen or are still to do. -/
def Closed (p : Pool) (unseen todo : List ExprRef) : Prop :=
  ∀ a, a ∉ unseen → ∀ b, p.HasOperand a b → b ∉ unseen ∨ b ∈ todo

theorem Closed.enter (h : p.Closed unseen (r :: todo)) (hnodup : unseen.Nodup) :
    p.Closed (unseen.erase r) (p.operandsOf r ++ todo) := by
  intro a ha b hb
  rcases not_mem_erase ha with rfl | ha
  · exact .inr (List.mem_append.2 (.inl (mem_operandsOf.2 hb)))
  · rcases h a ha b hb with hseen | hdue
    · exact .inl fun hmem => hseen (List.mem_of_mem_erase hmem)
    · rcases List.mem_cons.1 hdue with rfl | hdue
      · exact .inl hnodup.not_mem_erase
      · exact .inr (List.mem_append.2 (.inr hdue))

theorem Closed.skip (h : p.Closed unseen (r :: todo)) (hr : r ∉ unseen) :
    p.Closed unseen todo := by
  intro a ha b hb
  rcases h a ha b hb with hseen | hdue
  · exact .inl hseen
  · rcases List.mem_cons.1 hdue with rfl | hdue
    · exact .inl hr
    · exact .inr hdue

/-- What an expression contains is looked into, unless it had been before. -/
theorem Closed.mem_entered (h : p.Closed unseen todo) (hnodup : unseen.Nodup)
    (hb : b ∈ todo ∨ b ∉ unseen) (hcontains : p.Contains b a) :
    a ∈ p.entered unseen todo ∨ a ∉ unseen := by
  fun_induction p.entered unseen todo generalizing b with
  | case1 unseen =>
    -- Nothing is left to do, so what has been seen is closed under operands.
    have hseen : b ∉ unseen := hb.resolve_left List.not_mem_nil
    clear hb
    induction hcontains with
    | refl => exact .inr hseen
    | tail _ hoperand ih =>
      have hlast := ih.resolve_left List.not_mem_nil
      exact .inr ((h _ hlast _ hoperand).resolve_right List.not_mem_nil)
  | case2 unseen r todo _ _ _ ih =>
    have hb' : b ∈ p.operandsOf r ++ todo ∨ b ∉ unseen.erase r := by
      rcases hb with hb | hb
      · rcases List.mem_cons.1 hb with rfl | hb
        · exact .inr hnodup.not_mem_erase
        · exact .inl (List.mem_append.2 (.inr hb))
      · exact .inr fun hmem => hb (List.mem_of_mem_erase hmem)
    rcases ih (h.enter hnodup) (hnodup.erase r) hb' hcontains with ha | ha
    · exact .inl (List.mem_cons_of_mem r ha)
    · rcases not_mem_erase ha with rfl | ha
      · exact .inl List.mem_cons_self
      · exact .inr ha
  | case3 unseen r todo hr ih =>
    have hb' : b ∈ todo ∨ b ∉ unseen := by
      rcases hb with hb | hb
      · rcases List.mem_cons.1 hb with rfl | hb
        · exact .inr hr
        · exact .inl hb
      · exact .inr hb
    exact ih (h.skip hr) hnodup hb' hcontains

theorem Denotes.of_contains (hp : p.WellFormed) (h : p.Denotes r x) (ha : p.Contains r a) :
    ∃ y, p.Denotes a y := by
  induction ha with
  | refl => exact ⟨x, h⟩
  | tail _ hoperand ih =>
    obtain ⟨y, hy⟩ := ih
    obtain ⟨z, _, hz⟩ := hy.of_hasOperand hp hoperand
    exact ⟨z, hz⟩

/-- The references of a pool. -/
def refs (p : Pool) : List ExprRef :=
  (List.range p.entries.length).map ExprRef.mk

theorem mem_refs : a ∈ p.refs ↔ a.index < p.entries.length := by
  constructor
  · intro ha
    obtain ⟨i, hi, rfl⟩ := List.mem_map.1 ha
    exact List.mem_range.1 hi
  · exact fun ha => List.mem_map.2 ⟨a.index, List.mem_range.2 ha, rfl⟩

theorem nodup_refs (p : Pool) : p.refs.Nodup :=
  List.Nodup.map (fun _ _ h => congrArg ExprRef.index h) List.nodup_range

theorem closed_refs (p : Pool) (todo : List ExprRef) : p.Closed p.refs todo := by
  intro a ha b hb
  obtain ⟨e, he, _⟩ := hb
  exact absurd (mem_refs.2 (List.getElem?_eq_some_iff.1 he).1) ha

/-- A search from an expression looks into what the expression contains and into nothing else. -/
theorem mem_entered_refs (hp : p.WellFormed) (hr : p.Denotes r x) :
    a ∈ p.entered p.refs [r] ↔ p.Contains r a := by
  constructor
  · intro ha
    obtain ⟨b, hb, hcontains⟩ := contains_of_mem_entered ha
    cases List.mem_singleton.1 hb
    exact hcontains
  · intro ha
    obtain ⟨y, hy⟩ := hr.of_contains hp ha
    have hvisited :=
      (p.closed_refs [r]).mem_entered p.nodup_refs (.inl List.mem_cons_self) ha
    exact hvisited.resolve_right fun hnot => hnot (mem_refs.2 hy.lt)

end Search

end Pool

namespace Pool

variable {p : Pool} {y : String}

theorem mem_varsOf (hp : p.WellFormed) {v : ExprRef} :
    y ∈ p.varsOf v ↔ ∃ x, p.Denotes v x ∧ y ∈ x.vars := by
  constructor
  · intro hy
    cases hget : p.get? v with
    | none =>
      rw [varsOf_eq_nil hget] at hy
      cases hy
    | some e =>
      obtain ⟨x, hx⟩ := exists_denotes hp (List.getElem?_eq_some_iff.1 hget).1
      exact ⟨x, hx, varsOf_of_denotes hp hx ▸ hy⟩
  · rintro ⟨x, hx, hy⟩
    rw [varsOf_of_denotes hp hx]
    exact hy

theorem mem_processNames (hp : p.WellFormed) (process : ClockedProcess ExprRef) :
    y ∈ p.processNames process ↔ y ∈ process.ports.keys ∨
      ∃ s ∈ Stmt.nestedList process.body, y ∈ s.targets ∨
        ∃ v x, s.ownExpr? = some v ∧ p.Denotes v x ∧ y ∈ x.vars := by
  rw [processNames_eq_addAllNew hp, mem_addAllNew, List.mem_flatMap]
  simp only [Stmt.mem_ownNames, mem_varsOf hp, exists_and_left]

end Pool

open Pool

/-- Collecting names appends those that are not listed yet, in the order of their first occurrence,
although each expression is looked into only once. -/
theorem names_collected {p : Pool} (hp : p.WellFormed) :
    (∀ r x, p.Denotes r x →
      (∀ out, p.collectVars r out = out ++ (x.vars.filter (· ∉ out)).eraseDups) ∧
      ∃ visits : List ExprRef, visits.Nodup ∧ (∀ a, a ∈ visits ↔ p.Contains r a) ∧
        ∀ out, p.collectVars r out = visits.foldl p.addOwnName out) ∧
      ∀ process : ClockedProcess ExprRef,
        p.processNames process =
          (Stmt.nestedList process.body).foldl p.collectOwnNames process.ports.keys ∧
        (p.processNames process).Nodup ∧
        ∀ y, y ∈ p.processNames process ↔ y ∈ process.ports.keys ∨
          ∃ s ∈ Stmt.nestedList process.body, y ∈ s.targets ∨
            ∃ v x, s.ownExpr? = some v ∧ p.Denotes v x ∧ y ∈ x.vars := by
  constructor
  · intro r x hr
    constructor
    · intro out
      rw [collectVars_eq hp, varsOf_of_denotes hp hr, addAllNew_eq]
    · exact ⟨p.entered p.refs [r], nodup_entered p.nodup_refs, fun a => mem_entered_refs hp hr,
        collect_eq_foldl p p.refs [r]⟩
  · intro process
    refine ⟨p.collectNames_eq_foldl _ _, ?_, fun y => mem_processNames hp process⟩
    rw [processNames_eq_addAllNew hp]
    exact nodup_addAllNew process.ports.nodup_keys _

/-- The expression `b + 1 < a and b`, in which `b` is shared. -/
def guardExpr : Expr :=
  .binary .and (.binary .lt (.binary .add (.var "b") (.int 1)) (.var "a")) (.var "b")

/-- A process that assigns two names in a branch of its main loop. -/
def guardedProcess : ClockedProcess Expr where
  name := "guarded"
  ports := Table.empty.insert "out" .output
  body := [.register "w" (.int 1),
    .loop (.var "c") [.branch guardExpr [.suspend] [.assign ["w", "v"] (.int 1)]]]

theorem names_collected_guardedProcess :
    let built := (addProcess guardedProcess).run .empty
    built.2.WellFormed ∧ built.2.Denotes ⟨6⟩ guardExpr ∧
      built.2.collectVars ⟨6⟩ ["a"] = ["a", "b"] ∧
      (∃ visits : List ExprRef, visits.Nodup ∧ (∀ a, a ∈ visits ↔ built.2.Contains ⟨6⟩ a) ∧
        ["a", "b"] = visits.foldl built.2.addOwnName ["a"]) ∧
      built.2.processNames built.1 = ["out", "w", "c", "b", "a", "v"] ∧
      "v" ∉ built.1.ports.keys ∧
      ∃ s ∈ Stmt.nestedList built.1.body, "v" ∈ s.targets ∨
        ∃ v x, s.ownExpr? = some v ∧ built.2.Denotes v x ∧ "v" ∈ x.vars := by
  intro built
  have hbuilt := adds_addProcess wellFormed_empty guardedProcess
  have hp : built.2.WellFormed := hbuilt.grows.wellFormed
  have hread : built.2.expr? ⟨6⟩ = some guardExpr := by decide +kernel
  have hx : built.2.Denotes ⟨6⟩ guardExpr := (expr?_eq_some hp).1 hread
  have hnames : built.2.processNames built.1 = ["out", "w", "c", "b", "a", "v"] := by
    rw [processNames_eq hp]
    decide +kernel
  have hport : "v" ∉ built.1.ports.keys := by decide +kernel
  obtain ⟨hcollected, hprocess⟩ := names_collected hp
  obtain ⟨hvars, visits, hnodup, hvisits, hfold⟩ := hcollected ⟨6⟩ guardExpr hx
  have hlist : built.2.collectVars ⟨6⟩ ["a"] = ["a", "b"] := by
    rw [hvars]
    decide +kernel
  have hv : "v" ∈ built.2.processNames built.1 := by simp [hnames]
  have hstmt := (((hprocess built.1).2.2 "v").1 hv).resolve_left hport
  exact ⟨hp, hx, hlist, ⟨visits, hnodup, hvisits, hlist.symm.trans (hfold _)⟩, hnames, hport, hstmt⟩

end Clockwork
