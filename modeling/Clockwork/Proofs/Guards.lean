import Clockwork.Graph.Paths
import Clockwork.Machine.OfPaths
import Clockwork.Proofs.Reduction

namespace Clockwork
set_option autoImplicit true

variable {c : Expr} {v : Valuation} {w : Value} {g : Graph}

theorem Expr.folded_reduce (table : Substitution) (e : Expr) : (e.reduce table).Folded :=
  Expr.folded_fold (e.substitute table)

/-- The guards of the two edges of a branch are complements of each other, whatever the types. -/
theorem Expr.Folded.eval_guardOf_false (hc : c.Folded) (env : Env) :
    ((guardOf (c, false)).eval env).map Value.truth = ((c.eval env).map Value.truth).map not := by
  have hfold : guardOf (c, false) = (Expr.unary .not c).foldRoot := by
    rw [guardOf, Expr.fold, hc.fold_eq]
  rcases Expr.foldRoot_unary_cases .not c with ⟨x, y, rfl, hxy, hr⟩ | ⟨b, _, rfl, hr⟩ | hr
  · rw [hfold, hr, Expr.eval_ofValue, Expr.eval_ofValue]
    cases hxy
    rfl
  · rw [hfold, hr, Expr.eval]
    cases b.eval env with
    | none => rfl
    | some x => exact congrArg some (Bool.not_not _).symm
  · rw [hfold, hr, Expr.eval]
    cases c.eval env with
    | none => rfl
    | some x => rfl

theorem Expr.Folded.eval_guardOf (hc : c.Folded) (env : Env) (taken : Bool) :
    ((guardOf (c, taken)).eval env).map Value.truth =
      (c.eval env).map fun w => w.truth == taken := by
  cases taken with
  | true =>
    rw [guardOf]
    cases c.eval env with
    | none => rfl
    | some x => exact congrArg some (beq_true x.truth).symm
  | false =>
    rw [hc.eval_guardOf_false]
    cases c.eval env with
    | none => rfl
    | some x => exact congrArg some (beq_false x.truth).symm

namespace Valuation

theorem holdAll_of_some (h : (e.eval v.get?).map Value.truth = some b) :
    v.holdAll (e :: es) = if b then v.holdAll es else .ok false := by
  obtain ⟨w, hw, rfl⟩ := Option.map_eq_some_iff.1 h
  rw [holdAll, eval_eq_ok.2 hw]
  rfl

theorem holdAll_of_none (h : (e.eval v.get?).map Value.truth = none) :
    v.holdAll (e :: es) = .error (.undefined (.expr e)) := by
  rw [holdAll, eval, Option.map_eq_none_iff.1 h]
  rfl

theorem holdAll_eq_error (h : v.holdAll es = .error err) : ∃ culprit, err = .undefined culprit := by
  induction es with
  | nil => cases h
  | cons e es ih =>
    cases he : (e.eval v.get?).map Value.truth with
    | none =>
      rw [holdAll_of_none he] at h
      cases h
      exact ⟨_, rfl⟩
    | some b =>
      rw [holdAll_of_some he] at h
      cases b with
      | true => exact ih h
      | false => cases h

theorem holdAll_guardOf_of_some (hc : c.Folded) (hw : c.eval v.get? = some w) (taken : Bool) :
    v.holdAll (guardOf (c, taken) :: es) =
      if w.truth == taken then v.holdAll es else .ok false := by
  apply holdAll_of_some
  rw [hc.eval_guardOf, hw]
  rfl

theorem holdAll_guardOf_of_none (hc : c.Folded) (hw : c.eval v.get? = none) (taken : Bool) :
    v.holdAll (guardOf (c, taken) :: es) = .error (.undefined (.expr (guardOf (c, taken)))) := by
  apply holdAll_of_none
  rw [hc.eval_guardOf, hw]
  rfl

/-- Where one of two lists of conditions holds, the other one is false and nothing is undefined. -/
def Apart (v : Valuation) (es ds : List Expr) : Prop :=
  (v.holdAll es = .ok true → v.holdAll ds = .ok false) ∧
    (v.holdAll ds = .ok true → v.holdAll es = .ok false)

theorem apart_guardOf (hc : c.Folded) (h : s = t → v.Apart es ds) :
    v.Apart (guardOf (c, s) :: es) (guardOf (c, t) :: ds) := by
  cases hw : c.eval v.get? with
  | none =>
    rw [Apart, holdAll_guardOf_of_none hc hw, holdAll_guardOf_of_none hc hw]
    exact ⟨nofun, nofun⟩
  | some w =>
    rw [Apart, holdAll_guardOf_of_some hc hw, holdAll_guardOf_of_some hc hw]
    cases s <;> cases t <;> cases w.truth
    · exact h rfl
    · exact ⟨nofun, nofun⟩
    · exact ⟨fun _ => rfl, nofun⟩
    · exact ⟨nofun, fun _ => rfl⟩
    · exact ⟨nofun, fun _ => rfl⟩
    · exact ⟨fun _ => rfl, nofun⟩
    · exact ⟨nofun, nofun⟩
    · exact h rfl

end Valuation

namespace Waypoint

/-- The guards of the rest of a path, after statements for which the table stands. -/
def guards (table : Substitution) (ns : List Waypoint) : List Expr :=
  (Path.mk (propagateList table ns) true).branches.map guardOf

/-- The effects of the rest of a path, after statements for which the table stands. -/
def effects (table : Substitution) (ns : List Waypoint) : List (Stmt Expr) :=
  (Path.mk (propagateList table ns) true).stmts

theorem guards_block : guards table (.block ss :: ns) =
    guards (Stmt.propagateList table ss).2 ns := rfl

theorem guards_branch : guards table (.branch c taken :: ns) =
    guardOf (c.reduce table, taken) :: guards table ns := rfl

theorem effects_block : effects table (.block ss :: ns) =
    (Stmt.propagateList table ss).1 ++ effects (Stmt.propagateList table ss).2 ns := rfl

theorem effects_branch : effects table (.branch c taken :: ns) = effects table ns := rfl

end Waypoint

namespace Graph

theorem suffixes_induction {P : Option NodeId → List (List Waypoint) → Prop}
    (suspend : ∀ i id next, g.node? i = some (.suspend id next) → P (some i) [[.suspend id]])
    (block : ∀ i ss next rest, g.node? i = some (.block ss next) → P next rest →
      P (some i) (rest.map (.block ss :: ·)))
    (branch : ∀ i c t f onTrue onFalse, g.node? i = some (.branch c t f) → P t onTrue →
      P f onFalse →
      P (some i) (onTrue.map (.branch c true :: ·) ++ onFalse.map (.branch c false :: ·)))
    (h : g.suffixes depth edge = .ok routes) : P edge routes := by
  induction depth generalizing edge routes with
  | zero => cases h
  | succ depth ih =>
    cases edge with
    | none => cases h
    | some i =>
      rw [suffixes, Option.bind_some] at h
      cases hi : g.node? i with
      | none => rw [hi] at h; cases h
      | some n =>
        rw [hi] at h
        cases n with
        | head next => cases h
        | suspend id next =>
          cases h
          exact suspend i id next hi
        | block ss next =>
          obtain ⟨rest, hrest, hpaths⟩ := Except.bind_eq_ok h
          cases hpaths
          exact block i ss next rest hi (ih hrest)
        | branch c t f =>
          obtain ⟨onTrue, htrue, htail⟩ := Except.bind_eq_ok h
          obtain ⟨onFalse, hfalse, hpaths⟩ := Except.bind_eq_ok htail
          cases hpaths
          exact branch i c t f onTrue onFalse hi (ih htrue) (ih hfalse)

/-- Two ways on from an edge part at some branch. -/
theorem suffixes_apart (h : g.suffixes depth edge = .ok routes) (table : Substitution)
    (v : Valuation) :
    routes.Pairwise fun p q => v.Apart (Waypoint.guards table p) (Waypoint.guards table q) := by
  refine suffixes_induction (P := fun _ routes => ∀ table, routes.Pairwise fun p q =>
    v.Apart (Waypoint.guards table p) (Waypoint.guards table q)) ?_ ?_ ?_ h table
  · intro i id next _ table
    exact List.pairwise_singleton _ _
  · intro i ss next rest _ ih table
    exact List.pairwise_map.2 (ih _)
  · intro i c t f onTrue onFalse _ htrue hfalse table
    -- Both edges are taken under the same table, so their guards come from one condition.
    have hc := Expr.folded_reduce table c
    rw [List.pairwise_append, List.pairwise_map, List.pairwise_map]
    refine ⟨(htrue table).imp ?_, (hfalse table).imp ?_, ?_⟩
    · exact fun hpq => Valuation.apart_guardOf hc fun _ => hpq
    · exact fun hpq => Valuation.apart_guardOf hc fun _ => hpq
    · intro p hp q hq
      obtain ⟨p, _, rfl⟩ := List.mem_map.1 hp
      obtain ⟨q, _, rfl⟩ := List.mem_map.1 hq
      exact Valuation.apart_guardOf hc nofun

/-- Some way on from an edge is open unless a guard is undefined. -/
theorem suffixes_complete (h : g.suffixes depth edge = .ok routes) (table : Substitution)
    (v : Valuation) : ∃ p ∈ routes, v.holdAll (Waypoint.guards table p) ≠ .ok false := by
  refine suffixes_induction (P := fun _ routes => ∀ table, ∃ p ∈ routes,
    v.holdAll (Waypoint.guards table p) ≠ .ok false) ?_ ?_ ?_ h table
  · intro i id next _ table
    exact ⟨[.suspend id], List.mem_singleton.2 rfl, nofun⟩
  · intro i ss next rest _ ih table
    obtain ⟨p, hp, hopen⟩ := ih (Stmt.propagateList table ss).2
    exact ⟨.block ss :: p, List.mem_map_of_mem hp, hopen⟩
  · intro i c t f onTrue onFalse _ htrue hfalse table
    obtain ⟨p, hp, hopen⟩ := htrue table
    obtain ⟨q, hq, hopen'⟩ := hfalse table
    have hc := Expr.folded_reduce table c
    have hmemTrue : .branch c true :: p ∈ onTrue.map (Waypoint.branch c true :: ·) :=
      List.mem_map_of_mem hp
    have hmemFalse : .branch c false :: q ∈ onFalse.map (Waypoint.branch c false :: ·) :=
      List.mem_map_of_mem hq
    cases hw : (c.reduce table).eval v.get? with
    | none =>
      refine ⟨_, List.mem_append_left _ hmemTrue, ?_⟩
      rw [Waypoint.guards_branch, Valuation.holdAll_guardOf_of_none hc hw]
      exact nofun
    | some w =>
      cases htruth : w.truth with
      | true =>
        refine ⟨_, List.mem_append_left _ hmemTrue, ?_⟩
        rw [Waypoint.guards_branch, Valuation.holdAll_guardOf_of_some hc hw, htruth]
        exact hopen
      | false =>
        refine ⟨_, List.mem_append_right _ hmemFalse, ?_⟩
        rw [Waypoint.guards_branch, Valuation.holdAll_guardOf_of_some hc hw, htruth]
        exact hopen'

/-- Every way on from an edge ends in a suspension of the graph. -/
theorem suffixes_last (h : g.suffixes depth edge = .ok routes) :
    ∀ p ∈ routes, ∃ i id next, g.node? i = some (.suspend id next) ∧
      p.getLast? = some (.suspend id) := by
  refine suffixes_induction (P := fun _ routes => ∀ p ∈ routes, ∃ i id next,
    g.node? i = some (.suspend id next) ∧ p.getLast? = some (.suspend id)) ?_ ?_ ?_ h
  · intro i id next hi p hp
    cases List.mem_singleton.1 hp
    exact ⟨i, id, next, hi, rfl⟩
  · intro i ss next rest _ ih p hp
    obtain ⟨q, hq, rfl⟩ := List.mem_map.1 hp
    obtain ⟨j, id, next, hj, hlast⟩ := ih q hq
    exact ⟨j, id, next, hj, getLast?_cons_of_eq_some hlast _⟩
  · intro i c t f onTrue onFalse _ htrue hfalse p hp
    rcases List.mem_append.1 hp with hp | hp
    · obtain ⟨q, hq, rfl⟩ := List.mem_map.1 hp
      obtain ⟨j, id, next, hj, hlast⟩ := htrue q hq
      exact ⟨j, id, next, hj, getLast?_cons_of_eq_some hlast _⟩
    · obtain ⟨q, hq, rfl⟩ := List.mem_map.1 hp
      obtain ⟨j, id, next, hj, hlast⟩ := hfalse q hq
      exact ⟨j, id, next, hj, getLast?_cons_of_eq_some hlast _⟩

end Graph

end Clockwork
