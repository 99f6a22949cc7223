import Clockwork.Proofs.Bypass
import Clockwork.Proofs.Routes

namespace Clockwork
set_option autoImplicit true

variable {g h k : Graph}

namespace Waypoint

/-- The second nodes let through what the first ones let through, and have the same effects. -/
def Equivalent (ns ns' : List Waypoint) : Prop :=
  ∀ (table : Substitution) (v : Valuation),
    v.holdAll (guards table ns') = v.holdAll (guards table ns) ∧
      effects table ns' = effects table ns

theorem Equivalent.refl (ns : List Waypoint) : Equivalent ns ns :=
  fun _ _ => ⟨rfl, rfl⟩

theorem Equivalent.trans (h : Equivalent ns ms) (h' : Equivalent ms ls) : Equivalent ns ls := by
  intro table v
  obtain ⟨hguards, heffects⟩ := h table v
  obtain ⟨hguards', heffects'⟩ := h' table v
  exact ⟨hguards'.trans hguards, heffects'.trans heffects⟩

theorem Equivalent.cons (h : Equivalent ns ns') (n : Waypoint) :
    Equivalent (n :: ns) (n :: ns') := by
  intro table v
  cases n with
  | head => exact h table v
  | suspend => exact h table v
  | branch c taken =>
    obtain ⟨hguards, heffects⟩ := h table v
    rw [guards_branch, guards_branch, Valuation.holdAll, Valuation.holdAll, hguards]
    exact ⟨rfl, heffects⟩
  | block ss =>
    obtain ⟨hguards, heffects⟩ := h (Stmt.propagateList table ss).2 v
    exact ⟨hguards, congrArg (_ ++ ·) heffects⟩

theorem equivalent_emptyBlock (ns : List Waypoint) : Equivalent ns (.block [] :: ns) :=
  fun _ _ => ⟨rfl, rfl⟩

theorem equivalent_literalBranch (l : Value) (ns : List Waypoint) :
    Equivalent ns (.branch (.ofValue l) l.truth :: ns) := by
  intro table v
  have htruth : ((Expr.ofValue l).reduce table).truth? = some l.truth := by
    rw [Expr.reduce_ofValue, Expr.truth?_ofValue]
  refine ⟨?_, rfl⟩
  rw [guards_branch, Valuation.holdAll_guardOf_decided htruth (Expr.folded_reduce table _)]

theorem Spells.equivalent (h : Spells ns ns') : Equivalent ns ns' := by
  intro table v
  obtain ⟨hguards, _, heffects⟩ := h.holdAll table v
  exact ⟨hguards, heffects⟩

theorem Leads.of_equivalent {id : Nat} {v now now' : Valuation}
    (h : Leads v table now now' id route) (hequiv : Equivalent route route')
    (hlast : route'.getLast? = route.getLast?) :
    Leads v table now now' id route' where
  isOpen := (hequiv table v).1.trans h.isOpen
  effects := (hequiv table v).2 ▸ h.effects
  last := hlast.trans h.last

end Waypoint

theorem Node.ways_mapEdges (f : Option NodeId → Option NodeId) (n : Node) :
    (n.mapEdges f).ways = n.ways.map (Prod.map id f) := by
  cases n <;> rfl

namespace Graph

/-- Every walk of the first graph from a start to a suspension is one of the second graph, up to
nodes that make no difference. -/
def Condenses (k g : Graph) : Prop :=
  ∀ s edge route, k.Exit s edge → k.Route edge route →
    ∃ edge' route', g.Exit s edge' ∧ g.Route edge' route' ∧ Waypoint.Equivalent route route' ∧
      route'.getLast? = route.getLast?

theorem Condenses.refl (g : Graph) : g.Condenses g :=
  fun _ edge route hexit hroute => ⟨edge, route, hexit, hroute, .refl route, rfl⟩

theorem Condenses.trans (hk : k.Condenses h) (hh : h.Condenses g) : k.Condenses g := by
  intro s edge route hexit hroute
  obtain ⟨edge₁, route₁, hexit₁, hroute₁, hequiv₁, hlast₁⟩ := hk s edge route hexit hroute
  obtain ⟨edge₂, route₂, hexit₂, hroute₂, hequiv₂, hlast₂⟩ := hh s edge₁ route₁ hexit₁ hroute₁
  exact ⟨edge₂, route₂, hexit₂, hroute₂, hequiv₁.trans hequiv₂, hlast₂.trans hlast₁⟩

theorem Bypasses.condenses (hg : g.Bypasses h) : g.Condenses h := by
  intro s edge route hexit hroute
  obtain ⟨route', hroute', hspells, hlast⟩ := hg.exists_route hroute
  exact ⟨edge, route', hg.exit_iff.1 hexit, hroute', hspells.equivalent, hlast⟩

section Splice

variable {i : NodeId} {target : Option NodeId} {n : Waypoint}

theorem node?_of_splice {n : Node} (h : (g.splice i target).node? j = some n) :
    ∃ m, g.node? j = some m ∧ n = m.mapEdges (redirect i target) := by
  rw [node?_splice] at h
  split at h
  · cases h
  · obtain ⟨m, hm, rfl⟩ := Option.map_eq_some_iff.1 h
    exact ⟨m, hm, rfl⟩

theorem Passes.of_splice (h : (g.splice i target).Passes edge n next) :
    ∃ next', g.Passes edge n next' ∧ redirect i target next' = next := by
  obtain ⟨j, m, rfl, hj, hways⟩ := passes_iff.1 h
  obtain ⟨m, hm, rfl⟩ := node?_of_splice hj
  rw [Node.ways_mapEdges] at hways
  obtain ⟨⟨n', next'⟩, hmem, he⟩ := List.mem_map.1 hways
  cases he
  exact ⟨next', passes_iff.2 ⟨j, m, rfl, hm, hmem⟩, rfl⟩

theorem suspend_of_splice {id : Nat} (h : (g.splice i target).node? j = some (.suspend id next)) :
    ∃ next', g.node? j = some (.suspend id next') ∧ redirect i target next' = next := by
  obtain ⟨m, hm, hn⟩ := node?_of_splice h
  cases m <;> cases hn
  exact ⟨_, hm, rfl⟩

theorem Exit.of_splice (h : (g.splice i target).Exit s edge) :
    ∃ edge', g.Exit s edge' ∧ redirect i target edge' = edge := by
  cases h with
  | head hi =>
    obtain ⟨m, hm, hn⟩ := node?_of_splice hi
    cases m <;> cases hn
    exact ⟨_, .head hm, rfl⟩
  | suspension hi =>
    obtain ⟨next, hi', hnext⟩ := suspend_of_splice hi
    exact ⟨next, .suspension hi', hnext⟩

/-- A walk may enter through the node that has been taken out. -/
theorem Trail.enter (hi : g.Passes (some i) n target)
    (hsilent : ∀ ns, Waypoint.Equivalent ns (n :: ns)) (ht : g.Trail edge ns last)
    (hedge : redirect i target edge' = edge) (tail : List Waypoint) :
    ∃ ns', g.Trail edge' ns' last ∧ Waypoint.Equivalent (ns ++ tail) (ns' ++ tail) := by
  unfold redirect at hedge
  split at hedge
  · next he =>
    subst he hedge
    exact ⟨n :: ns, .cons hi ht, hsilent _⟩
  · subst hedge
    exact ⟨ns, ht, .refl _⟩

theorem Trail.of_splice (hi : g.Passes (some i) n target)
    (hsilent : ∀ ns, Waypoint.Equivalent ns (n :: ns)) (ht : (g.splice i target).Trail edge ns last)
    (hedge : redirect i target edge' = edge) (tail : List Waypoint) :
    ∃ ns', g.Trail edge' ns' last ∧ Waypoint.Equivalent (ns ++ tail) (ns' ++ tail) := by
  induction ht generalizing edge' with
  | nil edge => exact Trail.enter hi hsilent (.nil edge) hedge tail
  | cons hm _ ih =>
    obtain ⟨next, hm', hnext⟩ := hm.of_splice
    obtain ⟨ns₁, ht₁, hequiv₁⟩ := ih hnext
    obtain ⟨ns₂, ht₂, hequiv₂⟩ := Trail.enter hi hsilent (.cons hm' ht₁) hedge tail
    exact ⟨ns₂, ht₂, (hequiv₁.cons _).trans hequiv₂⟩

/-- A graph without a node that does nothing condenses the graph with it. -/
theorem condenses_splice (hi : g.Passes (some i) n target)
    (hsilent : ∀ ns, Waypoint.Equivalent ns (n :: ns)) : (g.splice i target).Condenses g := by
  intro s edge route hexit hroute
  obtain ⟨edge', hexit', hedge⟩ := hexit.of_splice
  obtain ⟨ns, j, id, next, ht, hj, rfl⟩ := hroute
  obtain ⟨next', hj', _⟩ := suspend_of_splice hj
  obtain ⟨ns', ht', hequiv⟩ := ht.of_splice hi hsilent hedge [.suspend id]
  refine ⟨edge', _, hexit', ⟨ns', j, id, next', ht', hj', rfl⟩, hequiv, ?_⟩
  rw [List.getLast?_concat, List.getLast?_concat]

end Splice

theorem condenses_of_pass {p : Pass} (h : p.change? g i = some k) : k.Condenses g := by
  cases p with
  | emptyBlocks =>
    obtain ⟨target, hi, _, rfl⟩ := withoutEmptyBlock?_eq_some h
    exact condenses_splice (.block hi) Waypoint.equivalent_emptyBlock
  | shortcuts => exact ((Bypasses.refl g).shortcut h).condenses
  | literalBranches =>
    obtain ⟨l, t, f, target, hi, rfl, _, rfl⟩ := withoutLiteralBranch?_eq_some h
    refine condenses_splice ?_ (Waypoint.equivalent_literalBranch l)
    cases l.truth with
    | true => exact .onTrue hi
    | false => exact .onFalse hi

/-- Passes of a simplification lead to no walk that the graph does not have. -/
theorem condenses_afterPasses (g : Graph) (passes : List Pass) :
    (g.afterPasses passes).Condenses g :=
  afterPasses_invariant (P := fun k => k.Condenses g)
    (fun _ _ _ _ hk hg => (condenses_of_pass hk).trans hg) passes (.refl g)

end Graph

end Clockwork
