import Clockwork.Compile
import Clockwork.Proofs.Construction
import Clockwork.Proofs.Guards
import Mathlib.Algebra.Group.Nat.Defs

namespace Clockwork
set_option autoImplicit true

variable {g : Graph} {leaf : Stmt Expr → Prop} {test : Expr → Prop} {v : Valuation}

def Start.stateId (s : Start) : Nat := (s.waypoint : Waypoint).stateId

/-- The transition of a route from a start to a suspension. -/
def Start.transition (s : Start) (stateVar : String) (route : List Waypoint) : Transition Expr :=
  (Path.ofNodes (s.waypoint :: route)).propagate.transition stateVar

theorem Waypoint.map_stateId_propagateList (table : Substitution) (ns : List Waypoint) :
    (propagateList table ns).map stateId = ns.map stateId := by
  induction ns generalizing table with
  | nil => rfl
  | cons n ns ih =>
    cases n with
    | head => exact congrArg (List.cons _) (ih table)
    | block ss => exact congrArg (List.cons _) (ih _)
    | branch c taken => exact congrArg (List.cons _) (ih table)
    | suspend id => exact congrArg (List.cons _) (ih table)

/-- The activation compares the state variable with the state where the path starts. -/
theorem Path.fires_transition (p : Path) (h : v.get? x = some w) :
    (p.transition x).fires v =
      if w.toInt64 = Int64.ofNat p.startId then v.holdAll (p.transition x).guards
      else .ok false := by
  have hactive : ((Expr.binary .eq (.var x) (stateLiteral p.startId)).eval v.get?).map
      Value.truth = some (decide (w.toInt64 = Int64.ofNat p.startId)) := by
    simp only [Expr.eval, stateLiteral, h, Option.bind_some]
    rfl
  rw [Transition.fires, Path.transition, Valuation.holdAll_of_some hactive]
  simp only [decide_eq_true_eq]

namespace Start

theorem activation_transition (s : Start) (x : String) (route : List Waypoint) :
    (s.transition x route).activation = .binary .eq (.var x) (stateLiteral s.stateId) := by
  cases s <;> rfl

theorem guards_transition (s : Start) (x : String) (route : List Waypoint) :
    (s.transition x route).guards = Waypoint.guards .empty route := by
  cases s <;> rfl

theorem effects_transition (s : Start) (x : String) (route : List Waypoint) :
    (s.transition x route).effects = Waypoint.effects .empty route := by
  cases s <;> rfl

theorem target_transition {id : Nat} (s : Start) (x : String)
    (h : route.getLast? = some (.suspend id)) : (s.transition x route).target = id := by
  have hlast : ((Waypoint.propagateList .empty (s.waypoint :: route)).map
      Waypoint.stateId).getLast? = some id := by
    rw [Waypoint.map_stateId_propagateList, List.getLast?_map, List.getLast?_cons, h]
    rfl
  rw [List.getLast?_map] at hlast
  exact congrArg (Option.getD · 0) hlast

theorem fires_transition (s : Start) (route : List Waypoint) (h : v.get? x = some w) :
    (s.transition x route).fires v =
      if w.toInt64 = Int64.ofNat s.stateId then v.holdAll (Waypoint.guards .empty route)
      else .ok false := by
  have hsource : (Path.ofNodes (s.waypoint :: route)).propagate.startId = s.stateId := by
    cases s <;> rfl
  rw [← hsource, ← guards_transition s x]
  exact Path.fires_transition _ h

theorem fires_transition_of_none (s : Start) (route : List Waypoint) (h : v.get? x = none) :
    ∃ culprit, (s.transition x route).fires v = .error (.undefined culprit) := by
  have hactive : ((Expr.binary .eq (.var x) (stateLiteral s.stateId)).eval v.get?).map
      Value.truth = none := by
    simp only [Expr.eval, h, Option.bind_none]
    rfl
  rw [Transition.fires, activation_transition, Valuation.holdAll_of_none hactive]
  exact ⟨_, rfl⟩

theorem fires_eq_false {s t : Start}
    (h : Int64.ofNat s.stateId = Int64.ofNat t.stateId →
      v.holdAll (Waypoint.guards .empty p) = .ok true →
      v.holdAll (Waypoint.guards .empty q) = .ok false)
    (hfires : (s.transition x p).fires v = .ok true) : (t.transition x q).fires v = .ok false := by
  cases hw : v.get? x with
  | none =>
    obtain ⟨_, herror⟩ := s.fires_transition_of_none p hw
    rw [herror] at hfires
    cases hfires
  | some w =>
    rw [s.fires_transition p hw] at hfires
    rw [t.fires_transition q hw]
    split at hfires
    · next hs =>
      split
      · next ht => exact h (hs.symm.trans ht) hfires
      · rfl
    · cases hfires

end Start

/-- Of two transitions at most one fires, and then nothing about the other one is undefined. -/
def Transition.Apart (v : Valuation) (t u : Transition Expr) : Prop :=
  v.Apart (t.activation :: t.guards) (u.activation :: u.guards)

theorem Start.apart_of_ne {s t : Start} (hne : Int64.ofNat s.stateId ≠ Int64.ofNat t.stateId)
    (x : String) (p q : List Waypoint) :
    Transition.Apart v (s.transition x p) (t.transition x q) :=
  ⟨fires_eq_false fun he => (hne he).elim, fires_eq_false fun he => (hne he.symm).elim⟩

theorem Start.apart_of_suffixes (h : g.suffixes depth edge = .ok routes) (s : Start) (x : String)
    (v : Valuation) :
    routes.Pairwise fun p q => Transition.Apart v (s.transition x p) (s.transition x q) := by
  apply (Graph.suffixes_apart h .empty v).imp
  intro p q hpq
  exact ⟨fires_eq_false fun _ => hpq.1, fires_eq_false fun _ => hpq.2⟩

theorem Int64.ofNat_injOn {m n : Nat} (hm : m < 2 ^ 64) (hn : n < 2 ^ 64)
    (h : Int64.ofNat m = Int64.ofNat n) : m = n := by
  have hbits := congrArg (fun w => w.toBitVec.toNat) h
  simp only [Int64.toBitVec_ofNat', BitVec.toNat_ofNat] at hbits
  rwa [Nat.mod_eq_of_lt hm, Nat.mod_eq_of_lt hn] at hbits

namespace Graph

theorem mem_present {n : Node} : (i, n) ∈ g.present ↔ g.node? i = some n := by
  simp only [present, List.mem_filterMap, List.mem_range]
  constructor
  · intro h
    obtain ⟨j, _, hj⟩ := h
    obtain ⟨m, hm, he⟩ := Option.map_eq_some_iff.1 hj
    cases he
    exact hm
  · intro h
    exact ⟨i, lt_size_of_node? h, by rw [h]; rfl⟩

theorem mem_suspensions {id : Nat} :
    (i, id) ∈ g.suspensions ↔ ∃ next, g.node? i = some (.suspend id next) := by
  rw [suspensions, List.mem_filterMap]
  constructor
  · intro h
    obtain ⟨⟨j, n⟩, hj, hn⟩ := h
    cases n with
    | suspend id next =>
      cases hn
      exact ⟨next, mem_present.1 hj⟩
    | head => cases hn
    | block => cases hn
    | branch => cases hn
  · intro h
    obtain ⟨next, hi⟩ := h
    exact ⟨(i, .suspend id next), mem_present.2 hi, rfl⟩

theorem present_ascend (g : Graph) : g.present.Pairwise fun a b => a.1 < b.1 := by
  rw [present, List.pairwise_filterMap]
  apply List.pairwise_lt_range.imp
  intro i j hij a ha b hb
  obtain ⟨n, _, rfl⟩ := Option.map_eq_some_iff.1 ha
  obtain ⟨m, _, rfl⟩ := Option.map_eq_some_iff.1 hb
  exact hij

theorem nodup_present (g : Graph) : (g.present.map Prod.fst).Nodup :=
  List.pairwise_map.2 (g.present_ascend.imp Nat.ne_of_lt)

theorem mem_map_present : i ∈ g.present.map Prod.fst ↔ ∃ n, g.node? i = some n := by
  simp only [List.mem_map, Prod.exists, mem_present, exists_and_right, exists_eq_right]

theorem suspensions_ascend (g : Graph) : g.suspensions.Pairwise fun a b => a.1 < b.1 := by
  rw [suspensions, List.pairwise_filterMap]
  apply g.present_ascend.imp
  intro x y hxy a ha b hb
  obtain ⟨i, n⟩ := x
  obtain ⟨j, m⟩ := y
  cases n <;> cases ha
  cases m <;> cases hb
  exact hxy

theorem mem_starts : (s, i) ∈ g.starts ↔ s = .head ∧ i = g.head ∨
    ∃ id next, s = .suspension id ∧ g.node? i = some (.suspend id next) := by
  rw [starts, List.mem_cons, Prod.mk.injEq, List.mem_map]
  apply or_congr Iff.rfl
  constructor
  · intro h
    obtain ⟨⟨j, id⟩, hj, he⟩ := h
    cases he
    obtain ⟨next, hnode⟩ := mem_suspensions.1 hj
    exact ⟨id, next, rfl, hnode⟩
  · intro h
    obtain ⟨id, next, rfl, hi⟩ := h
    exact ⟨(i, id), mem_suspensions.2 ⟨next, hi⟩, rfl⟩

theorem WellBuilt.stateId_le (hg : g.WellBuilt leaf test) (h : (s, i) ∈ g.starts) :
    s.stateId ≤ g.suspensionCount := by
  rcases mem_starts.1 h with ⟨rfl, _⟩ | ⟨id, next, rfl, hi⟩
  · exact Nat.zero_le _
  · exact (hg.id_range i id next hi).2

/-- Different starts have different states. -/
theorem WellBuilt.starts_pairwise (hg : g.WellBuilt leaf test) :
    g.starts.Pairwise fun a b => a.1.stateId ≠ b.1.stateId := by
  rw [starts, List.pairwise_cons, List.pairwise_map]
  constructor
  · intro a ha
    obtain ⟨⟨j, id⟩, hj, rfl⟩ := List.mem_map.1 ha
    obtain ⟨next, hnode⟩ := mem_suspensions.1 hj
    exact Nat.ne_of_lt (hg.id_range j id next hnode).1
  · apply List.Pairwise.imp_of_mem ?_ g.suspensions_ascend
    intro a b hi hj hij he
    obtain ⟨i, id⟩ := a
    obtain ⟨j, id'⟩ := b
    obtain ⟨next, hi⟩ := mem_suspensions.1 hi
    obtain ⟨next', hj⟩ := mem_suspensions.1 hj
    cases he
    exact Nat.ne_of_lt hij (hg.id_unique i j id next next' hi hj)

theorem pathsFrom_eq_ok (h : g.pathsFrom depth (s, i) = .ok ps) :
    ∃ routes, g.suffixes depth ((g.node? i).bind Node.next?) = .ok routes ∧
      ps = routes.map fun route => .ofNodes (s.waypoint :: route) := by
  obtain ⟨routes, hroutes, hps⟩ := Except.bind_eq_ok h
  cases hps
  refine ⟨routes, ?_, rfl⟩
  cases hs : g.suffixes depth ((g.node? i).bind Node.next?) with
  | error e => rw [hs] at hroutes; cases hroutes
  | ok routes => rw [hs] at hroutes; cases hroutes; rfl

variable {paths : List Path}

theorem paths_eq_ok (h : g.paths depth = .ok paths) :
    ∃ lists : List (List Path), g.starts.map (g.pathsFrom depth) = lists.map .ok ∧
      paths = lists.flatten := by
  obtain ⟨lists, hlists, hpaths⟩ := Except.bind_eq_ok h
  cases hpaths
  exact ⟨lists, Except.map_eq_of_mapM hlists, rfl⟩

theorem routes_of_start (h : g.paths depth = .ok paths) (hs : (s, i) ∈ g.starts) :
    ∃ routes, g.suffixes depth ((g.node? i).bind Node.next?) = .ok routes ∧
      ∀ x, ∀ route ∈ routes,
        s.transition x route ∈ paths.map fun p => p.propagate.transition x := by
  obtain ⟨lists, hlists, rfl⟩ := paths_eq_ok h
  have hmem : g.pathsFrom depth (s, i) ∈ lists.map .ok := hlists ▸ List.mem_map_of_mem hs
  obtain ⟨ps, hps, hok⟩ := List.mem_map.1 hmem
  obtain ⟨routes, hroutes, rfl⟩ := pathsFrom_eq_ok hok.symm
  refine ⟨routes, hroutes, ?_⟩
  intro x route hroute
  have hpath : Path.ofNodes (s.waypoint :: route) ∈ lists.flatten :=
    List.mem_flatten_of_mem hps (List.mem_map_of_mem hroute)
  exact List.mem_map_of_mem hpath

/-- At most one of the transitions of a graph fires. -/
theorem WellBuilt.transitions_apart (hg : g.WellBuilt leaf test)
    (hcount : g.suspensionCount < 2 ^ 64) (h : g.paths depth = .ok paths) (x : String)
    (v : Valuation) :
    (paths.map fun p => p.propagate.transition x).Pairwise (Transition.Apart v) := by
  obtain ⟨lists, hlists, rfl⟩ := paths_eq_ok h
  rw [List.pairwise_map, List.pairwise_flatten]
  constructor
  · intro ps hps
    have hmem : .ok ps ∈ g.starts.map (g.pathsFrom depth) := hlists ▸ List.mem_map_of_mem hps
    obtain ⟨⟨s, i⟩, _, hok⟩ := List.mem_map.1 hmem
    obtain ⟨routes, hroutes, rfl⟩ := pathsFrom_eq_ok hok
    exact List.pairwise_map.2 (s.apart_of_suffixes hroutes x v)
  · have hstarts : (g.starts.map (g.pathsFrom depth)).Pairwise fun a b =>
        ∀ ps qs, a = .ok ps → b = .ok qs → ∀ p ∈ ps, ∀ q ∈ qs,
          Transition.Apart v (p.propagate.transition x) (q.propagate.transition x) := by
      apply List.pairwise_map.2
      apply hg.starts_pairwise.imp_of_mem
      intro a b hs ht hne ps qs hps hqs p hp q hq
      obtain ⟨routes, _, rfl⟩ := pathsFrom_eq_ok hps
      obtain ⟨routes', _, rfl⟩ := pathsFrom_eq_ok hqs
      obtain ⟨route, _, rfl⟩ := List.mem_map.1 hp
      obtain ⟨route', _, rfl⟩ := List.mem_map.1 hq
      apply Start.apart_of_ne
      intro he
      exact hne (Int64.ofNat_injOn (Nat.lt_of_le_of_lt (hg.stateId_le hs) hcount)
        (Nat.lt_of_le_of_lt (hg.stateId_le ht) hcount) he)
    rw [hlists, List.pairwise_map] at hstarts
    exact hstarts.imp fun hpq => hpq _ _ rfl rfl

end Graph

theorem ClockedProcess.flow_eq_ok {p : ClockedProcess Expr} {f : Flow} (h : p.flow = .ok f) :
    ∃ expansion, p.expandWaits = .ok expansion ∧ Graph.ofBody expansion.body = .ok f.graph ∧
      f.counters = expansion.counters := by
  obtain ⟨expansion, hexpand, htail⟩ := Except.bind_eq_ok h
  obtain ⟨graph, hgraph, hflow⟩ := Except.bind_eq_ok htail
  cases hflow
  exact ⟨expansion, hexpand, hgraph, rfl⟩

theorem ClockedProcess.compile_eq_ok {p : ClockedProcess Expr} (h : p.compile options = .ok m) :
    ∃ (flow : Flow) (paths : List Path), p.flow = .ok flow ∧
      options.stateVar ∉ flow.registers.map Prod.fst ∧
      (flow.graph.simplify options.bypass).paths options.maxPathDepth = .ok paths ∧
      m = (flow.simplify options.bypass).machine p options.stateVar paths := by
  obtain ⟨flow', hsimplified, htail⟩ := Except.bind_eq_ok h
  obtain ⟨paths, hpaths, hm⟩ := Except.bind_eq_ok htail
  obtain ⟨flow, hflow, htail⟩ := Except.bind_eq_ok hsimplified
  split at htail
  · cases htail
  · next hfree =>
    cases htail
    cases hm
    simp only [Bool.or_eq_true, decide_eq_true_eq, not_or] at hfree
    exact ⟨flow, paths, hflow, hfree.2, hpaths, rfl⟩

end Clockwork
