import Clockwork.Proofs.Passes
import Clockwork.Proofs.Transitions

namespace Clockwork
set_option autoImplicit true

variable {g : Graph}

/-- A walk passes through the node at the end of an edge and leaves it along one of its edges. A
suspension is not passed. -/
inductive Graph.Passes (g : Graph) : Option NodeId → Waypoint → Option NodeId → Prop
  | head (hi : g.node? i = some (.head next)) : Passes g (some i) .head next
  | block (hi : g.node? i = some (.block ss next)) : Passes g (some i) (.block ss) next
  | onTrue (hi : g.node? i = some (.branch c t f)) : Passes g (some i) (.branch c true) t
  | onFalse (hi : g.node? i = some (.branch c t f)) : Passes g (some i) (.branch c false) f

/-- How a walk passes through a node, with the edges along which it leaves. -/
def Node.ways : Node → List (Waypoint × Option NodeId)
  | .head next => [(.head, next)]
  | .block ss next => [(.block ss, next)]
  | .branch c t f => [(.branch c true, t), (.branch c false, f)]
  | .suspend _ _ => []

theorem Node.map_snd_ways_subset (m : Node) : m.ways.map Prod.snd ⊆ m.targets := by
  cases m with
  | suspend => exact List.nil_subset _
  | _ => exact List.Subset.refl _

/-- A walk that starts along one edge and has come to another one. -/
inductive Graph.Trail (g : Graph) : Option NodeId → List Waypoint → Option NodeId → Prop
  | nil (edge : Option NodeId) : Trail g edge [] edge
  | cons (hn : g.Passes edge n edge') (ht : g.Trail edge' ns last) : Trail g edge (n :: ns) last

/-- A walk along an edge up to the first suspension. -/
def Graph.Route (g : Graph) (edge : Option NodeId) (route : List Waypoint) : Prop :=
  ∃ ns i id next, g.Trail edge ns (some i) ∧ g.node? i = some (.suspend id next) ∧
    route = ns ++ [.suspend id]

/-- Every walk along an edge meets a suspension among its first `depth` nodes: none passes through
that many nodes, and none comes to a missing edge. -/
def Graph.Settles (g : Graph) (depth : Nat) (edge : Option NodeId) : Prop :=
  ∀ ns last, g.Trail edge ns last → ns.length < depth ∧ last ≠ none

/-- The edge out of the head or of a suspension. -/
inductive Graph.Exit (g : Graph) : Start → Option NodeId → Prop
  | head (hi : g.node? g.head = some (.head next)) : Exit g .head next
  | suspension {id : Nat} (hi : g.node? i = some (.suspend id next)) : Exit g (.suspension id) next

/-- Two walks part at a branch where the first one takes the true edge. -/
def Waypoint.Precedes (n m : Waypoint) : Prop :=
  ∃ c, n = .branch c true ∧ m = .branch c false

/-- The order of paths by their start, then by the edges that they take. -/
def Path.Precedes (p q : Path) : Prop :=
  p.startId < q.startId ∨ p.startId = q.startId ∧ List.Lex Waypoint.Precedes p.nodes q.nodes

theorem Waypoint.Precedes.irrefl (n : Waypoint) : ¬ n.Precedes n := by
  rintro ⟨c, rfl, h⟩
  cases h

theorem Waypoint.lex_irrefl (ns : List Waypoint) : ¬ List.Lex Precedes ns ns := by
  intro h
  induction ns with
  | nil => cases h
  | cons n ns ih =>
    cases h with
    | rel h => exact Precedes.irrefl n h
    | cons h => exact ih h

theorem Path.Precedes.ne {p q : Path} (h : p.Precedes q) : p ≠ q := by
  rintro rfl
  rcases h with h | ⟨_, h⟩
  · exact Nat.lt_irrefl _ h
  · exact Waypoint.lex_irrefl _ h

namespace Graph

variable {id : Nat} {n : Waypoint}

theorem passes_iff : g.Passes edge n next ↔
    ∃ i m, edge = some i ∧ g.node? i = some m ∧ (n, next) ∈ m.ways := by
  constructor
  · intro h
    cases h with
    | head hi => exact ⟨_, _, rfl, hi, List.mem_cons_self⟩
    | block hi => exact ⟨_, _, rfl, hi, List.mem_cons_self⟩
    | onTrue hi => exact ⟨_, _, rfl, hi, List.mem_cons_self⟩
    | onFalse hi => exact ⟨_, _, rfl, hi, List.mem_cons_of_mem _ List.mem_cons_self⟩
  · intro h
    obtain ⟨i, m, rfl, hi, hways⟩ := h
    cases m with
    | head =>
      cases List.mem_singleton.1 hways
      exact .head hi
    | block =>
      cases List.mem_singleton.1 hways
      exact .block hi
    | branch =>
      rcases List.mem_cons.1 hways with he | hways
      · cases he
        exact .onTrue hi
      · cases List.mem_singleton.1 hways
        exact .onFalse hi
    | suspend => cases hways

theorem Passes.source (h : g.Passes edge n next) :
    ∃ i m, edge = some i ∧ g.node? i = some m ∧ next ∈ m.targets := by
  obtain ⟨i, m, hedge, hi, hways⟩ := passes_iff.1 h
  refine ⟨i, m, hedge, hi, m.map_snd_ways_subset ?_⟩
  exact List.mem_map.2 ⟨_, hways, rfl⟩

theorem Passes.mem_ways {m : Node} (h : g.Passes (some i) n next) (hi : g.node? i = some m) :
    (n, next) ∈ m.ways := by
  obtain ⟨j, m', he, hj, hways⟩ := passes_iff.1 h
  cases he
  cases hi.symm.trans hj
  exact hways

theorem Settles.passes (h : g.Settles (depth + 1) edge) (hn : g.Passes edge n next) :
    g.Settles depth next := by
  intro ns last ht
  obtain ⟨hlt, hlast⟩ := h (n :: ns) last (.cons hn ht)
  exact ⟨Nat.lt_of_succ_lt_succ hlt, hlast⟩

theorem Route.cons (hn : g.Passes edge n next) (h : g.Route next route) :
    g.Route edge (n :: route) := by
  obtain ⟨ns, i, id, next', ht, hi, rfl⟩ := h
  exact ⟨n :: ns, i, id, next', .cons hn ht, hi, rfl⟩

/-- The ways on from an edge that begin with a node are the ways on from the edge behind it. -/
theorem suffixes_passes (h : g.suffixes (depth + 1) edge = .ok routes)
    (hn : g.Passes edge n next) :
    ∃ rest, g.suffixes depth next = .ok rest ∧ ∀ route ∈ rest, n :: route ∈ routes := by
  cases hn with
  | head hi =>
    rw [suffixes, Option.bind_some, hi] at h
    cases h
  | block hi =>
    rw [suffixes, Option.bind_some, hi] at h
    obtain ⟨rest, hrest, h⟩ := Except.bind_eq_ok h
    cases h
    exact ⟨rest, hrest, fun route hroute => List.mem_map_of_mem hroute⟩
  | onTrue hi =>
    rw [suffixes, Option.bind_some, hi] at h
    obtain ⟨onTrue, htrue, h⟩ := Except.bind_eq_ok h
    obtain ⟨onFalse, hfalse, h⟩ := Except.bind_eq_ok h
    cases h
    exact ⟨onTrue, htrue, fun route hroute => List.mem_append_left _ (List.mem_map_of_mem hroute)⟩
  | onFalse hi =>
    rw [suffixes, Option.bind_some, hi] at h
    obtain ⟨onTrue, htrue, h⟩ := Except.bind_eq_ok h
    obtain ⟨onFalse, hfalse, h⟩ := Except.bind_eq_ok h
    cases h
    exact ⟨onFalse, hfalse,
      fun route hroute => List.mem_append_right _ (List.mem_map_of_mem hroute)⟩

/-- An enumeration along an edge fails at its end, or along an edge behind the node there. -/
theorem suffixes_succ_eq_error (h : g.suffixes (depth + 1) edge = .error obstacle) :
    edge.bind g.node? = none ∧ obstacle = .endReached ∨
      (∃ next, edge.bind g.node? = some (.head next) ∧ obstacle = .headReached) ∨
      ∃ n next, g.Passes edge n next ∧ g.suffixes depth next = .error obstacle := by
  cases edge with
  | none =>
    cases h
    exact .inl ⟨rfl, rfl⟩
  | some i =>
    rw [suffixes, Option.bind_some] at h
    cases hi : g.node? i with
    | none =>
      rw [hi] at h
      cases h
      exact .inl ⟨hi, rfl⟩
    | some m =>
      rw [hi] at h
      cases m with
      | head next =>
        cases h
        exact .inr (.inl ⟨next, hi, rfl⟩)
      | suspend => cases h
      | block ss next =>
        rcases Except.bind_eq_error h with h | ⟨_, _, h⟩
        · exact .inr (.inr ⟨_, _, .block hi, h⟩)
        · cases h
      | branch c t f =>
        rcases Except.bind_eq_error h with h | ⟨_, _, h⟩
        · exact .inr (.inr ⟨_, _, .onTrue hi, h⟩)
        · rcases Except.bind_eq_error h with h | ⟨_, _, h⟩
          · exact .inr (.inr ⟨_, _, .onFalse hi, h⟩)
          · cases h

theorem settles_of_suffixes (h : g.suffixes depth edge = .ok routes) : g.Settles depth edge := by
  induction depth generalizing edge routes with
  | zero => cases h
  | succ depth ih =>
    intro ns last ht
    cases ht with
    | nil =>
      refine ⟨Nat.succ_pos depth, ?_⟩
      rintro rfl
      cases h
    | cons hn ht =>
      obtain ⟨rest, hrest, _⟩ := suffixes_passes h hn
      obtain ⟨hlt, hlast⟩ := ih hrest _ _ ht
      exact ⟨Nat.succ_lt_succ hlt, hlast⟩

theorem route_of_mem_suffixes (h : g.suffixes depth edge = .ok routes) :
    ∀ route ∈ routes, g.Route edge route := by
  refine suffixes_induction (P := fun edge routes => ∀ route ∈ routes, g.Route edge route)
    ?_ ?_ ?_ h
  · intro i id next hi route hroute
    cases List.mem_singleton.1 hroute
    exact ⟨[], i, id, next, .nil _, hi, rfl⟩
  · intro i ss next rest hi ih route hroute
    obtain ⟨tail, htail, rfl⟩ := List.mem_map.1 hroute
    exact (ih tail htail).cons (.block hi)
  · intro i c t f onTrue onFalse hi htrue hfalse route hroute
    rcases List.mem_append.1 hroute with hroute | hroute
    · obtain ⟨tail, htail, rfl⟩ := List.mem_map.1 hroute
      exact (htrue tail htail).cons (.onTrue hi)
    · obtain ⟨tail, htail, rfl⟩ := List.mem_map.1 hroute
      exact (hfalse tail htail).cons (.onFalse hi)

theorem mem_suffixes_of_trail (h : g.suffixes depth edge = .ok routes)
    (ht : g.Trail edge ns (some i)) (hi : g.node? i = some (.suspend id next)) :
    ns ++ [.suspend id] ∈ routes := by
  induction ns generalizing depth edge routes with
  | nil =>
    cases ht
    cases depth with
    | zero => cases h
    | succ depth =>
      rw [suffixes, Option.bind_some, hi] at h
      cases h
      exact List.mem_singleton.2 rfl
  | cons n ns ih =>
    cases ht with
    | cons hn ht =>
      cases depth with
      | zero => cases h
      | succ depth =>
        obtain ⟨rest, hrest, hmem⟩ := suffixes_passes h hn
        exact hmem _ (ih hrest ht)

theorem mem_suffixes (h : g.suffixes depth edge = .ok routes) :
    route ∈ routes ↔ g.Route edge route := by
  constructor
  · exact route_of_mem_suffixes h route
  · rintro ⟨ns, i, id, next, ht, hi, rfl⟩
    exact mem_suffixes_of_trail h ht hi

theorem suffixes_pairwise (h : g.suffixes depth edge = .ok routes) :
    routes.Pairwise (List.Lex Waypoint.Precedes) := by
  refine suffixes_induction (P := fun _ routes => routes.Pairwise (List.Lex Waypoint.Precedes))
    ?_ ?_ ?_ h
  · intro i id next _
    exact List.pairwise_singleton _ _
  · intro i ss next rest _ ih
    exact List.pairwise_map.2 (ih.imp .cons)
  · intro i c t f onTrue onFalse _ htrue hfalse
    rw [List.pairwise_append, List.pairwise_map, List.pairwise_map]
    refine ⟨htrue.imp .cons, hfalse.imp .cons, ?_⟩
    intro p hp q hq
    obtain ⟨p, _, rfl⟩ := List.mem_map.1 hp
    obtain ⟨q, _, rfl⟩ := List.mem_map.1 hq
    exact .rel ⟨c, rfl, rfl⟩

/-- Where all walks settle, none of the errors of an enumeration arises. -/
theorem suffixes_of_settles (hg : g.Sound)
    (hedge : ∀ j, edge = some j → ∃ m, g.node? j = some m ∧ ¬ m.IsHead)
    (h : g.Settles depth edge) : ∃ routes, g.suffixes depth edge = .ok routes := by
  induction depth generalizing edge with
  | zero => exact (Nat.not_lt_zero _ (h [] edge (.nil edge)).1).elim
  | succ depth ih =>
    cases edge with
    | none => exact ((h [] none (.nil none)).2 rfl).elim
    | some i =>
      obtain ⟨m, hi, hm⟩ := hedge i rfl
      have hnext {target : Option NodeId} (ht : target ∈ m.targets) (j : NodeId)
          (hj : target = some j) : ∃ m', g.node? j = some m' ∧ ¬ m'.IsHead :=
        hg.leads i m j hi (hj ▸ ht)
      rw [suffixes, Option.bind_some, hi]
      cases m with
      | head => exact (hm trivial).elim
      | suspend id next => exact ⟨_, rfl⟩
      | block ss next =>
        obtain ⟨rest, hrest⟩ := ih (hnext List.mem_cons_self) (h.passes (.block hi))
        exact ⟨rest.map (.block ss :: ·), by simp only [hrest]; rfl⟩
      | branch c t f =>
        obtain ⟨onTrue, htrue⟩ := ih (hnext List.mem_cons_self) (h.passes (.onTrue hi))
        obtain ⟨onFalse, hfalse⟩ :=
          ih (hnext (List.mem_cons_of_mem _ List.mem_cons_self)) (h.passes (.onFalse hi))
        exact ⟨onTrue.map (.branch c true :: ·) ++ onFalse.map (.branch c false :: ·),
          by simp only [htrue, hfalse]; rfl⟩

theorem suffixes_mono (h : g.suffixes depth edge = .ok routes) (hle : depth ≤ depth') :
    g.suffixes depth' edge = .ok routes := by
  induction depth generalizing edge routes depth' with
  | zero => cases h
  | succ depth ih =>
    cases depth' with
    | zero => exact (Nat.not_succ_le_zero depth hle).elim
    | succ depth' =>
      have hle := Nat.le_of_succ_le_succ hle
      rw [suffixes] at h ⊢
      cases hn : edge.bind g.node? with
      | none => rw [hn] at h; cases h
      | some n =>
        rw [hn] at h
        cases n with
        | head => cases h
        | suspend => exact h
        | block ss next =>
          obtain ⟨rest, hrest, h⟩ := Except.bind_eq_ok h
          cases h
          simp only [ih hrest hle]
          rfl
        | branch c t f =>
          obtain ⟨onTrue, htrue, h⟩ := Except.bind_eq_ok h
          obtain ⟨onFalse, hfalse, h⟩ := Except.bind_eq_ok h
          cases h
          simp only [ih htrue hle, ih hfalse hle]
          rfl

theorem Sound.exit_iff (hg : g.Sound) :
    g.Exit s edge ↔ ∃ i, (s, i) ∈ g.starts ∧ (g.node? i).bind Node.next? = edge := by
  constructor
  · intro h
    cases h with
    | head hi => exact ⟨g.head, mem_starts.2 (.inl ⟨rfl, rfl⟩), by rw [hi]; rfl⟩
    | suspension hi => exact ⟨_, mem_starts.2 (.inr ⟨_, _, rfl, hi⟩), by rw [hi]; rfl⟩
  · rintro ⟨i, hs, rfl⟩
    rcases mem_starts.1 hs with ⟨rfl, rfl⟩ | ⟨id, next, rfl, hi⟩
    · obtain ⟨next, h0⟩ := hg.built.head
      have hhead : g.node? g.head = some (.head next) := h0
      rw [hhead]
      exact .head hhead
    · rw [hi]
      exact .suspension hi

theorem Sound.exit_target (hg : g.Sound) (h : g.Exit s edge) (j : NodeId) (hj : edge = some j) :
    ∃ m, g.node? j = some m ∧ ¬ m.IsHead := by
  subst hj
  cases h with
  | head hi => exact hg.leads _ _ j hi List.mem_cons_self
  | suspension hi => exact hg.leads _ _ j hi List.mem_cons_self

theorem pathsFrom_of_suffixes
    (h : g.suffixes depth ((g.node? i).bind Node.next?) = .ok routes) (s : Start) :
    g.pathsFrom depth (s, i) =
      .ok (routes.map fun route => .ofNodes (s.waypoint :: route)) := by
  simp only [pathsFrom, h]
  rfl

theorem paths_of_lists {lists : List (List Path)}
    (h : g.starts.map (g.pathsFrom depth) = lists.map .ok) :
    g.paths depth = .ok lists.flatten := by
  rw [paths, Except.mapM_of_map_eq h]
  rfl

/-- An enumeration succeeds if and only if every walk from a start settles. -/
theorem Sound.paths_isOk_iff (hg : g.Sound) (depth : Nat) :
    (∃ ps, g.paths depth = .ok ps) ↔ ∀ s edge, g.Exit s edge → g.Settles depth edge := by
  constructor
  · rintro ⟨ps, h⟩ s edge hs
    obtain ⟨i, hi, rfl⟩ := hg.exit_iff.1 hs
    obtain ⟨routes, hroutes, _⟩ := routes_of_start h hi
    exact settles_of_suffixes hroutes
  · intro h
    have hlists : ∀ a ∈ g.starts, ∃ ps, g.pathsFrom depth a = .ok ps := by
      rintro ⟨s, i⟩ hi
      have hexit : g.Exit s _ := hg.exit_iff.2 ⟨i, hi, rfl⟩
      obtain ⟨routes, hroutes⟩ := suffixes_of_settles hg (hg.exit_target hexit) (h s _ hexit)
      exact ⟨_, pathsFrom_of_suffixes hroutes s⟩
    obtain ⟨lists, hlists⟩ := Except.exists_map_eq hlists
    exact ⟨_, paths_of_lists hlists⟩

theorem mem_paths_iff (h : g.paths depth = .ok ps) :
    p ∈ ps ↔ ∃ s i routes route, (s, i) ∈ g.starts ∧
      g.suffixes depth ((g.node? i).bind Node.next?) = .ok routes ∧ route ∈ routes ∧
      p = .ofNodes (s.waypoint :: route) := by
  obtain ⟨lists, hlists, rfl⟩ := paths_eq_ok h
  constructor
  · intro hp
    obtain ⟨qs, hqs, hp⟩ := List.mem_flatten.1 hp
    have hmem : .ok qs ∈ g.starts.map (g.pathsFrom depth) := hlists ▸ List.mem_map_of_mem hqs
    obtain ⟨⟨s, i⟩, hi, hok⟩ := List.mem_map.1 hmem
    obtain ⟨routes, hroutes, rfl⟩ := pathsFrom_eq_ok hok
    obtain ⟨route, hroute, rfl⟩ := List.mem_map.1 hp
    exact ⟨s, i, routes, route, hi, hroutes, hroute, rfl⟩
  · rintro ⟨s, i, routes, route, hi, hroutes, hroute, rfl⟩
    have hmem : g.pathsFrom depth (s, i) ∈ lists.map .ok := hlists ▸ List.mem_map_of_mem hi
    rw [pathsFrom_of_suffixes hroutes] at hmem
    obtain ⟨qs, hqs, hok⟩ := List.mem_map.1 hmem
    cases hok
    exact List.mem_flatten_of_mem hqs (List.mem_map_of_mem hroute)

/-- An enumeration lists the walks from the starts. -/
theorem Sound.mem_paths (hg : g.Sound) (h : g.paths depth = .ok ps) :
    p ∈ ps ↔ ∃ s edge route, g.Exit s edge ∧ g.Route edge route ∧
      p = .ofNodes (s.waypoint :: route) := by
  rw [mem_paths_iff h]
  constructor
  · rintro ⟨s, i, routes, route, hi, hroutes, hroute, rfl⟩
    exact ⟨s, _, route, hg.exit_iff.2 ⟨i, hi, rfl⟩, (mem_suffixes hroutes).1 hroute, rfl⟩
  · rintro ⟨s, edge, route, hexit, hroute, rfl⟩
    obtain ⟨i, hi, rfl⟩ := hg.exit_iff.1 hexit
    obtain ⟨routes, hroutes, _⟩ := routes_of_start h hi
    exact ⟨s, i, routes, route, hi, hroutes, (mem_suffixes hroutes).2 hroute, rfl⟩

theorem Sound.ids_ascend (hg : g.Sound) : g.suspensions.Pairwise fun a b => a.2 < b.2 := by
  apply List.Pairwise.imp_of_mem ?_ g.suspensions_ascend
  intro a b ha hb hlt
  obtain ⟨next, hi⟩ := mem_suspensions.1 ha
  obtain ⟨next', hj⟩ := mem_suspensions.1 hb
  exact hg.ids a.1 b.1 a.2 b.2 next next' hi hj hlt

theorem Sound.starts_ascend (hg : g.Sound) :
    g.starts.Pairwise fun a b => a.1.stateId < b.1.stateId := by
  rw [starts, List.pairwise_cons, List.pairwise_map]
  constructor
  · intro a ha
    obtain ⟨⟨j, id⟩, hj, rfl⟩ := List.mem_map.1 ha
    obtain ⟨next, hnode⟩ := mem_suspensions.1 hj
    exact (hg.built.id_range j id next hnode).1
  · exact hg.ids_ascend

/-- A relation between paths holds along an enumeration if it holds for different starts and between
the routes from one start. -/
theorem Sound.pairwise_paths {R : Path → Path → Prop} (hg : g.Sound) (h : g.paths depth = .ok ps)
    (hstart : ∀ p q : Path, p.startId < q.startId → R p q)
    (hroutes : ∀ (s : Start) edge routes, g.suffixes depth edge = .ok routes →
      routes.Pairwise fun a b => R (.ofNodes (s.waypoint :: a)) (.ofNodes (s.waypoint :: b))) :
    ps.Pairwise R := by
  obtain ⟨lists, hlists, rfl⟩ := paths_eq_ok h
  rw [List.pairwise_flatten]
  constructor
  · intro qs hqs
    have hmem : .ok qs ∈ g.starts.map (g.pathsFrom depth) := hlists ▸ List.mem_map_of_mem hqs
    obtain ⟨⟨s, i⟩, _, hok⟩ := List.mem_map.1 hmem
    obtain ⟨routes, hsuffixes, rfl⟩ := pathsFrom_eq_ok hok
    exact List.pairwise_map.2 (hroutes s _ routes hsuffixes)
  · have hstarts : (g.starts.map (g.pathsFrom depth)).Pairwise fun a b =>
        ∀ ps qs, a = .ok ps → b = .ok qs → ∀ p ∈ ps, ∀ q ∈ qs, R p q := by
      apply List.pairwise_map.2
      apply hg.starts_ascend.imp
      intro a b hlt ps qs hps hqs p hp q hq
      obtain ⟨routes, _, rfl⟩ := pathsFrom_eq_ok hps
      obtain ⟨routes', _, rfl⟩ := pathsFrom_eq_ok hqs
      obtain ⟨route, _, rfl⟩ := List.mem_map.1 hp
      obtain ⟨route', _, rfl⟩ := List.mem_map.1 hq
      exact hstart _ _ hlt
    rw [hlists, List.pairwise_map] at hstarts
    exact hstarts.imp fun hpq => hpq _ _ rfl rfl

theorem Sound.paths_pairwise (hg : g.Sound) (h : g.paths depth = .ok ps) :
    ps.Pairwise Path.Precedes := by
  apply hg.pairwise_paths h
  · intro p q hlt
    exact .inl hlt
  · intro s edge routes hroutes
    apply (suffixes_pairwise hroutes).imp
    intro a b hab
    exact .inr ⟨rfl, .cons hab⟩

theorem paths_mono (h : g.paths depth = .ok ps) (hle : depth ≤ depth') :
    g.paths depth' = .ok ps := by
  obtain ⟨lists, hlists, rfl⟩ := paths_eq_ok h
  apply paths_of_lists
  rw [← hlists]
  apply List.map_congr_left
  rintro ⟨s, i⟩ hi
  have hmem : g.pathsFrom depth (s, i) ∈ lists.map .ok := hlists ▸ List.mem_map_of_mem hi
  obtain ⟨qs, _, hok⟩ := List.mem_map.1 hmem
  obtain ⟨routes, hroutes, rfl⟩ := pathsFrom_eq_ok hok.symm
  rw [pathsFrom_of_suffixes hroutes, pathsFrom_of_suffixes (suffixes_mono hroutes hle)]

end Graph

/-- The paths of a graph are all walks from a start to the next suspension, each once and in order.
They are listed for every sufficient depth, and only then. -/
theorem paths_exhaustive {body : List (Stmt Expr)} {built : Graph}
    (hbuilt : Graph.ofBody body = .ok built) (passes : List Pass) (depth : Nat) :
    let g := built.afterPasses passes
    ((∃ ps, g.paths depth = .ok ps) ↔ ∀ s edge, g.Exit s edge → g.Settles depth edge) ∧
    ∀ ps, g.paths depth = .ok ps →
      (∀ p, p ∈ ps ↔ ∃ s edge route, g.Exit s edge ∧ g.Route edge route ∧
        p = .ofNodes (s.waypoint :: route)) ∧
      ps.Nodup ∧ ps.Pairwise Path.Precedes ∧
      ∀ depth', depth ≤ depth' → g.paths depth' = .ok ps := by
  intro g
  have hg : g.Sound := (Graph.sound_ofBody hbuilt).afterPasses passes
  refine ⟨hg.paths_isOk_iff depth, ?_⟩
  intro ps h
  have horder := hg.paths_pairwise h
  exact ⟨fun p => hg.mem_paths h, horder.imp Path.Precedes.ne, horder,
    fun depth' hle => Graph.paths_mono h hle⟩

/-- A loop that waits once or twice. -/
def partingBody : List (Stmt Expr) :=
  [.loop (.bool true) [.branch (.var "a") [.suspend] [], .suspend]]

def partingPaths : List Path :=
  [.ofNodes [.head, .branch (.var "a") true, .suspend 1],
    .ofNodes [.head, .branch (.var "a") false, .suspend 2],
    .ofNodes [.suspend 1, .suspend 2],
    .ofNodes [.suspend 2, .branch (.var "a") true, .suspend 1],
    .ofNodes [.suspend 2, .branch (.var "a") false, .suspend 2]]

theorem paths_exhaustive_partingBody :
    ∃ built g, Graph.ofBody partingBody = .ok built ∧
      g = built.afterPasses [.literalBranches, .emptyBlocks] ∧
      g.paths 2 = .ok partingPaths ∧ g.paths 1000 = .ok partingPaths ∧
      partingPaths.Pairwise Path.Precedes ∧
      ¬ ∀ s edge, g.Exit s edge → g.Settles 1 edge := by
  obtain ⟨built, hbuilt, hlong, hshort⟩ : ∃ built, Graph.ofBody partingBody = .ok built ∧
      ((built.afterPasses [.literalBranches, .emptyBlocks]).paths 2).toOption = some partingPaths ∧
      ((built.afterPasses [.literalBranches, .emptyBlocks]).paths 1).toOption = none :=
    ⟨_, rfl, by decide +kernel, by decide +kernel⟩
  have hpaths := Except.toOption_eq_some.1 hlong
  obtain ⟨_, hlist⟩ := paths_exhaustive hbuilt [.literalBranches, .emptyBlocks] 2
  obtain ⟨_, _, horder, hmono⟩ := hlist partingPaths hpaths
  refine ⟨built, _, hbuilt, rfl, hpaths, hmono 1000 (by decide), horder, ?_⟩
  intro hsettles
  obtain ⟨ps, hps⟩ := (paths_exhaustive hbuilt [.literalBranches, .emptyBlocks] 1).1.2 hsettles
  rw [hps] at hshort
  cases hshort

end Clockwork
