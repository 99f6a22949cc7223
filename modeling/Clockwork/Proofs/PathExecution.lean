import Clockwork.Proofs.Refinement
import Clockwork.Proofs.Walks
import Mathlib.Data.List.Nodup

namespace Clockwork
set_option autoImplicit true

variable {g : Graph} {r : GraphRun} {u v : Valuation} {id : Nat}

/-- The state of a simulation: the id of the suspension in which it waits, zero in the head. -/
def GraphRun.stateId (g : Graph) (r : GraphRun) : Nat :=
  match g.node? r.position with
  | some (.suspend id _) => id
  | _ => 0

/-- No values let both walks be followed. -/
def Waypoint.Excludes (ns ms : List Waypoint) : Prop :=
  ∀ v u w, Waypoint.followList? v ns = some u → Waypoint.followList? v ms ≠ some w

theorem Waypoint.Excludes.cons (h : Waypoint.Excludes ns ms) (n : Waypoint) :
    Waypoint.Excludes (n :: ns) (n :: ms) := by
  intro v u w hns hms
  obtain ⟨v', hpass, hns⟩ := followList?_cons.1 hns
  obtain ⟨v'', hpass', hms⟩ := followList?_cons.1 hms
  cases hpass.symm.trans hpass'
  exact h v' u w hns hms

theorem Waypoint.excludes_branch (c : Expr) (ns ms : List Waypoint) :
    Waypoint.Excludes (.branch c true :: ns) (.branch c false :: ms) := by
  intro v u w hns hms
  obtain ⟨_, hpass, _⟩ := followList?_cons.1 hns
  obtain ⟨_, hpass', _⟩ := followList?_cons.1 hms
  obtain ⟨x, hx, htruth, _⟩ := pass?_branch_eq_some.1 hpass
  obtain ⟨y, hy, htruth', _⟩ := pass?_branch_eq_some.1 hpass'
  cases hx.symm.trans hy
  cases htruth.symm.trans htruth'

theorem Waypoint.followList?_append_suspend (v : Valuation) (ns : List Waypoint) (id : Nat) :
    Waypoint.followList? v (ns ++ [.suspend id]) = Waypoint.followList? v ns := by
  rw [followList?, List.foldlM_append]
  exact bind_pure _

theorem Path.follow?_ofNodes (s : Start) (route : List Waypoint) (v : Valuation) :
    (Path.ofNodes (s.waypoint :: route)).follow? v = Waypoint.followList? v route := by
  cases s <;> rfl

namespace Graph

theorem suffixes_exclude (h : g.suffixes depth edge = .ok routes) :
    routes.Pairwise Waypoint.Excludes := by
  refine suffixes_induction (P := fun _ routes => routes.Pairwise Waypoint.Excludes) ?_ ?_ ?_ h
  · intro i id next _
    exact List.pairwise_singleton _ _
  · intro i ss next rest _ ih
    exact List.pairwise_map.2 (ih.imp fun hab => hab.cons _)
  · intro i c t f onTrue onFalse _ htrue hfalse
    rw [List.pairwise_append, List.pairwise_map, List.pairwise_map]
    refine ⟨htrue.imp fun hab => hab.cons _, hfalse.imp fun hab => hab.cons _, ?_⟩
    intro p hp q hq
    obtain ⟨ns, _, rfl⟩ := List.mem_map.1 hp
    obtain ⟨ms, _, rfl⟩ := List.mem_map.1 hq
    exact Waypoint.excludes_branch c ns ms

theorem Sound.paths_exclude (hg : g.Sound) (h : g.paths depth = .ok ps) :
    ps.Pairwise fun p q => p.startId = q.startId → Waypoint.Excludes p.nodes q.nodes := by
  apply hg.pairwise_paths h
  · intro p q hlt he
    exact (Nat.ne_of_lt hlt he).elim
  · intro s edge routes hroutes
    exact (suffixes_exclude hroutes).imp fun hab _ => hab.cons _

/-- At most one path from a state can be followed. -/
theorem Sound.filter_paths (hg : g.Sound) (h : g.paths depth = .ok ps) (hp : p ∈ ps)
    (hfollow : p.follow? v = some u) :
    (ps.filter fun q => q.startId == p.startId && (q.follow? v).isSome) = [p] := by
  apply filter_eq_singleton ?_ hp
  · rw [hfollow, beq_self_eq_true]
    rfl
  · apply (hg.paths_exclude h).imp
    intro a b hab ha hb
    rw [Bool.and_eq_true, beq_iff_eq, Option.isSome_iff_exists] at ha hb
    obtain ⟨hstart, x, hx⟩ := ha
    obtain ⟨hstart', y, hy⟩ := hb
    exact hab (hstart.trans hstart'.symm) v x y hx hy

theorem Sound.start_unique (hg : g.Sound) (h : (s, i) ∈ g.starts) (h' : (s', i') ∈ g.starts)
    (hstate : s.stateId = s'.stateId) : i = i' := by
  have hnodup : (g.starts.map fun a => a.1.stateId).Nodup :=
    List.pairwise_map.2 hg.built.starts_pairwise
  exact congrArg Prod.snd (List.inj_on_of_nodup_map hnodup h h' hstate)

end Graph

namespace GraphRun

theorem stateId_of_start (hg : g.Sound) (h : (s, r.position) ∈ g.starts) :
    r.stateId g = s.stateId := by
  rcases Graph.mem_starts.1 h with ⟨rfl, hi⟩ | ⟨id, next, rfl, hi⟩
  · obtain ⟨next, h0⟩ := hg.built.head
    have hhead : g.node? r.position = some (.head next) := hi ▸ h0
    rw [stateId, hhead]
    rfl
  · rw [stateId, hi]
    rfl

/-- A step to a suspension follows a path. -/
theorem exists_path_of_step (hg : g.Sound) (h : g.paths depth = .ok ps) (hr : r.Waits g)
    (hstep : (r.step g).1 = .ok id) :
    ∃ p ∈ ps, p.startId = r.stateId g ∧ p.endId = id ∧
      p.follow? r.values = some (r.step g).2.values := by
  obtain ⟨s, hs⟩ := hr
  obtain ⟨u, j, hwalk, hresult⟩ := step_eq_ok hstep
  obtain ⟨ns, ht, hns⟩ := Graph.trail_of_walk hwalk
  obtain ⟨next, hj⟩ := Graph.node?_of_walk hwalk
  have hexit := hg.exit_iff.2 ⟨r.position, hs, rfl⟩
  refine ⟨_, (hg.mem_paths h).2 ⟨s, _, _, hexit, ⟨ns, j, id, next, ht, hj, rfl⟩, rfl⟩, ?_, ?_, ?_⟩
  · exact (stateId_of_start hg hs).symm
  · rw [Path.endId, Path.ofNodes, getLast?_cons_of_eq_some List.getLast?_concat]
    rfl
  · rw [Path.follow?_ofNodes, Waypoint.followList?_append_suspend, hns, hresult]

/-- A path that can be followed is what a step does. -/
theorem step_of_follow (hg : g.Sound) (h : g.paths depth = .ok ps) (hdepth : depth ≤ visitLimit)
    (hr : r.Waits g) (hp : p ∈ ps) (hstart : p.startId = r.stateId g)
    (hfollow : p.follow? r.values = some u) : (r.step g).1 = .ok p.endId := by
  obtain ⟨s, hs⟩ := hr
  obtain ⟨s', edge, route, hexit, ⟨ns, i, id, next, ht, hi, rfl⟩, rfl⟩ := (hg.mem_paths h).1 hp
  obtain ⟨j, hs', rfl⟩ := hg.exit_iff.1 hexit
  -- The path leaves from the position of the simulation, since no other start has its state.
  rw [stateId_of_start hg hs] at hstart
  cases hg.start_unique hs' hs hstart
  rw [Path.follow?_ofNodes, Waypoint.followList?_append_suspend] at hfollow
  have hsettles := (hg.paths_isOk_iff depth).1 ⟨ps, h⟩ s' _ hexit
  have hlt := Nat.lt_of_lt_of_le (hsettles ns _ ht).1 hdepth
  rw [step, Graph.walk_of_trail ht hi hfollow hlt, Path.endId, Path.ofNodes,
    getLast?_cons_of_eq_some List.getLast?_concat]
  rfl

theorem step_ne_runaway (hg : g.Sound) (h : g.paths depth = .ok ps) (hdepth : depth ≤ visitLimit)
    (hr : r.Waits g) (visited : Nat) : (r.step g).1 ≠ .error (.runaway visited) := by
  intro herror
  obtain ⟨s, hs⟩ := hr
  have hexit := hg.exit_iff.2 ⟨r.position, hs, rfl⟩
  have hsettles := (hg.paths_isOk_iff depth).1 ⟨ps, h⟩ s _ hexit
  exact (hsettles.mono hdepth).walk_ne_runaway r.values visited (walk_of_step_error herror)

end GraphRun

/-- The enumerated paths are the steps of a simulation: each step to a suspension follows exactly
one of them, and a path that can be followed is what the step does. -/
theorem paths_execute {body : List (Stmt Expr)} {built : Graph} {ps : List Path}
    (hbuilt : Graph.ofBody body = .ok built) (bypass : Bool)
    (hpaths : (built.simplify bypass).paths depth = .ok ps) (hdepth : depth ≤ visitLimit)
    (cs : List Command) :
    let g := built.simplify bypass
    let r := (Command.obeyAll (GraphRun.obey g) (.start g) cs).2
    (∀ visited, (r.step g).1 ≠ .error (.runaway visited)) ∧
      (∀ id, (r.step g).1 = .ok id →
        ∃ p, (ps.filter fun p => p.startId == r.stateId g && (p.follow? r.values).isSome) = [p] ∧
          p.endId = id ∧ p.follow? r.values = some (r.step g).2.values) ∧
      ∀ p ∈ ps, p.startId = r.stateId g → (p.follow? r.values).isSome →
        (r.step g).1 = .ok p.endId := by
  have hg : (built.simplify bypass).Sound := by
    rw [Graph.simplify_eq_afterPasses]
    exact (Graph.sound_ofBody hbuilt).afterPasses _
  intro g r
  have hr : r.Waits g := GraphRun.waits_obeyAll g cs
  refine ⟨GraphRun.step_ne_runaway hg hpaths hdepth hr, ?_, ?_⟩
  · intro id hstep
    obtain ⟨p, hp, hstart, hend, hfollow⟩ := GraphRun.exists_path_of_step hg hpaths hr hstep
    refine ⟨p, ?_, hend, hfollow⟩
    rw [← hstart]
    exact hg.filter_paths hpaths hp hfollow
  · intro p hp hstart hfollow
    obtain ⟨u, hu⟩ := Option.isSome_iff_exists.1 hfollow
    exact GraphRun.step_of_follow hg hpaths hdepth hr hp hstart hu

/-- A process that takes one of three ways in each step and changes the values on the way. -/
def forkingBody : List (Stmt Expr) :=
  [.register "n" (.int 4),
    .loop (.bool true)
      [.update "n" .add (.int 1),
        .branch (.binary .eq (.var "n") (.var "a")) [.suspend]
          [.branch (.var "b") [.assign ["n"] (.int 0)] [], .suspend]]]

def forkingCommands : List Command :=
  [.step, .init .zero, .set "a" (.int 1), .step, .set "b" (.int 7)]

theorem paths_execute_forkingBody :
    ∃ built ps, Graph.ofBody forkingBody = .ok built ∧
      (built.simplify true).paths visitLimit = .ok ps ∧ ps.length = 9 ∧
      let g := built.simplify true
      let r := (Command.obeyAll (GraphRun.obey g) (.start g) forkingCommands).2
      r.stateId g = 1 ∧ (r.step g).1 = .ok 2 ∧
        ∃ p, (ps.filter fun p => p.startId == r.stateId g && (p.follow? r.values).isSome) = [p] ∧
          p.endId = 2 ∧ p.follow? r.values = some (r.step g).2.values := by
  have heval : ((Graph.ofBody forkingBody).toOption.bind fun built =>
      ((built.simplify true).paths visitLimit).toOption.map fun ps =>
        let g := built.simplify true
        let r := (Command.obeyAll (GraphRun.obey g) (.start g) forkingCommands).2
        (ps.length, r.stateId g, (r.step g).1)) = some (9, 1, .ok 2) := by
    decide +kernel
  obtain ⟨built, hbuilt, heval⟩ := Option.bind_eq_some_iff.1 heval
  obtain ⟨ps, hps, heval⟩ := Option.map_eq_some_iff.1 heval
  rw [Except.toOption_eq_some] at hbuilt hps
  simp only [Prod.mk.injEq] at heval
  obtain ⟨hlength, hstate, hstep⟩ := heval
  exact ⟨built, ps, hbuilt, hps, hlength, hstate, hstep,
    (paths_execute hbuilt true hps (Nat.le_refl _) forkingCommands).2.1 2 hstep⟩

end Clockwork
