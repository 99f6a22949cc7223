import Clockwork.Proofs.Integrity
import Mathlib.Data.List.Nodup

namespace Clockwork
set_option autoImplicit true

namespace Graph

variable {g : Graph} {n : Waypoint}

/-- A walk along an edge comes to a node and from there, without a suspension, back to it. -/
def Revisits (g : Graph) (edge : Option NodeId) : Prop :=
  ∃ ns i n ms, g.Trail edge ns (some i) ∧ g.Trail (some i) (n :: ms) (some i)

theorem Trail.append (h : g.Trail edge ns mid) (h' : g.Trail mid ms last) :
    g.Trail edge (ns ++ ms) last := by
  induction h with
  | nil => exact h'
  | cons hn _ ih => exact .cons hn (ih h')

theorem Revisits.passes (h : g.Revisits next) (hn : g.Passes edge n next) : g.Revisits edge := by
  obtain ⟨ns, i, m, ms, ht, hround⟩ := h
  exact ⟨n :: ns, i, m, ms, .cons hn ht, hround⟩

/-- A walk can go round again and again. -/
theorem Trail.rounds (h : g.Trail (some i) (n :: ms) (some i)) (k : Nat) :
    ∃ ns, g.Trail (some i) ns (some i) ∧ k ≤ ns.length := by
  induction k with
  | zero => exact ⟨[], .nil _, Nat.le_refl 0⟩
  | succ k ih =>
    obtain ⟨ns, ht, hk⟩ := ih
    refine ⟨n :: ms ++ ns, h.append ht, ?_⟩
    rw [List.length_append, List.length_cons]
    omega

theorem Revisits.not_settles (h : g.Revisits edge) (depth : Nat) : ¬ g.Settles depth edge := by
  intro hsettles
  obtain ⟨ns, i, n, ms, ht, hround⟩ := h
  obtain ⟨rounds, hrounds, hlength⟩ := hround.rounds depth
  obtain ⟨hlt, _⟩ := hsettles _ _ (ht.append hrounds)
  rw [List.length_append] at hlt
  omega

/-- The nodes that a walk passes through. They are different unless it comes back to one. -/
theorem Trail.visits (h : g.Trail edge ns last) :
    ∃ ids : List NodeId, ids.length = ns.length ∧
      (∀ i ∈ ids, ∃ ms, g.Trail edge ms (some i)) ∧ (¬ g.Revisits edge → ids.Nodup) := by
  induction h with
  | nil => exact ⟨[], rfl, fun _ hi => (List.not_mem_nil hi).elim, fun _ => List.nodup_nil⟩
  | @cons edge n next ns last hn _ ih =>
    obtain ⟨ids, hlength, hreach, hnodup⟩ := ih
    obtain ⟨i, _, rfl, _, _⟩ := hn.source
    refine ⟨i :: ids, congrArg (· + 1) hlength, ?_, ?_⟩
    · intro j hj
      rcases List.mem_cons.1 hj with rfl | hj
      · exact ⟨[], .nil _⟩
      · obtain ⟨ms, hms⟩ := hreach j hj
        exact ⟨n :: ms, .cons hn hms⟩
    · intro h
      refine List.nodup_cons.2 ⟨?_, hnodup fun hnext => h (hnext.passes hn)⟩
      intro hi
      obtain ⟨ms, hms⟩ := hreach i hi
      exact h ⟨[], i, n, ms, .nil _, .cons hn hms⟩

/-- Walks from a start never come to the head. -/
theorem Sound.trail_target (hg : g.Sound)
    (hedge : ∀ j, edge = some j → ∃ m, g.node? j = some m ∧ ¬ m.IsHead)
    (h : g.Trail edge ns last) (j : NodeId) (hj : last = some j) :
    ∃ m, g.node? j = some m ∧ ¬ m.IsHead := by
  induction h with
  | nil => exact hedge j hj
  | cons hn _ ih =>
    apply ih _ hj
    intro k hk
    obtain ⟨i, m, _, hi, hnext⟩ := hn.source
    exact hg.leads i m k hi (hk ▸ hnext)

/-- A walk from a start that never comes back to a node passes through fewer nodes than there
are. -/
theorem Sound.length_lt_size (hg : g.Sound) (hexit : g.Exit s edge) (hedge : ¬ g.Revisits edge)
    (h : g.Trail edge ns last) : ns.length < g.size := by
  obtain ⟨ids, hlength, hreach, hnodup⟩ := h.visits
  have hnode : ∀ i ∈ ids, ∃ m, g.node? i = some m ∧ ¬ m.IsHead := by
    intro i hi
    obtain ⟨ms, hms⟩ := hreach i hi
    exact hg.trail_target (hg.exit_target hexit) hms i rfl
  obtain ⟨next, hhead⟩ := hg.built.head
  have hfresh : 0 ∉ ids := by
    intro h0
    obtain ⟨m, hm, hnot⟩ := hnode 0 h0
    rw [hhead] at hm
    cases hm
    exact hnot trivial
  have hpresent : 0 :: ids ⊆ g.present.map Prod.fst := by
    intro i hi
    apply mem_map_present.2
    rcases List.mem_cons.1 hi with rfl | hi
    · exact ⟨_, hhead⟩
    · obtain ⟨m, hm, _⟩ := hnode i hi
      exact ⟨m, hm⟩
  have hle := (List.subperm_of_subset (List.nodup_cons.2 ⟨hfresh, hnodup hedge⟩) hpresent).length_le
  rw [List.length_cons, List.length_map, hlength] at hle
  exact hle

/-- A walk that is cut off for its length has passed through as many nodes as it may. -/
theorem trail_of_tooLong (h : g.suffixes depth edge = .error .tooLong) :
    ∃ ns last, g.Trail edge ns last ∧ ns.length = depth := by
  induction depth generalizing edge with
  | zero => exact ⟨[], edge, .nil edge, rfl⟩
  | succ depth ih =>
    rcases suffixes_succ_eq_error h with ⟨_, hend⟩ | ⟨_, _, hhead⟩ | ⟨n, next, hn, h⟩
    · cases hend
    · cases hhead
    · obtain ⟨ns, last, ht, hlength⟩ := ih h
      exact ⟨n :: ns, last, .cons hn ht, congrArg (· + 1) hlength⟩

/-- An enumeration that gives up for the length of a path has found a long walk. -/
theorem Sound.trail_of_infinite (hg : g.Sound) (h : g.paths depth = .error e)
    (he : e.kind = .infiniteGraph) :
    ∃ s edge ns last, g.Exit s edge ∧ g.Trail edge ns last ∧ ns.length = depth := by
  obtain ⟨s, i, obstacle, hi, hsuffixes, rfl⟩ := paths_eq_error h
  cases obstacle with
  | tooLong =>
    obtain ⟨ns, last, ht, hlength⟩ := trail_of_tooLong hsuffixes
    exact ⟨s, _, ns, last, hg.exit_iff.2 ⟨i, hi, rfl⟩, ht, hlength⟩
  | endReached => cases he
  | headReached => cases he

end Graph

/-- An enumeration fails at every depth where a walk can come back to a node before a suspension.
Elsewhere a depth of the number of nodes is enough. -/
theorem depth_detects_cycles {body : List (Stmt Expr)} {built : Graph}
    (hbuilt : Graph.ofBody body = .ok built) (passes : List Pass) :
    let g := built.afterPasses passes
    ((∃ s edge, g.Exit s edge ∧ g.Revisits edge) → ∀ depth, ∃ e, g.paths depth = .error e) ∧
    ((∀ s edge, g.Exit s edge → ¬ g.Revisits edge) → ∀ depth, g.size ≤ depth →
      (∀ e, g.paths depth = .error e → e.kind ≠ .infiniteGraph) ∧
      ((∃ ps, g.paths depth = .ok ps) ↔
        ∀ s edge ns, g.Exit s edge → ¬ g.Trail edge ns none)) := by
  intro g
  have hg : g.Sound := (Graph.sound_ofBody hbuilt).afterPasses passes
  constructor
  · intro h depth
    obtain ⟨s, edge, hexit, hrevisits⟩ := h
    cases hpaths : g.paths depth with
    | error e => exact ⟨e, rfl⟩
    | ok ps =>
      have hsettles := (hg.paths_isOk_iff depth).1 ⟨ps, hpaths⟩ s edge hexit
      exact (hrevisits.not_settles depth hsettles).elim
  · intro h depth hdepth
    have hshort {s edge ns last} (hexit : g.Exit s edge) (ht : g.Trail edge ns last) :
        ns.length < depth :=
      Nat.lt_of_lt_of_le (hg.length_lt_size hexit (h s edge hexit) ht) hdepth
    constructor
    · intro e he hkind
      obtain ⟨s, edge, ns, last, hexit, ht, hlength⟩ := hg.trail_of_infinite he hkind
      exact Nat.ne_of_lt (hshort hexit ht) hlength
    · rw [hg.paths_isOk_iff depth]
      constructor
      · intro hsettles s edge ns hexit ht
        exact (hsettles s edge hexit ns none ht).2 rfl
      · intro hnone s edge hexit ns last ht
        refine ⟨hshort hexit ht, ?_⟩
        rintro rfl
        exact hnone s edge ns hexit ht

theorem depth_detects_cycles_bodies :
    (∃ built, Graph.ofBody ringBody = .ok built ∧
      ∀ depth, ∃ e, (built.afterPasses [.emptyBlocks]).paths depth = .error e) ∧
    ∃ built g, Graph.ofBody partingBody = .ok built ∧
      g = built.afterPasses [.literalBranches, .emptyBlocks] ∧ g.size = 4 ∧
      (∀ s edge, g.Exit s edge → ¬ g.Revisits edge) ∧ (g.paths 1).toOption = none ∧
      ∀ depth, 4 ≤ depth → ∃ ps, g.paths depth = .ok ps := by
  constructor
  · obtain ⟨built, hbuilt, hhead, htest, hloop⟩ : ∃ built, Graph.ofBody ringBody = .ok built ∧
        (built.afterPasses [.emptyBlocks]).node? 0 = some (.head (some 2)) ∧
        (built.afterPasses [.emptyBlocks]).node? 2 =
          some (.branch (.binary .eq (.int 1) (.int 1)) (some 4) none) ∧
        (built.afterPasses [.emptyBlocks]).node? 4 = some (.branch (.var "a") (some 4) (some 7)) :=
      ⟨_, rfl, by decide +kernel⟩
    refine ⟨built, hbuilt, (depth_detects_cycles hbuilt [.emptyBlocks]).1 ?_⟩
    exact ⟨.head, _, .head hhead, _, 4, _, _, .cons (.onTrue htest) (.nil _),
      .cons (.onTrue hloop) (.nil _)⟩
  · obtain ⟨built, hbuilt, hsize, hshort, hlong⟩ : ∃ built, Graph.ofBody partingBody = .ok built ∧
        (built.afterPasses [.literalBranches, .emptyBlocks]).size = 4 ∧
        ((built.afterPasses [.literalBranches, .emptyBlocks]).paths 1).toOption = none ∧
        ((built.afterPasses [.literalBranches, .emptyBlocks]).paths 4).toOption =
          some partingPaths :=
      ⟨_, rfl, by decide +kernel⟩
    have hpaths := Except.toOption_eq_some.1 hlong
    obtain ⟨hcycle, hacyclic⟩ := depth_detects_cycles hbuilt [.literalBranches, .emptyBlocks]
    have hrevisits : ∀ s edge, (built.afterPasses [.literalBranches, .emptyBlocks]).Exit s edge →
        ¬ (built.afterPasses [.literalBranches, .emptyBlocks]).Revisits edge := by
      intro s edge hexit h
      obtain ⟨e, he⟩ := hcycle ⟨s, edge, hexit, h⟩ 4
      rw [hpaths] at he
      cases he
    have hends := (hacyclic hrevisits 4 (Nat.le_of_eq hsize)).2.1 ⟨_, hpaths⟩
    refine ⟨built, _, hbuilt, rfl, hsize, hrevisits, hshort, ?_⟩
    intro depth hdepth
    exact (hacyclic hrevisits depth (hsize ▸ hdepth)).2.2 hends

end Clockwork
