import Clockwork.Proofs.DecidedBranches
import Clockwork.Proofs.Enumeration
import Clockwork.Proofs.MainLoop

namespace Clockwork
set_option autoImplicit true

/-- A way over branches that the statements of a block decide. -/
inductive Graph.Skips (g : Graph) (ss : List (Stmt Expr)) : Option NodeId → Option NodeId → Prop
  | refl (edge : Option NodeId) : Skips g ss edge edge
  | branch (hb : g.node? b = some (.branch c t f))
    (hc : (c.reduce (knownLiterals ss)).truth? = some taken)
    (hrest : Skips g ss (if taken then t else f) edge) : Skips g ss (some b) edge

/-- The first node is the second one of a graph, but a block may lead past branches that it
decides. -/
inductive Node.Bypasses (g : Graph) : Node → Node → Prop
  | same (n : Node) : Bypasses g n n
  | block (h : g.Skips ss next next') : Bypasses g (.block ss next') (.block ss next)

/-- The first graph is the second one with blocks that lead past branches. -/
structure Graph.Bypasses (g h : Graph) : Prop where
  size : g.nodes.size = h.nodes.size
  count : g.suspensionCount = h.suspensionCount
  registers : g.registers = h.registers
  below : ∀ i n, g.node? i = some n → ∃ m, h.node? i = some m ∧ n.Bypasses h m
  above : ∀ i m, h.node? i = some m → ∃ n, g.node? i = some n ∧ n.Bypasses h m

/-- The second list of waypoints is the first one with the branches that the blocks decide. -/
inductive Waypoint.Spells : List Waypoint → List Waypoint → Prop
  | nil : Spells [] []
  | pass (n : Waypoint) (hrest : Spells ns ns') : Spells (n :: ns) (n :: ns')
  | block (ss : List (Stmt Expr))
    (hds : ∀ d ∈ ds, ∃ c taken, d = .branch c taken ∧
      (c.reduce (knownLiterals ss)).truth? = some taken)
    (hrest : Spells ns ns') : Spells (.block ss :: ns) (.block ss :: (ds ++ ns'))

namespace Waypoint

theorem Spells.length_le (h : Spells ns ns') : ns.length ≤ ns'.length := by
  induction h with
  | nil => exact Nat.le_refl _
  | pass n _ ih => exact Nat.succ_le_succ ih
  | block ss _ _ ih =>
    rw [List.length_cons, List.length_cons, List.length_append]
    omega

theorem Spells.concat (h : Spells ns ns') (n : Waypoint) : Spells (ns ++ [n]) (ns' ++ [n]) := by
  induction h with
  | nil => exact .pass n .nil
  | pass m _ ih => exact .pass m ih
  | block ss hds _ ih =>
    rw [List.cons_append, List.cons_append, List.append_assoc]
    exact .block ss hds ih

/-- Decided branches have guards that hold and no effects. -/
theorem holdAll_decided {v : Valuation} {table : Substitution}
    (hds : ∀ d ∈ ds, ∃ c taken, d = branch c taken ∧ (c.reduce table).truth? = some taken)
    (ns : List Waypoint) :
    v.holdAll (guards table (ds ++ ns)) = v.holdAll (guards table ns) ∧
      guards table ns ⊆ guards table (ds ++ ns) ∧
      effects table (ds ++ ns) = effects table ns := by
  induction ds with
  | nil => exact ⟨rfl, List.Subset.refl _, rfl⟩
  | cons d ds ih =>
    obtain ⟨⟨c, taken, rfl, hc⟩, hrest⟩ := List.forall_mem_cons.1 hds
    obtain ⟨hguards, hsub, heffects⟩ := ih hrest
    refine ⟨?_, List.subset_cons_of_subset _ hsub, heffects⟩
    rw [List.cons_append, guards_branch,
      Valuation.holdAll_guardOf_decided hc (Expr.folded_reduce table c), hguards]

/-- The branches that a path has been led past add guards that always hold, and nothing else. -/
theorem Spells.holdAll (h : Spells ns ns') (table : Substitution) (v : Valuation) :
    v.holdAll (guards table ns') = v.holdAll (guards table ns) ∧
      guards table ns ⊆ guards table ns' ∧ effects table ns' = effects table ns := by
  induction h generalizing table with
  | nil => exact ⟨rfl, List.Subset.refl _, rfl⟩
  | pass n _ ih =>
    cases n with
    | head => exact ih table
    | suspend => exact ih table
    | branch c taken =>
      obtain ⟨hguards, hsub, heffects⟩ := ih table
      refine ⟨?_, List.cons_subset_cons _ hsub, heffects⟩
      rw [guards_branch, guards_branch, Valuation.holdAll, Valuation.holdAll, hguards]
    | block ss =>
      obtain ⟨hguards, hsub, heffects⟩ := ih (Stmt.propagateList table ss).2
      exact ⟨hguards, hsub, congrArg (_ ++ ·) heffects⟩
  | @block ds ns ns' ss hds _ ih =>
    obtain ⟨hguards, hsub, heffects⟩ := ih (Stmt.propagateList table ss).2
    have hknown : ∀ d ∈ ds, ∃ c taken, d = branch c taken ∧
        (c.reduce (Stmt.propagateList table ss).2).truth? = some taken := by
      intro d hd
      obtain ⟨c, taken, rfl, hc⟩ := hds d hd
      exact ⟨c, taken, rfl, truth?_reduce_of_knownLiterals hc table⟩
    obtain ⟨hguards', hsub', heffects'⟩ := holdAll_decided (v := v) hknown ns'
    rw [guards_block, guards_block, effects_block, effects_block, hguards', hguards, heffects',
      heffects]
    exact ⟨rfl, List.Subset.trans hsub hsub', rfl⟩

end Waypoint

namespace Graph

variable {g h k : Graph}

theorem Skips.trans (hs : g.Skips ss edge edge') (hs' : g.Skips ss edge' edge'') :
    g.Skips ss edge edge'' := by
  induction hs with
  | refl => exact hs'
  | branch hb hc _ ih => exact .branch hb hc (ih hs')

theorem Skips.splice (hi : g.node? i = some (.branch (.ofValue l) t f))
    (htarget : (if l.truth then t else f) = target) (hne : target ≠ some i)
    (hs : g.Skips ss edge edge') :
    (g.splice i target).Skips ss (redirect i target edge) (redirect i target edge') := by
  induction hs with
  | refl => exact .refl _
  | @branch b c t' f' taken edge hb hc _ ih =>
    by_cases hbi : b = i
    · -- The skipped branch is the one that is taken out: it is decided in the same way.
      subst hbi
      rw [hi] at hb
      cases hb
      rw [Expr.reduce_ofValue, Expr.truth?_ofValue] at hc
      cases hc
      have hself : redirect b target target = target := if_neg hne
      rw [htarget, hself] at ih
      rw [redirect, if_pos rfl]
      exact ih
    · rw [redirect_some (Ne.symm hbi)]
      have hnode : (g.splice i target).node? b =
          some (.branch c (redirect i target t') (redirect i target f')) := by
        rw [node?_splice, if_neg (Ne.symm hbi), hb]
        rfl
      refine .branch hnode hc ?_
      rw [← apply_ite (redirect i target)]
      exact ih

theorem Bypasses.refl (g : Graph) : g.Bypasses g where
  size := rfl
  count := rfl
  registers := rfl
  below _ n hn := ⟨n, hn, .same n⟩
  above _ n hn := ⟨n, hn, .same n⟩

/-- Nodes other than blocks are the same in both graphs. -/
theorem Bypasses.node?_iff (hg : g.Bypasses h) (hn : ∀ ss next, n ≠ .block ss next) :
    g.node? i = some n ↔ h.node? i = some n := by
  constructor
  · intro hi
    obtain ⟨m, hm, hnm⟩ := hg.below i n hi
    cases hnm with
    | same => exact hm
    | block => exact (hn _ _ rfl).elim
  · intro hi
    obtain ⟨m, hm, hnm⟩ := hg.above i n hi
    cases hnm with
    | same => exact hm
    | block => exact (hn _ _ rfl).elim

theorem Bypasses.branch_iff (hg : g.Bypasses h) :
    g.node? i = some (.branch c t f) ↔ h.node? i = some (.branch c t f) :=
  hg.node?_iff fun _ _ he => by cases he

theorem Bypasses.shortcut (hg : g.Bypasses h) (hk : g.withShortcut? i = some k) :
    k.Bypasses h := by
  obtain ⟨ss, b, c, t, f, taken, hi, hb, hc, rfl⟩ := withShortcut?_eq_some hk
  have hskip : h.Skips ss (some b) (if taken then t else f) :=
    .branch (hg.branch_iff.1 hb) hc (.refl _)
  have hblock {m : Node} (hm : Node.Bypasses h (.block ss (some b)) m) :
      Node.Bypasses h (.block ss (if taken then t else f)) m := by
    cases hm with
    | same => exact .block hskip
    | block hs => exact .block (hs.trans hskip)
  refine ⟨(Array.size_modify ..).trans hg.size, hg.count, hg.registers, ?_, ?_⟩
  · intro j n hn
    rw [node?_modify] at hn
    split at hn
    · next hij =>
      subst hij
      rw [hi] at hn
      cases hn
      obtain ⟨m, hm, hnm⟩ := hg.below i _ hi
      exact ⟨m, hm, hblock hnm⟩
    · exact hg.below j n hn
  · intro j m hm
    obtain ⟨n, hn, hnm⟩ := hg.above j m hm
    rw [node?_modify]
    split
    · next hij =>
      subst hij
      rw [hi] at hn
      cases hn
      rw [hi]
      exact ⟨_, rfl, hblock hnm⟩
    · exact ⟨n, hn, hnm⟩

theorem Bypasses.splice (hg : g.Bypasses h) (hi : h.node? i = some (.branch (.ofValue l) t f))
    (htarget : (if l.truth then t else f) = target) (hne : target ≠ some i) :
    (g.splice i target).Bypasses (h.splice i target) := by
  have hmap {n m : Node} (hnm : n.Bypasses h m) : (n.mapEdges (redirect i target)).Bypasses
      (h.splice i target) (m.mapEdges (redirect i target)) := by
    cases hnm with
    | same n => exact .same _
    | block hs => exact .block (hs.splice hi htarget hne)
  refine ⟨?_, hg.count, hg.registers, ?_, ?_⟩
  · simp only [Graph.splice, Array.size_modify, Array.size_map, hg.size]
  · intro j n hn
    rw [node?_splice] at hn ⊢
    split at hn
    · cases hn
    · next hij =>
      obtain ⟨n, hold, rfl⟩ := Option.map_eq_some_iff.1 hn
      obtain ⟨m, hm, hnm⟩ := hg.below j n hold
      rw [if_neg hij, hm]
      exact ⟨_, rfl, hmap hnm⟩
  · intro j m hm
    rw [node?_splice] at hm ⊢
    split at hm
    · cases hm
    · next hij =>
      obtain ⟨m, hold, rfl⟩ := Option.map_eq_some_iff.1 hm
      obtain ⟨n, hn, hnm⟩ := hg.above j m hold
      rw [if_neg hij, hn]
      exact ⟨_, rfl, hmap hnm⟩

theorem withoutLiteralBranch?_of_node? (hi : g.node? i = some (.branch (.ofValue l) t f))
    (htarget : (if l.truth then t else f) = target) (hne : target ≠ some i) :
    g.withoutLiteralBranch? i = some (g.splice i target) := by
  simp only [withoutLiteralBranch?, hi, Expr.truth?_ofValue, Option.bind_some, htarget, if_neg hne]

/-- A literal branch is taken out of both graphs or of none. -/
theorem Bypasses.literal (hg : g.Bypasses h) (i : NodeId) :
    (g.withoutLiteralBranch? i = none ∧ h.withoutLiteralBranch? i = none) ∨
      ∃ g' h', g.withoutLiteralBranch? i = some g' ∧ h.withoutLiteralBranch? i = some h' ∧
        g'.Bypasses h' := by
  cases hh : h.withoutLiteralBranch? i with
  | some h' =>
    obtain ⟨l, t, f, target, hi, htarget, hne, rfl⟩ := withoutLiteralBranch?_eq_some hh
    have hgi := withoutLiteralBranch?_of_node? (hg.branch_iff.2 hi) htarget hne
    exact .inr ⟨_, _, hgi, rfl, hg.splice hi htarget hne⟩
  | none =>
    cases hgi : g.withoutLiteralBranch? i with
    | none => exact .inl ⟨rfl, rfl⟩
    | some g' =>
      obtain ⟨l, t, f, target, hi, htarget, hne, rfl⟩ := withoutLiteralBranch?_eq_some hgi
      rw [withoutLiteralBranch?_of_node? (hg.branch_iff.1 hi) htarget hne] at hh
      cases hh

/-- Two sweeps that make the same changes keep what each pair of changes keeps. -/
theorem sweep_lockstep {R : Graph → Graph → Prop} {change? : Graph → NodeId → Option Graph}
    (hstep : ∀ g h i, R g h → (change? g i = none ∧ change? h i = none) ∨
      ∃ g' h', change? g i = some g' ∧ change? h i = some h' ∧ R g' h')
    (hsize : g.nodes.size = h.nodes.size) (hgh : R g h) :
    R (g.sweep change?).1 (h.sweep change?).1 := by
  unfold sweep
  rw [hsize]
  generalize List.range h.nodes.size = is
  clear hsize
  generalize 0 = count
  induction is generalizing g h count with
  | nil => exact hgh
  | cons i is ih =>
    rcases hstep g h i hgh with ⟨hg, hh⟩ | ⟨g', h', hg, hh, hgh'⟩
    · simp only [List.foldl_cons, hg, hh]
      exact ih hgh count
    · simp only [List.foldl_cons, hg, hh]
      exact ih hgh' (count + 1)

theorem bypasses_shortcutDecided (g : Graph) : g.shortcutDecided.1.Bypasses g :=
  sweep_induction (P := fun k => k.Bypasses g) (fun _ _ _ hk hg => hg.shortcut hk) (.refl g)

/-- A simplification with shortcuts differs from one without them only in where blocks lead. -/
theorem bypasses_simplify (g : Graph) : (g.simplify true).Bypasses (g.simplify false) := by
  have hshortcuts := g.pruneEmptyBlocks.1.bypasses_shortcutDecided
  exact sweep_lockstep (fun _ _ i hgh => hgh.literal i) hshortcuts.size hshortcuts

theorem Skips.trail (hs : g.Skips ss edge edge') :
    ∃ ds, (∀ d ∈ ds, ∃ c taken, d = .branch c taken ∧
        (c.reduce (knownLiterals ss)).truth? = some taken) ∧
      ∀ ns last, g.Trail edge' ns last → g.Trail edge (ds ++ ns) last := by
  induction hs with
  | refl => exact ⟨[], nofun, fun _ _ ht => ht⟩
  | @branch b c t f taken edge hb hc _ ih =>
    obtain ⟨ds, hds, htrail⟩ := ih
    have hpass : g.Passes (some b) (.branch c taken) (if taken then t else f) := by
      cases taken with
      | true => exact .onTrue hb
      | false => exact .onFalse hb
    refine ⟨.branch c taken :: ds, List.forall_mem_cons.2 ⟨⟨c, taken, rfl, hc⟩, hds⟩, ?_⟩
    intro ns last ht
    exact .cons hpass (htrail ns last ht)

/-- Every walk is one of the other graph with the branches that it has been led past. -/
theorem Bypasses.trail (hg : g.Bypasses h) (ht : g.Trail edge ns last) :
    ∃ ns', h.Trail edge ns' last ∧ Waypoint.Spells ns ns' := by
  induction ht with
  | nil edge => exact ⟨[], .nil edge, .nil⟩
  | cons hn _ ih =>
    obtain ⟨ns', ht', hspells⟩ := ih
    cases hn with
    | head hi =>
      have hi' := (hg.node?_iff fun _ _ he => by cases he).1 hi
      exact ⟨_, .cons (.head hi') ht', .pass _ hspells⟩
    | onTrue hi => exact ⟨_, .cons (.onTrue (hg.branch_iff.1 hi)) ht', .pass _ hspells⟩
    | onFalse hi => exact ⟨_, .cons (.onFalse (hg.branch_iff.1 hi)) ht', .pass _ hspells⟩
    | block hi =>
      obtain ⟨m, hm, hnm⟩ := hg.below _ _ hi
      cases hnm with
      | same => exact ⟨_, .cons (.block hm) ht', .pass _ hspells⟩
      | block hs =>
        obtain ⟨ds, hds, htrail⟩ := hs.trail
        exact ⟨_, .cons (.block hm) (htrail ns' _ ht'), .block _ hds hspells⟩

theorem Bypasses.settles (hg : g.Bypasses h) (hs : h.Settles depth edge) :
    g.Settles depth edge := by
  intro ns last ht
  obtain ⟨ns', ht', hspells⟩ := hg.trail ht
  obtain ⟨hlt, hlast⟩ := hs ns' last ht'
  exact ⟨Nat.lt_of_le_of_lt hspells.length_le hlt, hlast⟩

theorem Bypasses.exit_iff (hg : g.Bypasses h) : g.Exit s edge ↔ h.Exit s edge := by
  have hhead {i : NodeId} {next : Option NodeId} :
      g.node? i = some (.head next) ↔ h.node? i = some (.head next) :=
    hg.node?_iff fun _ _ he => by cases he
  have hsuspend {i : NodeId} {id : Nat} {next : Option NodeId} :
      g.node? i = some (.suspend id next) ↔ h.node? i = some (.suspend id next) :=
    hg.node?_iff fun _ _ he => by cases he
  constructor
  · intro hexit
    cases hexit with
    | head hi => exact .head (hhead.1 hi)
    | suspension hi => exact .suspension (hsuspend.1 hi)
  · intro hexit
    cases hexit with
    | head hi => exact .head (hhead.2 hi)
    | suspension hi => exact .suspension (hsuspend.2 hi)

theorem Bypasses.exists_route (hg : g.Bypasses h) (hr : g.Route edge route) :
    ∃ route', h.Route edge route' ∧ Waypoint.Spells route route' ∧
      route'.getLast? = route.getLast? := by
  obtain ⟨ns, i, id, next, ht, hi, rfl⟩ := hr
  obtain ⟨ns', ht', hspells⟩ := hg.trail ht
  have hi' := (hg.node?_iff fun _ _ he => by cases he).1 hi
  refine ⟨ns' ++ [.suspend id], ⟨ns', i, id, next, ht', hi', rfl⟩, hspells.concat _, ?_⟩
  rw [List.getLast?_concat, List.getLast?_concat]

/-- Where the paths can be listed without shortcuts, they can be listed with them. -/
theorem Bypasses.paths (hg : g.Bypasses h) (hsound : g.Sound) (hsound' : h.Sound)
    (hpaths : h.paths depth = .ok ps) : ∃ qs, g.paths depth = .ok qs := by
  apply (hsound.paths_isOk_iff depth).2
  intro s edge hexit
  exact hg.settles ((hsound'.paths_isOk_iff depth).1 ⟨ps, hpaths⟩ s edge (hg.exit_iff.1 hexit))

end Graph

end Clockwork
