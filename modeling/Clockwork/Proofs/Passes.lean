import Clockwork.Proofs.Layout

namespace Clockwork
set_option autoImplicit true

variable {g k : Graph}

namespace Node

theorem targets_mapEdges (f : Option NodeId → Option NodeId) (n : Node) :
    (n.mapEdges f).targets = n.targets.map f := by
  cases n <;> rfl

theorem isHead_mapEdges (f : Option NodeId → Option NodeId) (n : Node) :
    (n.mapEdges f).IsHead ↔ n.IsHead := by
  cases n <;> exact Iff.rfl

end Node

/-- The passes of a simplification. -/
inductive Pass where
  | emptyBlocks | shortcuts | literalBranches
deriving DecidableEq, Repr

namespace Pass

def apply : Pass → Graph → Graph
  | .emptyBlocks, g => g.pruneEmptyBlocks.1
  | .shortcuts, g => g.shortcutDecided.1
  | .literalBranches, g => g.pruneLiteralBranches.1

/-- What a pass tries at each node. -/
def change? : Pass → Graph → NodeId → Option Graph
  | .emptyBlocks => Graph.withoutEmptyBlock?
  | .shortcuts => Graph.withShortcut?
  | .literalBranches => Graph.withoutLiteralBranch?

theorem apply_eq_sweep (p : Pass) (g : Graph) : p.apply g = (g.sweep p.change?).1 := by
  cases p <;> rfl

end Pass

namespace Graph

/-- The graph after passes in any order and number. -/
def afterPasses (passes : List Pass) (g : Graph) : Graph :=
  passes.foldl (fun g p => p.apply g) g

theorem simplify_eq_afterPasses (bypass : Bool) (g : Graph) :
    g.simplify bypass = g.afterPasses
      (if bypass then [.emptyBlocks, .shortcuts, .literalBranches]
        else [.emptyBlocks, .literalBranches]) := by
  cases bypass <;> rfl

/-- One change of a pass: a node gives way to one of its successors, or the edge of a block to a
branch leads on to a successor of the branch. -/
inductive Change (g : Graph) (i : NodeId) : Graph → Prop
  | splice (hi : g.node? i = some n) (hn : ¬ n.IsHead) (ht : target ∈ n.targets)
    (hne : target ≠ some i) : Change g i (g.splice i target)
  | skip (hi : g.node? i = some (.block ss (some b))) (hb : g.node? b = some (.branch c t f))
    (ht : target ∈ [t, f]) : Change g i (g.modify i (Node.withNext target))

theorem mem_pair_ite (b : Bool) (x y : α) : (if b then x else y) ∈ [x, y] := by
  cases b with
  | true => exact List.mem_cons_self
  | false => exact List.mem_cons_of_mem _ List.mem_cons_self

theorem change_of_pass {p : Pass} (h : p.change? g i = some k) : g.Change i k := by
  cases p with
  | emptyBlocks =>
    obtain ⟨target, hi, hne, rfl⟩ := withoutEmptyBlock?_eq_some h
    exact .splice hi nofun List.mem_cons_self hne
  | shortcuts =>
    obtain ⟨ss, b, c, t, f, taken, hi, hb, _, rfl⟩ := withShortcut?_eq_some h
    exact .skip hi hb (mem_pair_ite taken t f)
  | literalBranches =>
    obtain ⟨l, t, f, target, hi, rfl, hne, rfl⟩ := withoutLiteralBranch?_eq_some h
    exact .splice hi nofun (mem_pair_ite l.truth t f) hne

theorem Change.within (h : g.Change i k) : k.Within g := by
  cases h with
  | splice hi hn =>
    apply Within.splice
    intro next hhead
    rw [hhead] at hi
    cases hi
    exact hn trivial
  | skip => exact .modify g i (Node.core_withNext _)

/-- Every edge of a graph leads to one of its nodes, never to the head, and the ids of the
suspensions grow with their numbers. -/
structure Sound (g : Graph) : Prop where
  built : g.WellBuilt (fun _ => True) (fun _ => True)
  leads : ∀ i n j, g.node? i = some n → some j ∈ n.targets →
    ∃ m, g.node? j = some m ∧ ¬ m.IsHead
  ids : ∀ i j id id' next next', g.node? i = some (.suspend id next) →
    g.node? j = some (.suspend id' next') → i < j → id < id'

theorem sound_ofBody (h : Graph.ofBody body = .ok g) : g.Sound := by
  obtain ⟨_, _, _, registers, d, _, _, _, hd, rfl⟩ := Graph.ofBody_eq_ok h
  obtain ⟨_, _, _, hsound, _⟩ := (Draft.sound_start registers).addStmt _ hd
  refine ⟨hsound.built, ?_, hsound.ids⟩
  intro i n j hi hj
  obtain ⟨hpos, hlt⟩ := (hsound.fits i n hi).targets j hj
  obtain ⟨m, hm⟩ := hsound.gapless j hlt
  refine ⟨m, hm, ?_⟩
  intro hhead
  exact Nat.ne_of_gt hpos ((hsound.fits j m hm).head hhead)

theorem Sound.splice_target (hg : g.Sound) (hi : g.node? i = some n) (ht : target ∈ n.targets)
    (hne : target ≠ some i) (hl : (g.splice i target).node? l = some m)
    (hj : some j ∈ m.targets) : ∃ m', (g.splice i target).node? j = some m' ∧ ¬ m'.IsHead := by
  rw [node?_splice] at hl
  split at hl
  · cases hl
  · obtain ⟨m, hm, rfl⟩ := Option.map_eq_some_iff.1 hl
    rw [Node.targets_mapEdges] at hj
    obtain ⟨next, hnext, hredirect⟩ := List.mem_map.1 hj
    -- The edge led to `j` before, or it led to the removed node, from which an edge leads to `j`.
    have hold : j ≠ i ∧ ∃ m', g.node? j = some m' ∧ ¬ m'.IsHead := by
      unfold redirect at hredirect
      split at hredirect
      · subst hredirect
        exact ⟨fun he => hne (he ▸ rfl), hg.leads i n j hi ht⟩
      · next hi' =>
        subst hredirect
        exact ⟨fun he => hi' (he ▸ rfl), hg.leads l m j hm hnext⟩
    obtain ⟨hji, m', hm', hhead⟩ := hold
    refine ⟨m'.mapEdges (redirect i target), ?_, fun h => hhead ((m'.isHead_mapEdges _).1 h)⟩
    rw [node?_splice, if_neg hji.symm, hm']
    rfl

theorem Sound.skip_target (hg : g.Sound) (hi : g.node? i = some (.block ss (some b)))
    (hb : g.node? b = some (.branch c t f)) (ht : target ∈ [t, f])
    (hl : (g.modify i (Node.withNext target)).node? l = some m) (hj : some j ∈ m.targets) :
    ∃ m', (g.modify i (Node.withNext target)).node? j = some m' ∧ ¬ m'.IsHead := by
  have hold : ∃ m', g.node? j = some m' ∧ ¬ m'.IsHead := by
    rw [node?_modify] at hl
    split at hl
    · next he =>
      subst he
      rw [hi] at hl
      cases hl
      cases List.mem_singleton.1 hj
      exact hg.leads b _ j hb ht
    · exact hg.leads l m j hl hj
  obtain ⟨m', hm', hhead⟩ := hold
  rw [node?_modify]
  split
  · next he =>
    subst he
    rw [hi]
    exact ⟨.block ss target, rfl, id⟩
  · exact ⟨m', hm', hhead⟩

theorem Sound.change (hg : g.Sound) (h : g.Change i k) : k.Sound where
  built := hg.built.within h.within
  leads l m j hl hj := by
    cases h with
    | splice hi hn ht hne => exact hg.splice_target hi ht hne hl hj
    | skip hi hb ht => exact hg.skip_target hi hb ht hl hj
  ids l j id id' next next' hl hj hlj := by
    obtain ⟨m, hm, hcore⟩ := h.within.node l _ hl
    obtain ⟨m', hm', hcore'⟩ := h.within.node j _ hj
    obtain ⟨mnext, rfl⟩ := Node.eq_suspend_of_core hcore.symm
    obtain ⟨mnext', rfl⟩ := Node.eq_suspend_of_core hcore'.symm
    exact hg.ids l j id id' mnext mnext' hm hm' hlj

/-- What a sweep brings about at one node and keeps from there on holds of its graph and its count in
the end. -/
theorem sweep_count_reaches {P Q : Graph → Nat → Prop} {change? : Graph → NodeId → Option Graph}
    (hstep : ∀ g k i count, change? g i = some k → P g count → P k (count + 1))
    (hkeep : ∀ g k i count, change? g i = some k → P g count → Q g count → Q k (count + 1))
    (hnone : ∀ g count, P g count → change? g j = none → Q g count)
    (hsome : ∀ g k count, P g count → change? g j = some k → Q k (count + 1))
    (hj : j < g.nodes.size) (hg : P g 0) : Q (g.sweep change?).1 (g.sweep change?).2 := by
  have hreaches : Q g 0 ∨ j ∈ List.range g.nodes.size := .inr (List.mem_range.2 hj)
  clear hj
  unfold sweep
  generalize List.range g.nodes.size = is at hreaches
  generalize 0 = count at hg hreaches
  induction is generalizing g count with
  | nil => exact hreaches.resolve_right List.not_mem_nil
  | cons i is ih =>
    cases hc : change? g i with
    | none =>
      simp only [List.foldl_cons, hc]
      apply ih count hg
      rcases hreaches with hq | hmem
      · exact .inl hq
      · rcases List.mem_cons.1 hmem with rfl | hmem
        · exact .inl (hnone g count hg hc)
        · exact .inr hmem
    | some k =>
      simp only [List.foldl_cons, hc]
      apply ih (count + 1) (hstep g k i count hc hg)
      rcases hreaches with hq | hmem
      · exact .inl (hkeep g k i count hc hg hq)
      · rcases List.mem_cons.1 hmem with rfl | hmem
        · exact .inl (hsome g k count hg hc)
        · exact .inr hmem

/-- What a sweep brings about at one node and keeps from there on holds in the end. -/
theorem sweep_reaches {P Q : Graph → Prop} {change? : Graph → NodeId → Option Graph}
    (hstep : ∀ g k i, change? g i = some k → P g → P k)
    (hkeep : ∀ g k i, change? g i = some k → P g → Q g → Q k)
    (hnone : ∀ g, P g → change? g j = none → Q g)
    (hsome : ∀ g k, P g → change? g j = some k → Q k)
    (hj : j < g.nodes.size) (hg : P g) : Q (g.sweep change?).1 :=
  sweep_count_reaches (P := fun g _ => P g) (Q := fun g _ => Q g)
    (fun g k i _ hk => hstep g k i hk) (fun g k i _ hk => hkeep g k i hk)
    (fun g _ => hnone g) (fun g k _ => hsome g k) hj hg

theorem afterPasses_invariant {P : Graph → Prop}
    (hstep : ∀ (p : Pass) g k i, p.change? g i = some k → P g → P k) (passes : List Pass)
    (hg : P g) : P (g.afterPasses passes) := by
  induction passes generalizing g with
  | nil => exact hg
  | cons p passes ih =>
    have happly : P (p.apply g) := by
      rw [p.apply_eq_sweep]
      exact sweep_induction (hstep p) hg
    exact ih happly

/-- Passes keep what each of their changes keeps. -/
theorem afterPasses_induction {P : Graph → Prop} (hstep : ∀ g k i, g.Change i k → P g → P k)
    (passes : List Pass) (hg : P g) : P (g.afterPasses passes) :=
  afterPasses_invariant (fun _ g k i hk => hstep g k i (change_of_pass hk)) passes hg

theorem within_afterPasses (passes : List Pass) (g : Graph) : (g.afterPasses passes).Within g :=
  afterPasses_induction (P := fun k => k.Within g) (fun _ _ _ hk hg => hk.within.trans hg) passes
    (.refl g)

theorem simplify_within (bypass : Bool) (g : Graph) : (g.simplify bypass).Within g := by
  rw [simplify_eq_afterPasses]
  exact within_afterPasses _ g

theorem Sound.afterPasses (hg : g.Sound) (passes : List Pass) : (g.afterPasses passes).Sound :=
  afterPasses_induction (fun _ _ _ hchange hsound => hsound.change hchange) passes hg

end Graph

end Clockwork
