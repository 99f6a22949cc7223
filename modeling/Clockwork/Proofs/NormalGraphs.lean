import Clockwork.Proofs.Bypass
import Mathlib.Data.List.Nodup

namespace Clockwork
set_option autoImplicit true

/-- Nodes that only pass control on, each with the edge along which it does so. -/
structure Passage where
  through : Node → Option (Option NodeId)
  natural : ∀ n f, through (n.mapEdges f) = (through n).map f

namespace Passage

/-- A block without statements. -/
def emptyBlock : Passage where
  through
    | .block [] next => some next
    | _ => none
  natural n f := by
    cases n with
    | block ss next => cases ss <;> rfl
    | head => rfl
    | branch => rfl
    | suspend => rfl

/-- A branch with a literal condition. -/
def literalBranch : Passage where
  through
    | .branch c t f => c.truth?.map fun taken => if taken then t else f
    | _ => none
  natural n f := by
    cases n with
    | branch c t e =>
      simp only [Node.mapEdges, Option.map_map]
      congr 1
      funext taken
      exact (apply_ite f (taken = true) t e).symm
    | head => rfl
    | block => rfl
    | suspend => rfl

theorem emptyBlock_eq_none {n : Node} (h : ∀ next, n ≠ .block [] next) :
    emptyBlock.through n = none := by
  cases n with
  | block ss next =>
    cases ss with
    | nil => exact (h next rfl).elim
    | cons => rfl
  | head => rfl
  | branch => rfl
  | suspend => rfl

theorem literalBranch_ofValue (l : Value) (t f : Option NodeId) :
    literalBranch.through (.branch (.ofValue l) t f) = some (if l.truth then t else f) := by
  simp only [literalBranch, Expr.truth?_ofValue, Option.map_some]

theorem literalBranch_eq_none {n : Node} (h : ∀ l t f, n ≠ .branch (.ofValue l) t f) :
    literalBranch.through n = none := by
  cases n with
  | branch c t f =>
    cases hc : c.literal? with
    | none => simp only [literalBranch, Expr.truth?, hc, Option.map_none]
    | some l => exact (h l t f (by rw [← Expr.eq_ofValue_of_literal? hc])).elim
  | head => rfl
  | block => rfl
  | suspend => rfl

/-- Takes out a node of a passage unless it leads to itself. -/
def remove? (p : Passage) (g : Graph) (i : NodeId) : Option Graph :=
  (g.node? i).bind fun n => (p.through n).bind fun target =>
    if target = some i then none else some (g.splice i target)

theorem remove?_emptyBlock : emptyBlock.remove? = Graph.withoutEmptyBlock? := by
  funext g i
  rw [remove?, Graph.withoutEmptyBlock?]
  cases g.node? i with
  | none => rfl
  | some n =>
    cases n with
    | block ss next => cases ss <;> rfl
    | head => rfl
    | branch => rfl
    | suspend => rfl

theorem remove?_literalBranch : literalBranch.remove? = Graph.withoutLiteralBranch? := by
  funext g i
  rw [remove?, Graph.withoutLiteralBranch?]
  cases g.node? i with
  | none => rfl
  | some n =>
    cases n with
    | branch c t f =>
      simp only [literalBranch, Option.bind_some]
      cases c.truth? <;> rfl
    | head => rfl
    | block => rfl
    | suspend => rfl

variable {p : Passage} {g k : Graph}

theorem remove?_eq_some_iff : p.remove? g i = some k ↔ ∃ n target, g.node? i = some n ∧
    p.through n = some target ∧ target ≠ some i ∧ k = g.splice i target := by
  simp only [remove?, Option.bind_eq_some_iff, Option.ite_none_left_eq_some, Option.some.injEq]
  constructor
  · intro h
    obtain ⟨n, hn, target, ht, hne, he⟩ := h
    exact ⟨n, target, hn, ht, hne, he.symm⟩
  · intro h
    obtain ⟨n, target, hn, ht, hne, he⟩ := h
    exact ⟨n, hn, target, ht, hne, he.symm⟩

/-- The nodes of a passage that cannot be taken out are those that lead to themselves. -/
theorem remove?_eq_none_iff : p.remove? g i = none ↔
    ∀ n target, g.node? i = some n → p.through n = some target → target = some i := by
  constructor
  · intro h n target hn ht
    by_cases he : target = some i
    · exact he
    · have hsome := remove?_eq_some_iff.2 ⟨n, target, hn, ht, he, rfl⟩
      rw [h] at hsome
      cases hsome
  · intro h
    apply Option.eq_none_iff_forall_ne_some.2
    intro k hk
    obtain ⟨n, target, hn, ht, hne, _⟩ := remove?_eq_some_iff.1 hk
    exact hne (h n target hn ht)

/-- A node that leads to itself keeps doing so when other nodes are taken out. -/
theorem remove?_splice (h : i = j ∨ p.remove? g j = none) (target : Option NodeId) :
    p.remove? (g.splice i target) j = none := by
  apply remove?_eq_none_iff.2
  intro n next hn hnext
  rw [Graph.node?_splice] at hn
  split at hn
  · cases hn
  · next hij =>
    obtain ⟨m, hm, rfl⟩ := Option.map_eq_some_iff.1 hn
    rw [p.natural] at hnext
    obtain ⟨next', hnext', rfl⟩ := Option.map_eq_some_iff.1 hnext
    rw [remove?_eq_none_iff.1 (h.resolve_left hij) m next' hm hnext']
    exact Graph.redirect_some hij target

theorem remove?_modify {f : Node → Node} (hi : g.node? i = some n) (hn : p.through (f n) = none)
    (hj : p.remove? g j = none) : p.remove? (g.modify i f) j = none := by
  apply remove?_eq_none_iff.2
  intro m target hm htarget
  rw [Graph.node?_modify] at hm
  split at hm
  · next hij =>
    subst hij
    rw [hi] at hm
    cases hm
    rw [hn] at htarget
    cases htarget
  · exact remove?_eq_none_iff.1 hj m target hm htarget

end Passage

namespace Graph

variable {g k : Graph} {change? : Graph → NodeId → Option Graph}

theorem sweep_eq_self (h : ∀ i, change? g i = none) : g.sweep change? = (g, 0) := by
  unfold sweep
  generalize List.range g.nodes.size = is
  induction is with
  | nil => rfl
  | cons i is ih =>
    simp only [List.foldl_cons, h i]
    exact ih

/-- A sweep that counts no change has found nothing to change at any node. -/
theorem unchanged_of_sweep (h : (g.sweep change?).2 = 0) (hj : j < g.nodes.size) :
    change? g j = none := by
  have hreaches : (g.sweep change?).2 = 0 → change? g j = none := by
    apply sweep_count_reaches (P := fun k count => count = 0 → k = g)
      (Q := fun _ count => count = 0 → change? g j = none)
    case hstep => exact fun _ _ _ count _ _ hzero => (Nat.succ_ne_zero count hzero).elim
    case hkeep => exact fun _ _ _ count _ _ _ hzero => (Nat.succ_ne_zero count hzero).elim
    case hnone => exact fun k count hsame hk hzero => hsame hzero ▸ hk
    case hsome => exact fun _ _ count _ _ hzero => (Nat.succ_ne_zero count hzero).elim
    case hj => exact hj
    case hg => exact fun _ => rfl
  exact hreaches h

/-- Where every change takes out one node, a sweep counts the nodes that it takes out. -/
theorem size_sweep (h : ∀ g k i, change? g i = some k → k.size + 1 = g.size) (g : Graph) :
    (g.sweep change?).1.size + (g.sweep change?).2 = g.size := by
  apply sweep_count_induction (P := fun k count => k.size + count = g.size)
  · intro k l i count hl hk
    rw [← hk, ← h k l i hl, Nat.add_right_comm, Nat.add_assoc]
  · rfl

/-- A sweep leaves nothing to change if a change leaves nothing to change at its node, and nothing
new elsewhere. -/
theorem sweep_settles (hself : ∀ g k i, change? g i = some k → change? k i = none)
    (hkeep : ∀ g k i j, change? g i = some k → change? g j = none → change? k j = none)
    (hout : ∀ g i, g.nodes.size ≤ i → change? g i = none) (g : Graph) (j : NodeId) :
    change? (g.sweep change?).1 j = none := by
  by_cases hj : j < g.nodes.size
  · exact sweep_reaches (P := fun _ => True) (Q := fun k => change? k j = none)
      (fun _ _ _ _ _ => trivial) (fun g k i hk _ hg => hkeep g k i j hk hg) (fun _ _ hg => hg)
      (fun g k _ hk => hself g k j hk) hj trivial
  · exact sweep_induction (fun g k i hk hg => hkeep g k i j hk hg) (hout g j (Nat.le_of_not_lt hj))

theorem size_splice (hi : g.node? i = some n) (target : Option NodeId) :
    (g.splice i target).size + 1 = g.size := by
  have hmem : i ∈ g.present.map Prod.fst := mem_map_present.2 ⟨n, hi⟩
  have hperm : ((g.splice i target).present.map Prod.fst).Perm
      ((g.present.map Prod.fst).erase i) := by
    apply (List.perm_ext_iff_of_nodup (nodup_present _) ((nodup_present g).erase i)).2
    intro j
    rw [mem_map_present, (nodup_present g).mem_erase_iff, mem_map_present, node?_splice]
    split
    · next hij => simp [hij]
    · next hij =>
      cases g.node? j with
      | none => simp
      | some m => simp [Ne.symm hij]
  have hlength := hperm.length_eq
  rw [List.length_erase_of_mem hmem, List.length_map, List.length_map] at hlength
  have hpos := List.length_pos_of_mem hmem
  rw [List.length_map] at hpos
  unfold size
  omega

end Graph

namespace Passage

variable {g k : Graph}

theorem remove?_eq_none_of_size_le (p : Passage) (hi : g.nodes.size ≤ i) :
    p.remove? g i = none := by
  apply remove?_eq_none_iff.2
  intro n target hn _
  exact absurd (Graph.lt_size_of_node? hn) (Nat.not_lt_of_le hi)

/-- A sweep leaves no node that could be taken out. -/
theorem remove?_sweep (p : Passage) (g : Graph) (j : NodeId) :
    p.remove? (g.sweep p.remove?).1 j = none := by
  apply Graph.sweep_settles
  case hself =>
    intro g k i hk
    obtain ⟨_, target, _, _, _, rfl⟩ := remove?_eq_some_iff.1 hk
    exact remove?_splice (.inl rfl) target
  case hkeep =>
    intro g k i j hk hj
    obtain ⟨_, target, _, _, _, rfl⟩ := remove?_eq_some_iff.1 hk
    exact remove?_splice (.inr hj) target
  case hout => exact fun g i hi => p.remove?_eq_none_of_size_le hi

theorem size_sweep (p : Passage) (g : Graph) :
    (g.sweep p.remove?).1.size + (g.sweep p.remove?).2 = g.size := by
  apply Graph.size_sweep
  intro g k i hk
  obtain ⟨_, target, hi, _, _, rfl⟩ := remove?_eq_some_iff.1 hk
  exact Graph.size_splice hi target

/-- A sweep takes out nodes of its passage only. -/
theorem exists_node_sweep {p : Passage} (hi : g.node? i = some n) (hn : p.through n = none) :
    ∃ m, (g.sweep p.remove?).1.node? i = some m ∧ p.through m = none := by
  apply Graph.sweep_induction (P := fun k => ∃ m, k.node? i = some m ∧ p.through m = none)
  · intro k l j hl hk
    obtain ⟨m, hm, hthrough⟩ := hk
    obtain ⟨m', target, hj, htarget, _, rfl⟩ := remove?_eq_some_iff.1 hl
    refine ⟨m.mapEdges (Graph.redirect j target), ?_, ?_⟩
    · rw [Graph.node?_splice, if_neg, hm]
      · rfl
      · intro hji
        subst hji
        cases hj.symm.trans hm
        rw [hthrough] at htarget
        cases htarget
    · rw [p.natural, hthrough]
      rfl
  · exact ⟨n, hi, hn⟩

end Passage

namespace Graph

variable {g k : Graph}

theorem pruneEmptyBlocks_eq (g : Graph) :
    g.pruneEmptyBlocks = g.sweep Passage.emptyBlock.remove? := by
  rw [Passage.remove?_emptyBlock]
  rfl

theorem pruneLiteralBranches_eq (g : Graph) :
    g.pruneLiteralBranches = g.sweep Passage.literalBranch.remove? := by
  rw [Passage.remove?_literalBranch]
  rfl

/-- No block is followed by a branch that its statements decide. -/
def Undecided (g : Graph) : Prop :=
  ∀ i ss b c t f, g.node? i = some (.block ss (some b)) → g.node? b = some (.branch c t f) →
    (c.reduce (knownLiterals ss)).truth? = none

theorem withShortcut?_eq_none_iff : (∀ i, g.withShortcut? i = none) ↔ g.Undecided := by
  constructor
  · intro h i ss b c t f hi hb
    have hnone := h i
    simpa only [withShortcut?, hi, hb, Option.map_eq_none_iff] using hnone
  · intro h i
    apply Option.eq_none_iff_forall_ne_some.2
    intro k hk
    obtain ⟨ss, b, c, t, f, taken, hi, hb, hc, _⟩ := withShortcut?_eq_some hk
    rw [h i ss b c t f hi hb] at hc
    cases hc

theorem shortcutDecided_eq_self_iff : g.shortcutDecided = (g, 0) ↔ g.Undecided := by
  rw [← withShortcut?_eq_none_iff]
  constructor
  · intro h i
    by_cases hi : i < g.nodes.size
    · exact unchanged_of_sweep (congrArg Prod.snd h) hi
    · apply Option.eq_none_iff_forall_ne_some.2
      intro k hk
      obtain ⟨_, _, _, _, _, _, hnode, _⟩ := withShortcut?_eq_some hk
      exact hi (lt_size_of_node? hnode)
  · exact sweep_eq_self

/-- A shortcut leads no block without statements elsewhere. -/
theorem emptyBlock_shortcut (hk : g.withShortcut? i = some k)
    (hj : ∀ j, Passage.emptyBlock.remove? g j = none) (j : NodeId) :
    Passage.emptyBlock.remove? k j = none := by
  obtain ⟨ss, b, c, t, f, taken, hi, hb, _, rfl⟩ := withShortcut?_eq_some hk
  cases ss with
  | cons s ss => exact Passage.remove?_modify hi rfl (hj j)
  | nil =>
    -- The block would lead to itself, but it leads to a branch.
    cases Passage.remove?_eq_none_iff.1 (hj i) _ _ hi rfl
    cases hi.symm.trans hb

/-- A shortcut keeps all branches. -/
theorem literalBranch_shortcut (hk : g.withShortcut? i = some k)
    (hj : Passage.literalBranch.remove? g j = none) :
    Passage.literalBranch.remove? k j = none := by
  obtain ⟨ss, b, c, t, f, taken, hi, _, _, rfl⟩ := withShortcut?_eq_some hk
  exact Passage.remove?_modify hi rfl hj

theorem simplify_of_pruneEmptyBlocks (h : g.pruneEmptyBlocks = (g, 0)) (bypass : Bool) :
    g.simplify bypass =
      (if bypass then g.shortcutDecided else (g, 0)).1.pruneLiteralBranches.1 := by
  rw [simplify, h]
  cases bypass <;> rfl

theorem literalBranch_shortcuts (g : Graph) (bypass : Bool)
    (hj : Passage.literalBranch.remove? g j = none) :
    Passage.literalBranch.remove? (if bypass then g.shortcutDecided else (g, 0)).1 j = none := by
  cases bypass with
  | false => exact hj
  | true =>
    exact sweep_induction (P := fun k => Passage.literalBranch.remove? k j = none)
      (fun _ _ _ hk hj => literalBranch_shortcut hk hj) hj

/-- After a simplification there is nothing to take out. -/
theorem remove?_simplify (bypass : Bool) (g : Graph) (j : NodeId) :
    Passage.emptyBlock.remove? (g.simplify bypass) j = none ∧
      Passage.literalBranch.remove? (g.simplify bypass) j = none := by
  have hempty : ∀ j, Passage.emptyBlock.remove? g.pruneEmptyBlocks.1 j = none := by
    rw [pruneEmptyBlocks_eq]
    exact Passage.remove?_sweep _ g
  have hshortcuts : ∀ j, Passage.emptyBlock.remove? (if bypass
      then g.pruneEmptyBlocks.1.shortcutDecided.1 else g.pruneEmptyBlocks.1) j = none := by
    cases bypass with
    | false => exact hempty
    | true =>
      exact sweep_induction (P := fun k => ∀ j, Passage.emptyBlock.remove? k j = none)
        (fun _ _ _ hk hj => emptyBlock_shortcut hk hj) hempty
  rw [simplify, pruneLiteralBranches_eq]
  refine ⟨?_, Passage.remove?_sweep _ _ j⟩
  apply sweep_induction (P := fun k => Passage.emptyBlock.remove? k j = none) _ (hshortcuts j)
  intro k l i hl hk
  obtain ⟨_, target, _, _, _, rfl⟩ := Passage.remove?_eq_some_iff.1 hl
  exact Passage.remove?_splice (.inr hk) target

end Graph

/-- What it means that a graph and a number came about by taking out the nodes of a passage. -/
structure Passage.Cleared (p : Passage) (g k : Graph) (count : Nat) : Prop where
  /-- Every node of the passage that is left leads to itself. -/
  leads : ∀ i n target, k.node? i = some n → p.through n = some target → target = some i
  /-- All other nodes are left. -/
  keeps : ∀ i n, g.node? i = some n → p.through n = none → k.contains i
  size : k.size + count = g.size
  again : k.sweep p.remove? = (k, 0)

theorem Passage.cleared_sweep (p : Passage) (g : Graph) :
    p.Cleared g (g.sweep p.remove?).1 (g.sweep p.remove?).2 where
  leads i := Passage.remove?_eq_none_iff.1 (p.remove?_sweep g i)
  keeps i n hi hn := by
    obtain ⟨m, hm, _⟩ := Passage.exists_node_sweep hi hn
    rw [Graph.contains, hm]
    rfl
  size := p.size_sweep g
  again := Graph.sweep_eq_self (p.remove?_sweep g)

/-- One removal leaves only blocks without statements, or literal branches, that lead to themselves.
The nodes taken out are counted, and a second removal changes nothing. -/
theorem removals_normalize (g : Graph) :
    ((∀ i next, g.pruneEmptyBlocks.1.node? i = some (.block [] next) → next = some i) ∧
      (∀ i n, g.node? i = some n → (∀ next, n ≠ .block [] next) →
        g.pruneEmptyBlocks.1.contains i) ∧
      g.pruneEmptyBlocks.1.size + g.pruneEmptyBlocks.2 = g.size ∧
      g.pruneEmptyBlocks.1.pruneEmptyBlocks = (g.pruneEmptyBlocks.1, 0)) ∧
    (∀ i l t f, g.pruneLiteralBranches.1.node? i = some (.branch (.ofValue l) t f) →
        (if l.truth then t else f) = some i) ∧
      (∀ i n, g.node? i = some n → (∀ l t f, n ≠ .branch (.ofValue l) t f) →
        g.pruneLiteralBranches.1.contains i) ∧
      g.pruneLiteralBranches.1.size + g.pruneLiteralBranches.2 = g.size ∧
      g.pruneLiteralBranches.1.pruneLiteralBranches = (g.pruneLiteralBranches.1, 0) := by
  have hblocks := Passage.emptyBlock.cleared_sweep g
  have hbranches := Passage.literalBranch.cleared_sweep g
  simp only [Graph.pruneEmptyBlocks_eq, Graph.pruneLiteralBranches_eq]
  refine ⟨⟨?_, ?_, hblocks.size, hblocks.again⟩, ?_, ?_, hbranches.size, hbranches.again⟩
  · intro i next hi
    exact hblocks.leads i _ next hi rfl
  · intro i n hi hn
    exact hblocks.keeps i n hi (Passage.emptyBlock_eq_none hn)
  · intro i l t f hi
    exact hbranches.leads i _ _ hi (Passage.literalBranch_ofValue l t f)
  · intro i n hi hn
    exact hbranches.keeps i n hi (Passage.literalBranch_eq_none hn)

/-- A loop in a loop that never ends. -/
def idleBody : List (Stmt Expr) := [.loop (.bool true) [.loop (.bool true) []]]

theorem removals_normalize_idleBody :
    ∃ g blocks branches, Graph.ofBody idleBody = .ok g ∧
      blocks = g.pruneLiteralBranches.1.pruneEmptyBlocks ∧
      branches = g.pruneEmptyBlocks.1.pruneLiteralBranches ∧
      (blocks.1.node? 5 = some (.block [] (some 5)) ∧ blocks.2 = 4 ∧ blocks.1.size = 2 ∧
        blocks.1.pruneEmptyBlocks = (blocks.1, 0)) ∧
      branches.1.node? 4 = some (.branch (.bool true) (some 4) (some 4)) ∧ branches.2 = 1 ∧
      branches.1.size = 2 ∧ branches.1.pruneLiteralBranches = (branches.1, 0) := by
  obtain ⟨g, hg, hblocks, hbranches⟩ : ∃ g, Graph.ofBody idleBody = .ok g ∧
      (g.pruneLiteralBranches.1.pruneEmptyBlocks.1.node? 5 = some (.block [] (some 5)) ∧
        g.pruneLiteralBranches.1.pruneEmptyBlocks.2 = 4 ∧ g.pruneLiteralBranches.1.size = 6) ∧
      g.pruneEmptyBlocks.1.pruneLiteralBranches.1.node? 4 =
        some (.branch (.bool true) (some 4) (some 4)) ∧
      g.pruneEmptyBlocks.1.pruneLiteralBranches.2 = 1 ∧ g.pruneEmptyBlocks.1.size = 3 :=
    ⟨_, rfl, by decide +kernel, by decide +kernel⟩
  obtain ⟨hnode, hcount, hsize⟩ := hblocks
  obtain ⟨hnode', hcount', hsize'⟩ := hbranches
  obtain ⟨⟨_, _, hleft, hagain⟩, _⟩ := removals_normalize g.pruneLiteralBranches.1
  obtain ⟨_, _, _, hleft', hagain'⟩ := removals_normalize g.pruneEmptyBlocks.1
  exact ⟨g, _, _, hg, rfl, rfl, ⟨hnode, hcount, by omega, hagain⟩, hnode', hcount', by omega,
    hagain'⟩

/-- A second simplification takes nothing out. It changes nothing if and only if it makes no
shortcuts or no block is followed by a branch that it decides. -/
theorem simplify_again (g : Graph) (bypass : Bool) :
    let once := g.simplify bypass
    let shortcuts := if bypass then once.shortcutDecided else (once, 0)
    once.pruneEmptyBlocks = (once, 0) ∧ shortcuts.1.pruneLiteralBranches = (shortcuts.1, 0) ∧
      once.simplify bypass = shortcuts.1 ∧ shortcuts.1.Bypasses once ∧
      (shortcuts = (once, 0) ↔ bypass = false ∨ once.Undecided) := by
  intro once shortcuts
  have hremove := Graph.remove?_simplify bypass g
  have hempty : once.pruneEmptyBlocks = (once, 0) := by
    rw [Graph.pruneEmptyBlocks_eq]
    exact Graph.sweep_eq_self fun j => (hremove j).1
  have hliteral : shortcuts.1.pruneLiteralBranches = (shortcuts.1, 0) := by
    rw [Graph.pruneLiteralBranches_eq]
    exact Graph.sweep_eq_self fun j => once.literalBranch_shortcuts bypass (hremove j).2
  have hagain : once.simplify bypass = shortcuts.1 := by
    rw [Graph.simplify_of_pruneEmptyBlocks hempty bypass]
    change shortcuts.1.pruneLiteralBranches.1 = shortcuts.1
    rw [hliteral]
  refine ⟨hempty, hliteral, hagain, ?_, ?_⟩
  · cases bypass with
    | false => exact .refl once
    | true => exact once.bypasses_shortcutDecided
  · cases bypass with
    | false => exact ⟨fun _ => .inl rfl, fun _ => rfl⟩
    | true =>
      constructor
      · exact fun h => .inr (Graph.shortcutDecided_eq_self_iff.1 h)
      · exact fun h => Graph.shortcutDecided_eq_self_iff.2 (h.resolve_left Bool.noConfusion)

/-- Two branches in a row that the block before them decides. -/
def chainedBody : List (Stmt Expr) :=
  [.loop (.bool true)
    [.assign ["a"] (.int 1),
      .branch (.binary .eq (.var "a") (.int 1))
        [.branch (.binary .gt (.var "a") (.int 0)) [.suspend] [.suspend]] [.suspend]]]

/-- Two branches in a ring that the block before them decides. -/
def ringedBody : List (Stmt Expr) :=
  [.loop (.bool true)
    [.assign ["a"] (.int 1),
      .loop (.binary .eq (.var "a") (.int 1))
        [.branch (.binary .eq (.var "a") (.int 1)) [] [.suspend]],
      .suspend]]

/-- The ring, with the branch at which the block enters it. -/
def ringedGraph (entry : NodeId) : Graph where
  nodes :=
    #[some (.head (some 3)), none, none, some (.block [.assign ["a"] (.int 1)] (some entry)),
      some (.branch (.binary .eq (.var "a") (.int 1)) (some 6) (some 13)), none,
      some (.branch (.binary .eq (.var "a") (.int 1)) (some 4) (some 9)), none, none,
      some (.suspend 1 (some 4)), none, none, none, some (.suspend 2 (some 3)), none, none]
  suspensionCount := 2
  registers := []

/-- A second simplification can make another shortcut, and repeated ones need not come to an end. -/
theorem simplify_not_settled :
    (∃ g, Graph.ofBody chainedBody = .ok g ∧ (g.simplify true).shortcutDecided.2 = 1 ∧
      (g.simplify true).simplify true ≠ g.simplify true) ∧
    (∃ g, Graph.ofBody ringedBody = .ok g ∧ g.simplify true = ringedGraph 6) ∧
      (ringedGraph 6).simplify true = ringedGraph 4 ∧
      (ringedGraph 4).simplify true = ringedGraph 6 :=
  ⟨⟨_, rfl, by decide +kernel, by decide +kernel⟩, ⟨_, rfl, by decide +kernel⟩,
    by decide +kernel, by decide +kernel⟩

end Clockwork
