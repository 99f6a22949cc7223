import Clockwork.Proofs.DecidedBranches
import Clockwork.Proofs.Enumeration

namespace Clockwork
set_option autoImplicit true

variable {g k : Graph} {c : Expr} {l : Value} {out : NodeId}

theorem Expr.reduce_ofValue (table : Substitution) (l : Value) :
    (Expr.ofValue l).reduce table = .ofValue l := by
  cases l <;> rfl

theorem Expr.truth?_ofValue (l : Value) : (Expr.ofValue l).truth? = some l.truth := by
  rw [Expr.truth?, Expr.literal?_ofValue]
  rfl

/-- The condition is true without a value of any variable. -/
def Expr.HoldsAlways (c : Expr) : Prop :=
  (c.eval .empty).map Value.truth = some true

theorem Expr.holdsAlways_ofValue : (Expr.ofValue l).HoldsAlways ↔ l.truth = true := by
  rw [HoldsAlways, Expr.eval_ofValue, Option.map_some, Option.some.injEq]

theorem Expr.HoldsAlways.eval (hc : c.HoldsAlways) (env : Env) :
    ∃ v, c.eval env = some v ∧ v.truth = true := by
  obtain ⟨v, hv, htruth⟩ := Option.map_eq_some_iff.1 hc
  have hbound (x : String) (w : Value) (hx : Env.empty x = some w) : env x = some w := by
    cases hx
  exact ⟨v, Expr.eval_mono hbound hv, htruth⟩

theorem Expr.HoldsAlways.truth?_reduce (hc : c.HoldsAlways) (table : Substitution) :
    (c.reduce table).truth? = some true := by
  obtain ⟨v, hv, htruth⟩ := Option.map_eq_some_iff.1 hc
  have hbound (x : String) (w : Value) (hx : Env.empty x = some w) :
      table.get? x = some (.ofValue w) := by
    cases hx
  rw [Expr.reduce_of_eval hbound hv, Expr.truth?_ofValue, htruth]

namespace Graph

/-- The branch that tests the condition of the main loop. -/
def mainTest : NodeId := 2

/-- The edge leaves the process, perhaps over the block behind the main loop. -/
def Leaves (out : NodeId) (edge : Option NodeId) : Prop :=
  edge = none ∨ edge = some out

theorem redirect_some (h : i ≠ j) (target : Option NodeId) :
    redirect i target (some j) = some j :=
  if_neg fun he => h (Option.some.inj he).symm

theorem not_leaves_redirect (htarget : i ≠ out → ¬ Leaves out target)
    (h : ¬ Leaves out next) : ¬ Leaves out (redirect i target next) := by
  unfold redirect
  split
  · next hi =>
    apply htarget
    rintro rfl
    exact h (.inr hi)
  · exact h

/-- Only the false edge of the main test with its condition `c` leaves the process. -/
structure Enclosed (out : NodeId) (c : Expr) (g : Graph) : Prop where
  exit : ∀ n, g.node? out = some n → n = .block [] none
  test : ∀ n, g.node? mainTest = some n → ∃ t f, n = .branch c t f ∧ ¬ Leaves out t
  inner : ∀ i n, g.node? i = some n → i ≠ out → i ≠ mainTest →
    ∀ edge ∈ n.targets, ¬ Leaves out edge

theorem Enclosed.splice (hg : g.Enclosed out c) (htarget : i ≠ out → ¬ Leaves out target) :
    (g.splice i target).Enclosed out c where
  exit n hn := by
    rw [node?_splice] at hn
    split at hn
    · cases hn
    · obtain ⟨m, hm, rfl⟩ := Option.map_eq_some_iff.1 hn
      rw [hg.exit m hm]
      rfl
  test n hn := by
    rw [node?_splice] at hn
    split at hn
    · cases hn
    · obtain ⟨m, hm, rfl⟩ := Option.map_eq_some_iff.1 hn
      obtain ⟨t, f, rfl, ht⟩ := hg.test m hm
      exact ⟨_, _, rfl, not_leaves_redirect htarget ht⟩
  inner j n hn hout htest edge hedge := by
    rw [node?_splice] at hn
    split at hn
    · cases hn
    · obtain ⟨m, hm, rfl⟩ := Option.map_eq_some_iff.1 hn
      rw [Node.targets_mapEdges] at hedge
      obtain ⟨next, hnext, rfl⟩ := List.mem_map.1 hedge
      exact not_leaves_redirect htarget (hg.inner j m hm hout htest next hnext)

theorem Enclosed.ne_mainTest (hg : g.Enclosed out c) (hi : g.node? i = some n)
    (hn : ∀ c t f, n ≠ .branch c t f) : i ≠ mainTest := by
  rintro rfl
  obtain ⟨t, f, hbranch, _⟩ := hg.test n hi
  exact hn _ t f hbranch

theorem Enclosed.skip (hg : g.Enclosed out c) (hi : g.node? i = some (.block ss (some b)))
    (htarget : ¬ Leaves out target) : (g.modify i (Node.withNext target)).Enclosed out c := by
  have hout : i ≠ out := by
    rintro rfl
    cases hg.exit _ hi
  have htest : i ≠ mainTest := hg.ne_mainTest hi nofun
  refine ⟨?_, ?_, ?_⟩
  · intro n hn
    rw [node?_modify, if_neg hout] at hn
    exact hg.exit n hn
  · intro n hn
    rw [node?_modify, if_neg htest] at hn
    exact hg.test n hn
  · intro j n hn hj hj' edge hedge
    rw [node?_modify] at hn
    split at hn
    · next he =>
      subst he
      rw [hi] at hn
      cases hn
      cases List.mem_singleton.1 hedge
      exact htarget
    · exact hg.inner j n hn hj hj' edge hedge

/-- The edge that a branch with a known condition takes stays inside. -/
theorem Enclosed.decided {taken : Bool} (hg : g.Enclosed out c)
    (hb : g.node? b = some (.branch d t f)) (htaken : d = c → taken = true) :
    ¬ Leaves out (if taken then t else f) := by
  by_cases htest : b = mainTest
  · subst htest
    obtain ⟨_, _, hbranch, ht⟩ := hg.test _ hb
    cases hbranch
    rw [htaken rfl]
    exact ht
  · apply hg.inner b _ hb _ htest _ (mem_pair_ite taken t f)
    rintro rfl
    cases hg.exit _ hb

theorem Enclosed.change {p : Pass} (hc : c.HoldsAlways) (h : p.change? g i = some k)
    (hg : g.Enclosed out c) : k.Enclosed out c := by
  cases p with
  | emptyBlocks =>
    obtain ⟨target, hi, _, rfl⟩ := withoutEmptyBlock?_eq_some h
    apply hg.splice
    intro hout
    exact hg.inner i _ hi hout (hg.ne_mainTest hi nofun) target List.mem_cons_self
  | shortcuts =>
    obtain ⟨ss, b, d, t, f, taken, hi, hb, htaken, rfl⟩ := withShortcut?_eq_some h
    apply hg.skip hi
    apply hg.decided hb
    intro he
    rw [he, hc.truth?_reduce] at htaken
    exact (Option.some.inj htaken).symm
  | literalBranches =>
    obtain ⟨l, t, f, target, hi, rfl, _, rfl⟩ := withoutLiteralBranch?_eq_some h
    apply hg.splice
    intro _
    apply hg.decided hi
    intro he
    exact Expr.holdsAlways_ofValue.1 (he ▸ hc)

/-- The main test is gone or leads to itself. -/
def TestCloses (g : Graph) : Prop :=
  ∀ n, g.node? mainTest = some n → ∃ c f, n = .branch c (some mainTest) f

theorem TestCloses.splice (hg : g.TestCloses) (i : NodeId) (target : Option NodeId) :
    (g.splice i target).TestCloses := by
  intro n hn
  rw [node?_splice] at hn
  split at hn
  · cases hn
  · next hi =>
    obtain ⟨m, hm, rfl⟩ := Option.map_eq_some_iff.1 hn
    obtain ⟨c, f, rfl⟩ := hg m hm
    exact ⟨c, redirect i target f, by rw [Node.mapEdges, redirect_some hi]⟩

theorem Enclosed.closes_of_unchanged (hg : g.Enclosed out (.ofValue l)) (hl : l.truth = true)
    (h : g.withoutLiteralBranch? mainTest = none) : g.TestCloses := by
  intro n hn
  obtain ⟨t, f, rfl, _⟩ := hg.test n hn
  simp only [withoutLiteralBranch?, hn, Expr.truth?_ofValue, hl, Option.bind_some, if_true] at h
  by_cases ht : t = some mainTest
  · exact ⟨_, f, by rw [ht]⟩
  · simp [ht] at h

theorem Enclosed.pruneLiteralBranches (hg : g.Enclosed out (.ofValue l)) (hl : l.truth = true) :
    g.pruneLiteralBranches.1.TestCloses := by
  cases htest : g.node? mainTest with
  | none =>
    apply sweep_induction (P := TestCloses)
    · intro h k i hk hh
      obtain ⟨_, _, _, target, _, _, _, rfl⟩ := withoutLiteralBranch?_eq_some hk
      exact hh.splice i target
    · intro n hn
      rw [htest] at hn
      cases hn
  | some n =>
    apply sweep_reaches (P := Enclosed out (.ofValue l)) (Q := TestCloses) _ _ _ _
      (lt_size_of_node? htest) hg
    · intro h k i hk hh
      exact hh.change (p := .literalBranches) (Expr.holdsAlways_ofValue.2 hl) hk
    · intro h k i hk _ hclosed
      obtain ⟨_, _, _, target, _, _, _, rfl⟩ := withoutLiteralBranch?_eq_some hk
      exact hclosed.splice i target
    · intro h hh hunchanged
      exact hh.closes_of_unchanged hl hunchanged
    · intro h k hh hk
      obtain ⟨_, _, _, target, _, _, _, rfl⟩ := withoutLiteralBranch?_eq_some hk
      intro n hn
      rw [node?_splice, if_pos rfl] at hn
      cases hn

/-- A walk that can only go round the main test never comes to its end. -/
theorem suffixes_mainTest (h : g.node? mainTest = some (.branch c (some mainTest) f))
    (depth : Nat) : g.suffixes depth (some mainTest) = .error .tooLong := by
  induction depth with
  | zero => rfl
  | succ depth ih =>
    simp only [suffixes, Option.bind_some, h, ih]
    rfl

/-- The only obstacle for a walk inside the main loop is its length. -/
theorem Enclosed.suffixes_eq_error (hg : g.Enclosed out c) (hsound : g.Sound)
    (hcloses : g.TestCloses) (hedge : ¬ Leaves out edge)
    (hnode : ∀ j, edge = some j → ∃ m, g.node? j = some m ∧ ¬ m.IsHead)
    (h : g.suffixes depth edge = .error obstacle) : obstacle = .tooLong := by
  induction depth generalizing edge with
  | zero =>
    cases h
    rfl
  | succ depth ih =>
    cases edge with
    | none => exact (hedge (.inl rfl)).elim
    | some i =>
      have hout : i ≠ out := fun he => hedge (.inr (congrArg some he))
      obtain ⟨m, hi, hm⟩ := hnode i rfl
      by_cases htest : i = mainTest
      · -- The false edge of the test is the way out, but the walk never gets round to it.
        subst htest
        obtain ⟨c, f, rfl⟩ := hcloses m hi
        rw [suffixes_mainTest hi] at h
        cases h
        rfl
      · rcases suffixes_succ_eq_error h with ⟨hnone, _⟩ | ⟨next, hhead, _⟩ | ⟨n, next, hn, h⟩
        · cases hi.symm.trans hnone
        · cases hi.symm.trans hhead
          exact (hm trivial).elim
        · obtain ⟨_, m', he, hi', hnext⟩ := hn.source
          cases he
          exact ih (hg.inner i m' hi' hout htest next hnext)
            (fun j hj => hsound.leads i m' j hi' (hj ▸ hnext)) h

theorem paths_eq_error (h : g.paths depth = .error e) :
    ∃ s i obstacle, (s, i) ∈ g.starts ∧
      g.suffixes depth ((g.node? i).bind Node.next?) = .error obstacle ∧
      e = obstacle.toProcessError s depth := by
  rcases Except.bind_eq_error h with h | ⟨_, _, h⟩
  · obtain ⟨⟨s, i⟩, hi, h⟩ := Except.exists_of_mapM_eq_error h
    rcases Except.bind_eq_error h with h | ⟨_, _, h⟩
    · cases hsuffixes : g.suffixes depth ((g.node? i).bind Node.next?) with
      | ok routes =>
        rw [hsuffixes] at h
        cases h
      | error obstacle =>
        rw [hsuffixes] at h
        cases h
        exact ⟨s, i, obstacle, hi, hsuffixes, rfl⟩
    · cases h
  · cases h

/-- Neither the head nor a suspension leads out of the main loop. -/
theorem Enclosed.exit_inside (hg : g.Enclosed out c) (h : g.Exit s edge) : ¬ Leaves out edge := by
  cases h with
  | head hi =>
    apply hg.inner _ _ hi _ (hg.ne_mainTest hi nofun) _ List.mem_cons_self
    rintro rfl
    cases hg.exit _ hi
  | suspension hi =>
    apply hg.inner _ _ hi _ (hg.ne_mainTest hi nofun) _ List.mem_cons_self
    rintro rfl
    cases hg.exit _ hi

theorem Enclosed.paths_eq_error (hg : g.Enclosed out c) (hsound : g.Sound)
    (hcloses : g.TestCloses) (h : g.paths depth = .error e) : ∃ s, e = .pathTooLong s depth := by
  obtain ⟨s, i, obstacle, hi, hsuffixes, rfl⟩ := Graph.paths_eq_error h
  have hexit := hsound.exit_iff.2 ⟨i, hi, rfl⟩
  have hlong := hg.suffixes_eq_error hsound hcloses (hg.exit_inside hexit)
    (hsound.exit_target hexit) hsuffixes
  exact ⟨s, by rw [hlong]; rfl⟩

end Graph

/-- The graph of a main loop: head, entry and test come first, the block behind the loop last. -/
theorem Draft.mainLoop_nodes (h : (Draft.start registers).addStmt (.loop c ss) = .ok d) :
    ∃ out, d.graph.node? 0 = some (.head (some 1)) ∧
      d.graph.node? 1 = some (.block [] (some Graph.mainTest)) ∧
      d.graph.node? Graph.mainTest = some (.branch c (some 3) (some out)) ∧
      d.graph.node? out = some (.block [] none) ∧ 3 < out ∧
      ∀ i n, d.graph.node? i = some n → i ≠ out → i ≠ Graph.mainTest →
        ∀ edge ∈ n.targets, ¬ Graph.Leaves out edge := by
  rw [Draft.addStmt] at h
  obtain ⟨d₂, h₂, h⟩ := Except.bind_eq_ok h
  cases h
  have hentry : (start registers : Draft).graph.node? (start registers : Draft).current =
      some (.block [] none) := rfl
  obtain ⟨hd₁, hg₁⟩ := (sound_start registers).startBranch c
  obtain ⟨hg₂, _, ts, hd₂, _⟩ := hd₁.addStmts ss h₂
  have hc₂ := hd₂.listed _ _ List.mem_cons_self
  have hb : d₂.graph.node? Graph.mainTest = some (.branch c (some 3) none) :=
    hd₂.listed _ _ (List.mem_cons_of_mem _ List.mem_cons_self)
  have htest : Graph.mainTest < d₂.fresh := Graph.lt_size_of_node? hb
  have hthree : 3 < d₂.fresh := ((hd₂.fits _ _ hb).targets 3 List.mem_cons_self).2
  obtain ⟨hd₃, hg₃⟩ := hd₂.connect_startFalse ⟨Nat.two_pos, Nat.le_of_lt htest⟩
  obtain ⟨hbranch, _⟩ := node?_connect_startFalse hc₂ hb Graph.mainTest
  have hedits := edits_connect_startFalse hc₂ hb Graph.mainTest
  refine ⟨d₂.fresh, ?_, ?_, hbranch, hedits.change (by simp [entryOf?]), hthree, ?_⟩
  · have hhead : (start registers : Draft).graph.node? 0 = some (.head (some 1)) := rfl
    apply ((hg₁.trans hg₂).trans hg₃).keep hhead
    intro hn
    cases List.mem_singleton.1 hn
  · apply (hg₂.trans hg₃).keep (node?_startBranch hentry c)
    intro hn
    cases List.mem_singleton.1 hn
  · intro i n hi hout hmain edge hedge hleaves
    rcases hedits.node_cases hi with hmem | ⟨hkeys, hi⟩
    · simp only [List.mem_cons, Prod.mk.injEq, List.not_mem_nil, or_false] at hmem
      rcases hmem with ⟨rfl, _⟩ | ⟨rfl, _⟩ | ⟨_, rfl⟩
      · exact hout rfl
      · exact hmain rfl
      · cases List.mem_singleton.1 hedge
        rcases hleaves with hnone | hsome
        · cases hnone
        · exact Nat.ne_of_lt htest (Option.some.inj hsome)
    · rcases hleaves with rfl | rfl
      · have hloose := (hd₂.fits i n hi).complete hedge
        simp only [List.map_cons, List.map_nil, List.mem_cons, List.not_mem_nil, or_false]
          at hloose hkeys
        exact hloose.elim (fun he => hkeys (.inr (.inr he))) hmain
      · exact Nat.lt_irrefl _ ((hd₂.fits i n hi).targets _ hedge).2

namespace Graph

theorem enclosed_of_nodes (htest : g.node? mainTest = some (.branch c (some t) (some out)))
    (hout : g.node? out = some (.block [] none)) (hne : t ≠ out)
    (hinner : ∀ i n, g.node? i = some n → i ≠ out → i ≠ mainTest →
      ∀ edge ∈ n.targets, ¬ Leaves out edge) : g.Enclosed out c where
  exit n hn := by
    rw [hout] at hn
    exact (Option.some.inj hn).symm
  test n hn := by
    rw [htest] at hn
    cases hn
    have hstays : ¬ Leaves out (some t) := by
      rintro (hnone | hsome)
      · cases hnone
      · exact hne (Option.some.inj hsome)
    exact ⟨some t, some out, rfl, hstays⟩
  inner := hinner

theorem enclosed_mainLoop {registers : List (String × Nat)}
    (h : (Draft.start registers).addStmt (.loop c ss) = .ok d) :
    ∃ out, d.graph.Enclosed out c := by
  obtain ⟨out, _, _, htest, hout, hlt, hinner⟩ := Draft.mainLoop_nodes h
  exact ⟨out, enclosed_of_nodes htest hout (Nat.ne_of_lt hlt) hinner⟩

theorem Enclosed.simplify (hg : g.Enclosed out (.ofValue l)) (hl : l.truth = true)
    (bypass : Bool) :
    (g.simplify bypass).Enclosed out (.ofValue l) ∧ (g.simplify bypass).TestCloses := by
  have hpass {g : Graph} (p : Pass) (hg : g.Enclosed out (.ofValue l)) :
      (p.apply g).Enclosed out (.ofValue l) := by
    rw [p.apply_eq_sweep]
    exact sweep_induction (fun _ _ _ hk hh => hh.change (Expr.holdsAlways_ofValue.2 hl) hk) hg
  have hempty := hpass .emptyBlocks hg
  cases bypass with
  | false => exact ⟨hpass .literalBranches hempty, hempty.pruneLiteralBranches hl⟩
  | true =>
    have hshort := hpass .shortcuts hempty
    exact ⟨hpass .literalBranches hshort, hshort.pruneLiteralBranches hl⟩

/-- The false edge of the main test leads out of the process. -/
def TestOpen (out : NodeId) (c : Expr) (g : Graph) : Prop :=
  ∃ t f, g.node? mainTest = some (.branch c t f) ∧
    (f = none ∨ f = some out ∧ g.node? out = some (.block [] none))

theorem TestOpen.splice (hg : g.TestOpen out c) (hi : i ≠ mainTest)
    (hout : g.node? out = some (.block [] none) → i = out → target = none) :
    (g.splice i target).TestOpen out c := by
  obtain ⟨t, f, htest, hf⟩ := hg
  refine ⟨redirect i target t, redirect i target f, by rw [node?_splice, if_neg hi, htest]; rfl, ?_⟩
  rcases hf with rfl | ⟨rfl, hexit⟩
  · exact .inl rfl
  · by_cases he : i = out
    · subst he
      rw [hout hexit rfl]
      exact .inl (if_pos rfl)
    · refine .inr ⟨redirect_some he target, ?_⟩
      rw [node?_splice, if_neg he, hexit]
      rfl

theorem TestOpen.ne_block (hg : g.TestOpen out c) (hi : g.node? i = some (.block ss next)) :
    i ≠ mainTest := by
  obtain ⟨t, f, htest, _⟩ := hg
  rintro rfl
  rw [htest] at hi
  cases hi

theorem TestOpen.skip (hg : g.TestOpen out c) (hi : g.node? i = some (.block ss (some b)))
    (target : Option NodeId) : (g.modify i (Node.withNext target)).TestOpen out c := by
  have hmain : i ≠ mainTest := hg.ne_block hi
  obtain ⟨t, f, htest, hf⟩ := hg
  refine ⟨t, f, by rw [node?_modify, if_neg hmain, htest], hf.imp id ?_⟩
  rintro ⟨hfalse, hexit⟩
  have hout : i ≠ out := by
    rintro rfl
    rw [hexit] at hi
    cases hi
  exact ⟨hfalse, by rw [node?_modify, if_neg hout, hexit]⟩

theorem TestOpen.ne_literal (hg : g.TestOpen out c) (hc : c.literal? = none)
    (hi : g.node? i = some (.branch (.ofValue l) t f)) : i ≠ mainTest := by
  obtain ⟨t, f, htest, _⟩ := hg
  rintro rfl
  rw [htest] at hi
  cases hi
  rw [Expr.literal?_ofValue] at hc
  cases hc

theorem TestOpen.change {p : Pass} (hc : c.literal? = none) (h : p.change? g i = some k)
    (hg : g.TestOpen out c) : k.TestOpen out c := by
  cases p with
  | emptyBlocks =>
    obtain ⟨target, hi, _, rfl⟩ := withoutEmptyBlock?_eq_some h
    apply hg.splice (hg.ne_block hi)
    rintro hexit rfl
    rw [hexit] at hi
    cases hi
    rfl
  | shortcuts =>
    obtain ⟨_, _, _, _, _, _, hi, _, _, rfl⟩ := withShortcut?_eq_some h
    exact hg.skip hi _
  | literalBranches =>
    obtain ⟨_, _, _, _, hi, _, _, rfl⟩ := withoutLiteralBranch?_eq_some h
    apply hg.splice (hg.ne_literal hc hi)
    rintro hexit rfl
    rw [hexit] at hi
    cases hi

/-- The process enters its main loop at the test. -/
def EntersTest (g : Graph) : Prop :=
  g.node? 0 = some (.head (some mainTest))

theorem EntersTest.splice (hg : g.EntersTest) (hi : g.node? i = some n) (hn : ¬ n.IsHead)
    (hmain : i ≠ mainTest) (target : Option NodeId) : (g.splice i target).EntersTest := by
  have hzero : i ≠ 0 := by
    rintro rfl
    rw [hg] at hi
    cases hi
    exact hn trivial
  rw [EntersTest, node?_splice, if_neg hzero, hg]
  exact congrArg (fun next => some (Node.head next)) (redirect_some hmain target)

theorem EntersTest.change {p : Pass} (hc : c.literal? = none) (h : p.change? g i = some k)
    (hopen : g.TestOpen out c) (hg : g.EntersTest) : k.EntersTest := by
  cases p with
  | emptyBlocks =>
    obtain ⟨target, hi, _, rfl⟩ := withoutEmptyBlock?_eq_some h
    exact hg.splice hi nofun (hopen.ne_block hi) target
  | shortcuts =>
    obtain ⟨_, _, _, _, _, _, hi, _, _, rfl⟩ := withShortcut?_eq_some h
    have hzero : i ≠ 0 := by
      rintro rfl
      rw [hg] at hi
      cases hi
    rw [EntersTest, node?_modify, if_neg hzero, hg]
  | literalBranches =>
    obtain ⟨_, _, _, target, hi, _, _, rfl⟩ := withoutLiteralBranch?_eq_some h
    exact hg.splice hi nofun (hopen.ne_literal hc hi) target

/-- The head leads to the main test, perhaps over an empty block. -/
def NearsTest (g : Graph) : Prop :=
  g.EntersTest ∨
    g.node? 0 = some (.head (some 1)) ∧ g.node? 1 = some (.block [] (some mainTest))

theorem NearsTest.change (hc : c.literal? = none) (h : g.withoutEmptyBlock? i = some k)
    (hopen : g.TestOpen out c) (hg : g.NearsTest) : k.NearsTest := by
  rcases hg with henters | ⟨hhead, hentry⟩
  · exact .inl (henters.change (p := .emptyBlocks) hc h hopen)
  · obtain ⟨target, hi, _, rfl⟩ := withoutEmptyBlock?_eq_some h
    have hmain : i ≠ mainTest := hopen.ne_block hi
    have hzero : i ≠ 0 := by
      rintro rfl
      rw [hhead] at hi
      cases hi
    by_cases hone : i = 1
    · subst hone
      rw [hentry] at hi
      cases hi
      left
      rw [EntersTest, node?_splice, if_neg hzero, hhead]
      rfl
    · right
      rw [node?_splice, if_neg hzero, hhead, node?_splice, if_neg hone, hentry]
      constructor
      · exact congrArg (fun next => some (Node.head next)) (redirect_some hone target)
      · exact congrArg (fun next => some (Node.block [] next)) (redirect_some hmain target)

/-- Once empty blocks have been pruned, the head leads straight to the main test. -/
theorem NearsTest.pruneEmptyBlocks (hc : c.literal? = none) (hopen : g.TestOpen out c)
    (hg : g.NearsTest) : g.pruneEmptyBlocks.1.EntersTest := by
  have hsize : 1 < g.nodes.size := by
    obtain ⟨t, f, htest, _⟩ := hopen
    exact Nat.lt_of_succ_lt (lt_size_of_node? htest)
  -- The sweep comes to node 1, the entry of the loop, and after that the entry is gone for good.
  apply sweep_reaches (P := fun g => g.TestOpen out c ∧ g.NearsTest) (Q := EntersTest) _ _ _ _
    hsize ⟨hopen, hg⟩
  · rintro g k i hk ⟨hopen, hnears⟩
    exact ⟨hopen.change (p := .emptyBlocks) hc hk, hnears.change hc hk hopen⟩
  · rintro g k i hk ⟨hopen, _⟩ henters
    exact henters.change (p := .emptyBlocks) hc hk hopen
  · rintro g ⟨_, henters | ⟨_, hentry⟩⟩ hnone
    · exact henters
    · simp [withoutEmptyBlock?, hentry, mainTest] at hnone
  · rintro g k ⟨hopen, hnears⟩ hk
    rcases hnears.change hc hk hopen with henters | ⟨_, hentry⟩
    · exact henters
    · obtain ⟨target, _, _, rfl⟩ := withoutEmptyBlock?_eq_some hk
      rw [node?_splice, if_pos rfl] at hentry
      cases hentry

theorem NearsTest.simplify (hc : c.literal? = none) (hopen : g.TestOpen out c)
    (hg : g.NearsTest) (bypass : Bool) :
    (g.simplify bypass).EntersTest ∧ (g.simplify bypass).TestOpen out c := by
  have hpass {g : Graph} (p : Pass) (hg : g.EntersTest ∧ g.TestOpen out c) :
      (p.apply g).EntersTest ∧ (p.apply g).TestOpen out c := by
    rw [p.apply_eq_sweep]
    apply sweep_induction (P := fun g => g.EntersTest ∧ g.TestOpen out c) _ hg
    rintro g k i hk ⟨henters, hopen⟩
    exact ⟨henters.change hc hk hopen, hopen.change hc hk⟩
  have hempty : g.pruneEmptyBlocks.1.TestOpen out c :=
    sweep_induction (fun _ _ _ hk hh => hh.change (p := .emptyBlocks) hc hk) hopen
  have hfirst := And.intro (hg.pruneEmptyBlocks hc hopen) hempty
  cases bypass with
  | false => exact hpass .literalBranches hfirst
  | true => exact hpass .literalBranches (hpass .shortcuts hfirst)

theorem TestOpen.paths_ne_ok (hopen : g.TestOpen out c) (henters : g.EntersTest)
    (hsound : g.Sound) (depth : Nat) (ps : List Path) : g.paths depth ≠ .ok ps := by
  intro h
  have hsettles := (hsound.paths_isOk_iff depth).1 ⟨ps, h⟩ .head (some mainTest) (.head henters)
  obtain ⟨t, f, htest, rfl | ⟨rfl, hexit⟩⟩ := hopen
  · exact (hsettles [.branch c false] none (.cons (.onFalse htest) (.nil none))).2 rfl
  · exact (hsettles [.branch c false, .block []] none
      (.cons (.onFalse htest) (.cons (.block hexit) (.nil none)))).2 rfl

end Graph

/-- Without a collision the compilation of an accepted process depends on its paths. -/
theorem ClockedProcess.compile_eq {p : ClockedProcess Expr} {f : Flow} (hflow : p.flow = .ok f)
    (hport : p.isPort options.stateVar = false)
    (hregister : options.stateVar ∉ f.registers.map Prod.fst) :
    p.compile options = do
      let paths ← (f.graph.simplify options.bypass).paths options.maxPathDepth
      return (f.simplify options.bypass).machine p options.stateVar paths := by
  have hsimplified : p.simplifiedFlow options = .ok (f.simplify options.bypass) := by
    simp only [simplifiedFlow, hflow, hport, hregister, bind, Except.bind]
    rfl
  rw [compile, hsimplified]
  rfl

/-- With a literal condition of its main loop, an accepted process has a machine or a path that is
too long. With one that is only known after evaluation it never has a machine. -/
theorem compile_mainLoop {p : ClockedProcess Expr} {expansion : Expansion} {g : Graph}
    (hexpand : p.expandWaits = .ok expansion) (hbuild : Graph.ofBody expansion.body = .ok g)
    (hloop : expansion.body.getLast? = some (.loop c ss)) (options : Options)
    (hport : p.isPort options.stateVar = false)
    (hregister : options.stateVar ∉ (Flow.mk g expansion.counters).registers.map Prod.fst) :
    (c.literal?.isSome → ∀ e, p.compile options = .error e → e.kind = .infiniteGraph) ∧
    (c.literal? = none → ∀ m, p.compile options ≠ .ok m) := by
  have hflow : p.flow = .ok ⟨g, expansion.counters⟩ := by
    rw [ClockedProcess.flow, hexpand]
    simp only [bind, Except.bind, hbuild]
    rfl
  rw [ClockedProcess.compile_eq hflow hport hregister]
  have hsound := (Graph.sound_ofBody hbuild).afterPasses
    (if options.bypass then [.emptyBlocks, .shortcuts, .literalBranches]
      else [.emptyBlocks, .literalBranches])
  rw [← Graph.simplify_eq_afterPasses] at hsound
  obtain ⟨preamble, c', ss', registers, d, hbody, htrue, _, hd, rfl⟩ := Graph.ofBody_eq_ok hbuild
  rw [hbody, List.getLast?_concat] at hloop
  cases hloop
  constructor
  · intro hliteral e he
    obtain ⟨l, hl⟩ := Option.isSome_iff_exists.1 hliteral
    cases Expr.eq_ofValue_of_literal? hl
    have htruth : l.truth = true := by
      rw [Expr.eval_ofValue] at htrue
      exact Option.some.inj htrue
    obtain ⟨out, henclosed⟩ := Graph.enclosed_mainLoop hd
    obtain ⟨hsimple, hcloses⟩ := henclosed.simplify htruth options.bypass
    rcases Except.bind_eq_error he with he | ⟨_, _, he⟩
    · obtain ⟨s, rfl⟩ := hsimple.paths_eq_error hsound hcloses he
      rfl
    · cases he
  · intro hliteral m hm
    obtain ⟨paths, hpaths, _⟩ := Except.bind_eq_ok hm
    obtain ⟨out, hhead, hentry, htest, hout, _, _⟩ := Draft.mainLoop_nodes hd
    have hopen : d.graph.TestOpen out c := ⟨_, _, htest, .inr ⟨rfl, hout⟩⟩
    have hnears : d.graph.NearsTest := .inr ⟨hhead, hentry⟩
    obtain ⟨henters, hopen⟩ := hnears.simplify hliteral hopen options.bypass
    exact hopen.paths_ne_ok henters hsound _ paths hpaths

/-- A process that waits once in each round. -/
def roundProcess (c : Expr) : ClockedProcess Expr := ⟨"rounds", .empty, [.loop c [.suspend]]⟩

theorem compile_mainLoop_roundProcess :
    (∃ m, (roundProcess (.bool true)).compile .default = .ok m ∧ m.transitions.length = 2) ∧
    (∃ e, (roundProcess (.bool true)).compile ⟨"state", 0, true⟩ = .error e ∧
      e.kind = .infiniteGraph) ∧
    ∀ m, (roundProcess (.binary .eq (.int 1) (.int 1))).compile .default ≠ .ok m := by
  have hexpand (c : Expr) :
      (roundProcess c).expandWaits = .ok ⟨[.loop c [.suspend]], []⟩ := rfl
  have hbuild : Graph.ofBody [.loop (.bool true) [.suspend]] = .ok _ := rfl
  have hbuild' : Graph.ofBody [.loop (.binary .eq (.int 1) (.int 1)) [.suspend]] = .ok _ := rfl
  have hcompile : ((roundProcess (.bool true)).compile .default).toOption.map
      (fun m => m.transitions.length) = some 2 := by
    decide +kernel
  obtain ⟨m, hm, hlength⟩ := Option.map_eq_some_iff.1 hcompile
  rw [Except.toOption_eq_some] at hm
  have hfails : (roundProcess (.bool true)).compile ⟨"state", 0, true⟩ = .error _ := rfl
  refine ⟨⟨m, hm, hlength⟩, ⟨_, hfails, ?_⟩, ?_⟩
  · exact (compile_mainLoop (hexpand _) hbuild rfl ⟨"state", 0, true⟩ rfl
      List.not_mem_nil).1 rfl _ hfails
  · exact (compile_mainLoop (hexpand _) hbuild' rfl .default rfl List.not_mem_nil).2 rfl

/-- A condition that is true without being a literal passes as that of an endless loop, and then the
end of the process counts as reachable. -/
theorem compile_refuses_endless_loop :
    (∃ f, (roundProcess (.binary .eq (.int 1) (.int 1))).flow = .ok f) ∧
      (roundProcess (.binary .eq (.int 1) (.int 1))).compile .default =
        .error (.endReached .head) ∧
      (ProcessError.endReached .head).kind = .structural := by
  have hfails : (match (roundProcess (.binary .eq (.int 1) (.int 1))).compile .default with
      | .ok _ => none
      | .error e => some e) = some (ProcessError.endReached .head) := by
    decide +kernel
  cases hcompile : (roundProcess (.binary .eq (.int 1) (.int 1))).compile .default with
  | ok m =>
    rw [hcompile] at hfails
    cases hfails
  | error e =>
    rw [hcompile] at hfails
    cases hfails
    exact ⟨⟨_, rfl⟩, rfl, rfl⟩

end Clockwork
