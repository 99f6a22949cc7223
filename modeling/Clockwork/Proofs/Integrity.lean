import Clockwork.Proofs.MainLoop
import Clockwork.Proofs.Simplification
import Mathlib.Data.List.Sort

namespace Clockwork
set_option autoImplicit true

variable {g k : Graph} {c : Expr} {out : NodeId} {id : Nat}

theorem Stmt.listSuspensions_declared {preamble : List (Stmt Expr)}
    (hpreamble : ∀ s ∈ preamble, ∃ x w, s = .register x w) (body : List (Stmt Expr)) :
    Stmt.listSuspensions (preamble ++ body) = Stmt.listSuspensions body := by
  induction preamble with
  | nil => rfl
  | cons s preamble ih =>
    obtain ⟨⟨x, w, rfl⟩, hrest⟩ := List.forall_mem_cons.1 hpreamble
    exact (Nat.zero_add _).trans (ih hrest)

theorem Stmt.suspensions_of_straight {s : Stmt Expr} (hs : s.isStraight) : s.suspensions = 0 := by
  cases s with
  | assign => rfl
  | update => rfl
  | expr => rfl
  | register => cases hs
  | branch => cases hs
  | loop => cases hs
  | suspend => cases hs
  | wait => cases hs

namespace Graph

theorem LaysList.declared (hpreamble : ∀ s ∈ preamble, ∃ x w, s = Stmt.register x w)
    (h : g.LaysList n body p q) : g.LaysList n (preamble ++ body) p q := by
  induction preamble with
  | nil => exact h
  | cons s preamble ih =>
    obtain ⟨⟨x, w, rfl⟩, hrest⟩ := List.forall_mem_cons.1 hpreamble
    exact .cons .register (ih hrest)

/-- A loop ends where the false edge of its test leads. -/
theorem Lays.end_of_loop (h : g.Lays n (.loop c body) p q) :
    ∃ b t f, g.Ends p (some b) ∧ g.node? b = some (.branch c (some t) (some f)) ∧
      q = .start f := by
  cases h with
  | straight hs => cases hs
  | loop hp hb _ _ => exact ⟨_, _, _, hp, hb, rfl⟩

mutual

/-- The numbers of the suspensions in a statement are ids of suspensions of the graph. -/
theorem Lays.exists_suspend {g : Graph} {n id : Nat} {p q : Place} (s : Stmt Expr)
    (h : g.Lays n s p q) (hlt : n < id) (hle : id ≤ n + s.suspensions) :
    ∃ i next, g.node? i = some (.suspend id next) := by
  match s, h with
  | _, .register => exact (Nat.not_le_of_lt hlt hle).elim
  | _, .straight hs _ =>
    rw [Stmt.suspensions_of_straight hs] at hle
    exact (Nat.not_le_of_lt hlt hle).elim
  | _, .suspend _ hi =>
    have hid : id = n + 1 := Nat.le_antisymm hle hlt
    exact ⟨_, _, hid ▸ hi⟩
  | .loop _ body, .loop _ _ hbody _ => exact LaysList.exists_suspend body hbody hlt hle
  | .branch _ ts es, .branch _ _ hts _ hes _ =>
    by_cases hts' : id ≤ n + Stmt.listSuspensions ts
    · exact LaysList.exists_suspend ts hts hlt hts'
    · rw [Stmt.suspensions, ← Nat.add_assoc] at hle
      exact LaysList.exists_suspend es hes (Nat.lt_of_not_le hts') hle

theorem LaysList.exists_suspend {g : Graph} {n id : Nat} {p q : Place} (ss : List (Stmt Expr))
    (h : g.LaysList n ss p q) (hlt : n < id) (hle : id ≤ n + Stmt.listSuspensions ss) :
    ∃ i next, g.node? i = some (.suspend id next) := by
  match ss, h with
  | _, .nil => exact (Nat.not_le_of_lt hlt hle).elim
  | s :: ss, .cons hs hss =>
    by_cases hs' : id ≤ n + s.suspensions
    · exact Lays.exists_suspend s hs hlt hs'
    · rw [Stmt.listSuspensions, ← Nat.add_assoc] at hle
      exact LaysList.exists_suspend ss hss (Nat.lt_of_not_le hs') hle

end

/-- The body is laid out between the head and the block behind the main loop. -/
theorem mainLoop_ofBody (h : Graph.ofBody body = .ok g) :
    ∃ c ss out, body.getLast? = some (.loop c ss) ∧ c.HoldsAlways ∧
      g.node? mainTest = some (.branch c (some 3) (some out)) ∧
      g.node? out = some (.block [] none) ∧ g.Enclosed out c ∧
      g.LaysList 0 body (.start 1) (.start out) ∧
      g.suspensionCount = Stmt.listSuspensions body := by
  obtain ⟨preamble, c, ss, registers, d, rfl, hc, hpreamble, hd, rfl⟩ := ofBody_eq_ok h
  obtain ⟨out, _, hentry, htest, hout, hlt, hinner⟩ := Draft.mainLoop_nodes hd
  obtain ⟨_, hcount, ss', _, hlays⟩ := (Draft.sound_start registers).addStmt _ hd
  have hregisters := Stmt.eq_register_of_declarations hpreamble
  have hloop := hlays d.graph (.refl _)
  obtain ⟨b, t, f, ⟨_, hb, _⟩, hbranch, hend⟩ := hloop.end_of_loop
  cases hentry.symm.trans hb
  cases htest.symm.trans hbranch
  rw [hend] at hloop
  refine ⟨c, ss, out, List.getLast?_concat, hc, htest, hout,
    enclosed_of_nodes htest hout (Nat.ne_of_lt hlt) hinner, .declared hregisters (.cons hloop .nil),
    ?_⟩
  rw [Stmt.listSuspensions_declared hregisters, hcount]
  exact Nat.add_comm _ _

/-- Suspensions at the same nodes with the same ids are listed alike. -/
theorem suspensions_eq (h : ∀ i id, (∃ next, k.node? i = some (.suspend id next)) ↔
    ∃ next, g.node? i = some (.suspend id next)) : k.suspensions = g.suspensions := by
  have : Std.Irrefl fun a b : NodeId × Nat => a.1 < b.1 := ⟨fun a => Nat.lt_irrefl a.1⟩
  have : Std.Antisymm fun a b : NodeId × Nat => a.1 < b.1 :=
    ⟨fun a b hab hba => (Nat.lt_asymm hab hba).elim⟩
  apply k.suspensions_ascend.eq_of_mem_iff g.suspensions_ascend
  intro a
  exact mem_suspensions.trans ((h a.1 a.2).trans mem_suspensions.symm)

/-- Ids that grow with the nodes and leave no number out count the suspensions. -/
theorem Sound.ids_eq_range (hg : g.Sound)
    (hall : ∀ id, 0 < id → id ≤ g.suspensionCount →
      ∃ i next, g.node? i = some (.suspend id next)) :
    g.suspensions.map Prod.snd = List.range' 1 g.suspensionCount := by
  apply (List.pairwise_map.2 hg.ids_ascend).eq_of_mem_iff List.pairwise_lt_range'
  intro id
  rw [List.mem_map, List.mem_range'_1]
  constructor
  · intro h
    obtain ⟨⟨i, id⟩, hi, rfl⟩ := h
    obtain ⟨next, hi⟩ := mem_suspensions.1 hi
    obtain ⟨hpos, hle⟩ := hg.built.id_range i id next hi
    exact ⟨hpos, Nat.lt_one_add_iff.2 hle⟩
  · intro h
    obtain ⟨i, next, hi⟩ := hall id h.1 (Nat.lt_one_add_iff.1 h.2)
    exact ⟨(i, id), mem_suspensions.2 ⟨next, hi⟩, rfl⟩

theorem Mimics.change {p : Pass} (h : p.change? g i = some k) : Mimics Suspended k g := by
  cases p with
  | emptyBlocks => exact .withoutEmptyBlock (fun _ => Suspended.finished) h
  | shortcuts => exact .withShortcut h
  | literalBranches => exact .withoutLiteralBranch (fun _ => Suspended.finished) h

theorem mimics_afterPasses (passes : List Pass) (g : Graph) :
    Mimics Suspended (g.afterPasses passes) g :=
  afterPasses_invariant (P := fun k => Mimics Suspended k g)
    (fun _ _ _ _ hk hg => (Mimics.change hk).trans hg) passes (.refl g)

theorem Enclosed.afterPasses (hg : g.Enclosed out c) (hc : c.HoldsAlways) (passes : List Pass) :
    (g.afterPasses passes).Enclosed out c :=
  afterPasses_invariant (fun _ _ _ _ hk hg => hg.change hc hk) passes hg

/-- A suspension stays at its node with its id. -/
theorem suspensions_afterPasses (passes : List Pass) (g : Graph) :
    (g.afterPasses passes).suspensions = g.suspensions := by
  apply suspensions_eq
  intro i id
  constructor
  · intro h
    obtain ⟨next, hi⟩ := h
    obtain ⟨n, hn, hcore⟩ := (within_afterPasses passes g).node i _ hi
    obtain ⟨next', rfl⟩ := Node.eq_suspend_of_core hcore.symm
    exact ⟨next', hn⟩
  · intro h
    obtain ⟨next, hi⟩ := h
    obtain ⟨n, hn, _⟩ := (mimics_afterPasses passes g).rests i ⟨_, hi, trivial⟩
    obtain ⟨m, hm, hcore⟩ := (within_afterPasses passes g).node i n hn
    cases hi.symm.trans hm
    obtain ⟨next', rfl⟩ := Node.eq_suspend_of_core hcore
    exact ⟨next', hn⟩

theorem Sound.contains_target {label : EdgeKind} (hg : g.Sound) (hi : g.node? i = some n)
    (hj : (label, some j) ∈ n.edges) : g.contains j := by
  obtain ⟨m, hm, _⟩ := hg.leads i n j hi (List.mem_map_of_mem hj)
  rw [contains, hm]
  rfl

theorem Sound.predecessors_head (hg : g.Sound) : g.predecessors g.head = [] := by
  rw [predecessors, List.flatMap_eq_nil_iff]
  intro a ha
  rw [List.filterMap_eq_nil_iff]
  intro edge hedge
  -- The head is the first node, and no edge of a node that is left leads to a head.
  have hne : edge.2 ≠ some g.head := by
    intro he
    obtain ⟨m, hm, hhead⟩ := hg.leads a.1 a.2 g.head (mem_present.1 ha)
      (he ▸ List.mem_map_of_mem hedge)
    obtain ⟨next, h0⟩ := hg.built.head
    cases hm.symm.trans h0
    exact hhead trivial
  exact if_neg hne

/-- The edge that is missing is the one behind the main loop or the one to it. -/
theorem Enclosed.missing_edge {label : EdgeKind} (hg : g.Enclosed out c)
    (hi : g.node? i = some n) (hn : (label, none) ∈ n.edges) :
    i = out ∧ label = .next ∨ i = mainTest ∧ label = .onFalse := by
  by_cases hout : i = out
  · subst hout
    cases hg.exit n hi
    cases List.mem_singleton.1 hn
    exact .inl ⟨rfl, rfl⟩
  · by_cases htest : i = mainTest
    · subst htest
      obtain ⟨t, f, rfl, ht⟩ := hg.test n hi
      rcases List.mem_cons.1 hn with he | he
      · cases he
        exact (ht (.inl rfl)).elim
      · cases List.mem_singleton.1 he
        exact .inr ⟨rfl, rfl⟩
    · exact (hg.inner i n hi hout htest none (List.mem_map_of_mem hn) (.inl rfl)).elim

/-- A graph that came about from the graph of a body and can be relied on like that one. -/
structure Intact (g : Graph) (body : List (Stmt Expr)) (built : Graph) : Prop where
  edges : ∀ i n label j, g.node? i = some n → (label, some j) ∈ n.edges → g.contains j
  head : ∃ next, g.node? g.head = some (.head next)
  entry : g.predecessors g.head = []
  /-- The suspensions stay at the nodes that they had in the beginning. -/
  suspensions : g.suspensions = built.suspensions
  ids : g.suspensions.map Prod.snd = List.range' 1 g.suspensionCount
  count : g.suspensionCount = Stmt.listSuspensions body
  /-- The body was laid out up to a block behind its main loop, with the suspensions numbered in
  source order. Only the edge out of that block or the false edge of the main test is missing. -/
  exit : ∃ c ss out, body.getLast? = some (.loop c ss) ∧
    built.LaysList 0 body (.start 1) (.start out) ∧
    built.node? mainTest = some (.branch c (some 3) (some out)) ∧
    ∀ i n label, g.node? i = some n → (label, none) ∈ n.edges →
      i = out ∧ label = .next ∨ i = mainTest ∧ label = .onFalse

end Graph

/-- Passes in any order and number keep the graph of a body intact. -/
theorem afterPasses_intact {body : List (Stmt Expr)} {built : Graph}
    (hbuilt : Graph.ofBody body = .ok built) (passes : List Pass) :
    (built.afterPasses passes).Intact body built := by
  obtain ⟨c, ss, out, hlast, hc, htest, _, henclosed, hlays, hcount⟩ :=
    Graph.mainLoop_ofBody hbuilt
  have hsound := Graph.sound_ofBody hbuilt
  have hafter := hsound.afterPasses passes
  have hsuspensions := Graph.suspensions_afterPasses passes built
  have hcount' := (Graph.within_afterPasses passes built).count
  have hids : built.suspensions.map Prod.snd = List.range' 1 built.suspensionCount := by
    apply hsound.ids_eq_range
    intro id hpos hle
    rw [hcount, ← Nat.zero_add (Stmt.listSuspensions body)] at hle
    exact hlays.exists_suspend body hpos hle
  constructor
  case edges => exact fun i n label j hi hj => hafter.contains_target hi hj
  case head => exact hafter.built.head
  case entry => exact hafter.predecessors_head
  case suspensions => exact hsuspensions
  case ids => rw [hsuspensions, hids, hcount']
  case count => exact hcount'.trans hcount
  case exit =>
    refine ⟨c, ss, out, hlast, hlays, htest, ?_⟩
    intro i n label hi hn
    exact (henclosed.afterPasses hc passes).missing_edge hi hn

/-- A loop without a suspension, a suspension that is never reached, and a main loop whose condition
is no literal. -/
def ringBody : List (Stmt Expr) :=
  [.register "n" (.int 4),
    .loop (.binary .eq (.int 1) (.int 1))
      [.loop (.var "a") [], .branch (.bool false) [.suspend] [.suspend],
        .branch (.var "b") [] [.update "n" .add (.int 1), .suspend]]]

theorem afterPasses_intact_ringBody :
    ∃ built g, Graph.ofBody ringBody = .ok built ∧
      g = built.afterPasses
        [.literalBranches, .shortcuts, .emptyBlocks, .literalBranches, .emptyBlocks] ∧
      built.size = 22 ∧ (g.size = 8 ∧ g.suspensions = [(9, 1), (12, 2), (18, 3)] ∧
        g.node? Graph.mainTest = some (.branch (.binary .eq (.int 1) (.int 1)) (some 4) none)) ∧
      g.Intact ringBody built := by
  have hbuilt : Graph.ofBody ringBody = .ok _ := rfl
  exact ⟨_, _, hbuilt, rfl, by decide +kernel, by decide +kernel, afterPasses_intact hbuilt _⟩

end Clockwork
