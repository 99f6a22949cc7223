import Clockwork.Graph.OfBody
import Clockwork.Graph.Simplify
import Clockwork.Proofs.Containers
import Clockwork.Proofs.Typing

namespace Clockwork
set_option autoImplicit true

variable {g h : Graph} {n : Node} {leaf : Stmt Expr → Prop} {test : Expr → Prop}

/-- A node without its edges. -/
def Node.core (n : Node) : Node := n.mapEdges fun _ => none

@[simp] theorem Node.core_mapEdges (f : Option NodeId → Option NodeId) (n : Node) :
    (n.mapEdges f).core = n.core := by
  cases n <;> rfl

@[simp] theorem Node.core_withNext (target : Option NodeId) (n : Node) :
    (n.withNext target).core = n.core := by
  cases n <;> rfl

@[simp] theorem Node.core_withFalse (target : Option NodeId) (n : Node) :
    (n.withFalse target).core = n.core := by
  cases n <;> rfl

theorem Node.eq_suspend_of_core {id : Nat} (h : n.core = (Node.suspend id next).core) :
    ∃ next, n = .suspend id next := by
  cases n <;> cases h
  exact ⟨_, rfl⟩

/-- The statements of a block and the condition of a branch satisfy what is asked of them. -/
def Node.Holds (leaf : Stmt Expr → Prop) (test : Expr → Prop) : Node → Prop
  | .block ss _ => ∀ s ∈ ss, leaf s
  | .branch c _ _ => test c
  | .head _ | .suspend _ _ => True

theorem Node.Holds.of_core {m : Node} (hm : m.Holds leaf test) (h : n.core = m.core) :
    n.Holds leaf test := by
  cases n <;> cases m <;> cases h <;> exact hm

namespace Graph

/-- A graph whose nodes are all nodes of another one, apart from their edges. -/
structure Within (h g : Graph) : Prop where
  count : h.suspensionCount = g.suspensionCount
  registers : h.registers = g.registers
  head : (∃ next, g.node? 0 = some (.head next)) → ∃ next, h.node? 0 = some (.head next)
  node : ∀ i n, h.node? i = some n → ∃ m, g.node? i = some m ∧ n.core = m.core

theorem Within.refl (g : Graph) : g.Within g :=
  ⟨rfl, rfl, id, fun _ n hn => ⟨n, hn, rfl⟩⟩

theorem Within.trans {k : Graph} (hk : k.Within h) (hh : h.Within g) : k.Within g where
  count := hk.count.trans hh.count
  registers := hk.registers.trans hh.registers
  head hg := hk.head (hh.head hg)
  node i n hn := by
    obtain ⟨m, hm, hnm⟩ := hk.node i n hn
    obtain ⟨l, hl, hml⟩ := hh.node i m hm
    exact ⟨l, hl, hnm.trans hml⟩

theorem Within.modify (g : Graph) (i : NodeId) {f : Node → Node} (hf : ∀ n, (f n).core = n.core) :
    (g.modify i f).Within g where
  count := rfl
  registers := rfl
  head := by
    rintro ⟨next, h0⟩
    rw [node?_modify, h0]
    split
    · have hcore := hf (.head next)
      cases hn : f (.head next) with
      | head target => exact ⟨target, by rw [Option.map_some, hn]⟩
      | block => rw [hn] at hcore; cases hcore
      | branch => rw [hn] at hcore; cases hcore
      | suspend => rw [hn] at hcore; cases hcore
    · exact ⟨next, rfl⟩
  node j n hn := by
    rw [node?_modify] at hn
    split at hn
    · obtain ⟨m, hm, rfl⟩ := Option.map_eq_some_iff.1 hn
      exact ⟨m, hm, hf m⟩
    · exact ⟨n, hn, rfl⟩

theorem Within.splice (g : Graph) (i : NodeId) (target : Option NodeId)
    (hi : ∀ next, g.node? i ≠ some (.head next)) : (g.splice i target).Within g where
  count := rfl
  registers := rfl
  head := by
    rintro ⟨next, h0⟩
    rw [node?_splice, h0]
    split
    · next h => exact (hi next (h ▸ h0)).elim
    · exact ⟨redirect i target next, rfl⟩
  node j n hn := by
    rw [node?_splice] at hn
    split at hn
    · cases hn
    · obtain ⟨m, hm, rfl⟩ := Option.map_eq_some_iff.1 hn
      exact ⟨m, hm, Node.core_mapEdges _ m⟩

/-- The graph and the count of a sweep keep what each change and its count keep. -/
theorem sweep_count_induction {P : Graph → Nat → Prop} {change? : Graph → NodeId → Option Graph}
    (hstep : ∀ g k i count, change? g i = some k → P g count → P k (count + 1)) (hg : P g 0) :
    P (g.sweep change?).1 (g.sweep change?).2 := by
  unfold sweep
  generalize List.range g.nodes.size = is
  generalize 0 = count at hg ⊢
  induction is generalizing g count with
  | nil => exact hg
  | cons i is ih =>
    cases hc : change? g i with
    | none =>
      simp only [List.foldl_cons, hc]
      exact ih count hg
    | some k =>
      simp only [List.foldl_cons, hc]
      exact ih (count + 1) (hstep g k i count hc hg)

/-- A sweep keeps what each of its changes keeps. -/
theorem sweep_induction {P : Graph → Prop} {change? : Graph → NodeId → Option Graph}
    (hstep : ∀ g g' i, change? g i = some g' → P g → P g') (hg : P g) :
    P (g.sweep change?).1 :=
  sweep_count_induction (P := fun g _ => P g) (fun g k i _ hk => hstep g k i hk) hg

theorem withoutEmptyBlock?_eq_some (h : g.withoutEmptyBlock? i = some k) :
    ∃ target, g.node? i = some (.block [] target) ∧ target ≠ some i ∧
      k = g.splice i target := by
  unfold withoutEmptyBlock? at h
  split at h
  · next target hi =>
    split at h
    · cases h
    · next htarget =>
      cases h
      exact ⟨target, hi, htarget, rfl⟩
  · cases h

theorem withShortcut?_eq_some (h : g.withShortcut? i = some k) :
    ∃ ss b c t f taken, g.node? i = some (.block ss (some b)) ∧
      g.node? b = some (.branch c t f) ∧
      (c.reduce (knownLiterals ss)).truth? = some taken ∧
      k = g.modify i (Node.withNext (if taken then t else f)) := by
  unfold withShortcut? at h
  split at h
  · next ss b hi =>
    split at h
    · next c t f hb =>
      obtain ⟨taken, hc, rfl⟩ := Option.map_eq_some_iff.1 h
      exact ⟨ss, b, c, t, f, taken, hi, hb, hc, rfl⟩
    · cases h
  · cases h

theorem withoutLiteralBranch?_eq_some (h : g.withoutLiteralBranch? i = some k) :
    ∃ l t f target, g.node? i = some (.branch (.ofValue l) t f) ∧
      (if l.truth then t else f) = target ∧ target ≠ some i ∧ k = g.splice i target := by
  unfold withoutLiteralBranch? at h
  split at h
  · next c t f hi =>
    obtain ⟨taken, htaken, hspliced⟩ := Option.bind_eq_some_iff.1 h
    obtain ⟨l, hl, rfl⟩ := Option.map_eq_some_iff.1 htaken
    have hc := Expr.eq_ofValue_of_literal? hl
    subst hc
    dsimp only at hspliced
    generalize hchosen : (if l.truth then t else f) = target at hspliced
    split at hspliced
    · cases hspliced
    · next htarget =>
      cases hspliced
      exact ⟨l, t, f, target, hi, hchosen, htarget, rfl⟩
  · cases h

theorem lt_size_of_node? (h : g.node? i = some n) : i < g.nodes.size := by
  unfold node? at h
  cases hi : g.nodes[i]? with
  | none => rw [hi] at h; cases h
  | some m => exact (Array.getElem?_eq_some_iff.1 hi).1

/-- The first node is the head, every node and every declaration holds what is asked of it, and the
suspensions have different ids between one and their number. -/
structure WellBuilt (leaf : Stmt Expr → Prop) (test : Expr → Prop) (g : Graph) : Prop where
  declared : ∀ x ∈ g.registers.map Prod.fst, ∃ w, leaf (.register x w)
  head : ∃ next, g.node? 0 = some (.head next)
  holds : ∀ i n, g.node? i = some n → n.Holds leaf test
  id_range : ∀ i id next, g.node? i = some (.suspend id next) → 0 < id ∧ id ≤ g.suspensionCount
  id_unique : ∀ i j id next next', g.node? i = some (.suspend id next) →
    g.node? j = some (.suspend id next') → i = j

theorem WellBuilt.within (hg : g.WellBuilt leaf test) (h : Within k g) :
    k.WellBuilt leaf test where
  declared := h.registers ▸ hg.declared
  head := h.head hg.head
  holds i n hn := by
    obtain ⟨m, hm, hnm⟩ := h.node i n hn
    exact (hg.holds i m hm).of_core hnm
  id_range i id next hi := by
    obtain ⟨m, hm, hnm⟩ := h.node i _ hi
    obtain ⟨next', rfl⟩ := Node.eq_suspend_of_core hnm.symm
    rw [h.count]
    exact hg.id_range i id next' hm
  id_unique i j id next next' hi hj := by
    obtain ⟨m, hm, hnm⟩ := h.node i _ hi
    obtain ⟨l, hl, hnl⟩ := h.node j _ hj
    obtain ⟨mnext, rfl⟩ := Node.eq_suspend_of_core hnm.symm
    obtain ⟨lnext, rfl⟩ := Node.eq_suspend_of_core hnl.symm
    exact hg.id_unique i j id mnext lnext hm hl

end Graph

namespace Draft

variable {d d' : Draft}

theorem node?_push (d : Draft) (n : Node) (j : NodeId) :
    (d.push n).graph.node? j = if j = d.fresh then some n else d.graph.node? j := by
  have hpush : (d.graph.nodes.push (some n))[j]? =
      if j = d.fresh then some (some n) else d.graph.nodes[j]? := Array.getElem?_push
  rw [push, Graph.node?, hpush]
  split <;> rfl

theorem wellBuilt_push (hd : d.graph.WellBuilt leaf test) (hn : n.Holds leaf test)
    (hs : ∀ id next, n ≠ .suspend id next) : (d.push n).graph.WellBuilt leaf test where
  declared := hd.declared
  head := by
    obtain ⟨next, h0⟩ := hd.head
    have hfresh : 0 ≠ d.fresh := Nat.ne_of_lt (Graph.lt_size_of_node? h0)
    exact ⟨next, by rw [node?_push, if_neg hfresh, h0]⟩
  holds i m hm := by
    rw [node?_push] at hm
    split at hm
    · cases hm
      exact hn
    · exact hd.holds i m hm
  id_range i id next hi := by
    rw [node?_push] at hi
    split at hi
    · exact (hs id next (Option.some.inj hi)).elim
    · exact hd.id_range i id next hi
  id_unique i j id next next' hi hj := by
    rw [node?_push] at hi hj
    split at hi
    · exact (hs id next (Option.some.inj hi)).elim
    · split at hj
      · exact (hs id next' (Option.some.inj hj)).elim
      · exact hd.id_unique i j id next next' hi hj

theorem wellBuilt_modify (hd : d.graph.WellBuilt leaf test) (i : NodeId) {f : Node → Node}
    (hf : ∀ n, (f n).core = n.core) : (d.modify i f).graph.WellBuilt leaf test :=
  hd.within (.modify d.graph i hf)

theorem wellBuilt_connect (hd : d.graph.WellBuilt leaf test) (i j : NodeId) :
    (d.connect i j).graph.WellBuilt leaf test :=
  wellBuilt_modify hd i (Node.core_withNext _)

theorem wellBuilt_startBlock (hd : d.graph.WellBuilt leaf test) :
    d.startBlock.graph.WellBuilt leaf test :=
  wellBuilt_push hd nofun nofun

theorem wellBuilt_startBranch (hd : d.graph.WellBuilt leaf test) (hc : test c) :
    (d.startBranch c).graph.WellBuilt leaf test := by
  have hbranch : (Node.branch c (some (d.fresh + 1)) none).Holds leaf test := hc
  exact wellBuilt_startBlock (wellBuilt_connect (wellBuilt_push hd hbranch nofun) _ _)

theorem wellBuilt_startFalse (hd : d.graph.WellBuilt leaf test) (i : NodeId) :
    (d.startFalse i).graph.WellBuilt leaf test :=
  wellBuilt_startBlock (wellBuilt_modify hd i (Node.core_withFalse _))

/-- A statement at the end of a block changes nothing else. -/
theorem node?_append (d : Draft) (s : Stmt Expr) (hn : (d.append s).graph.node? i = some n) :
    d.graph.node? i = some n ∨
      ∃ ss next, d.graph.node? i = some (.block ss next) ∧ n = .block (ss ++ [s]) next := by
  rw [append, modify, Graph.node?_modify] at hn
  split at hn
  · obtain ⟨m, hm, rfl⟩ := Option.map_eq_some_iff.1 hn
    cases m with
    | block ss next => exact .inr ⟨ss, next, hm, rfl⟩
    | head => exact .inl hm
    | branch => exact .inl hm
    | suspend => exact .inl hm
  · exact .inl hn

theorem wellBuilt_append (hd : d.graph.WellBuilt leaf test) (hs : leaf s) :
    (d.append s).graph.WellBuilt leaf test where
  declared := hd.declared
  head := by
    obtain ⟨next, h0⟩ := hd.head
    refine ⟨next, ?_⟩
    rw [append, modify, Graph.node?_modify, h0]
    split <;> rfl
  holds i n hn := by
    rcases node?_append d s hn with hn | ⟨ss, next, hi, rfl⟩
    · exact hd.holds i n hn
    · intro t ht
      rcases List.mem_append.1 ht with ht | ht
      · exact hd.holds i _ hi t ht
      · rw [List.mem_singleton.1 ht]
        exact hs
  id_range i id next hi := by
    rcases node?_append d s hi with hi | ⟨_, _, _, he⟩
    · exact hd.id_range i id next hi
    · cases he
  id_unique i j id next next' hi hj := by
    rcases node?_append d s hi with hi | ⟨_, _, _, he⟩
    · rcases node?_append d s hj with hj | ⟨_, _, _, he⟩
      · exact hd.id_unique i j id next next' hi hj
      · cases he
    · cases he

/-- A new suspension takes the next id. -/
theorem wellBuilt_pushSuspend (hd : d.graph.WellBuilt leaf test) (target : Option NodeId) :
    Graph.WellBuilt leaf test
      { (d.push (.suspend (d.graph.suspensionCount + 1) target)).graph with
        suspensionCount := d.graph.suspensionCount + 1 } where
  declared := hd.declared
  head := by
    obtain ⟨next, h0⟩ := hd.head
    have hfresh : 0 ≠ d.fresh := Nat.ne_of_lt (Graph.lt_size_of_node? h0)
    exact ⟨next, (node?_push d _ 0).trans (by rw [if_neg hfresh, h0])⟩
  holds i n hn := by
    have hn := (node?_push d _ i).symm.trans hn
    split at hn
    · cases hn
      trivial
    · exact hd.holds i n hn
  id_range i id next hi := by
    have hi := (node?_push d _ i).symm.trans hi
    split at hi
    · cases hi
      exact ⟨Nat.succ_pos _, Nat.le_refl _⟩
    · obtain ⟨hpos, hle⟩ := hd.id_range i id next hi
      exact ⟨hpos, Nat.le_succ_of_le hle⟩
  id_unique i j id next next' hi hj := by
    have hi := (node?_push d _ i).symm.trans hi
    have hj := (node?_push d _ j).symm.trans hj
    split at hi
    · next hif =>
      cases hi
      split at hj
      · next hjf => exact hif.trans hjf.symm
      · have hle := (hd.id_range j _ next' hj).2
        omega
    · split at hj
      · cases hj
        have hle := (hd.id_range i _ next hi).2
        omega
      · exact hd.id_unique i j id next next' hi hj

theorem wellBuilt_suspend (hd : d.graph.WellBuilt leaf test) :
    d.suspend.graph.WellBuilt leaf test := by
  have hpush := wellBuilt_pushSuspend hd (some (d.fresh + 1))
  have hconnect := hpush.within (.modify _ d.current (Node.core_withNext (some d.fresh)))
  exact wellBuilt_push (d := ⟨_, d.current⟩) hconnect nofun nofun

mutual

theorem wellBuilt_addStmt {d d' : Draft} (s : Stmt Expr) (hs : s.Everywhere leaf test)
    (hd : d.graph.WellBuilt leaf test) (h : d.addStmt s = .ok d') :
    d'.graph.WellBuilt leaf test := by
  match s with
  | .loop c body =>
    rw [addStmt] at h
    obtain ⟨d₁, h₁, h⟩ := Except.bind_eq_ok h
    cases h
    have hd₁ := wellBuilt_addStmts body hs.2 (wellBuilt_startBranch hd hs.1) h₁
    exact wellBuilt_startFalse (wellBuilt_connect hd₁ _ _) _
  | .branch c ts [] =>
    rw [addStmt] at h
    obtain ⟨d₁, h₁, h⟩ := Except.bind_eq_ok h
    cases h
    have hd₁ := wellBuilt_addStmts ts hs.2.1 (wellBuilt_startBranch hd hs.1) h₁
    exact wellBuilt_startFalse (wellBuilt_connect hd₁ _ _) _
  | .branch c ts (e :: es) =>
    rw [addStmt] at h
    obtain ⟨d₁, h₁, hrest⟩ := Except.bind_eq_ok h
    obtain ⟨d₂, h₂, hrest⟩ := Except.bind_eq_ok hrest
    obtain ⟨d₃, h₃, hrest⟩ := Except.bind_eq_ok hrest
    cases hrest
    have hd₁ := wellBuilt_addStmts ts hs.2.1 (wellBuilt_startBranch hd hs.1) h₁
    have hd₂ := wellBuilt_addStmt e hs.2.2.1 (wellBuilt_startFalse hd₁ _) h₂
    have hd₃ := wellBuilt_addStmts es hs.2.2.2 hd₂ h₃
    exact wellBuilt_startBlock (wellBuilt_connect (wellBuilt_connect hd₃ _ _) _ _)
  | .suspend => cases h; exact wellBuilt_suspend hd
  | .assign [x] v => cases h; exact wellBuilt_append hd hs
  | .assign [] v => cases h
  | .assign (x :: y :: xs) v => cases h
  | .update x op v => cases h; exact wellBuilt_append hd hs
  | .expr v => cases h; exact wellBuilt_append hd hs
  | .wait n => cases h
  | .register x w => cases h

theorem wellBuilt_addStmts {d d' : Draft} (ss : List (Stmt Expr))
    (hs : Stmt.ListEverywhere leaf test ss) (hd : d.graph.WellBuilt leaf test)
    (h : d.addStmts ss = .ok d') :
    d'.graph.WellBuilt leaf test := by
  match ss with
  | [] => cases h; exact hd
  | s :: ss =>
    rw [addStmts] at h
    obtain ⟨d₁, h₁, h⟩ := Except.bind_eq_ok h
    exact wellBuilt_addStmts ss hs.2 (wellBuilt_addStmt s hs.1 hd h₁) h

end

theorem wellBuilt_start {registers : List (String × Nat)}
    (hdeclared : ∀ x ∈ registers.map Prod.fst, ∃ w, leaf (.register x w)) :
    (Draft.start registers).graph.WellBuilt leaf test where
  declared := hdeclared
  head := ⟨some 1, rfl⟩
  holds i n hn := by
    match i with
    | 0 => cases hn; trivial
    | 1 => cases hn; exact nofun
    | i + 2 => cases hn
  id_range i id next hi := by
    match i with
    | 0 => cases hi
    | 1 => cases hi
    | i + 2 => cases hi
  id_unique i j id next next' hi := by
    match i with
    | 0 => cases hi
    | 1 => cases hi
    | i + 2 => cases hi

end Draft

theorem Stmt.declaration_eq_ok {s : Stmt Expr} (h : s.declaration = .ok (x, width)) :
    ∃ w, s = .register x w := by
  cases s with
  | register y w =>
    cases w with
    | int n =>
      rw [declaration] at h
      split at h
      · cases h
        exact ⟨_, rfl⟩
      · cases h
    | var => cases h
    | bool => cases h
    | unary => cases h
    | binary => cases h
    | ite => cases h
  | assign => cases h
  | update => cases h
  | expr => cases h
  | branch => cases h
  | loop => cases h
  | suspend => cases h
  | wait => cases h

theorem Stmt.eq_register_of_declarations {preamble : List (Stmt Expr)}
    {registers : List (String × Nat)}
    (h : preamble.map Stmt.declaration = registers.map .ok) :
    ∀ s ∈ preamble, ∃ x w, s = .register x w := by
  intro s hs
  have hmem : s.declaration ∈ registers.map .ok := h ▸ List.mem_map_of_mem hs
  obtain ⟨⟨x, width⟩, _, hx⟩ := List.mem_map.1 hmem
  obtain ⟨w, rfl⟩ := Stmt.declaration_eq_ok hx.symm
  exact ⟨x, w, rfl⟩

theorem Graph.wellBuilt_ofBody (h : Graph.ofBody body = .ok g)
    (hbody : Stmt.ListEverywhere leaf test body) : g.WellBuilt leaf test := by
  unfold Graph.ofBody at h
  cases hlast : body.getLast? with
  | none => rw [hlast] at h; cases h
  | some last =>
    rw [hlast] at h
    have hmem : last ∈ body := List.mem_of_getLast? hlast
    dsimp only at h
    split at h
    · cases h
    · obtain ⟨registers, hregisters, htail⟩ := Except.bind_eq_ok h
      obtain ⟨d, hd, hgraph⟩ := Except.bind_eq_ok htail
      cases hgraph
      have hdeclared : ∀ x ∈ registers.map Prod.fst, ∃ w, leaf (.register x w) := by
        intro x hx
        obtain ⟨⟨y, width⟩, hy, rfl⟩ := List.mem_map.1 hx
        have hok : .ok (y, width) ∈ body.dropLast.map Stmt.declaration :=
          Except.map_eq_of_mapM hregisters ▸ List.mem_map_of_mem hy
        obtain ⟨s, hs, hdecl⟩ := List.mem_map.1 hok
        obtain ⟨w, rfl⟩ := Stmt.declaration_eq_ok hdecl
        exact ⟨w, hbody.of_mem (List.dropLast_subset body hs)⟩
      exact Draft.wellBuilt_addStmt last (hbody.of_mem hmem) (Draft.wellBuilt_start hdeclared) hd

/-- What holds of a graph whatever its body. -/
theorem Graph.wellBuilt_shape (h : Graph.ofBody body = .ok g) :
    g.WellBuilt (fun _ => True) (fun _ => True) :=
  Graph.wellBuilt_ofBody h
    (Stmt.listEverywhere_of_nested body (fun _ _ => trivial) fun _ => trivial)

end Clockwork
