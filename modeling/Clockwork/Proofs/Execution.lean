import Clockwork.Proofs.Layout
import Clockwork.Proofs.Source

namespace Clockwork
set_option autoImplicit true

variable {g : Graph}

namespace Graph

/-- Executes the rest of a block and follows its edge. -/
def walkFrom (g : Graph) (budget : Nat) (v : Valuation) (p : Place) :
    Valuation × Except RunError (NodeId × Nat) :=
  match g.node? p.block with
  | some (.block ss next) =>
    match Stmt.execList v (ss.drop p.offset) with
    | (v, none) => g.walk budget v next
    | (v, some e) => (v, .error e)
  | _ => (v, .error .ended)

theorem walkFrom_ends (hp : g.Ends p edge) (budget : Nat) (v : Valuation) :
    g.walkFrom budget v p = g.walk budget v edge := by
  obtain ⟨ss, hnode, hoffset⟩ := hp
  simp only [walkFrom, hnode, hoffset, List.drop_length, Stmt.execList]

theorem walkFrom_has {s : Stmt Expr} (hp : g.Has p s) (budget : Nat) (v : Valuation) :
    g.walkFrom budget v p =
      match s.assignments v with
      | .ok writes => g.walkFrom budget (v.insertAll writes) p.succ
      | .error e => (v, .error e) := by
  obtain ⟨ss, next, hnode, hs⟩ := hp
  obtain ⟨hlt, rfl⟩ := List.getElem?_eq_some_iff.1 hs
  have hnode' : g.node? p.succ.block = some (.block ss next) := hnode
  simp only [walkFrom, hnode, hnode', List.drop_eq_getElem_cons hlt, Stmt.execList]
  cases (ss[p.offset]).assignments v with
  | error e => rfl
  | ok writes => rfl

theorem walk_start (hi : g.node? i = some (.block ss next)) (budget : Nat) (v : Valuation) :
    g.walk (budget + 1) v (some i) = g.walkFrom budget v (.start i) := by
  have hi' : g.node? (Place.start i).block = some (.block ss next) := hi
  simp only [walk, walkFrom, hi, hi']
  rfl

theorem walk_branch (hb : g.node? b = some (.branch c t f)) (budget : Nat) (v : Valuation) :
    g.walk (budget + 1) v (some b) =
      match v.eval c with
      | .error e => (v, .error e)
      | .ok w => g.walk budget v (if w.truth then t else f) := by
  cases hc : v.eval c with
  | error e => simp only [walk, hb, hc]
  | ok w => simp only [walk, hb, hc]

/-- At a place of a graph an agenda is what remains to be done. -/
inductive Continues (g : Graph) : Place → Agenda → Prop
  | done (hp : g.Ends p none) : Continues g p []
  | stmt (hs : g.Lays k s p q) (hrest : g.Continues q rest) : Continues g p ((k, s) :: rest)
  | jump (hp : g.Ends p (some i)) (h : g.Continues (.start i) agenda) : Continues g p agenda

theorem Continues.block (h : g.Continues p agenda) :
    ∃ ss next, g.node? p.block = some (.block ss next) := by
  induction h with
  | done hp =>
    obtain ⟨ss, hnode, _⟩ := hp
    exact ⟨ss, none, hnode⟩
  | stmt hs _ ih =>
    cases hs with
    | register => exact ih
    | straight _ hp =>
      obtain ⟨ss, next, hnode, _⟩ := hp
      exact ⟨ss, next, hnode⟩
    | suspend hp =>
      obtain ⟨ss, hnode, _⟩ := hp
      exact ⟨ss, _, hnode⟩
    | loop hp =>
      obtain ⟨ss, hnode, _⟩ := hp
      exact ⟨ss, _, hnode⟩
    | branch hp =>
      obtain ⟨ss, hnode, _⟩ := hp
      exact ⟨ss, _, hnode⟩
  | jump hp _ _ =>
    obtain ⟨ss, hnode, _⟩ := hp
    exact ⟨ss, _, hnode⟩

theorem Continues.before (h : g.Continues (.start j) rest)
    (hq : q = .start j ∨ g.Ends q (some j)) : g.Continues q rest := by
  rcases hq with rfl | hq
  · exact h
  · exact .jump hq h

theorem Continues.list (hs : g.LaysList k ss p q) (h : g.Continues q rest) :
    g.Continues p (.of k ss ++ rest) := by
  induction ss generalizing k p with
  | nil =>
    cases hs
    exact h
  | cons s ss ih =>
    cases hs with
    | cons hs hss => exact .stmt hs (ih hss)

/-- The head or a suspension leads to the place of an agenda. -/
def Waits (g : Graph) (i : NodeId) (agenda : Agenda) : Prop :=
  ∃ j, (g.node? i).bind Node.next? = some j ∧ g.Continues (.start j) agenda

/-- A walk and the execution of the source come to the same end. -/
inductive Answers (g : Graph) : Valuation × Except RunError (NodeId × Nat) →
    Valuation × Except RunError (Nat × Agenda) → Prop
  | waits {id : Nat} (h : g.Waits i rest) : Answers g (v, .ok (i, id)) (v, .ok (id, rest))
  | fails : Answers g (v, .error e) (v, .error e)

/-- Whatever is left to do at a place, the source does what a walk does that visits at most
`budget` other nodes. -/
def Executes (g : Graph) (budget : Nat) : Prop :=
  ∀ p agenda v, g.Continues p agenda → Finished (g.walkFrom budget v p).2 →
    ∃ out, g.Answers (g.walkFrom budget v p) out ∧ agenda.Yields v out

variable {agenda : Agenda}

theorem Executes.enter (h : ∀ m, m < budget → g.Executes m) (hle : n ≤ budget)
    (hi : g.Continues (.start i) agenda) (hfinished : Finished (g.walk n v (some i)).2) :
    ∃ out, g.Answers (g.walk n v (some i)) out ∧ agenda.Yields v out := by
  cases n with
  | zero => exact (hfinished rfl).elim
  | succ n =>
    obtain ⟨ss, next, hblock⟩ := hi.block
    have hblock : g.node? i = some (.block ss next) := hblock
    rw [walk_start hblock] at hfinished ⊢
    exact h n hle _ agenda v hi hfinished

/-- The condition of a statement decides which of two agendas goes on. -/
theorem Executes.choose (h : ∀ m, m < budget → g.Executes m) (hp : g.Ends p (some b))
    (hb : g.node? b = some (.branch c (some t) (some f)))
    (ht : g.Continues (.start t) onTrue) (hf : g.Continues (.start f) onFalse)
    (hadvance : agenda.advance v =
      v.evalThen c fun w => .goes v (if w.truth then onTrue else onFalse))
    (hfinished : Finished (g.walkFrom budget v p).2) :
    ∃ out, g.Answers (g.walkFrom budget v p) out ∧ agenda.Yields v out := by
  rw [walkFrom_ends hp] at hfinished ⊢
  cases budget with
  | zero => exact (hfinished rfl).elim
  | succ n =>
    rw [walk_branch hb] at hfinished ⊢
    rw [Valuation.evalThen] at hadvance
    cases hc : v.eval c with
    | error e =>
      rw [hc] at hadvance
      exact ⟨_, .fails, .of_stops hadvance⟩
    | ok w =>
      rw [hc] at hadvance hfinished
      cases hw : w.truth with
      | true =>
        simp only [hw, if_true] at hadvance hfinished ⊢
        obtain ⟨out, hanswers, hyields⟩ := Executes.enter h (Nat.le_succ n) ht hfinished
        exact ⟨out, hanswers, .of_goes hadvance hyields⟩
      | false =>
        simp only [hw, Bool.false_eq_true, if_false] at hadvance hfinished ⊢
        obtain ⟨out, hanswers, hyields⟩ := Executes.enter h (Nat.le_succ n) hf hfinished
        exact ⟨out, hanswers, .of_goes hadvance hyields⟩

theorem executes (g : Graph) (budget : Nat) : g.Executes budget := by
  induction budget using Nat.strongRecOn with
  | ind budget ih =>
    intro p agenda v hcontinues hfinished
    -- Statements of a block take no budget: they are passed by an induction of their own.
    induction hcontinues generalizing v with
    | done hp =>
      rw [walkFrom_ends hp] at hfinished ⊢
      cases budget with
      | zero => exact (hfinished rfl).elim
      | succ n => exact ⟨_, .fails, .of_stops rfl⟩
    | jump hp hi _ =>
      rw [walkFrom_ends hp] at hfinished ⊢
      exact Executes.enter ih (Nat.le_refl _) hi hfinished
    | @stmt k s p q rest hs hrest ihrest =>
      cases hs with
      | register =>
        obtain ⟨out, hanswers, hyields⟩ := ihrest _ hfinished
        exact ⟨out, hanswers, .of_goes rfl hyields⟩
      | straight hs hp =>
        rw [walkFrom_has hp] at hfinished ⊢
        have hadvance := Agenda.advance_of_straight hs k v rest
        cases hwrites : s.assignments v with
        | error e =>
          rw [hwrites] at hadvance
          exact ⟨_, .fails, .of_stops hadvance⟩
        | ok writes =>
          rw [hwrites] at hadvance hfinished
          obtain ⟨out, hanswers, hyields⟩ := ihrest _ hfinished
          exact ⟨out, hanswers, .of_goes hadvance hyields⟩
      | suspend hp hi =>
        rw [walkFrom_ends hp] at hfinished ⊢
        cases budget with
        | zero => exact (hfinished rfl).elim
        | succ n =>
          rw [walk, hi]
          exact ⟨_, .waits ⟨_, by rw [hi]; rfl, hrest⟩, .of_stops rfl⟩
      | loop hp hb hbody hq =>
        have hagain := Continues.stmt (.loop hq hb hbody hq) hrest
        exact Executes.choose ih hp hb (.list hbody hagain) hrest rfl hfinished
      | branch hp hb hts hq hes hq' =>
        exact Executes.choose ih hp hb (.list hts (.jump hq hrest))
          (.list hes (hrest.before hq')) rfl hfinished

theorem Continues.declared (hpreamble : ∀ s ∈ preamble, ∃ x w, s = Stmt.register x w)
    (h : g.Continues p (.of k body)) : g.Continues p (.of k (preamble ++ body)) := by
  induction preamble with
  | nil => exact h
  | cons s preamble ih =>
    obtain ⟨⟨x, w, rfl⟩, hrest⟩ := List.forall_mem_cons.1 hpreamble
    exact .stmt .register (ih hrest)

/-- The head of a graph waits for the body from which the graph was built. -/
theorem waits_ofBody (h : Graph.ofBody body = .ok g) : g.Waits g.head (.of 0 body) := by
  obtain ⟨preamble, c, ss, registers, d, rfl, _, hpreamble, hd, rfl⟩ := ofBody_eq_ok h
  obtain ⟨hgrows, _, ss', hsound, hlays⟩ := (Draft.sound_start registers).addStmt _ hd
  have hend : d.graph.Ends ⟨d.current, ss'.length⟩ none :=
    ⟨ss', hsound.listed _ _ List.mem_cons_self, rfl⟩
  have hhead : d.graph.node? 0 = some (.head (some 1)) :=
    hgrows.keep rfl fun hn => nomatch List.mem_singleton.1 hn
  refine ⟨1, congrArg (Option.bind · Node.next?) hhead, ?_⟩
  apply Continues.declared (Stmt.eq_register_of_declarations hpreamble)
  exact .stmt (hlays d.graph (.refl _)) (.done hend)

theorem registers_ofBody (h : Graph.ofBody body = .ok g) :
    Stmt.declarations body = g.registers := by
  obtain ⟨preamble, c, ss, registers, d, rfl, _, hpreamble, hd, rfl⟩ := ofBody_eq_ok h
  obtain ⟨hgrows, _⟩ := (Draft.sound_start registers).addStmt _ hd
  have hdeclared : preamble.filterMap (fun s => s.declaration.toOption) = registers := by
    have hmap : preamble.filterMap (fun s => s.declaration.toOption) =
        (preamble.map Stmt.declaration).filterMap Except.toOption := by
      rw [List.filterMap_map]
      rfl
    rw [hmap, hpreamble, List.filterMap_map]
    exact List.filterMap_some
  rw [Stmt.declarations, List.filterMap_append, hdeclared, hgrows.registers]
  exact List.append_nil registers

end Graph

/-- A simulation of a graph and an execution of the source wait in the same place with the same
values. -/
structure GraphRun.Performs (g : Graph) (r : GraphRun) (q : SourceRun) : Prop where
  values : q.values = r.values
  steps : q.steps = r.steps
  waits : g.Waits r.position q.agenda

namespace GraphRun.Performs

variable {r : GraphRun} {q : SourceRun}

theorem step (h : r.Performs g q) (hstays : ∀ n, (r.step g).1 ≠ .error (.runaway n)) :
    ∃ q' limit, (r.step g).2.Performs g q' ∧
      ∀ budget, limit ≤ budget → q.step budget = ((r.step g).1, q') := by
  obtain ⟨j, hj, hcontinues⟩ := h.waits
  have hfinished : Graph.Finished (g.walk visitLimit r.values (some j)).2 := by
    intro hrunaway
    apply hstays visitLimit
    rw [GraphRun.step, hj]
    generalize g.walk visitLimit r.values (some j) = walked at hrunaway
    obtain ⟨v, result⟩ := walked
    cases hrunaway
    rfl
  obtain ⟨out, hanswers, limit, hyields⟩ :=
    Graph.Executes.enter (fun m _ => g.executes m) (Nat.le_refl _) hcontinues hfinished
  rw [GraphRun.step, hj]
  generalize g.walk visitLimit r.values (some j) = walked at hanswers
  cases hanswers with
  | waits hwaits =>
    refine ⟨⟨_, _, q.steps + 1⟩, limit, ⟨rfl, congrArg (· + 1) h.steps, hwaits⟩, ?_⟩
    intro budget hle
    rw [SourceRun.step, h.values, hyields budget hle]
  | fails =>
    refine ⟨⟨_, q.agenda, q.steps⟩, limit, ⟨rfl, h.steps, h.waits⟩, ?_⟩
    intro budget hle
    rw [SourceRun.step, h.values, hyields budget hle]

theorem obey (hinit : ∀ reset, (GraphRun.init g reset).Performs g (.init body reset))
    (h : r.Performs g q) (c : Command)
    (hstays : ∀ result ∈ (r.obey g c).1, ∀ n, result ≠ .error (.runaway n)) :
    ∃ q' limit, (r.obey g c).2.Performs g q' ∧
      ∀ budget, limit ≤ budget → q.obey budget body c = ((r.obey g c).1, q') := by
  cases c with
  | init reset => exact ⟨_, 0, hinit reset, fun budget _ => rfl⟩
  | set x w =>
    refine ⟨q.set x w, 0, ⟨?_, h.steps, h.waits⟩, fun budget _ => rfl⟩
    exact congrArg (Table.insert · x w) h.values
  | step =>
    obtain ⟨q', limit, hperforms, hstep⟩ := h.step (hstays _ rfl)
    refine ⟨q', limit, hperforms, ?_⟩
    intro budget hle
    rw [SourceRun.obey, hstep budget hle]
    rfl

theorem obeyAll (hinit : ∀ reset, (GraphRun.init g reset).Performs g (.init body reset))
    (h : r.Performs g q) (cs : List Command)
    (hstays : ∀ result ∈ (Command.obeyAll (GraphRun.obey g) r cs).1,
      ∀ n, result ≠ .error (.runaway n)) :
    ∃ q' limit, (Command.obeyAll (GraphRun.obey g) r cs).2.Performs g q' ∧
      ∀ budget, limit ≤ budget → Command.obeyAll (SourceRun.obey budget body) q cs =
        ((Command.obeyAll (GraphRun.obey g) r cs).1, q') := by
  induction cs generalizing r q with
  | nil => exact ⟨q, 0, h, fun budget _ => rfl⟩
  | cons c cs ih =>
    simp only [Command.obeyAll, List.mem_append, Option.mem_toList] at hstays ⊢
    obtain ⟨q₁, limit₁, h₁, hobey⟩ := h.obey hinit c fun result hr => hstays result (.inl hr)
    obtain ⟨q₂, limit₂, h₂, hall⟩ := ih h₁ fun result hr => hstays result (.inr hr)
    refine ⟨q₂, max limit₁ limit₂, h₂, ?_⟩
    intro budget hle
    rw [hobey budget (Nat.le_trans (Nat.le_max_left _ _) hle)]
    simp only [hall budget (Nat.le_trans (Nat.le_max_right _ _) hle)]

end GraphRun.Performs

/-- The graph of a body executes the body: until a step exceeds the limit of visited nodes, every
command has the result and leaves the values that it has in the source. -/
theorem ofBody_executes_source {body : List (Stmt Expr)} (hg : Graph.ofBody body = .ok g)
    (cs : List Command)
    (hstays : ∀ result ∈ (Command.obeyAll (GraphRun.obey g) (.start g) cs).1,
      ∀ n, result ≠ .error (.runaway n)) :
    ∃ limit, ∀ budget, limit ≤ budget →
      let source := Command.obeyAll (SourceRun.obey budget body) (.start body) cs
      let graph := Command.obeyAll (GraphRun.obey g) (.start g) cs
      source.1 = graph.1 ∧ source.2.values = graph.2.values ∧
        source.2.steps = graph.2.steps := by
  have hwaits := Graph.waits_ofBody hg
  have hinit (reset : Reset) : (GraphRun.init g reset).Performs g (.init body reset) := by
    refine ⟨?_, rfl, hwaits⟩
    rw [SourceRun.init, Graph.registers_ofBody hg]
    rfl
  have hstart : (GraphRun.start g).Performs g (.start body) := ⟨rfl, rfl, hwaits⟩
  obtain ⟨q, limit, hq, hall⟩ := hstart.obeyAll hinit cs hstays
  refine ⟨limit, ?_⟩
  intro budget hle
  rw [hall budget hle]
  exact ⟨rfl, hq.values, hq.steps⟩

/-- A loop in a loop with suspensions on both edges of a branch. -/
def nestedBody : List (Stmt Expr) :=
  [.register "i" (.int 8),
    .loop (.bool true)
      [.assign ["i"] (.int 0),
        .loop (.binary .lt (.var "i") (.int 2))
          [.update "i" .add (.var "d"), .branch (.var "a") [.suspend] [.suspend, .suspend]],
        .suspend]]

def nestedCommands : List Command :=
  [.init .zero, .set "a" (.bool true), .step, .set "d" (.int 1), .step, .set "a" (.bool false),
    .step, .step, .step]

theorem ofBody_executes_source_nestedBody :
    ∃ g, Graph.ofBody nestedBody = .ok g ∧
      (Command.obeyAll (GraphRun.obey g) (.start g) nestedCommands).1 =
        [.error (.undefined (.expr (.var "d"))), .ok 1, .ok 2, .ok 3, .ok 4] ∧
      ∃ limit, ∀ budget, limit ≤ budget →
        (Command.obeyAll (SourceRun.obey budget nestedBody) (.start nestedBody) nestedCommands).1 =
          [.error (.undefined (.expr (.var "d"))), .ok 1, .ok 2, .ok 3, .ok 4] := by
  obtain ⟨g, hg, hrun⟩ : ∃ g, Graph.ofBody nestedBody = .ok g ∧
      (Command.obeyAll (GraphRun.obey g) (.start g) nestedCommands).1 =
        [.error (.undefined (.expr (.var "d"))), .ok 1, .ok 2, .ok 3, .ok 4] :=
    ⟨_, rfl, rfl⟩
  have hstays : ∀ result ∈ (Command.obeyAll (GraphRun.obey g) (.start g) nestedCommands).1,
      ∀ n, result ≠ .error (.runaway n) := by
    rw [hrun]
    simp
  obtain ⟨limit, hlimit⟩ := ofBody_executes_source hg nestedCommands hstays
  exact ⟨g, hg, hrun, limit, fun budget hle => (hlimit budget hle).1.trans hrun⟩

end Clockwork
