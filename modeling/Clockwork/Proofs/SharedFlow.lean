import Clockwork.Pool.Compile
import Clockwork.Proofs.SharedWaits

namespace Clockwork
set_option autoImplicit true

namespace Pool

variable {p q : Pool} {g : Graph ExprRef} {g' : Graph}

theorem isInfiniteLoop_eq {s : Stmt ExprRef} {t : Stmt Expr}
    (h : s.map p.expr? = t.map some) : p.isInfiniteLoop s = t.isInfiniteLoop := by
  cases Stmt.alike_of_map_eq h with
  | loop hc _ => rw [isInfiniteLoop, Stmt.isInfiniteLoop, expr_of_expr? _ _ hc]
  | _ => rfl

theorem agrees_declaration (hp : p.WellFormed) {s : Stmt ExprRef} {t : Stmt Expr}
    (h : s.map p.expr? = t.map some) : p.Agrees Eq (p.declaration s) t.declaration := by
  cases Stmt.alike_of_map_eq h with
  | @register s w x hw =>
    have herror : (ProcessError.registerWidth s w).map p.expr? =
        (ProcessError.registerWidth s x).map some := by
      simp only [ProcessError.map, hw]
    cases (expr?_eq_some hp).1 hw with
    | int hget =>
      simp only [declaration, Stmt.declaration, hget]
      split
      · exact .ok rfl
      · exact .error herror
    | var hget _ | bool hget | unary hget _ | binary hget _ _ | ite hget _ _ _ =>
      simpa only [declaration, hget] using .error herror
  | _ => exact .error (congrArg ProcessError.notDeclaration h)

theorem agrees_declarations (hp : p.WellFormed) {ss : List (Stmt ExprRef)} {ts : List (Stmt Expr)}
    (h : ss.map (Stmt.map p.expr?) = ts.map (Stmt.map some)) :
    p.Agrees Eq (ss.mapM p.declaration) (ts.mapM Stmt.declaration) := by
  induction ss generalizing ts with
  | nil =>
    cases eq_nil_of_map_eq h
    exact .ok rfl
  | cons s ss ih =>
    obtain ⟨t, ts, rfl, hs, hss⟩ := eq_cons_of_map_eq h
    rw [List.mapM_cons, List.mapM_cons]
    apply (agrees_declaration hp hs).bind
    rintro d _ rfl
    apply (ih hss).bind
    rintro ds _ rfl
    exact .ok rfl

/-- The control flow graph of a body does not depend on how its expressions are shared. -/
theorem agrees_graphOf (hp : p.WellFormed) {body : List (Stmt ExprRef)} {body' : List (Stmt Expr)}
    (h : body.map (Stmt.map p.expr?) = body'.map (Stmt.map some)) :
    p.Agrees (fun g g' => g.map p.expr? = g'.map some) (p.graphOf body) (Graph.ofBody body') := by
  have hlast : body.getLast?.map (Stmt.map p.expr?) = body'.getLast?.map (Stmt.map some) := by
    rw [← List.getLast?_map, h, List.getLast?_map]
  have hinit : body.dropLast.map (Stmt.map p.expr?) = body'.dropLast.map (Stmt.map some) := by
    rw [List.map_dropLast, h, ← List.map_dropLast]
  unfold graphOf Graph.ofBody
  cases hs : body.getLast? with
  | none =>
    cases ht : body'.getLast? with
    | none => exact .error rfl
    | some t => simp [hs, ht] at hlast
  | some s =>
    cases ht : body'.getLast? with
    | none => simp [hs, ht] at hlast
    | some t =>
      rw [hs, ht, Option.map_some, Option.map_some, Option.some.injEq] at hlast
      simp only [isInfiniteLoop_eq hlast]
      cases t.isInfiniteLoop with
      | false => exact .error (congrArg ProcessError.noMainLoop hlast)
      | true =>
        apply (agrees_declarations hp hinit).bind
        rintro registers _ rfl
        have hadd : relabel p.expr? (Draft.map p.expr?) ((Draft.start registers).addStmt s) =
            relabel some (Draft.map some) ((Draft.start registers).addStmt t) := by
          rw [Draft.addStmt_map, Draft.addStmt_map, Draft.map_start, Draft.map_start, hlast]
        apply (Agrees.of_relabel hadd).bind
        intro d d' hd
        exact .ok (Draft.mk.inj hd).1

/-- A node in the pool stands for another one. -/
inductive NodeDenotes (p : Pool) : Option (Node ExprRef) → Option Node → Prop
  | none : NodeDenotes p none none
  | head {next} : NodeDenotes p (some (.head next)) (some (.head next))
  | block {ss ts next} (h : ss.map (Stmt.map p.expr?) = ts.map (Stmt.map some)) :
    NodeDenotes p (some (.block ss next)) (some (.block ts next))
  | branch {c x t e} (h : p.expr? c = some x) :
    NodeDenotes p (some (.branch c t e)) (some (.branch x t e))
  | suspend {k next} : NodeDenotes p (some (.suspend k next)) (some (.suspend k next))

theorem nodeDenotes (h : g.map p.expr? = g'.map some) (i : NodeId) :
    p.NodeDenotes (g.node? i) (g'.node? i) := by
  have hnode : (g.node? i).map (Node.map p.expr?) = (g'.node? i).map (Node.map some) := by
    rw [← Graph.node?_map, h, Graph.node?_map]
  generalize g.node? i = n at hnode ⊢
  generalize g'.node? i = n' at hnode ⊢
  cases n with
  | none =>
    cases n' with
    | none => exact .none
    | some n' => cases hnode
  | some n =>
    cases n' with
    | none => cases hnode
    | some n' =>
      rw [Option.map_some, Option.map_some, Option.some.injEq] at hnode
      cases n <;> cases n' <;>
        simp only [Node.map, reduceCtorEq, Node.head.injEq, Node.block.injEq, Node.branch.injEq,
          Node.suspend.injEq] at hnode
      case head.head =>
        cases hnode
        exact .head
      case block.block =>
        obtain ⟨hss, rfl⟩ := hnode
        exact .block hss
      case branch.branch =>
        obtain ⟨hc, rfl, rfl⟩ := hnode
        exact .branch hc
      case suspend.suspend =>
        obtain ⟨rfl, rfl⟩ := hnode
        exact .suspend

/-- What a pass may leave of a graph in the pool. -/
abbrev GraphDenotes (p : Pool) (result : Option (Graph ExprRef)) (result' : Option Graph) : Prop :=
  result.map (Graph.map p.expr?) = result'.map (Graph.map some)

theorem adds_withShortcut? (hp : p.WellFormed) (hg : g.map p.expr? = g'.map some) (i : NodeId) :
    Adds (withShortcut? g i) p fun q result => q.GraphDenotes result (g'.withShortcut? i) := by
  have hnode := nodeDenotes hg i
  unfold withShortcut? Graph.withShortcut?
  generalize g.node? i = n at hnode
  generalize g'.node? i = n' at hnode
  cases hnode with
  | none => exact .pure hp rfl
  | head => exact .pure hp rfl
  | branch => exact .pure hp rfl
  | suspend => exact .pure hp rfl
  | @block ss ts next hss =>
    cases next with
    | none => exact .pure hp rfl
    | some branch =>
      have hbranch := nodeDenotes hg branch
      dsimp only
      generalize g.node? branch = n at hbranch ⊢
      generalize g'.node? branch = n' at hbranch ⊢
      cases hbranch with
      | none => exact .pure hp rfl
      | head => exact .pure hp rfl
      | block => exact .pure hp rfl
      | suspend => exact .pure hp rfl
      | @branch c x t f hc =>
        apply (adds_knownLiterals hp hss).bind
        intro q table hq htable
        apply (adds_reduce hq.wellFormed htable (((expr?_eq_some hp).1 hc).mono hq)).bind
        intro q' c' hq' hc'
        apply Adds.get
        apply Adds.pure hq'.wellFormed
        have hg' := Graph.map_eq_of_imp (fun _ _ => (hq.trans hq').expr? hp) hg
        simp only [hc'.truth?, GraphDenotes, Option.map_map]
        cases (x.reduce (Clockwork.knownLiterals ts)).truth? with
        | none => rfl
        | some taken =>
          simp only [Option.map_some, Function.comp]
          rw [Graph.map_modify _ _ _ fun n => n.map_withNext _ _, hg',
            Graph.map_modify _ _ _ fun n => n.map_withNext _ _]

theorem adds_withoutLiteralBranch? (hp : p.WellFormed) (hg : g.map p.expr? = g'.map some)
    (i : NodeId) :
    Adds (withoutLiteralBranch? g i) p fun q result =>
      q.GraphDenotes result (g'.withoutLiteralBranch? i) := by
  have hnode := nodeDenotes hg i
  unfold withoutLiteralBranch? Graph.withoutLiteralBranch?
  generalize g.node? i = n at hnode
  generalize g'.node? i = n' at hnode
  cases hnode with
  | none => exact .pure hp rfl
  | head => exact .pure hp rfl
  | block => exact .pure hp rfl
  | suspend => exact .pure hp rfl
  | @branch c x t f hc =>
    apply Adds.get
    apply Adds.pure hp
    simp only [((expr?_eq_some hp).1 hc).truth?, GraphDenotes]
    cases x.truth? with
    | none => rfl
    | some taken =>
      simp only [Option.bind_some]
      generalize (if taken then t else f) = target
      split
      · rfl
      · rw [Option.map_some, Option.map_some, Graph.map_splice, hg, Graph.map_splice]

/-- A pass over all nodes that agrees at each of them agrees as a whole. -/
theorem adds_sweep
    {change? : Graph ExprRef → NodeId → StateM Pool (Option (Graph ExprRef))}
    {change?' : Graph → NodeId → Option Graph}
    (hchange : ∀ p g g' i, p.WellFormed → g.map p.expr? = g'.map some →
      Adds (change? g i) p fun q result => q.GraphDenotes result (change?' g' i))
    (hp : p.WellFormed) (hg : g.map p.expr? = g'.map some) :
    Adds (sweep change? g) p fun q result =>
      result.map q.expr? = (g'.sweep change?').1.map some := by
  have hsize : g.nodes.size = g'.nodes.size := by
    rw [← Graph.size_nodes_map p.expr? g, hg, Graph.size_nodes_map]
  unfold sweep Graph.sweep
  rw [hsize]
  generalize List.range g'.nodes.size = is
  clear hsize
  generalize 0 = count
  induction is generalizing p g g' count with
  | nil => exact .pure hp hg
  | cons i is ih =>
    rw [List.foldlM_cons, bind_assoc]
    apply (hchange p g g' i hp hg).bind
    intro q result hq hresult
    rw [pure_bind, List.foldl_cons]
    cases result with
    | none =>
      rw [GraphDenotes, Option.map_none, eq_comm, Option.map_eq_none_iff] at hresult
      simp only [hresult]
      exact ih hq.wellFormed (Graph.map_eq_of_imp (fun _ _ => hq.expr? hp) hg) count
    | some k =>
      rw [GraphDenotes, Option.map_some, eq_comm, Option.map_eq_some_iff] at hresult
      obtain ⟨k', hk', hk⟩ := hresult
      simp only [hk']
      exact ih hq.wellFormed hk.symm (count + 1)

/-- Graphs are simplified alike in every pool. -/
theorem adds_simplify (hp : p.WellFormed) (hg : g.map p.expr? = g'.map some) (bypass : Bool) :
    Adds (simplify bypass g) p fun q result =>
      result.map q.expr? = (g'.simplify bypass).map some := by
  have hpruned : g.pruneEmptyBlocks.1.map p.expr? = g'.pruneEmptyBlocks.1.map some := by
    rw [Graph.map_pruneEmptyBlocks, hg, Graph.map_pruneEmptyBlocks]
  have hliteral {q : Pool} {k : Graph ExprRef} {k' : Graph} (hq : q.WellFormed)
      (hk : k.map q.expr? = k'.map some) : Adds (sweep withoutLiteralBranch? k) q fun q result =>
        result.map q.expr? = k'.pruneLiteralBranches.1.map some :=
    adds_sweep (fun p g g' i hp hg => adds_withoutLiteralBranch? hp hg i) hq hk
  cases bypass with
  | false => exact hliteral hp hpruned
  | true =>
    apply (adds_sweep (fun p g g' i hp hg => adds_withShortcut? hp hg i) hp hpruned).bind
    intro q k hq hk
    exact hliteral hq.wellFormed hk

end Pool

end Clockwork
