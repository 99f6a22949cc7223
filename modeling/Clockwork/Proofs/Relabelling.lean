import Clockwork.Graph.OfBody
import Clockwork.Graph.Paths
import Clockwork.Graph.Simplify
import Clockwork.Machine.Basic
import Clockwork.Proofs.Containers

namespace Clockwork
set_option autoImplicit true

variable {ε δ γ : Type}

@[simp] theorem Stmt.mapList_eq_map (f : ε → δ) (ss : List (Stmt ε)) :
    Stmt.mapList f ss = ss.map (Stmt.map f) := by
  induction ss with
  | nil => rfl
  | cons s ss ih => rw [Stmt.mapList, ih, List.map_cons]

mutual

theorem Stmt.map_id (s : Stmt ε) : s.map (fun e => e) = s := by
  cases s with
  | register => rfl
  | assign => rfl
  | update => rfl
  | expr => rfl
  | branch c ts es => rw [Stmt.map, Stmt.mapList_id ts, Stmt.mapList_id es]
  | loop c body => rw [Stmt.map, Stmt.mapList_id body]
  | suspend => rfl
  | wait => rfl

theorem Stmt.mapList_id (ss : List (Stmt ε)) : Stmt.mapList (fun e => e) ss = ss := by
  cases ss with
  | nil => rfl
  | cons s ss => rw [Stmt.mapList, Stmt.map_id s, Stmt.mapList_id ss]

end

mutual

theorem Stmt.nested_map (f : ε → δ) (s : Stmt ε) : (s.map f).nested = s.nested.map (Stmt.map f) := by
  cases s with
  | branch c ts es =>
    simp only [Stmt.map, nested, List.map_cons, List.map_append, Stmt.nestedList_mapList f ts,
      Stmt.nestedList_mapList f es]
  | loop c body => simp only [Stmt.map, nested, List.map_cons, Stmt.nestedList_mapList f body]
  | _ => rfl

theorem Stmt.nestedList_mapList (f : ε → δ) (ss : List (Stmt ε)) :
    Stmt.nestedList (Stmt.mapList f ss) = (Stmt.nestedList ss).map (Stmt.map f) := by
  cases ss with
  | nil => rfl
  | cons s ss =>
    rw [mapList, nestedList, nestedList, Stmt.nested_map f s, Stmt.nestedList_mapList f ss,
      List.map_append]

end

theorem Stmt.nested_map_eq_singleton {f : ε → δ} {s : Stmt ε} :
    (s.map f).nested = [s.map f] ↔ s.nested = [s] := by
  rw [Stmt.nested_map]
  cases s <;> simp [nested]

theorem ClockedProcess.map_id (p : ClockedProcess ε) : p.map (fun e => e) = p := by
  rw [ClockedProcess.map, Stmt.mapList_id]

theorem Transition.map_id (t : Transition ε) : t.map (fun e => e) = t := by
  rw [Transition.map, List.map_id', Stmt.mapList_id, Stmt.map_id]

theorem Machine.map_id (m : Machine ε) : m.map (fun e => e) = m := by
  rw [Machine.map, funext Transition.map_id, List.map_id']

theorem ProcessError.map_id (e : ProcessError ε) : e.map (fun e => e) = e := by
  cases e <;> simp only [ProcessError.map, Stmt.map_id]

/-- Replaces every expression of a node. -/
def Node.map (f : ε → δ) : Node ε → Node δ
  | .head next => .head next
  | .block ss next => .block (ss.map (Stmt.map f)) next
  | .branch c t e => .branch (f c) t e
  | .suspend id next => .suspend id next

/-- Replaces every expression of a graph. -/
def Graph.map (f : ε → δ) (g : Graph ε) : Graph δ where
  nodes := g.nodes.map (Option.map (Node.map f))
  suspensionCount := g.suspensionCount
  registers := g.registers

/-- Replaces every expression of a node on a path. -/
def Waypoint.map (f : ε → δ) : Waypoint ε → Waypoint δ
  | .head => .head
  | .block ss => .block (ss.map (Stmt.map f))
  | .branch c taken => .branch (f c) taken
  | .suspend id => .suspend id

/-- Replaces every expression of a path. -/
def Path.map (f : ε → δ) (p : Path ε) : Path δ where
  nodes := p.nodes.map (Waypoint.map f)
  propagated := p.propagated

/-- Replaces every expression of a graph under construction. -/
def Draft.map (f : ε → δ) (d : Draft ε) : Draft δ where
  graph := d.graph.map f
  current := d.current

/-- Replaces every expression of an outcome. -/
def relabel (f : ε → δ) (g : α → β) : Except (ProcessError ε) α → Except (ProcessError δ) β
  | .ok v => .ok (g v)
  | .error e => .error (e.map f)

section Implied

variable {γ' : Type} {f : ε → γ} {f' : δ → γ} {g : ε → γ'} {g' : δ → γ'}

mutual

theorem Stmt.map_eq_of_imp (himp : ∀ a b, f a = f' b → g a = g' b) (s : Stmt ε) {t : Stmt δ}
    (h : s.map f = t.map f') : s.map g = t.map g' := by
  cases s <;> cases t <;>
    simp only [Stmt.map, reduceCtorEq, Stmt.register.injEq, Stmt.assign.injEq, Stmt.update.injEq,
      Stmt.expr.injEq, Stmt.branch.injEq, Stmt.loop.injEq, Stmt.wait.injEq] at h ⊢
  case register.register => exact ⟨h.1, himp _ _ h.2⟩
  case assign.assign => exact ⟨h.1, himp _ _ h.2⟩
  case update.update => exact ⟨h.1, h.2.1, himp _ _ h.2.2⟩
  case expr.expr => exact himp _ _ h
  case branch.branch c ts es _ _ _ =>
    exact ⟨himp _ _ h.1, Stmt.mapList_eq_of_imp himp ts h.2.1, Stmt.mapList_eq_of_imp himp es h.2.2⟩
  case loop.loop c body _ _ => exact ⟨himp _ _ h.1, Stmt.mapList_eq_of_imp himp body h.2⟩
  case wait.wait => exact himp _ _ h

theorem Stmt.mapList_eq_of_imp (himp : ∀ a b, f a = f' b → g a = g' b) (ss : List (Stmt ε))
    {ts : List (Stmt δ)} (h : Stmt.mapList f ss = Stmt.mapList f' ts) :
    Stmt.mapList g ss = Stmt.mapList g' ts := by
  cases ss with
  | nil =>
    cases ts with
    | nil => rfl
    | cons => cases h
  | cons s ss =>
    cases ts with
    | nil => cases h
    | cons t ts =>
      obtain ⟨hs, hss⟩ := List.cons.inj h
      rw [Stmt.mapList, Stmt.map_eq_of_imp himp s hs, Stmt.mapList_eq_of_imp himp ss hss,
        Stmt.mapList]

end

theorem Stmt.map_list_eq_of_imp (himp : ∀ a b, f a = f' b → g a = g' b) {ss : List (Stmt ε)}
    {ts : List (Stmt δ)} (h : ss.map (Stmt.map f) = ts.map (Stmt.map f')) :
    ss.map (Stmt.map g) = ts.map (Stmt.map g') :=
  map_eq_map_of_imp (fun s _ => Stmt.map_eq_of_imp himp s) h

/-- Statements that differ in their expressions only, with what is known of these. -/
inductive Stmt.Alike (f : ε → γ) (f' : δ → γ) : Stmt ε → Stmt δ → Prop
  | register {x w w'} (h : f w = f' w') : Alike f f' (.register x w) (.register x w')
  | assign {xs v v'} (h : f v = f' v') : Alike f f' (.assign xs v) (.assign xs v')
  | update {x op v v'} (h : f v = f' v') : Alike f f' (.update x op v) (.update x op v')
  | expr {v v'} (h : f v = f' v') : Alike f f' (.expr v) (.expr v')
  | branch {c c' ts ts' es es'} (hc : f c = f' c')
    (hts : ts.map (Stmt.map f) = ts'.map (Stmt.map f'))
    (hes : es.map (Stmt.map f) = es'.map (Stmt.map f')) :
    Alike f f' (.branch c ts es) (.branch c' ts' es')
  | loop {c c' body body'} (hc : f c = f' c')
    (hbody : body.map (Stmt.map f) = body'.map (Stmt.map f')) :
    Alike f f' (.loop c body) (.loop c' body')
  | suspend : Alike f f' .suspend .suspend
  | wait {n n'} (h : f n = f' n') : Alike f f' (.wait n) (.wait n')

theorem Stmt.alike_of_map_eq {s : Stmt ε} {t : Stmt δ} (h : s.map f = t.map f') :
    s.Alike f f' t := by
  cases s <;> cases t <;>
    simp only [Stmt.map, reduceCtorEq, Stmt.mapList_eq_map, Stmt.register.injEq,
      Stmt.assign.injEq, Stmt.update.injEq, Stmt.expr.injEq, Stmt.branch.injEq, Stmt.loop.injEq,
      Stmt.wait.injEq] at h
  case register.register =>
    obtain ⟨rfl, h⟩ := h
    exact .register h
  case assign.assign =>
    obtain ⟨rfl, h⟩ := h
    exact .assign h
  case update.update =>
    obtain ⟨rfl, rfl, h⟩ := h
    exact .update h
  case expr.expr => exact .expr h
  case branch.branch => exact .branch h.1 h.2.1 h.2.2
  case loop.loop => exact .loop h.1 h.2
  case suspend.suspend => exact .suspend
  case wait.wait => exact .wait h

theorem Node.map_eq_of_imp (himp : ∀ a b, f a = f' b → g a = g' b) {n : Node ε} {m : Node δ}
    (h : n.map f = m.map f') : n.map g = m.map g' := by
  cases n <;> cases m <;>
    simp only [Node.map, reduceCtorEq, Node.head.injEq, Node.block.injEq, Node.branch.injEq,
      Node.suspend.injEq] at h ⊢
  case head.head => exact h
  case block.block => exact ⟨Stmt.map_list_eq_of_imp himp h.1, h.2⟩
  case branch.branch => exact ⟨himp _ _ h.1, h.2⟩
  case suspend.suspend => exact h

theorem Graph.map_eq_of_imp (himp : ∀ a b, f a = f' b → g a = g' b) {k : Graph ε} {l : Graph δ}
    (h : k.map f = l.map f') : k.map g = l.map g' := by
  obtain ⟨hnodes, hcount, hregisters⟩ := Graph.mk.inj h
  have hlists := congrArg Array.toList hnodes
  rw [Array.toList_map, Array.toList_map] at hlists
  have himplied : k.nodes.toList.map (Option.map (Node.map g)) =
      l.nodes.toList.map (Option.map (Node.map g')) := by
    apply map_eq_map_of_imp _ hlists
    intro n m hnm
    cases n <;> cases m <;> simp only [Option.map_none, Option.map_some, reduceCtorEq,
      Option.some.injEq] at hnm ⊢
    exact Node.map_eq_of_imp himp hnm
  rw [← Array.toList_map, ← Array.toList_map] at himplied
  rw [Graph.map, Graph.map, Array.toList_inj.1 himplied, hcount, hregisters]

theorem Waypoint.map_eq_of_imp (himp : ∀ a b, f a = f' b → g a = g' b) {n : Waypoint ε}
    {m : Waypoint δ} (h : n.map f = m.map f') : n.map g = m.map g' := by
  cases n <;> cases m <;>
    simp only [Waypoint.map, reduceCtorEq, Waypoint.block.injEq, Waypoint.branch.injEq,
      Waypoint.suspend.injEq] at h ⊢
  case block.block => exact Stmt.map_list_eq_of_imp himp h
  case branch.branch => exact ⟨himp _ _ h.1, h.2⟩
  case suspend.suspend => exact h

/-- Waypoints that differ in their expressions only. -/
inductive Waypoint.Alike (f : ε → γ) (f' : δ → γ) : Waypoint ε → Waypoint δ → Prop
  | head : Alike f f' .head .head
  | block {ss ts} (h : ss.map (Stmt.map f) = ts.map (Stmt.map f')) :
    Alike f f' (.block ss) (.block ts)
  | branch {c c' taken} (h : f c = f' c') : Alike f f' (.branch c taken) (.branch c' taken)
  | suspend {k} : Alike f f' (.suspend k) (.suspend k)

theorem Waypoint.alike_of_map_eq {n : Waypoint ε} {m : Waypoint δ} (h : n.map f = m.map f') :
    n.Alike f f' m := by
  cases n <;> cases m <;>
    simp only [Waypoint.map, reduceCtorEq, Waypoint.block.injEq, Waypoint.branch.injEq,
      Waypoint.suspend.injEq] at h
  case head.head => exact .head
  case block.block => exact .block h
  case branch.branch =>
    obtain ⟨h, rfl⟩ := h
    exact .branch h
  case suspend.suspend =>
    cases h
    exact .suspend

theorem Path.map_eq_of_imp (himp : ∀ a b, f a = f' b → g a = g' b) {p : Path ε} {q : Path δ}
    (h : p.map f = q.map f') : p.map g = q.map g' := by
  obtain ⟨hnodes, hpropagated⟩ := Path.mk.inj h
  rw [Path.map, Path.map, map_eq_map_of_imp (fun _ _ => Waypoint.map_eq_of_imp himp) hnodes,
    hpropagated]

theorem Transition.map_eq_of_imp (himp : ∀ a b, f a = f' b → g a = g' b) {t : Transition ε}
    {u : Transition δ} (h : t.map f = u.map f') : t.map g = u.map g' := by
  simp only [Transition.map, Transition.mk.injEq, Stmt.mapList_eq_map] at h ⊢
  obtain ⟨hsource, hactivation, hguards, heffects, htarget, hmove⟩ := h
  exact ⟨hsource, himp _ _ hactivation, map_eq_map_of_imp himp hguards,
    Stmt.map_list_eq_of_imp himp heffects, htarget, Stmt.map_eq_of_imp himp _ hmove⟩

theorem ProcessError.map_eq_of_imp (himp : ∀ a b, f a = f' b → g a = g' b) {e : ProcessError ε}
    {e' : ProcessError δ} (h : e.map f = e'.map f') : e.map g = e'.map g' := by
  cases e <;> cases e' <;>
    simp only [ProcessError.map, reduceCtorEq, ProcessError.noMainLoop.injEq,
      ProcessError.stateVarUsed.injEq, ProcessError.endReached.injEq, ProcessError.waitCount.injEq,
      ProcessError.registerWidth.injEq, ProcessError.notDeclaration.injEq,
      ProcessError.targetCount.injEq, ProcessError.unexpandedWait.injEq,
      ProcessError.lateRegister.injEq, ProcessError.pathTooLong.injEq] at h ⊢
  case noMainLoop.noMainLoop => exact Stmt.map_eq_of_imp himp _ h
  case stateVarUsed.stateVarUsed => exact h
  case endReached.endReached => exact h
  case waitCount.waitCount => exact himp _ _ h
  case registerWidth.registerWidth => exact ⟨h.1, himp _ _ h.2⟩
  case notDeclaration.notDeclaration => exact Stmt.map_eq_of_imp himp _ h
  case targetCount.targetCount => exact Stmt.map_eq_of_imp himp _ h
  case unexpandedWait.unexpandedWait => exact Stmt.map_eq_of_imp himp _ h
  case lateRegister.lateRegister => exact h
  case pathTooLong.pathTooLong => exact h

theorem Machine.map_eq_of_imp (himp : ∀ a b, f a = f' b → g a = g' b) {m : Machine ε}
    {n : Machine δ} (h : m.map f = n.map f') : m.map g = n.map g' := by
  simp only [Machine.map, Machine.mk.injEq] at h ⊢
  obtain ⟨hname, hstateVar, htransitions, hrest⟩ := h
  exact ⟨hname, hstateVar,
    map_eq_map_of_imp (fun _ _ => Transition.map_eq_of_imp himp) htransitions, hrest⟩

theorem ClockedProcess.map_eq_of_imp (himp : ∀ a b, f a = f' b → g a = g' b)
    {p : ClockedProcess ε} {q : ClockedProcess δ} (h : p.map f = q.map f') :
    p.map g = q.map g' := by
  simp only [ClockedProcess.map, ClockedProcess.mk.injEq] at h ⊢
  obtain ⟨hname, hports, hbody⟩ := h
  exact ⟨hname, hports, Stmt.mapList_eq_of_imp himp _ hbody⟩

end Implied

variable (f : ε → δ)

theorem relabel_pure (g : α → β) (v : α) : relabel f g (pure v) = pure (g v) := rfl

theorem relabel_throw (g : α → β) (e : ProcessError ε) :
    relabel f g (throw e) = throw (e.map f) := rfl

theorem relabel_bind {x : Except (ProcessError ε) α} {k : α → Except (ProcessError ε) β}
    {k' : α' → Except (ProcessError δ) β'} (g : α → α') (g' : β → β')
    (hk : ∀ v, relabel f g' (k v) = k' (g v)) :
    relabel f g' (x >>= k) = relabel f g x >>= k' := by
  cases x with
  | error e => rfl
  | ok v => exact hk v

namespace Node

variable (n : Node ε)

theorem map_mapEdges (h : Option NodeId → Option NodeId) :
    (n.mapEdges h).map f = (n.map f).mapEdges h := by
  cases n <;> rfl

theorem map_withNext (target : Option NodeId) :
    (n.withNext target).map f = (n.map f).withNext target := by
  cases n <;> rfl

theorem map_withFalse (target : Option NodeId) :
    (n.withFalse target).map f = (n.map f).withFalse target := by
  cases n <;> rfl

theorem map_append (s : Stmt ε) : (n.append s).map f = (n.map f).append (s.map f) := by
  cases n with
  | block ss next => simp [append, map]
  | head => rfl
  | branch => rfl
  | suspend => rfl

theorem next?_map : (n.map f).next? = n.next? := by
  cases n <;> rfl

end Node

namespace Graph

variable (g : Graph ε)

theorem size_nodes_map : (g.map f).nodes.size = g.nodes.size :=
  Array.size_map

theorem node?_map (i : NodeId) : (g.map f).node? i = (g.node? i).map (Node.map f) := by
  simp only [node?, map, Array.getElem?_map]
  cases g.nodes[i]? <;> rfl

theorem map_modify (i : NodeId) {h : Node ε → Node ε} {h' : Node δ → Node δ}
    (hh : ∀ n, (h n).map f = h' (n.map f)) : (g.modify i h).map f = (g.map f).modify i h' := by
  have hnodes : (g.nodes.modify i (Option.map h)).map (Option.map (Node.map f)) =
      (g.nodes.map (Option.map (Node.map f))).modify i (Option.map h') := by
    apply Array.ext_getElem?
    intro j
    simp only [Array.getElem?_map, Array.getElem?_modify]
    split
    · cases g.nodes[j]? with
      | none => rfl
      | some n => cases n <;> simp [hh]
    · rfl
  simp only [modify, map, hnodes]

theorem map_splice (i : NodeId) (target : Option NodeId) :
    (g.splice i target).map f = (g.map f).splice i target := by
  have hnodes : ((g.nodes.map (Option.map (Node.mapEdges (redirect i target)))).modify i
      fun _ => none).map (Option.map (Node.map f)) =
      ((g.nodes.map (Option.map (Node.map f))).map
        (Option.map (Node.mapEdges (redirect i target)))).modify i fun _ => none := by
    apply Array.ext_getElem?
    intro j
    simp only [Array.getElem?_map, Array.getElem?_modify]
    split
    · cases g.nodes[j]? <;> rfl
    · cases g.nodes[j]? with
      | none => rfl
      | some n => cases n <;> simp [Node.map_mapEdges]
  simp only [splice, map, hnodes]

theorem present_map :
    (g.map f).present = g.present.map fun entry => (entry.1, entry.2.map f) := by
  simp only [present, size_nodes_map, node?_map, List.map_filterMap]
  congr
  funext i
  cases g.node? i <;> rfl

theorem suspensions_map : (g.map f).suspensions = g.suspensions := by
  simp only [suspensions, present_map, List.filterMap_map]
  congr
  funext entry
  obtain ⟨i, n⟩ := entry
  cases n <;> rfl

theorem starts_map : (g.map f).starts = g.starts := by
  simp only [starts, suspensions_map, head]

theorem map_withoutEmptyBlock? (i : NodeId) :
    (g.withoutEmptyBlock? i).map (Graph.map f) = (g.map f).withoutEmptyBlock? i := by
  simp only [withoutEmptyBlock?, node?_map]
  cases g.node? i with
  | none => rfl
  | some n =>
    cases n with
    | head => rfl
    | branch => rfl
    | suspend => rfl
    | block ss next =>
      cases ss with
      | cons => rfl
      | nil =>
        simp only [Option.map_some, Node.map, List.map_nil]
        split
        · rfl
        · rw [Option.map_some, map_splice]

/-- A sweep whose changes do not look into expressions commutes with replacing them. -/
theorem map_sweep {change? : Graph ε → NodeId → Option (Graph ε)}
    {change?' : Graph δ → NodeId → Option (Graph δ)}
    (hchange : ∀ g i, (change? g i).map (Graph.map f) = change?' (g.map f) i) :
    (g.sweep change?).1.map f = ((g.map f).sweep change?').1 := by
  unfold sweep
  rw [size_nodes_map]
  generalize List.range g.nodes.size = is
  generalize 0 = count
  induction is generalizing g count with
  | nil => rfl
  | cons i is ih =>
    simp only [List.foldl_cons, ← hchange g i]
    cases change? g i with
    | none => exact ih g count
    | some k => exact ih k (count + 1)

theorem map_pruneEmptyBlocks : g.pruneEmptyBlocks.1.map f = (g.map f).pruneEmptyBlocks.1 :=
  g.map_sweep f fun g i => g.map_withoutEmptyBlock? f i

theorem suffixes_map (depth : Nat) (edge : Option NodeId) :
    (g.map f).suffixes depth edge =
      (g.suffixes depth edge).map (List.map (List.map (Waypoint.map f))) := by
  induction depth generalizing edge with
  | zero => rfl
  | succ depth ih =>
    have hnode : edge.bind (g.map f).node? = (edge.bind g.node?).map (Node.map f) := by
      cases edge with
      | none => rfl
      | some i => exact g.node?_map f i
    rw [suffixes, suffixes, hnode]
    cases edge.bind g.node? with
    | none => rfl
    | some n =>
      cases n with
      | head => rfl
      | suspend => rfl
      | block ss next =>
        simp only [Option.map_some, Node.map, ih]
        cases g.suffixes depth next with
        | error => rfl
        | ok rest => simp [Except.map, Waypoint.map, bind, Except.bind, pure, Except.pure]
      | branch c t e =>
        simp only [Option.map_some, Node.map, ih]
        cases g.suffixes depth t with
        | error => rfl
        | ok onTrue =>
          cases g.suffixes depth e with
          | error => rfl
          | ok onFalse =>
            simp [Except.map, Waypoint.map, bind, Except.bind, pure, Except.pure,
              Function.comp_def]

theorem pathsFrom_map (maxDepth : Nat) (start : Start × NodeId) :
    relabel f (List.map (Path.map f)) (g.pathsFrom maxDepth start) =
      (g.map f).pathsFrom maxDepth start := by
  obtain ⟨start, i⟩ := start
  have hnext : ((g.map f).node? i).bind Node.next? = (g.node? i).bind Node.next? := by
    rw [node?_map]
    cases g.node? i with
    | none => rfl
    | some n => exact n.next?_map f
  have hstart : (start.waypoint : Waypoint ε).map f = start.waypoint := by
    cases start <;> rfl
  simp only [pathsFrom, hnext, suffixes_map]
  cases g.suffixes maxDepth ((g.node? i).bind Node.next?) with
  | error obstacle =>
    cases obstacle <;> rfl
  | ok suffixes =>
    have hpaths : (suffixes.map fun nodes => .ofNodes (start.waypoint :: nodes)).map (Path.map f) =
        (suffixes.map (List.map (Waypoint.map f))).map fun nodes =>
          .ofNodes (start.waypoint :: nodes) := by
      simp [Path.map, Path.ofNodes, hstart]
    exact congrArg Except.ok hpaths

theorem paths_map (maxDepth : Nat) :
    relabel f (List.map (Path.map f)) (g.paths maxDepth) = (g.map f).paths maxDepth := by
  have hmapM (starts : List (Start × NodeId)) :
      relabel f (List.map (List.map (Path.map f))) (starts.mapM (g.pathsFrom maxDepth)) =
        starts.mapM ((g.map f).pathsFrom maxDepth) := by
    induction starts with
    | nil => rfl
    | cons start starts ih =>
      rw [List.mapM_cons, List.mapM_cons, ← pathsFrom_map, ← ih]
      apply relabel_bind f (List.map (Path.map f))
      intro paths
      apply relabel_bind f (List.map (List.map (Path.map f)))
      intro rest
      rfl
  rw [paths, paths, starts_map, ← hmapM]
  apply relabel_bind f (List.map (List.map (Path.map f)))
  intro pathss
  simp [relabel, pure, Except.pure, List.map_flatten]

end Graph

namespace Draft

variable (d : Draft ε)

theorem fresh_map : (d.map f).fresh = d.fresh :=
  d.graph.size_nodes_map f

theorem map_push (n : Node ε) : (d.push n).map f = (d.map f).push (n.map f) := by
  simp [push, map, Graph.map]

theorem map_modify (i : NodeId) {h : Node ε → Node ε} {h' : Node δ → Node δ}
    (hh : ∀ n, (h n).map f = h' (n.map f)) : (d.modify i h).map f = (d.map f).modify i h' := by
  simp only [modify, map, Graph.map_modify f d.graph i hh]

theorem map_connect (source target : NodeId) :
    (d.connect source target).map f = (d.map f).connect source target :=
  d.map_modify f source fun n => n.map_withNext f _

theorem map_startBlock : d.startBlock.map f = (d.map f).startBlock := by
  simp [startBlock, push, map, Graph.map, fresh, Node.map]

theorem map_startBranch (c : ε) : (d.startBranch c).map f = (d.map f).startBranch (f c) := by
  rw [startBranch, map_startBlock, map_connect, map_push, startBranch, fresh_map]
  rfl

theorem map_startFalse (branch : NodeId) :
    (d.startFalse branch).map f = (d.map f).startFalse branch := by
  rw [startFalse, map_startBlock, d.map_modify f branch fun n => n.map_withFalse f _, startFalse,
    fresh_map]

theorem map_suspend : d.suspend.map f = (d.map f).suspend := by
  have hconnect (id : Nat) :
      ((d.push (.suspend id (some (d.fresh + 1)))).connect d.current d.fresh).map f =
        ((d.map f).push (.suspend id (some ((d.map f).fresh + 1)))).connect d.current
          (d.map f).fresh := by
    rw [map_connect, map_push, fresh_map]
    rfl
  have hcount := congrArg (fun d' : Draft δ =>
    ({ d' with graph.suspensionCount := d.graph.suspensionCount + 1 } : Draft δ).startBlock)
    (hconnect (d.graph.suspensionCount + 1))
  exact (map_startBlock f _).trans hcount

theorem map_append (s : Stmt ε) : (d.append s).map f = (d.map f).append (s.map f) :=
  d.map_modify f d.current fun n => n.map_append f s

theorem map_start (registers : List (String × Nat)) :
    (start registers : Draft ε).map f = start registers := by
  simp [start, map, Graph.map, Node.map]

end Draft

mutual

theorem Draft.addStmt_map (d : Draft ε) (s : Stmt ε) :
    relabel f (Draft.map f) (d.addStmt s) = (d.map f).addStmt (s.map f) := by
  cases s with
  | register x w =>
    rw [Draft.addStmt, Stmt.map, Draft.addStmt]
    rfl
  | assign xs v =>
    match xs with
    | [x] =>
      rw [Draft.addStmt, Stmt.map, Draft.addStmt]
      exact congrArg Except.ok (d.map_append f (.assign [x] v))
    | [] => simp only [Draft.addStmt, Stmt.map, relabel_throw, ProcessError.map]
    | x :: y :: xs => simp only [Draft.addStmt, Stmt.map, relabel_throw, ProcessError.map]
  | update x op v =>
    rw [Draft.addStmt, Stmt.map, Draft.addStmt]
    exact congrArg Except.ok (d.map_append f (.update x op v))
  | expr v =>
    rw [Draft.addStmt, Stmt.map, Draft.addStmt]
    exact congrArg Except.ok (d.map_append f (.expr v))
  | suspend =>
    rw [Draft.addStmt, Stmt.map, Draft.addStmt]
    exact congrArg Except.ok (d.map_suspend f)
  | wait n =>
    rw [Draft.addStmt, Stmt.map, Draft.addStmt]
    rfl
  | loop c body =>
    rw [Draft.addStmt, Stmt.map, Draft.addStmt, Stmt.mapList_eq_map, ← map_startBranch,
      ← Draft.addStmts_map (d.startBranch c) body]
    apply relabel_bind f (Draft.map f)
    intro d'
    rw [relabel_pure, map_startFalse, map_connect, fresh_map]
    rfl
  | branch c ts es =>
    cases es with
    | nil =>
      rw [Draft.addStmt, Stmt.map, Stmt.mapList, Draft.addStmt, Stmt.mapList_eq_map,
        ← map_startBranch, ← Draft.addStmts_map (d.startBranch c) ts]
      apply relabel_bind f (Draft.map f)
      intro d'
      rw [relabel_pure, map_startFalse, map_connect, fresh_map, fresh_map]
      rfl
    | cons e es =>
      rw [Draft.addStmt, Stmt.map, Stmt.mapList, Draft.addStmt, Stmt.mapList_eq_map,
        Stmt.mapList_eq_map, ← map_startBranch, ← Draft.addStmts_map (d.startBranch c) ts]
      apply relabel_bind f (Draft.map f)
      intro d₁
      rw [fresh_map, ← map_startFalse, ← Draft.addStmt_map (d₁.startFalse d.fresh) e]
      apply relabel_bind f (Draft.map f)
      intro d₂
      rw [← Draft.addStmts_map d₂ es]
      apply relabel_bind f (Draft.map f)
      intro d₃
      rw [relabel_pure, map_startBlock, map_connect, map_connect, fresh_map]
      rfl

theorem Draft.addStmts_map (d : Draft ε) (ss : List (Stmt ε)) :
    relabel f (Draft.map f) (d.addStmts ss) = (d.map f).addStmts (ss.map (Stmt.map f)) := by
  cases ss with
  | nil =>
    rw [Draft.addStmts, List.map_nil, Draft.addStmts]
    rfl
  | cons s ss =>
    rw [Draft.addStmts, List.map_cons, Draft.addStmts, ← Draft.addStmt_map d s]
    apply relabel_bind f (Draft.map f)
    intro d'
    exact Draft.addStmts_map d' ss

end

end Clockwork
