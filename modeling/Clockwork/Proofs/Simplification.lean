import Clockwork.Proofs.Construction
import Clockwork.Proofs.KnownLiterals
import Clockwork.Proofs.Runs

namespace Clockwork
set_option autoImplicit true

variable {g h k : Graph} {keeps : Except RunError (NodeId × Nat) → Prop}

/-- The nodes in which a simulation waits. -/
def Node.IsRest : Node → Prop
  | .head _ | .suspend _ _ => True
  | .block _ _ | .branch _ _ _ => False

theorem Node.IsRest.of_core {n m : Node} (hm : m.IsRest) (h : n.core = m.core) : n.IsRest := by
  cases n <;> cases m <;> cases h <;> exact hm

theorem Node.next?_mapEdges (n : Node) (f : Option NodeId → Option NodeId) (hf : f none = none) :
    (n.mapEdges f).next? = f n.next? := by
  cases n with
  | branch => exact hf.symm
  | head => rfl
  | block => rfl
  | suspend => rfl

namespace Graph

def Rests (g : Graph) (i : NodeId) : Prop :=
  ∃ n, g.node? i = some n ∧ n.IsRest

theorem not_rests {n : Node} (hi : g.node? i = some n) (hn : ¬ n.IsRest) : ¬ g.Rests i := by
  intro hrest
  obtain ⟨m, hm, hr⟩ := hrest
  rw [hi] at hm
  cases hm
  exact hn hr

theorem Rests.ne_of_not (hj : g.Rests j) (hi : ¬ g.Rests i) : i ≠ j := by
  intro he
  rw [he] at hi
  exact hi hj

/-- A walk from a node in which a simulation waits. -/
def resume (g : Graph) (budget : Nat) (v : Valuation) (i : NodeId) :
    Valuation × Except RunError (NodeId × Nat) :=
  g.walk budget v ((g.node? i).bind Node.next?)

/-- Wherever the second graph can wait, so can the first, and from there it copies every walk whose
result is to be kept. -/
structure Mimics (keeps : Except RunError (NodeId × Nat) → Prop) (h g : Graph) : Prop where
  registers : h.registers = g.registers
  rests : ∀ i, g.Rests i → h.Rests i
  resume : ∀ i budget v, g.Rests i → keeps (g.resume budget v i).2 →
    h.resume budget v i = g.resume budget v i

theorem Mimics.refl (g : Graph) : Mimics keeps g g :=
  ⟨rfl, fun _ => id, fun _ _ _ _ _ => rfl⟩

theorem Mimics.trans (hk : Mimics keeps k h) (hh : Mimics keeps h g) : Mimics keeps k g where
  registers := hk.registers.trans hh.registers
  rests i hi := hk.rests i (hh.rests i hi)
  resume i budget v hi hkeeps := by
    have hcopy := hh.resume i budget v hi hkeeps
    rw [← hcopy] at hkeeps
    exact (hk.resume i budget v (hh.rests i hi) hkeeps).trans hcopy

theorem redirect_of_ne (hn : next ≠ some i) : redirect i target next = next :=
  if_neg hn

theorem visit_splice (g : Graph) (i : NodeId) (target : Option NodeId) (v : Valuation)
    (hedge : edge ≠ some i) :
    (g.splice i target).visit v edge = (g.visit v edge).mapEdge (redirect i target) := by
  cases edge with
  | none => rfl
  | some j =>
    have hij : i ≠ j := fun e => hedge (e ▸ rfl)
    rw [visit, visit, node?_splice, if_neg hij]
    cases g.node? j with
    | none => rfl
    | some n => exact Node.visit_mapEdges _ v j n

/-- A node that only passes control on can be taken out of every finished walk. -/
theorem walk_splice (hpass : ∀ v, g.visit v (some i) = .go v target) (htarget : target ≠ some i)
    (hfin : Finished (g.walk budget v edge).2) :
    (g.splice i target).walk budget v (redirect i target edge) = g.walk budget v edge := by
  induction budget generalizing v edge with
  | zero => exact (hfin rfl).elim
  | succ budget ih =>
    rw [walk_succ] at hfin
    by_cases hedge : edge = some i
    · subst hedge
      rw [hpass] at hfin
      have hcopy := ih hfin
      rw [redirect_of_ne htarget] at hcopy
      -- The new walk comes by with a node of budget to spare.
      have hmono : (g.splice i target).walk (budget + 1) v target =
          (g.splice i target).walk budget v target := by
        apply walk_mono
        rw [hcopy]
        exact hfin
      rw [redirect, if_pos rfl, hmono, hcopy, walk_succ, hpass]
    · rw [redirect_of_ne hedge, walk_succ, walk_succ, visit_splice g i target v hedge]
      cases hv : g.visit v edge with
      | stop u result => rfl
      | go u next =>
        rw [hv] at hfin
        exact ih hfin

theorem Mimics.splice (hrest : ¬ g.Rests i) (hpass : ∀ v, g.visit v (some i) = .go v target)
    (htarget : target ≠ some i) (hkeeps : ∀ result, keeps result → Finished result) :
    Mimics keeps (g.splice i target) g where
  registers := rfl
  rests j hj := by
    have hij := hj.ne_of_not hrest
    obtain ⟨n, hn, hr⟩ := hj
    refine ⟨n.mapEdges (redirect i target), ?_, hr.of_core (Node.core_mapEdges _ n)⟩
    rw [node?_splice, if_neg hij, hn]
    rfl
  resume j budget v hj hk := by
    have hij := hj.ne_of_not hrest
    obtain ⟨n, hn, hr⟩ := hj
    have hnext : ((g.splice i target).node? j).bind Node.next? =
        redirect i target ((g.node? j).bind Node.next?) := by
      rw [node?_splice, if_neg hij, hn]
      exact Node.next?_mapEdges n _ rfl
    rw [Graph.resume, hnext]
    exact walk_splice hpass htarget (hkeeps _ hk)

theorem Mimics.withoutEmptyBlock (hkeeps : ∀ result, keeps result → Finished result)
    (h : g.withoutEmptyBlock? i = some k) : Mimics keeps k g := by
  obtain ⟨target, hi, htarget, rfl⟩ := withoutEmptyBlock?_eq_some h
  have hpass : ∀ v, g.visit v (some i) = .go v target := by
    intro v
    simp only [visit, hi, Node.visit, Stmt.execList]
  exact .splice (not_rests hi id) hpass htarget hkeeps

theorem Mimics.withoutLiteralBranch (hkeeps : ∀ result, keeps result → Finished result)
    (h : g.withoutLiteralBranch? i = some k) : Mimics keeps k g := by
  obtain ⟨l, t, f, target, hi, hchosen, htarget, rfl⟩ := withoutLiteralBranch?_eq_some h
  have hpass : ∀ v, g.visit v (some i) = .go v target := by
    intro v
    simp only [visit, hi, Node.visit, Valuation.eval, Expr.eval_ofValue, hchosen]
  exact .splice (not_rests hi id) hpass htarget hkeeps

/-- A branch that the statements before it have decided. -/
theorem walk_decided (hb : g.node? b = some (.branch c t f)) (hexec : Stmt.execList v ss = (u, none))
    (hc : (c.reduce (knownLiterals ss)).truth? = some taken)
    (hok : (g.walk budget u (some b)).2 = .ok stop) :
    g.walk budget u (if taken then t else f) = g.walk budget u (some b) := by
  cases budget with
  | zero => cases hok
  | succ budget =>
    have hvisit : g.visit u (some b) = (Node.branch c t f).visit u b := by
      rw [visit, hb]
    rw [walk_succ, hvisit, Node.visit] at hok
    rw [walk_succ g budget u (some b), hvisit, Node.visit]
    cases he : u.eval c with
    | error e => rw [he] at hok; cases hok
    | ok w =>
      rw [he] at hok
      have hw := truth_of_reduce_knownLiterals hexec hc (Valuation.eval_eq_ok.1 he)
      subst hw
      apply walk_mono
      intro hrun
      rw [hrun] at hok
      cases hok

/-- Only walks to a suspension survive a shortcut: an evaluation that would fail in the branch is
left out. -/
theorem walk_shortcut (hi : g.node? i = some (.block ss (some b)))
    (hb : g.node? b = some (.branch c t f))
    (hc : (c.reduce (knownLiterals ss)).truth? = some taken)
    (hok : (g.walk budget v edge).2 = .ok stop) :
    (g.modify i (Node.withNext (if taken then t else f))).walk budget v edge =
      g.walk budget v edge := by
  induction budget generalizing v edge with
  | zero => cases hok
  | succ budget ih =>
    rw [walk_succ] at hok
    rw [walk_succ, walk_succ]
    by_cases hedge : edge = some i
    · subst hedge
      have hvisit : g.visit v (some i) = (Node.block ss (some b)).visit v i := by
        rw [visit, hi]
      have hvisit' : (g.modify i (Node.withNext (if taken then t else f))).visit v (some i) =
          (Node.block ss (if taken then t else f)).visit v i := by
        rw [visit, node?_modify, if_pos rfl, hi]
        rfl
      rw [hvisit, Node.visit] at hok ⊢
      rw [hvisit', Node.visit]
      cases hexec : Stmt.execList v ss with
      | mk u failure =>
        rw [hexec] at hok
        cases failure with
        | some e => cases hok
        | none =>
          -- Block and branch are two visits of the old walk and one of the new walk.
          have hskip := walk_decided hb hexec hc hok
          have hok' : (g.walk budget u (if taken then t else f)).2 = .ok stop := by
            rw [hskip]
            exact hok
          exact (ih hok').trans hskip
    · have hsame : (g.modify i (Node.withNext (if taken then t else f))).visit v edge =
          g.visit v edge := by
        cases edge with
        | none => rfl
        | some j =>
          have hij : i ≠ j := fun e => hedge (e ▸ rfl)
          rw [visit, visit, node?_modify, if_neg hij]
      rw [hsame]
      cases hv : g.visit v edge with
      | stop u result => rfl
      | go u next =>
        rw [hv] at hok
        exact ih hok

/-- The walk reached a suspension. -/
def Suspended (result : Except RunError (NodeId × Nat)) : Prop :=
  ∃ stop, result = .ok stop

theorem Suspended.finished (h : Suspended result) : Finished result := by
  obtain ⟨stop, rfl⟩ := h
  exact nofun

theorem Mimics.withShortcut (h : g.withShortcut? i = some k) : Mimics Suspended k g := by
  obtain ⟨ss, b, c, t, f, taken, hi, hb, hc, rfl⟩ := withShortcut?_eq_some h
  have hother : ∀ j, g.Rests j →
      (g.modify i (Node.withNext (if taken then t else f))).node? j = g.node? j := by
    intro j hj
    rw [node?_modify, if_neg (hj.ne_of_not (not_rests hi id))]
  constructor
  case registers => rfl
  case rests =>
    intro j hj
    rw [Rests, hother j hj]
    exact hj
  case resume =>
    intro j budget v hj hsuspended
    obtain ⟨stop, hok⟩ := hsuspended
    rw [Graph.resume, hother j hj]
    exact walk_shortcut hi hb hc hok

theorem sweep_mimics {change? : Graph → NodeId → Option Graph}
    (hchange : ∀ g k i, change? g i = some k → Mimics keeps k g) (g : Graph) :
    Mimics keeps (g.sweep change?).1 g :=
  sweep_induction (P := fun k => Mimics keeps k g)
    (fun h k i hk hh => (hchange h k i hk).trans hh) (.refl g)

theorem simplify_mimics_suspended (bypass : Bool) (g : Graph) :
    Mimics Suspended (g.simplify bypass) g := by
  have hempty : Mimics Suspended g.pruneEmptyBlocks.1 g :=
    sweep_mimics (fun _ _ _ => .withoutEmptyBlock fun _ => Suspended.finished) g
  have hliteral (k : Graph) : Mimics Suspended k.pruneLiteralBranches.1 k :=
    sweep_mimics (fun _ _ _ => .withoutLiteralBranch fun _ => Suspended.finished) k
  cases bypass with
  | false => exact (hliteral _).trans hempty
  | true =>
    have hshort (k : Graph) : Mimics Suspended k.shortcutDecided.1 k :=
      sweep_mimics (fun _ _ _ => .withShortcut) k
    exact (hliteral _).trans ((hshort _).trans hempty)

theorem simplify_mimics_finished (g : Graph) : Mimics Finished (g.simplify false) g :=
  (sweep_mimics (fun _ _ _ => .withoutLiteralBranch fun _ => id) _).trans
    (sweep_mimics (fun _ _ _ => .withoutEmptyBlock fun _ => id) g)

end Graph

namespace GraphRun

variable {r : GraphRun}

theorem step_result (g : Graph) (r : GraphRun) :
    (r.step g).1 = (g.resume visitLimit r.values r.position).2.map Prod.snd := by
  unfold step Graph.resume
  split
  · next heq => rw [heq]; rfl
  · next heq => rw [heq]; rfl

theorem step_of_mimics (hm : Graph.Mimics keeps h g) (hr : g.Rests r.position)
    (hk : keeps (g.resume visitLimit r.values r.position).2) : r.step h = r.step g := by
  have hresume := hm.resume r.position visitLimit r.values hr hk
  unfold Graph.resume at hresume
  rw [step, step, hresume]

theorem step_rests (hr : g.Rests r.position) : g.Rests (r.step g).2.position := by
  unfold step
  split
  · next heq =>
    obtain ⟨next, hn⟩ := Graph.node?_of_walk heq
    exact ⟨_, hn, trivial⟩
  · exact hr

/-- Two graphs have the same runs as long as one copies the other from where they wait. -/
theorem run_of_mimics {accepts : Except RunError Nat → Prop} (hm : Graph.Mimics keeps h g)
    (hhead : g.Rests g.head) (haccepts : ∀ result, accepts (result.map Prod.snd) → keeps result)
    (reset : Reset) (cs : List Command)
    (hcs : ∀ result ∈ (run g reset cs).1, accepts result) :
    run h reset cs = run g reset cs := by
  have hinit (reset : Reset) : init h reset = init g reset := by
    rw [init, init, hm.registers]
    rfl
  have hstep (r s : GraphRun) (c : Command) (_ : True) (hrel : s = r ∧ g.Rests r.position)
      (hres : ∀ result ∈ (obey g r c).1, accepts result) :
      (obey h s c).1 = (obey g r c).1 ∧
        (obey h s c).2 = (obey g r c).2 ∧ g.Rests (obey g r c).2.position := by
    obtain ⟨rfl, hr⟩ := hrel
    cases c with
    | init reset => exact ⟨rfl, hinit reset, hhead⟩
    | set x v => exact ⟨rfl, rfl, hr⟩
    | step =>
      have hkeeps : keeps (g.resume visitLimit s.values s.position).2 := by
        apply haccepts
        rw [← step_result]
        exact hres _ rfl
      have hsame := step_of_mimics hm hr hkeeps
      rw [obey, obey, hsame]
      exact ⟨rfl, rfl, step_rests hr⟩
  have hrun := Command.obeyAll_simulation (fun _ => True) hstep ⟨hinit reset, hhead⟩
    (fun _ _ => trivial) hcs
  exact Prod.ext hrun.1 hrun.2.1

end GraphRun

namespace Graph

theorem rests_head (h : Graph.ofBody body = .ok g) : g.Rests g.head := by
  obtain ⟨next, h0⟩ := (wellBuilt_shape h).head
  exact ⟨.head next, h0, trivial⟩

theorem run_simplify (h : Graph.ofBody body = .ok g) (bypass : Bool)
    (hok : ∀ result ∈ (GraphRun.run g reset cs).1, ∃ id, result = .ok id) :
    GraphRun.run (g.simplify bypass) reset cs = GraphRun.run g reset cs := by
  apply GraphRun.run_of_mimics (simplify_mimics_suspended bypass g) (rests_head h) ?_ reset cs hok
  intro result hresult
  obtain ⟨id, hid⟩ := hresult
  cases result with
  | error e => cases hid
  | ok stop => exact ⟨stop, rfl⟩

theorem run_simplify_false (h : Graph.ofBody body = .ok g)
    (hruns : ∀ result ∈ (GraphRun.run g reset cs).1, ∀ n, result ≠ .error (.runaway n)) :
    GraphRun.run (g.simplify false) reset cs = GraphRun.run g reset cs := by
  apply GraphRun.run_of_mimics (simplify_mimics_finished g) (rests_head h) ?_ reset cs hruns
  intro result hresult hrun
  rw [hrun] at hresult
  exact hresult visitLimit rfl

end Graph

/-- Simplification keeps every run that stays without failures, with all values. Without the bypass
it keeps failures as well, apart from walks that find no suspension. -/
theorem simplify_preserves_runs (hg : Graph.ofBody body = .ok g) (bypass : Bool) (reset : Reset)
    (cs : List Command) :
    ((∀ result ∈ (GraphRun.run g reset cs).1, ∃ id, result = .ok id) →
        GraphRun.run (g.simplify bypass) reset cs = GraphRun.run g reset cs) ∧
      (bypass = false →
        (∀ result ∈ (GraphRun.run g reset cs).1, ∀ n, result ≠ .error (.runaway n)) →
        GraphRun.run (g.simplify bypass) reset cs = GraphRun.run g reset cs) := by
  constructor
  · exact Graph.run_simplify hg bypass
  · intro hbypass
    rw [hbypass]
    exact Graph.run_simplify_false hg

/-- A process with a branch that is decided before it is reached. -/
def decidedBody : List (Stmt Expr) :=
  [.register "x" (.int 8),
    .loop (.bool true)
      [.assign ["x"] (.int 1), .branch (.binary .eq (.var "x") (.int 1)) [.suspend] [.suspend],
        .update "x" .add (.var "y")]]

theorem simplify_preserves_runs_decidedBody :
    ∃ g, Graph.ofBody decidedBody = .ok g ∧ g.simplify false ≠ g ∧
      g.simplify true ≠ g.simplify false ∧
      (GraphRun.run g .zero [.set "y" (.int 2), .step, .step]).1 = [.ok 1, .ok 1] ∧
      GraphRun.run (g.simplify true) .zero [.set "y" (.int 2), .step, .step] =
        GraphRun.run g .zero [.set "y" (.int 2), .step, .step] ∧
      (GraphRun.run g .zero [.step, .step]).1 =
        [.ok 1, .error (.undefined (.expr (.var "y")))] ∧
      GraphRun.run (g.simplify false) .zero [.step, .step] =
        GraphRun.run g .zero [.step, .step] := by
  have hg : Graph.ofBody decidedBody = .ok _ := rfl
  refine ⟨_, hg, by decide +kernel, by decide +kernel, rfl, ?_, rfl, ?_⟩
  · apply (simplify_preserves_runs hg true .zero _).1
    have hok : ∀ result ∈ ([.ok 1, .ok 1] : List (Except RunError Nat)), ∃ id, result = .ok id := by
      simp
    exact hok
  · apply (simplify_preserves_runs hg false .zero _).2 rfl
    have hstays : ∀ result ∈ ([.ok 1, .error (.undefined (.expr (.var "y")))] :
        List (Except RunError Nat)), ∀ n, result ≠ .error (.runaway n) := by
      simp
    exact hstays

end Clockwork
