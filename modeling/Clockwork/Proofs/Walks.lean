import Clockwork.Proofs.Enumeration
import Clockwork.Proofs.Runs

namespace Clockwork
set_option autoImplicit true

variable {g : Graph} {u v : Valuation}

/-- The values behind a node of a path. There are none if a statement or the condition has no value
or the path takes the other edge. -/
def Waypoint.pass? (v : Valuation) : Waypoint → Option Valuation
  | .head | .suspend _ => some v
  | .block ss =>
    match Stmt.execList v ss with
    | (u, none) => some u
    | (_, some _) => none
  | .branch c taken =>
    match v.eval c with
    | .ok w => if w.truth = taken then some v else none
    | .error _ => none

/-- The values behind the nodes if all branches among them are taken as they say. -/
def Waypoint.followList? (v : Valuation) (ns : List Waypoint) : Option Valuation :=
  ns.foldlM Waypoint.pass? v

def Path.follow? (p : Path) (v : Valuation) : Option Valuation :=
  Waypoint.followList? v p.nodes

theorem Waypoint.pass?_block_eq_some :
    (Waypoint.block ss).pass? v = some u ↔ Stmt.execList v ss = (u, none) := by
  rw [pass?]
  split
  · next heq => rw [heq, Option.some.injEq, Prod.mk.injEq, and_iff_left rfl]
  · next heq => simp [heq]

theorem Waypoint.pass?_branch_eq_some {taken : Bool} :
    (Waypoint.branch c taken).pass? v = some u ↔
      ∃ w, v.eval c = .ok w ∧ w.truth = taken ∧ v = u := by
  rw [pass?]
  split
  · next w heq =>
    rw [heq]
    simp
  · next heq => simp [heq]

theorem Waypoint.followList?_cons {n : Waypoint} :
    Waypoint.followList? v (n :: ns) = some u ↔
      ∃ w, n.pass? v = some w ∧ Waypoint.followList? w ns = some u := by
  rw [followList?, List.foldlM_cons]
  exact Option.bind_eq_some_iff

theorem Stmt.assignments_eq_error {s : Stmt Expr} (h : s.assignments v = .error e) :
    ∃ culprit, e = .undefined culprit := by
  cases s with
  | assign xs d =>
    rcases Except.bind_eq_error h with h | ⟨_, _, h⟩
    · exact ⟨_, Valuation.eval_eq_error h⟩
    · cases h
  | update x op d =>
    rw [Stmt.assignments] at h
    split at h
    · cases h
      exact ⟨_, rfl⟩
    · rcases Except.bind_eq_error h with h | ⟨_, _, h⟩
      · exact ⟨_, Valuation.eval_eq_error h⟩
      · split at h
        · cases h
          exact ⟨_, rfl⟩
        · cases h
  | register x w => cases h
  | expr d => cases h
  | branch c ts es => cases h
  | loop c body => cases h
  | suspend => cases h
  | wait n => cases h

theorem Stmt.execList_eq_error (h : Stmt.execList v ss = (u, some e)) :
    ∃ culprit, e = .undefined culprit := by
  induction ss generalizing v with
  | nil => cases h
  | cons s ss ih =>
    rw [Stmt.execList] at h
    split at h
    · exact ih h
    · next hs =>
      cases h
      exact Stmt.assignments_eq_error hs

namespace Graph

variable {id : Nat}

/-- A walk goes on behind a node exactly if a path could pass it. -/
theorem visit_eq_go :
    g.visit v edge = .go u next ↔ ∃ n, g.Passes edge n next ∧ n.pass? v = some u := by
  constructor
  · intro h
    cases edge with
    | none => cases h
    | some i =>
      rw [visit] at h
      cases hi : g.node? i with
      | none => rw [hi] at h; cases h
      | some n =>
        simp only [hi] at h
        cases n with
        | suspend => cases h
        | head =>
          cases h
          exact ⟨.head, .head hi, rfl⟩
        | block ss _ =>
          rw [Node.visit] at h
          split at h
          · next hexec =>
            cases h
            exact ⟨.block ss, .block hi, Waypoint.pass?_block_eq_some.2 hexec⟩
          · cases h
        | branch c t f =>
          rw [Node.visit] at h
          split at h
          · cases h
          · next w hw =>
            cases h
            refine ⟨.branch c w.truth, ?_, Waypoint.pass?_branch_eq_some.2 ⟨w, hw, rfl, rfl⟩⟩
            cases w.truth with
            | true => exact .onTrue hi
            | false => exact .onFalse hi
  · intro h
    obtain ⟨n, hn, hpass⟩ := h
    cases hn with
    | head hi =>
      cases hpass
      rw [visit, hi]
      rfl
    | block hi =>
      simp only [visit, hi, Node.visit, Waypoint.pass?_block_eq_some.1 hpass]
    | onTrue hi =>
      obtain ⟨w, hw, htruth, rfl⟩ := Waypoint.pass?_branch_eq_some.1 hpass
      simp only [visit, hi, Node.visit, hw, htruth, if_true]
    | onFalse hi =>
      obtain ⟨w, hw, htruth, rfl⟩ := Waypoint.pass?_branch_eq_some.1 hpass
      simp only [visit, hi, Node.visit, hw, htruth, Bool.false_eq_true, if_false]

/-- A walk fails at a node because the node does not exist or something in it is undefined. -/
theorem visit_eq_stop_error (h : g.visit v edge = .stop u (.error e)) :
    e = .ended ∧ edge.bind g.node? = none ∨ ∃ culprit, e = .undefined culprit := by
  cases edge with
  | none =>
    cases h
    exact .inl ⟨rfl, rfl⟩
  | some i =>
    rw [visit] at h
    cases hi : g.node? i with
    | none =>
      rw [hi] at h
      cases h
      exact .inl ⟨rfl, hi⟩
    | some n =>
      simp only [hi] at h
      cases n with
      | head => cases h
      | suspend => cases h
      | block ss _ =>
        rw [Node.visit] at h
        split at h
        · cases h
        · next hexec =>
          cases h
          exact .inr (Stmt.execList_eq_error hexec)
      | branch c t f =>
        rw [Node.visit] at h
        split at h
        · next hw =>
          cases h
          exact .inr ⟨_, Valuation.eval_eq_error hw⟩
        · cases h

theorem trail_of_walk (h : g.walk budget v edge = (u, .ok (i, id))) :
    ∃ ns, g.Trail edge ns (some i) ∧ Waypoint.followList? v ns = some u := by
  induction budget generalizing v edge with
  | zero => cases h
  | succ budget ih =>
    rw [walk_succ] at h
    cases hv : g.visit v edge with
    | stop w result =>
      rw [hv] at h
      cases h
      obtain ⟨rfl, rfl, _⟩ := visit_eq_stop_ok hv
      exact ⟨[], .nil _, rfl⟩
    | go w next =>
      rw [hv] at h
      obtain ⟨n, hn, hpass⟩ := visit_eq_go.1 hv
      obtain ⟨ns, ht, hns⟩ := ih h
      exact ⟨n :: ns, .cons hn ht, Waypoint.followList?_cons.2 ⟨w, hpass, hns⟩⟩

/-- A walk that fails has come to the end of its budget, to a missing node or to something
undefined. -/
theorem trail_of_walk_error (h : (g.walk budget v edge).2 = .error e) :
    ∃ ns last u, g.Trail edge ns last ∧ Waypoint.followList? v ns = some u ∧
      (e = .runaway visitLimit ∧ ns.length = budget ∨
        e = .ended ∧ last.bind g.node? = none ∨ ∃ culprit, e = .undefined culprit) := by
  induction budget generalizing v edge with
  | zero =>
    cases h
    exact ⟨[], edge, v, .nil edge, rfl, .inl ⟨rfl, rfl⟩⟩
  | succ budget ih =>
    rw [walk_succ] at h
    cases hv : g.visit v edge with
    | stop w result =>
      rw [hv] at h
      cases h
      exact ⟨[], edge, v, .nil edge, rfl, .inr (visit_eq_stop_error hv)⟩
    | go w next =>
      rw [hv] at h
      obtain ⟨n, hn, hpass⟩ := visit_eq_go.1 hv
      obtain ⟨ns, last, u, ht, hns, hcases⟩ := ih h
      refine ⟨n :: ns, last, u, .cons hn ht, Waypoint.followList?_cons.2 ⟨w, hpass, hns⟩, ?_⟩
      apply hcases.imp_left
      intro hrunaway
      exact ⟨hrunaway.1, congrArg Nat.succ hrunaway.2⟩

theorem walk_of_trail (ht : g.Trail edge ns (some i)) (hi : g.node? i = some (.suspend id next))
    (hns : Waypoint.followList? v ns = some u) (hlt : ns.length < budget) :
    g.walk budget v edge = (u, .ok (i, id)) := by
  induction ns generalizing v edge budget with
  | nil =>
    obtain ⟨budget, rfl⟩ := Nat.exists_eq_succ_of_ne_zero (Nat.ne_zero_of_lt hlt)
    cases ht
    cases hns
    rw [walk_succ, visit, hi]
    rfl
  | cons n ns ih =>
    obtain ⟨budget, rfl⟩ := Nat.exists_eq_succ_of_ne_zero (Nat.ne_zero_of_lt hlt)
    cases ht with
    | cons hn ht =>
      obtain ⟨w, hpass, hns⟩ := Waypoint.followList?_cons.1 hns
      rw [walk_succ, visit_eq_go.2 ⟨n, hn, hpass⟩]
      exact ih ht hns (Nat.lt_of_succ_lt_succ hlt)

theorem Settles.mono (h : g.Settles depth edge) (hle : depth ≤ depth') : g.Settles depth' edge := by
  intro ns last ht
  obtain ⟨hlt, hlast⟩ := h ns last ht
  exact ⟨Nat.lt_of_lt_of_le hlt hle, hlast⟩

theorem Settles.walk_ne_runaway (h : g.Settles budget edge) (v : Valuation) (visited : Nat) :
    (g.walk budget v edge).2 ≠ .error (.runaway visited) := by
  intro herror
  obtain ⟨ns, last, _, ht, _, hcases⟩ := trail_of_walk_error herror
  rcases hcases with ⟨_, hlength⟩ | ⟨hended, _⟩ | ⟨culprit, hundefined⟩
  · exact Nat.ne_of_lt (h ns last ht).1 hlength
  · cases hended
  · cases hundefined

end Graph

namespace GraphRun

variable {r : GraphRun}

theorem walk_of_step_error (h : (r.step g).1 = .error e) :
    (g.walk visitLimit r.values ((g.node? r.position).bind Node.next?)).2 = .error e := by
  unfold step at h
  split at h
  · cases h
  · next heq =>
    cases h
    rw [heq]

/-- The simulation is where paths start. -/
def Waits (g : Graph) (r : GraphRun) : Prop :=
  ∃ s, (s, r.position) ∈ g.starts

theorem waits_head (g : Graph) (v : Valuation) (steps : Nat) :
    Waits g ⟨v, g.head, steps⟩ :=
  ⟨.head, Graph.mem_starts.2 (.inl ⟨rfl, rfl⟩)⟩

theorem Waits.step (hr : r.Waits g) : (r.step g).2.Waits g := by
  unfold GraphRun.step
  split
  · next id heq =>
    obtain ⟨next, hi⟩ := Graph.node?_of_walk heq
    exact ⟨.suspension id, Graph.mem_starts.2 (.inr ⟨id, next, rfl, hi⟩)⟩
  · exact hr

theorem Waits.obey (hr : r.Waits g) (c : Command) : (obey g r c).2.Waits g := by
  cases c with
  | init reset => exact waits_head g _ _
  | set x v => exact hr
  | step => exact hr.step

theorem waits_obeyAll (g : Graph) (cs : List Command) :
    Waits g (Command.obeyAll (obey g) (.start g) cs).2 :=
  Command.obeyAll_invariant (fun _ c (_ : True) hr => Waits.obey hr c) (waits_head g _ _)
    fun _ _ => trivial

end GraphRun

end Clockwork
