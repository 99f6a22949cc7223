import Clockwork.Proofs.Integrity
import Clockwork.Proofs.Walks

namespace Clockwork
set_option autoImplicit true

variable {g : Graph} {c : Expr} {out : NodeId}

namespace Graph

/-- The edge leads to a node that is not behind the main loop. -/
def Stays (g : Graph) (out : NodeId) (edge : Option NodeId) : Prop :=
  ¬ Leaves out edge ∧ ∃ n, edge.bind g.node? = some n

theorem Sound.stays (hg : g.Sound) (hi : g.node? i = some n) (ht : edge ∈ n.targets)
    (hinside : ¬ Leaves out edge) : g.Stays out edge := by
  cases edge with
  | none => exact (hinside (.inl rfl)).elim
  | some j =>
    obtain ⟨m, hj, _⟩ := hg.leads i n j hi ht
    exact ⟨hinside, m, hj⟩

theorem Stays.ne_out (h : g.Stays out (some i)) : i ≠ out :=
  fun he => h.1 (.inr (congrArg some he))

/-- The condition of the main loop holds, so a walk does not take the edge behind the loop. -/
theorem Enclosed.stays_of_passes (hg : g.Enclosed out c) (hc : c.HoldsAlways) (hsound : g.Sound)
    (h : g.Stays out edge) (hn : g.Passes edge n next) (hpass : n.pass? v = some u) :
    g.Stays out next := by
  cases hn with
  | head hi =>
    apply hsound.stays hi List.mem_cons_self
    exact hg.inner _ _ hi h.ne_out (hg.ne_mainTest hi nofun) _ List.mem_cons_self
  | block hi =>
    apply hsound.stays hi List.mem_cons_self
    exact hg.inner _ _ hi h.ne_out (hg.ne_mainTest hi nofun) _ List.mem_cons_self
  | onTrue hi =>
    apply hsound.stays hi List.mem_cons_self
    exact hg.decided hi fun _ => rfl
  | @onFalse _ d _ _ hi =>
    -- Only the main test has a false edge that leads out, and its condition is never false.
    have htaken (he : d = c) : false = true := by
      obtain ⟨w, hw, htruth, _⟩ := Waypoint.pass?_branch_eq_some.1 hpass
      obtain ⟨w', hw', htruth'⟩ := hc.eval v.get?
      rw [he, Valuation.eval_eq_ok, hw'] at hw
      cases hw
      exact htruth.symm.trans htruth'
    apply hsound.stays hi (List.mem_cons_of_mem _ List.mem_cons_self)
    exact hg.decided hi htaken

theorem Enclosed.stays_of_trail (hg : g.Enclosed out c) (hc : c.HoldsAlways) (hsound : g.Sound)
    (h : g.Stays out edge) (ht : g.Trail edge ns last)
    (hns : Waypoint.followList? v ns = some u) : g.Stays out last := by
  induction ht generalizing v with
  | nil => exact h
  | cons hn _ ih =>
    obtain ⟨w, hpass, hns⟩ := Waypoint.followList?_cons.1 hns
    exact ih (hg.stays_of_passes hc hsound h hn hpass) hns

theorem Enclosed.walk_ne_ended (hg : g.Enclosed out c) (hc : c.HoldsAlways) (hsound : g.Sound)
    (h : g.Stays out edge) (budget : Nat) (v : Valuation) :
    (g.walk budget v edge).2 ≠ .error .ended := by
  intro herror
  obtain ⟨ns, last, u, ht, hns, hcases⟩ := trail_of_walk_error herror
  rcases hcases with ⟨hrunaway, _⟩ | ⟨_, hnone⟩ | ⟨culprit, hundefined⟩
  · cases hrunaway
  · obtain ⟨_, n, hn⟩ := hg.stays_of_trail hc hsound h ht hns
    cases hn.symm.trans hnone
  · cases hundefined

theorem Enclosed.stays_of_exit (hg : g.Enclosed out c) (hsound : g.Sound) (h : g.Exit s edge) :
    g.Stays out edge := by
  cases edge with
  | none => exact (hg.exit_inside h (.inl rfl)).elim
  | some j =>
    obtain ⟨m, hj, _⟩ := hsound.exit_target h j rfl
    exact ⟨hg.exit_inside h, m, hj⟩

end Graph

/-- Control never leaves the process, whatever was done to the simulation before and however often
it has failed. -/
theorem passes_confine_control {body : List (Stmt Expr)} {built : Graph}
    (hbuilt : Graph.ofBody body = .ok built) (passes : List Pass) (cs : List Command) :
    let g := built.afterPasses passes
    let r := (Command.obeyAll (GraphRun.obey g) (.start g) cs).2
    (r.step g).1 ≠ .error .ended := by
  intro g r hended
  obtain ⟨c, _, out, _, hc, _, _, henclosed, _, _⟩ := Graph.mainLoop_ofBody hbuilt
  have hsound : g.Sound := (Graph.sound_ofBody hbuilt).afterPasses passes
  have hg : g.Enclosed out c := henclosed.afterPasses hc passes
  obtain ⟨s, hs⟩ := GraphRun.waits_obeyAll g cs
  have hexit := hsound.exit_iff.2 ⟨r.position, hs, rfl⟩
  exact hg.walk_ne_ended hc hsound (hg.stays_of_exit hsound hexit) visitLimit r.values
    (GraphRun.walk_of_step_error hended)

/-- A run that passes the main test and fails twice. -/
def ringCommands : List Command :=
  [.step, .set "a" (.bool false), .set "b" (.bool true), .step, .step, .set "b" (.bool false),
    .step, .set "n" (.int 0)]

theorem passes_confine_control_ringBody :
    ∃ built g, Graph.ofBody ringBody = .ok built ∧
      g = built.afterPasses [.literalBranches, .shortcuts, .emptyBlocks] ∧
      let run := Command.obeyAll (GraphRun.obey g) (.start g) ringCommands
      run.1 = [.error (.undefined (.expr (.var "a"))), .ok 2, .ok 2,
          .error (.undefined (.name "n"))] ∧
        (run.2.step g).1 ≠ .error .ended := by
  have hbuilt : Graph.ofBody ringBody = .ok _ := rfl
  exact ⟨_, _, hbuilt, rfl, by decide +kernel, passes_confine_control hbuilt _ _⟩

end Clockwork
