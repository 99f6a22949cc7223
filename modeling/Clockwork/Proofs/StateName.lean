import Clockwork.Proofs.Selection

namespace Clockwork
set_option autoImplicit true

variable {x y z : String} {v u : Valuation} {e : Expr} {q : Path} {qs : List Path}
  {m n : Machine Expr}

theorem Expr.eval_congr {env env' : Env} (h : ∀ z ∈ e.vars, env z = env' z) :
    e.eval env = e.eval env' := by
  induction e with
  | var z => exact h z List.mem_cons_self
  | int n => rfl
  | bool b => rfl
  | unary op a iha => rw [eval, eval, iha h]
  | binary op a b iha ihb =>
    obtain ⟨ha, hb⟩ := List.forall_mem_append.1 h
    rw [eval, eval, iha ha, ihb hb]
  | ite c t e ihc iht ihe =>
    obtain ⟨hct, he⟩ := List.forall_mem_append.1 h
    obtain ⟨hc, ht⟩ := List.forall_mem_append.1 hct
    rw [eval, eval, ihc hc, iht ht, ihe he]

/-- The variables in the value of an assignment. -/
def Stmt.valueVars : Stmt Expr → List String
  | .assign _ e => e.vars
  | _ => []

/-- The variables that the guards and the assigned values of a transition read. -/
def Transition.reads (t : Transition Expr) : List String :=
  t.guards.flatMap Expr.vars ++ t.effects.flatMap Stmt.valueVars

/-- A path reads neither of two names, whatever the state variable is called. -/
def Path.Ignores (x y : String) (q : Path) : Prop :=
  x ∉ (q.transition x).reads ∧ y ∉ (q.transition x).reads

namespace Valuation

/-- Two valuations are the same up to the name of the state variable. Each of the two names may
have any value where it is not the state variable. -/
structure Renames (x y : String) (v u : Valuation) : Prop where
  state : ∃ w, v.get? x = some w ∧ u.get? y = some w
  others : ∀ z, z ≠ x → z ≠ y → v.get? z = u.get? z

namespace Renames

theorem insert (h : Renames x y v u) (hx : z ≠ x) (hy : z ≠ y) (w : Value) :
    Renames x y (v.insert z w) (u.insert z w) := by
  obtain ⟨state, hv, hu⟩ := h.state
  constructor
  · rw [Table.get?_insert, Table.get?_insert, if_neg hx.symm, if_neg hy.symm]
    exact ⟨state, hv, hu⟩
  · intro z' hx' hy'
    rw [Table.get?_insert, Table.get?_insert, h.others z' hx' hy']

theorem move (h : Renames x y v u) (ws : List (String × Value)) (w : Value) :
    Renames x y (v.insertAll (ws ++ [(x, w)])) (u.insertAll (ws ++ [(y, w)])) := by
  constructor
  · exact ⟨w, MachineRun.get?_insertAll_move .., MachineRun.get?_insertAll_move ..⟩
  · intro z hx hy
    have hmove {k : String} (t : Valuation) (hk : z ≠ k) :
        (t.insertAll (ws ++ [(k, w)])).get? z = (t.insertAll ws).get? z := by
      rw [Table.insertAll_append]
      exact Table.get?_insertAll_of_not_mem _ (by simpa using hk)
    -- Whatever the other writes do to the two names, the move comes after them.
    rw [hmove v hx, hmove u hy, Table.get?_insertAll, Table.get?_insertAll, h.others z hx hy]

theorem eval (h : Renames x y v u) (hx : x ∉ e.vars) (hy : y ∉ e.vars) : v.eval e = u.eval e := by
  have heval : e.eval v.get? = e.eval u.get? := by
    apply Expr.eval_congr
    intro z hz
    apply h.others z
    · rintro rfl
      exact hx hz
    · rintro rfl
      exact hy hz
  rw [Valuation.eval, Valuation.eval, heval]

theorem holdAll (h : Renames x y v u) (hx : x ∉ es.flatMap Expr.vars)
    (hy : y ∉ es.flatMap Expr.vars) : v.holdAll es = u.holdAll es := by
  induction es with
  | nil => rfl
  | cons e es ih =>
    rw [List.flatMap_cons, List.mem_append, not_or] at hx hy
    rw [Valuation.holdAll, Valuation.holdAll, h.eval hx.1 hy.1, ih hx.2 hy.2]

theorem writes (h : Renames x y v u) (hx : x ∉ ss.flatMap Stmt.valueVars)
    (hy : y ∉ ss.flatMap Stmt.valueVars) : v.writes ss = u.writes ss := by
  induction ss with
  | nil => rfl
  | cons s ss ih =>
    rw [List.flatMap_cons, List.mem_append, not_or] at hx hy
    rcases s.eq_assign_or_writes with ⟨xs, e, rfl⟩ | hskip
    · rw [Valuation.writes, Valuation.writes, h.eval hx.1 hy.1, ih hx.2 hy.2]
    · rw [hskip, hskip, ih hx.2 hy.2]

theorem fires (h : Renames x y v u) (hq : q.Ignores x y) :
    (q.transition x).fires v = (q.transition y).fires u := by
  obtain ⟨w, hv, hu⟩ := h.state
  have hguards := h.holdAll (fun hx => hq.1 (List.mem_append_left _ hx))
    fun hy => hq.2 (List.mem_append_left _ hy)
  rw [q.fires_transition hv, q.fires_transition hu, hguards]
  rfl

/-- The transitions of the same paths fire. -/
theorem firing (h : Renames x y v u) (hqs : ∀ q ∈ qs, q.Ignores x y) :
    ∃ enabled : Except RunError (List Path), (∀ es, enabled = .ok es → es ⊆ qs) ∧
      Clockwork.firing v (qs.map (·.transition x)) = enabled.map (·.map (·.transition x)) ∧
      Clockwork.firing u (qs.map (·.transition y)) = enabled.map (·.map (·.transition y)) := by
  induction qs with
  | nil =>
    refine ⟨.ok [], ?_, rfl, rfl⟩
    intro es he
    cases he
    exact List.Subset.refl _
  | cons q qs ih =>
    obtain ⟨hq, hqs⟩ := List.forall_mem_cons.1 hqs
    obtain ⟨enabled, hsub, hv, hu⟩ := ih hqs
    simp only [List.map_cons, Clockwork.firing, h.fires hq, hv, hu]
    cases (q.transition y).fires u with
    | error err =>
      refine ⟨.error err, ?_, rfl, rfl⟩
      intro es he
      cases he
    | ok b =>
      cases enabled with
      | error err =>
        refine ⟨.error err, ?_, rfl, rfl⟩
        intro es he
        cases he
      | ok es =>
        cases b with
        | false =>
          refine ⟨.ok es, ?_, rfl, rfl⟩
          intro es' he
          cases he
          exact List.subset_cons_of_subset q (hsub es rfl)
        | true =>
          refine ⟨.ok (q :: es), ?_, rfl, rfl⟩
          intro es' he
          cases he
          exact List.cons_subset_cons q (hsub es rfl)

end Renames

end Valuation

/-- Two tables of registers are the same up to the name of the first entry. -/
def Table.Retitles (x y : String) (t t' : Table String Nat) : Prop :=
  ∃ w rest, t.entries = (x, w) :: rest ∧ t'.entries = (y, w) :: rest

namespace Table.Retitles

variable {t t' : Table String Nat}

theorem contains (h : t.Retitles x y t') (hx : z ≠ x) (hy : z ≠ y) :
    t.contains z = t'.contains z := by
  obtain ⟨w, rest, ht, ht'⟩ := h
  simp [Table.contains, get?, ht, ht', entryOf?, hx.symm, hy.symm]

theorem insert (h : t.Retitles x y t') (hx : z ≠ x) (hy : z ≠ y) (width : Nat) :
    (t.insert z width).Retitles x y (t'.insert z width) := by
  obtain ⟨w, rest, ht, ht'⟩ := h
  refine ⟨w, putEntry z width rest, ?_, ?_⟩
  · simp [Table.insert, ht, putEntry, hx.symm]
  · simp [Table.insert, ht', putEntry, hy.symm]

theorem insertIfNew (h : t.Retitles x y t') (hx : z ≠ x) (hy : z ≠ y) (width : Nat) :
    (t.insertIfNew z width).Retitles x y (t'.insertIfNew z width) := by
  rw [Table.insertIfNew, Table.insertIfNew, h.contains hx hy]
  split
  · exact h
  · exact h.insert hx hy width

theorem promote (h : t.Retitles x y t') (hx : z ≠ x) (hy : z ≠ y) (p : ClockedProcess Expr)
    (hwidth : widthOf ts = widthOf us) :
    (promote p ts t z).Retitles x y (promote p us t' z) := by
  rw [Clockwork.promote, Clockwork.promote, h.contains hx hy, hwidth]
  split
  · exact h
  · exact h.insert hx hy _

end Table.Retitles

/-- Two machines are the same up to the name of the state variable, which nothing reads but the
activations. -/
structure Machine.Renames (m n : Machine Expr) : Prop where
  transitions : ∃ qs : List Path, m.transitions = qs.map (·.transition m.stateVar) ∧
    n.transitions = qs.map (·.transition n.stateVar) ∧
    ∀ q ∈ qs, q.Ignores m.stateVar n.stateVar
  registers : m.registers.Retitles m.stateVar n.stateVar n.registers

namespace Machine.Renames

variable {r s : MachineRun}

/-- The state variable comes first among the registers, so that the other ones draw the same random
words. -/
theorem init (hm : m.Renames n) (reset : Reset) :
    Valuation.Renames m.stateVar n.stateVar (MachineRun.init m reset).values
      (MachineRun.init n reset).values := by
  obtain ⟨w, rest, hmr, hnr⟩ := hm.registers
  constructor
  · refine ⟨.int 0, ?_, ?_⟩
    · rw [MachineRun.init, Table.get?_insert, if_pos rfl]
    · rw [MachineRun.init, Table.get?_insert, if_pos rfl]
  · intro z hx hy
    simp only [MachineRun.init, Table.get?_insert, if_neg hx, if_neg hy, hmr, hnr]
    cases reset with
    | zero => exact Table.get?_ofList_cons hx |>.trans (Table.get?_ofList_cons hy).symm
    | random seed => exact Table.get?_ofList_cons hx |>.trans (Table.get?_ofList_cons hy).symm

theorem step (hm : m.Renames n) (h : Valuation.Renames m.stateVar n.stateVar r.values s.values) :
    (s.step n).1 = (r.step m).1 ∧
      Valuation.Renames m.stateVar n.stateVar (r.step m).2.values (s.step n).2.values := by
  have hstate : s.state n = r.state m := by
    obtain ⟨w, hr, hs⟩ := h.state
    rw [MachineRun.state, MachineRun.state, hr, hs]
  obtain ⟨qs, hmts, hnts, hqs⟩ := hm.transitions
  obtain ⟨enabled, hsub, hr, hs⟩ := h.firing hqs
  rw [MachineRun.step, MachineRun.step, hmts, hnts, hr, hs]
  cases enabled with
  | error e => exact ⟨rfl, h⟩
  | ok es =>
    -- The step asks whether none, one or several transitions fire.
    rcases es with _ | ⟨q, _ | ⟨q', es⟩⟩
    · refine ⟨?_, h⟩
      simp only [Except.map, List.map_nil, hstate]
    · have hq := hqs q (hsub _ rfl List.mem_cons_self)
      have hwrites : r.values.writes q.stmts = s.values.writes q.stmts :=
        h.writes (fun hx => hq.1 (List.mem_append_right _ hx))
          fun hy => hq.2 (List.mem_append_right _ hy)
      simp only [Except.map, List.map_cons, List.map_nil, Path.writes_transition, hwrites]
      cases s.values.writes q.stmts with
      | error e => exact ⟨rfl, h⟩
      | ok ws => exact ⟨rfl, h.move ws _⟩
    · refine ⟨?_, h⟩
      simp only [Except.map, List.map_cons, List.length_cons, List.length_map, hstate]

theorem run (hm : m.Renames n) (reset : Reset)
    (hcs : ∀ c ∈ cs, Command.Spares m.stateVar c ∧ Command.Spares n.stateVar c) :
    (MachineRun.run n reset cs).1 = (MachineRun.run m reset cs).1 ∧
      Valuation.Renames m.stateVar n.stateVar (MachineRun.run m reset cs).2.values
        (MachineRun.run n reset cs).2.values := by
  have hobey (r s : MachineRun) (c : Command)
      (hc : Command.Spares m.stateVar c ∧ Command.Spares n.stateVar c)
      (h : Valuation.Renames m.stateVar n.stateVar r.values s.values)
      (_ : ∀ result ∈ (r.obey m c).1, True) :
      (s.obey n c).1 = (r.obey m c).1 ∧
        Valuation.Renames m.stateVar n.stateVar (r.obey m c).2.values (s.obey n c).2.values := by
    cases c with
    | init reset => exact ⟨rfl, hm.init reset⟩
    | set x w => exact ⟨rfl, h.insert hc.1 hc.2 w⟩
    | step =>
      obtain ⟨hresult, hvalues⟩ := hm.step h
      exact ⟨congrArg some hresult, hvalues⟩
  exact Command.obeyAll_simulation _ hobey (hm.init reset) hcs fun _ _ => trivial

end Machine.Renames

theorem Machine.ofPaths_retitles (p : ClockedProcess Expr) {declared : List (String × Nat)}
    (hx : x ∉ declared.map Prod.fst) (hy : y ∉ declared.map Prod.fst) (count : Nat)
    {paths : List Path} (hpaths : ∀ q ∈ paths, q.propagate.Ignores x y) :
    (ofPaths p declared count x paths).registers.Retitles x y
      (ofPaths p declared count y paths).registers := by
  have hfree {z : String} {zs : List String} (hz : z ∈ zs) (hx : x ∉ zs) (hy : y ∉ zs) :
      z ≠ x ∧ z ≠ y :=
    ⟨fun he => hx (he ▸ hz), fun he => hy (he ▸ hz)⟩
  have hread : (paths.map (·.propagate.transition x)).flatMap (·.guards.flatMap Expr.vars) =
      (paths.map (·.propagate.transition y)).flatMap (·.guards.flatMap Expr.vars) := by
    rw [List.flatMap_map, List.flatMap_map]
    rfl
  have hwidth : widthOf (paths.map (·.propagate.transition x)) =
      widthOf (paths.map (·.propagate.transition y)) := by
    funext z
    rw [widthOf, widthOf, List.flatMap_map, List.flatMap_map]
    rfl
  simp only [ofPaths, ← hread]
  apply List.foldl_rel
  · apply List.foldl_rel
    · exact ⟨_, [], rfl, rfl⟩
    · intro entry hentry t t' h
      obtain ⟨hzx, hzy⟩ := hfree (List.mem_map_of_mem hentry) hx hy
      exact h.insertIfNew hzx hzy entry.2
  · intro z hz t t' h
    obtain ⟨t, ht, hz⟩ := List.mem_flatMap.1 hz
    obtain ⟨q, hq, rfl⟩ := List.mem_map.1 ht
    obtain ⟨hzx, hzy⟩ := hfree (List.mem_append_left _ hz) (hpaths q hq).1 (hpaths q hq).2
    exact h.promote hzx hzy p hwidth

theorem Machine.ofPaths_renames (p : ClockedProcess Expr) {declared : List (String × Nat)}
    (hx : x ∉ declared.map Prod.fst) (hy : y ∉ declared.map Prod.fst) (count : Nat)
    {paths : List Path} (hpaths : ∀ q ∈ paths, q.propagate.Ignores x y) :
    (ofPaths p declared count x paths).Renames (ofPaths p declared count y paths) where
  transitions := by
    refine ⟨paths.map Path.propagate, ?_, ?_, List.forall_mem_map.2 hpaths⟩
    · rw [List.map_map]
      rfl
    · rw [List.map_map]
      rfl
  registers := ofPaths_retitles p hx hy count hpaths

/-- The name of the state variable has no influence on what a machine does, as long as no guard and
no assigned value reads it. -/
theorem run_eq_of_stateVar_unread {p : ClockedProcess Expr} {options : Options}
    (hm : p.compile { options with stateVar := x } = .ok m)
    (hn : p.compile { options with stateVar := y } = .ok n)
    (hunread : ∀ t ∈ m.transitions, x ∉ t.reads ∧ y ∉ t.reads) (reset : Reset)
    (cs : List Command) (hcs : ∀ c ∈ cs, Command.Spares x c ∧ Command.Spares y c) :
    (MachineRun.run n reset cs).1 = (MachineRun.run m reset cs).1 ∧
      ∀ z, z ≠ x → z ≠ y → (MachineRun.run m reset cs).2.values.get? z =
        (MachineRun.run n reset cs).2.values.get? z := by
  obtain ⟨flow, paths, hflow, hx, hpaths, rfl⟩ := ClockedProcess.compile_eq_ok hm
  obtain ⟨flow', paths', hflow', hy, hpaths', rfl⟩ := ClockedProcess.compile_eq_ok hn
  cases hflow.symm.trans hflow'
  cases hpaths.symm.trans hpaths'
  have hregisters : (flow.simplify options.bypass).registers = flow.registers :=
    congrArg (· ++ flow.counters) (Graph.simplify_within options.bypass flow.graph).registers
  rw [← hregisters] at hx hy
  have hignores (q : Path) (hq : q ∈ paths) : q.propagate.Ignores x y :=
    hunread _ (List.mem_map_of_mem hq)
  have hrenames := Machine.ofPaths_renames p hx hy
    (flow.graph.simplify options.bypass).suspensionCount hignores
  obtain ⟨hresults, hvalues⟩ := hrenames.run reset hcs
  exact ⟨hresults, hvalues.others⟩

/-- A process that assigns a variable before it reads it, so that no transition reads it. -/
def copyingProcess : ClockedProcess Expr where
  name := "copying"
  ports := Table.empty.insert "a" .input
  body := [.loop (.bool true)
    [.assign ["t"] (.var "a"),
      .branch (.binary .eq (.var "t") (.int 0)) [.suspend] [.assign ["b"] (.var "t"), .suspend]]]

def copyingCommands : List Command :=
  [.set "a" (.int 0), .step, .set "a" (.int 7), .step]

theorem run_eq_of_stateVar_unread_copyingProcess :
    ∃ m n, copyingProcess.compile { Options.default with stateVar := "t" } = .ok m ∧
      copyingProcess.compile { Options.default with stateVar := "state" } = .ok n ∧
      (∀ t ∈ m.transitions, "t" ∉ t.reads ∧ "state" ∉ t.reads) ∧
      (∀ c ∈ copyingCommands, Command.Spares "t" c ∧ Command.Spares "state" c) ∧
      (MachineRun.run m .zero copyingCommands).1.map Except.toOption = [some 1, some 2] ∧
      (MachineRun.run n .zero copyingCommands).1 = (MachineRun.run m .zero copyingCommands).1 ∧
      ∀ z, z ≠ "t" → z ≠ "state" →
        (MachineRun.run m .zero copyingCommands).2.values.get? z =
          (MachineRun.run n .zero copyingCommands).2.values.get? z := by
  have hcompile : ((copyingProcess.compile { Options.default with stateVar := "t" }).toOption.map
      fun m => (decide (∀ t ∈ m.transitions, "t" ∉ t.reads ∧ "state" ∉ t.reads),
        (MachineRun.run m .zero copyingCommands).1.map Except.toOption)) =
      some (true, [some 1, some 2]) := by
    decide +kernel
  have hcompile' : (copyingProcess.compile
      { Options.default with stateVar := "state" }).toOption.isSome := by
    decide +kernel
  obtain ⟨m, hm, heval⟩ := Option.map_eq_some_iff.1 hcompile
  obtain ⟨n, hn⟩ := Option.isSome_iff_exists.1 hcompile'
  simp only [Prod.mk.injEq, decide_eq_true_eq] at heval
  obtain ⟨hunread, hresults⟩ := heval
  rw [Except.toOption_eq_some] at hm hn
  have hspares : ∀ c ∈ copyingCommands, Command.Spares "t" c ∧ Command.Spares "state" c := by
    simp [copyingCommands, Command.Spares]
  exact ⟨m, n, hm, hn, hunread, hspares, hresults,
    run_eq_of_stateVar_unread hm hn hunread .zero copyingCommands hspares⟩

/-- A process that reads a name to which it never gives a value. -/
def leakingProcess : ClockedProcess Expr where
  name := "leaking"
  ports := .empty
  body := [.loop (.bool true) [.branch (.binary .eq (.var "x") (.int 0)) [.suspend] [.suspend]]]

/-- A process that reads a name which it neither declares nor assigns reads the state where the
state variable has that name. -/
theorem run_ne_of_stateVar_read :
    ∃ m n, leakingProcess.compile { Options.default with stateVar := "x" } = .ok m ∧
      leakingProcess.compile { Options.default with stateVar := "y" } = .ok n ∧
      (MachineRun.run m .zero [.step, .step]).1.map Except.toOption = [some 1, some 2] ∧
      (MachineRun.run n .zero [.step, .step]).1.map Except.toOption = [some 1, some 1] := by
  have hx : ((leakingProcess.compile { Options.default with stateVar := "x" }).toOption.map
      fun m => (MachineRun.run m .zero [.step, .step]).1.map Except.toOption) =
      some [some 1, some 2] := by
    decide +kernel
  have hy : ((leakingProcess.compile { Options.default with stateVar := "y" }).toOption.map
      fun m => (MachineRun.run m .zero [.step, .step]).1.map Except.toOption) =
      some [some 1, some 1] := by
    decide +kernel
  obtain ⟨m, hm, hmr⟩ := Option.map_eq_some_iff.1 hx
  obtain ⟨n, hn, hnr⟩ := Option.map_eq_some_iff.1 hy
  rw [Except.toOption_eq_some] at hm hn
  exact ⟨m, n, hm, hn, hmr, hnr⟩

end Clockwork
