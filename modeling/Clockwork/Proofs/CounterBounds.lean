import Clockwork.Proofs.BoundedWaits
import Clockwork.Proofs.Condensation
import Clockwork.Proofs.DeadTransitions
import Clockwork.Proofs.Integrity
import Clockwork.Proofs.PathExecution
import Clockwork.Proofs.RegisterTable
import Clockwork.Proofs.SymbolicExecution
import Clockwork.Proofs.Unrolling
import Mathlib.Algebra.Group.Int.Defs

namespace Clockwork
set_option autoImplicit true

section

variable {widths : List (String × Nat)} {v : Valuation} {table : Substitution} {x : String}
  {i : Nat}

namespace Valuation

/-- Every counter holds a number that fits in its width and in a signed word. -/
def FitsWidths (widths : List (String × Nat)) (v : Valuation) : Prop :=
  ∀ x w, (x, w) ∈ widths →
    ∃ i : Nat, v.get? x = some (.int (Int64.ofNat i)) ∧ i < 2 ^ w ∧ i < 2 ^ 63

theorem FitsWidths.insertAll (h : v.FitsWidths widths)
    (hws : ∀ x ∈ ws.map Prod.fst, x ∉ widths.map Prod.fst) :
    FitsWidths widths (v.insertAll ws) := by
  intro x w hx
  have hmem : x ∉ ws.map Prod.fst := fun hmem => hws x hmem (List.mem_map_of_mem hx)
  rw [Table.get?_insertAll_of_not_mem _ hmem]
  exact h x w hx

theorem FitsWidths.insert (h : v.FitsWidths widths) (hx : x ∉ widths.map Prod.fst) (a : Value) :
    FitsWidths widths (v.insert x a) := by
  have hall : ∀ y ∈ [(x, a)].map Prod.fst, y ∉ widths.map Prod.fst := by
    intro y hy
    cases List.mem_singleton.1 hy
    exact hx
  exact h.insertAll hall

theorem FitsWidths.count (h : v.FitsWidths widths) (hnodup : (widths.map Prod.fst).Nodup)
    (hx : (x, w) ∈ widths) (hi : i < 2 ^ w) (hword : i < 2 ^ 63) :
    FitsWidths widths (v.insert x (.int (Int64.ofNat i))) :=
  forall_insert (P := fun w b => ∃ i : Nat, b = some (.int (Int64.ofNat i)) ∧ i < 2 ^ w ∧
    i < 2 ^ 63) h hnodup hx ⟨i, rfl, hi, hword⟩

theorem exists_of_writes_assign (h : v.writes [.assign xs e] = .ok ws) :
    ∃ a, e.eval v.get? = some a ∧ ws = xs.map (·, a) := by
  obtain ⟨a, ha, htail⟩ := Except.bind_eq_ok h
  cases htail
  exact ⟨a, eval_eq_ok.1 ha, List.append_nil _⟩

end Valuation

theorem Stmt.mem_names_of_writes {s : Stmt Expr} (h : v.writes [(s.propagate table).1] = .ok ws)
    (hx : x ∈ ws.map Prod.fst) : x ∈ s.names := by
  cases s with
  | assign xs e =>
    obtain ⟨a, _, rfl⟩ := Valuation.exists_of_writes_assign h
    obtain ⟨⟨y, b⟩, hy, rfl⟩ := List.mem_map.1 hx
    obtain ⟨z, hz, he⟩ := List.mem_map.1 hy
    cases he
    exact List.mem_append_left _ hz
  | update y op e =>
    obtain ⟨a, _, rfl⟩ := Valuation.exists_of_writes_assign h
    cases List.mem_singleton.1 hx
    exact List.mem_cons_self
  | register => cases h; cases hx
  | expr => cases h; cases hx
  | branch => cases h; cases hx
  | loop => cases h; cases hx
  | suspend => cases h; cases hx
  | wait => cases h; cases hx

end

namespace Agenda

/-- What is left of an agenda on the way to its next suspension. In a counting loop, the counter is
about to be tested, or has been found too small, or has not been counted up yet. -/
inductive Due (widths : List (String × Nat)) (v : Valuation) (table : Substitution)
    (now : Valuation) : Agenda → Prop
  | apart (h : Follows widths A B) : Due widths v table now B
  | testing {k m : Nat} {n : Int64} (hn : n.toInt = m + 2)
    (hx : (x, bitWidth (m + 1)) ∈ widths) (hi : now.get? x = some (.int (Int64.ofNat i)))
    (htest : ((Expr.binary .lt (.var x) (.int (n - 1))).reduce table).eval v.get? =
      some (.bool (decide (i < m + 1))))
    (hrest : Follows widths A B) :
    Due widths v table now ((k, countingBody x n) :: (k + 1, .suspend) :: B)
  | below {k m : Nat} {n : Int64} (hn : n.toInt = m + 2)
    (hx : (x, bitWidth (m + 1)) ∈ widths) (hi : now.get? x = some (.int (Int64.ofNat i)))
    (hle : i ≤ m) (hrest : Follows widths A B) :
    Due widths v table now ((k, .suspend) :: recount k x n B)
  | resumed {k m : Nat} {n : Int64} (hn : n.toInt = m + 2)
    (hx : (x, bitWidth (m + 1)) ∈ widths) (hi : v.get? x = some (.int (Int64.ofNat i)))
    (hle : i ≤ m) (htable : table.get? x = none) (hrest : Follows widths A B) :
    Due widths v table now (recount k x n B)

variable {widths : List (String × Nat)} {v now : Valuation} {table : Substitution} {x : String}
  {n : Int64} {i k m : Nat} {A B : Agenda}

/-- A step begins with the table empty. -/
theorem Paused.due (h : Paused widths v A B) : Due widths v .empty now B := by
  cases h with
  | apart h => exact .apart h
  | counting hn hx hi hj hrest => exact .resumed hn hx hi (by omega) rfl hrest

theorem Due.suspend (h : Due widths v table now ((k, .suspend) :: B)) :
    ∃ A, Paused widths now A B := by
  cases h with
  | apart h =>
    cases h with
    | plain _ _ hrest => exact ⟨_, .apart hrest⟩
  | below hn hx hi hle hrest =>
    exact ⟨_, .counting hn hx hi (Nat.add_sub_cancel' hle) hrest⟩

theorem Due.register (h : Due widths v table now ((k, .register y w) :: B)) :
    Due widths v table now B := by
  cases h with
  | apart h =>
    cases h with
    | plain _ _ hrest => exact .apart hrest

theorem Due.branch (h : Due widths v table now ((k, .branch c ts es) :: B)) (taken : Bool) :
    Due widths v table now
      (if taken then of k ts ++ B else of (k + Stmt.listSuspensions ts) es ++ B) := by
  cases h with
  | apart h =>
    cases h with
    | plain hs => exact hs.elim
    | branch hc hts hes hrest =>
      cases taken with
      | true => exact .apart (.list hts hrest k)
      | false =>
        rw [listSuspensions_of_expands hts]
        exact .apart (.list hes hrest _)

/-- A counter that is too small stays in its loop, and a counter that has reached its bound leaves
it. -/
theorem Due.loop (h : Due widths v table now ((k, .loop c body) :: B))
    (hw : (c.reduce table).eval v.get? = some w) :
    Due widths v table now (if w.truth then of k body ++ (k, .loop c body) :: B else B) := by
  cases h with
  | apart h =>
    cases h with
    | plain hs => exact hs.elim
    | loop hc hbody hrest =>
      cases w.truth with
      | true => exact .apart (.list hbody (.loop hc hbody hrest) k)
      | false => exact .apart hrest
  | testing hn hx hi htest hrest =>
    cases htest.symm.trans hw
    split
    · next hlt => exact .below hn hx hi (Nat.le_of_lt_succ (of_decide_eq_true hlt)) hrest
    · exact .apart (.plain trivial (fun y hy => by cases hy) hrest)

/-- Once a counter has been set or counted up, its test is that of the loop at its new value. -/
theorem Due.test (hn : n.toInt = m + 2) (hx : (x, bitWidth (m + 1)) ∈ widths)
    (hrest : Follows widths A B) (he : e = .int 0 ∨ e = .binary .add (.var x) (.int 1))
    (hv : e.eval v.get? = some (.int (Int64.ofNat i))) (hi : i ≤ m + 1) :
    Due widths v (table.insert x e) (now.insert x (.int (Int64.ofNat i)))
      ((k, countingBody x n) :: (k + 1, .suspend) :: B) := by
  have hget : (table.insert x e).get? x = some e := (Table.get?_insert ..).trans (if_pos rfl)
  have hreduce : ((Expr.binary .lt (.var x) (.int (n - 1))).reduce (table.insert x e)).eval v.get? =
      (Expr.binary .lt e (.int (n - 1))).eval v.get? := by
    rw [Expr.reduce, Expr.substitute, Expr.substitute, hget]
    -- Zero is compared at once, and a sum with a name in it stays as it is.
    rcases he with rfl | rfl
    · rfl
    · rfl
  refine .testing hn hx ((Table.get?_insert ..).trans (if_pos rfl)) ?_ hrest
  rw [hreduce, Expr.eval, hv]
  exact Valuation.apply_below hn hi

theorem Due.straight (hnodup : (widths.map Prod.fst).Nodup) {s : Stmt Expr} (hs : s.isStraight)
    (h : Due widths v table now ((k, s) :: B)) (hws : v.writes [(s.propagate table).1] = .ok ws)
    (hfits : now.FitsWidths widths) :
    Valuation.FitsWidths widths (now.insertAll ws) ∧
      Due widths v (s.propagate table).2 (now.insertAll ws) B := by
  cases h with
  | apart h =>
    cases h with
    | plain _ hnames hrest =>
      exact ⟨hfits.insertAll fun y hy => hnames y (Stmt.mem_names_of_writes hws hy), .apart hrest⟩
    | branch => cases hs
    | loop => cases hs
    | counted hn hx hrest =>
      obtain ⟨a, ha, rfl⟩ := Valuation.exists_of_writes_assign hws
      cases ha
      exact ⟨hfits.count hnodup hx (Nat.two_pow_pos _) (Nat.two_pow_pos 63),
        .test hn hx hrest (.inl rfl) rfl (Nat.zero_le _)⟩
  | testing => cases hs
  | below => cases hs
  | @resumed x i A B k m n hn hx hi hle htable hrest =>
    have hlt := n.toInt_lt
    -- The table has no entry for the counter yet, so it is counted up from its value at the start.
    have hreduce : (Expr.binary .add (.var x) (.int 1)).reduce table =
        .binary .add (.var x) (.int 1) := by
      rw [Expr.reduce, Expr.substitute, Expr.substitute, htable]
      rfl
    have hnext := Valuation.eval_eq_ok.1 (Valuation.eval_next hi (by omega))
    have hbound : i + 1 < 2 ^ bitWidth (m + 1) :=
      Nat.lt_of_le_of_lt (by omega) (Nat.lt_log2_self (n := m + 1))
    rw [Stmt.propagate, hreduce] at hws ⊢
    obtain ⟨a, ha, rfl⟩ := Valuation.exists_of_writes_assign hws
    cases hnext.symm.trans ha
    exact ⟨hfits.count hnodup hx hbound (by omega), .test hn hx hrest (.inr rfl) hnext (by omega)⟩

/-- The counters keep their widths up to the next suspension. -/
theorem Traces.paused (hnodup : (widths.map Prod.fst).Nodup) (h : B.Traces v table now out)
    (hdue : Due widths v table now B) (hfits : now.FitsWidths widths) :
    out.1.FitsWidths widths ∧ ∃ A, Paused widths out.1 A out.2.2 := by
  induction h with
  | suspend => exact ⟨hfits, hdue.suspend⟩
  | register _ ih => exact ih hdue.register hfits
  | straight hs hws _ ih =>
    obtain ⟨hfits', hdue'⟩ := hdue.straight hnodup hs hws hfits
    exact ih hdue' hfits'
  | branch _ _ ih => exact ih (hdue.branch _) hfits
  | loop hw _ ih => exact ih (hdue.loop hw) hfits

end Agenda

theorem mem_randomValues {r : Xoshiro} (h : (x, a) ∈ randomValues r registers) :
    ∃ w word, (x, w) ∈ registers ∧ a = randomValue w word := by
  induction registers generalizing r with
  | nil => cases h
  | cons entry registers ih =>
    obtain ⟨y, u⟩ := entry
    rw [randomValues] at h
    rcases List.mem_cons.1 h with he | h
    · cases he
      exact ⟨u, r.next.1, List.mem_cons_self, rfl⟩
    · obtain ⟨w, word, hx, ha⟩ := ih h
      exact ⟨w, word, List.mem_cons_of_mem _ hx, ha⟩

theorem randomValue_fits (w : Nat) (word : UInt64) :
    ∃ i : Nat, randomValue w word = .int (Int64.ofNat i) ∧ i < 2 ^ w ∧ i < 2 ^ 63 := by
  have hlt : word.toNat % (1 <<< min w 63) < 2 ^ min w 63 := by
    rw [Nat.one_shiftLeft]
    exact Nat.mod_lt _ (Nat.two_pow_pos _)
  refine ⟨_, rfl, Nat.lt_of_lt_of_le hlt ?_, Nat.lt_of_lt_of_le hlt ?_⟩
  · exact Nat.pow_le_pow_right Nat.two_pos (Nat.min_le_left w 63)
  · exact Nat.pow_le_pow_right Nat.two_pos (Nat.min_le_right w 63)

/-- A register starts with a number that fits in its width. -/
theorem Reset.fitsWidths {registers : List (String × Nat)}
    (hnodup : (registers.map Prod.fst).Nodup) (reset : Reset) :
    (reset.values registers).FitsWidths registers := by
  intro x w hx
  have hmem : x ∈ registers.map Prod.fst := List.mem_map_of_mem hx
  cases reset with
  | zero =>
    rw [Reset.get?_zero, if_pos hmem]
    exact ⟨0, rfl, Nat.two_pow_pos w, Nat.two_pow_pos 63⟩
  | random seed =>
    rw [← randomValues_names (.ofSeed seed), ← List.mem_reverse, ← List.map_reverse] at hmem
    obtain ⟨a, ha⟩ := Option.isSome_iff_exists.1 ((isSome_entryOf? x _).2 hmem)
    obtain ⟨u, word, hu, rfl⟩ := mem_randomValues (List.mem_reverse.1 (entryOf?_mem ha))
    have hwidth : (x, u) = (x, w) := List.inj_on_of_nodup_map hnodup hu hx rfl
    cases hwidth
    obtain ⟨i, hi, hbounds⟩ := randomValue_fits w word
    rw [Reset.values, Table.get?_ofList, ha, hi]
    exact ⟨i, rfl, hbounds⟩

/-- A machine for a graph with counting loops, whose counters are among its registers. -/
structure Machine.Counts (widths : List (String × Nat)) (g : Graph) (m : Machine Expr) : Prop where
  realizes : ∃ passes, m.Realizes (g.afterPasses passes)
  sound : g.Sound
  waits : ∃ A B, g.Waits g.head B ∧ Agenda.Follows widths A B
  distinct : (widths.map Prod.fst).Nodup
  free : m.stateVar ∉ widths.map Prod.fst
  registers : ∀ x w, (x, w) ∈ widths → m.registers.get? x = some w

namespace MachineRun

/-- A run whose counters fit in their widths, waiting where the graph has something left to do. -/
structure Bounded (widths : List (String × Nat)) (g : Graph) (m : Machine Expr) (r : MachineRun) :
    Prop where
  fits : r.values.FitsWidths widths
  waits : ∃ s i A B, (s, i) ∈ g.starts ∧
    r.values.get? m.stateVar = some (.int (Int64.ofNat s.stateId)) ∧ g.Waits i B ∧
    Agenda.Paused widths r.values A B

variable {widths : List (String × Nat)} {g : Graph} {m : Machine Expr} {r : MachineRun}

theorem Bounded.init (hm : m.Counts widths g) (reset : Reset) :
    Bounded widths g m (init m reset) := by
  have hvalues := Reset.fitsWidths m.registers.nodup_keys reset
  have hcounters : (reset.values m.registers.entries).FitsWidths widths :=
    fun x w hx => hvalues x w (entryOf?_mem (hm.registers x w hx))
  obtain ⟨A, B, hwaits, hfollows⟩ := hm.waits
  refine ⟨hcounters.insert hm.free _, .head, g.head, A, B, ?_, ?_, hwaits, .apart hfollows⟩
  · exact Graph.mem_starts.2 (.inl ⟨rfl, rfl⟩)
  · exact (Table.get?_insert ..).trans (if_pos rfl)

theorem Bounded.set (h : Bounded widths g m r) (hvar : x ≠ m.stateVar)
    (hx : x ∉ widths.map Prod.fst) (a : Value) : Bounded widths g m (r.set x a) := by
  obtain ⟨s, i, A, B, hs, hstate, hwaits, hpaused⟩ := h.waits
  refine ⟨h.fits.insert hx a, s, i, A, B, hs, ?_, hwaits, hpaused.insert hx a⟩
  rw [MachineRun.set, Table.get?_insert, if_neg hvar.symm, hstate]

/-- A step follows a route of the graph up to nodes that make no difference, and so it traces what
the graph has left to do. -/
theorem Bounded.step (hm : m.Counts widths g) (h : Bounded widths g m r) :
    Bounded widths g m (r.step m).2 := by
  cases hok : (r.step m).1 with
  | error e =>
    rw [step_eq_error hok]
    exact h
  | ok id =>
    obtain ⟨s, i, A, B, hs, hstate, hwaits, hpaused⟩ := h.waits
    obtain ⟨passes, hrealizes⟩ := hm.realizes
    have hs' : (s, i) ∈ (g.afterPasses passes).starts := by
      rw [Graph.starts, Graph.suspensions_afterPasses]
      exact hs
    obtain ⟨route, ws, hroute, hlast, hopen, hws, hstep⟩ := step_eq_ok hrealizes hs' hstate hok
    have hexit := (hm.sound.afterPasses passes).exit_iff.2 ⟨i, hs', rfl⟩
    obtain ⟨edge, route', hexit', hroute', hequiv, hlast'⟩ :=
      g.condenses_afterPasses passes s _ route hexit hroute
    obtain ⟨j, hj, rfl⟩ := hm.sound.exit_iff.1 hexit'
    cases hm.sound.start_unique hj hs rfl
    have hleads : Waypoint.Leads r.values .empty r.values (r.values.insertAll ws) id route :=
      ⟨hopen, ⟨ws, hws, rfl⟩, hlast⟩
    obtain ⟨l, next, B', hl, hwaits', htraces⟩ :=
      hwaits.arrives hroute' (hleads.of_equivalent hequiv hlast')
    obtain ⟨hfits, A', hpaused'⟩ := htraces.paused hm.distinct hpaused.due h.fits
    have hvalues : (r.step m).2.values =
        (r.values.insertAll ws).insert m.stateVar (.int (Int64.ofNat id)) := by
      rw [hstep]
      exact Table.insertAll_append ..
    refine ⟨hvalues ▸ hfits.insert hm.free _, .suspension id, l, A', B', ?_, ?_, hwaits', ?_⟩
    · exact Graph.mem_starts.2 (.inr ⟨id, next, rfl, hl⟩)
    · rw [hvalues]
      exact (Table.get?_insert ..).trans (if_pos rfl)
    · rw [hvalues]
      exact hpaused'.insert hm.free _

theorem Bounded.run (hm : m.Counts widths g) (reset : Reset)
    (hcs : ∀ c ∈ cs, c.Spares m.stateVar ∧ ∀ x ∈ widths.map Prod.fst, c.Spares x) :
    Bounded widths g m (run m reset cs).2 := by
  apply Command.obeyAll_invariant ?_ (init hm reset) hcs
  intro r c hc hr
  cases c with
  | init reset => exact .init hm reset
  | set x a => exact hr.set hc.1 (fun hx => hc.2 x hx rfl) a
  | step => exact hr.step hm

end MachineRun

theorem ClockedProcess.compile_counts {p : ClockedProcess Expr} (h : p.compile options = .ok m) :
    ∃ expansion g, p.expandWaits = .ok expansion ∧ m.Counts expansion.counters g := by
  obtain ⟨f, expansion, paths, hflow, hexpand, hrealizes, hstate, hm⟩ := p.machine_of_compile h
  obtain ⟨expansion', hexpand', hgraph, _⟩ := ClockedProcess.flow_eq_ok hflow
  cases hexpand.symm.trans hexpand'
  obtain ⟨hnodup, hdisjoint⟩ := p.counters_distinct hexpand
  obtain ⟨_, _, hexpands⟩ := p.expands hexpand
  have hfollows := Agenda.Follows.list hexpands .nil 0
  rw [List.append_nil, List.append_nil] at hfollows
  rw [Graph.simplify_eq_afterPasses] at hrealizes
  subst hm
  refine ⟨expansion, f.graph, hexpand, ⟨_, hrealizes⟩, Graph.sound_ofBody hgraph,
    ⟨_, _, Graph.waits_ofBody hgraph, hfollows⟩, hnodup, hstate.2, ?_⟩
  intro x w hx
  exact Machine.get?_counter hstate.2 hnodup hx (hdisjoint x (List.mem_map_of_mem hx))

/-- The width of a counter is the least one that holds every number of edges before the last. -/
theorem isLeast_loopWidth (x : String) (n : Int64) :
    IsLeast {w : Nat | 0 < w ∧ n.toInt - 1 < 2 ^ w} (loopWidth (x, n)).2 := by
  have hiff (w : Nat) : n.toInt - 1 < 2 ^ w ↔ n.toInt.toNat - 1 < 2 ^ w := by
    have hcast : ((2 ^ w : Nat) : Int) = 2 ^ w := Int.natCast_pow 2 w
    have hpos := Nat.two_pow_pos w
    omega
  constructor
  · obtain ⟨hpos, hlt⟩ := (bitWidth_le_iff (n.toInt.toNat - 1) _).1 (Nat.le_refl _)
    exact ⟨hpos, (hiff _).2 hlt⟩
  · intro w hw
    exact (bitWidth_le_iff _ w).2 ⟨hw.1, (hiff w).1 hw.2⟩

theorem Valuation.FitsWidths.int64 {widths : List (String × Nat)} {v : Valuation}
    (h : v.FitsWidths widths) (hx : (x, w) ∈ widths) :
    ∃ i : Int64, v.get? x = some (.int i) ∧ 0 ≤ i.toInt ∧ i.toInt < 2 ^ w := by
  obtain ⟨i, hi, hlt, hword⟩ := h x w hx
  have hcast : ((2 ^ w : Nat) : Int) = 2 ^ w := Int.natCast_pow 2 w
  refine ⟨_, hi, ?_, ?_⟩
  · rw [Int64.toInt_ofNat_of_lt hword]
    omega
  · rw [Int64.toInt_ofNat_of_lt hword]
    omega

/-- The counters of a machine never leave their widths, whatever the other names hold. The counter
of a wait of `n` clock edges has the least width that can hold `n - 1`. -/
theorem compile_counters_fit {p : ClockedProcess Expr} (h : p.compile options = .ok m) :
    ∃ expansion loops, p.expandWaits = .ok expansion ∧
      expansion.counters = loops.map loopWidth ∧ Stmt.Unrolls some p.body loops expansion.body ∧
      loops.map Prod.snd = (Stmt.nestedList p.body).filterMap (Stmt.longWait? some) ∧
      ∀ x n, (x, n) ∈ loops → ∃ width, m.registers.get? x = some width ∧
        IsLeast {w : Nat | 0 < w ∧ n.toInt - 1 < 2 ^ w} width ∧
        ∀ (reset : Reset) (cs : List Command),
          (∀ c ∈ cs, c.Spares m.stateVar ∧ ∀ y ∈ expansion.counters.map Prod.fst, c.Spares y) →
          ∃ i : Int64, (MachineRun.run m reset cs).2.values.get? x = some (.int i) ∧
            0 ≤ i.toInt ∧ i.toInt < 2 ^ width := by
  obtain ⟨expansion, g, hexpand, hcounts⟩ := p.compile_counts h
  obtain ⟨loops, hcounters, hunrolls⟩ := p.unrolls hexpand
  refine ⟨expansion, loops, hexpand, hcounters, hunrolls, hunrolls.map_longWait?, ?_⟩
  intro x n hx
  have hwidth : loopWidth (x, n) ∈ expansion.counters := hcounters ▸ List.mem_map_of_mem hx
  refine ⟨_, hcounts.registers x _ hwidth, isLeast_loopWidth x n, ?_⟩
  intro reset cs hcs
  exact (MachineRun.Bounded.run hcounts reset hcs).fits.int64 hwidth

/-- A process with a counter that comes to the last number of its width. -/
def quarterProcess : ClockedProcess Expr where
  name := "quarter"
  ports := Table.empty.insert "a" .input
  body := [.loop (.bool true) [.branch (.var "a") [.wait (.int 4)] [.suspend]]]

def quarterCommands : List Command :=
  [.set "a" (.int 5), .step, .step, .set "a" (.bool false), .step, .step]

theorem compile_counters_fit_quarterProcess :
    ∃ m, quarterProcess.compile .default = .ok m ∧ m.registers.get? "__repeat0" = some 2 ∧
      IsLeast {w : Nat | 0 < w ∧ (4 : Int64).toInt - 1 < 2 ^ w} 2 ∧
      (MachineRun.run m (.random 7) quarterCommands).2.values.get? "__repeat0" = some (.int 3) ∧
      ∃ i : Int64, (MachineRun.run m (.random 7) quarterCommands).2.values.get? "__repeat0" =
        some (.int i) ∧ 0 ≤ i.toInt ∧ i.toInt < 2 ^ 2 := by
  have hmachine : ((quarterProcess.compile .default).toOption.map fun m =>
      (m.stateVar, m.registers.get? "__repeat0",
        (MachineRun.run m (.random 7) quarterCommands).2.values.get? "__repeat0")) =
      some ("yield_state", some 2, some (.int 3)) := by
    decide +kernel
  have hexpansion : quarterProcess.expandWaits.toOption.map (fun e => e.counters) =
      some [("__repeat0", 2)] := by
    decide +kernel
  obtain ⟨m, hm, hvalues⟩ := Option.map_eq_some_iff.1 hmachine
  rw [Except.toOption_eq_some] at hm
  simp only [Prod.mk.injEq] at hvalues
  obtain ⟨hstate, hregister, hcounter⟩ := hvalues
  obtain ⟨expansion, loops, hexpand, hcounters, _, hedges, hloops⟩ := compile_counters_fit hm
  rw [hexpand, Except.toOption, Option.map_some, Option.some.injEq] at hexpansion
  rw [hexpansion] at hcounters
  obtain ⟨⟨x, n⟩, loops', rfl, hx, hnil⟩ := List.map_eq_cons_iff.1 hcounters.symm
  cases List.map_eq_nil_iff.1 hnil
  have hname : x = "__repeat0" := congrArg Prod.fst hx
  cases hname
  cases hedges
  obtain ⟨width, hwidth, hleast, hfits⟩ := hloops "__repeat0" 4 List.mem_cons_self
  cases hregister.symm.trans hwidth
  refine ⟨m, hm, hregister, hleast, hcounter, hfits (.random 7) quarterCommands ?_⟩
  rw [hstate, hexpansion]
  simp [quarterCommands, Command.Spares]

end Clockwork
