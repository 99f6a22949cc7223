import Clockwork.Proofs.Counting
import Clockwork.Proofs.Execution

namespace Clockwork
set_option autoImplicit true

variable {widths : List (String × Nat)} {v v' : Valuation} {A B : Agenda}

namespace Agenda

theorem Yields.of_run {agenda : Agenda} (h : agenda.run budget v = some out) :
    agenda.Yields v out := by
  induction budget generalizing v agenda with
  | zero => cases h
  | succ budget ih =>
    rw [run] at h
    cases hadvance : agenda.advance v with
    | stops u result =>
      rw [hadvance] at h
      cases h
      exact .of_stops hadvance
    | goes u rest =>
      rw [hadvance] at h
      exact .of_goes hadvance (ih h)

theorem Yields.unique {agenda : Agenda} (h : agenda.Yields v out) (h' : agenda.Yields v out') :
    out = out' := by
  obtain ⟨limit, hlimit⟩ := h
  obtain ⟨limit', hlimit'⟩ := h'
  have hout := hlimit (max limit limit') (Nat.le_max_left _ _)
  rw [hlimit' (max limit limit') (Nat.le_max_right _ _)] at hout
  exact (Option.some.inj hout).symm

theorem Follows.of_reaches (hnodup : (widths.map Prod.fst).Nodup) (h : A.Reaches v out)
    (hAB : Follows widths A B) (hv : v.Counts widths v') :
    ∃ out', B.Yields v' out' ∧ Answers widths out out' := by
  induction h generalizing B v' with
  | stops h =>
    cases hAB.proceeds hnodup hv with
    | goes hA =>
      rw [h] at hA
      cases hA
    | stops hA hB hends =>
      rw [h] at hA
      cases hA
      exact ⟨_, hB, hends⟩
  | goes h _ ih =>
    cases hAB.proceeds hnodup hv with
    | goes hA hB hrest hu =>
      rw [h] at hA
      cases hA
      obtain ⟨out', hyields, hends⟩ := ih hrest hu
      exact ⟨out', .of_goes hB hyields, hends⟩
    | stops hA =>
      rw [h] at hA
      cases hA

theorem Follows.of_run (hnodup : (widths.map Prod.fst).Nodup) (h : B.run budget v' = some out')
    (hAB : Follows widths A B) (hv : v.Counts widths v') :
    ∃ out, A.Reaches v out ∧ Answers widths out out' := by
  induction budget generalizing A B v v' with
  | zero => cases h
  | succ budget ih =>
    cases hAB.proceeds hnodup hv with
    | goes hA hB hrest hu =>
      rw [run, hB] at h
      obtain ⟨out, hreaches, hends⟩ := ih h hrest hu
      exact ⟨out, .goes hA hreaches, hends⟩
    | stops hA hB hends =>
      cases hB.unique (.of_run h)
      exact ⟨_, .stops hA, hends⟩

/-- A wait that has begun cannot fail, so the agendas of a failed step have no counter to recall. -/
theorem Paused.of_reaches (hnodup : (widths.map Prod.fst).Nodup) (h : A.Reaches v out)
    (hAB : Paused widths v' A B) (hv : v.Counts widths v') :
    ∃ out', B.Yields v' out' ∧ Answers widths out out' ∧
      ∀ e, out.2 = .error e → Follows widths A B := by
  cases hAB with
  | apart hAB =>
    obtain ⟨out', hyields, hends⟩ := hAB.of_reaches hnodup h hv
    exact ⟨out', hyields, hends, fun _ _ => hAB⟩
  | counting hn hx hi hj hrest =>
    obtain ⟨id, A', out', hA, hB, hends⟩ := Proceeds.counting hnodup hn hx hi hj hrest hv _
    cases h with
    | stops h =>
      rw [hA] at h
      cases h
      refine ⟨out', hB, hends, ?_⟩
      intro e he
      cases he
    | goes h =>
      rw [hA] at h
      cases h

theorem Paused.of_run (hnodup : (widths.map Prod.fst).Nodup) (h : B.run budget v' = some out')
    (hAB : Paused widths v' A B) (hv : v.Counts widths v') :
    ∃ out, A.Reaches v out ∧ Answers widths out out' ∧
      ∀ e, out.2 = .error e → Follows widths A B := by
  cases hAB with
  | apart hAB =>
    obtain ⟨out, hreaches, hends⟩ := hAB.of_run hnodup h hv
    exact ⟨out, hreaches, hends, fun _ _ => hAB⟩
  | counting hn hx hi hj hrest =>
    obtain ⟨id, A', out', hA, hB, hends⟩ := Proceeds.counting hnodup hn hx hi hj hrest hv _
    cases hB.unique (.of_run h)
    refine ⟨_, .stops hA, hends, ?_⟩
    intro e he
    cases he

theorem Paused.insert (h : Paused widths v' A B) (hx : x ∉ widths.map Prod.fst) (a : Value) :
    Paused widths (v'.insert x a) A B := by
  cases h with
  | apart h => exact .apart h
  | @counting y i j A B k m n hn hy hi hj hrest =>
    have hne : y ≠ x := by
      rintro rfl
      exact hx (List.mem_map_of_mem hy)
    refine .counting hn hy ?_ hj hrest
    rw [Table.get?_insert, if_neg hne, hi]

end Agenda

namespace SourceRun

/-- Two executions have come equally far, the second one with counters. -/
structure Enacts (widths : List (String × Nat)) (r q : SourceRun) : Prop where
  values : r.values.Counts widths q.values
  steps : q.steps = r.steps
  paused : Agenda.Paused widths q.values r.agenda q.agenda

variable {r q : SourceRun}

theorem Enacts.of_takes (hnodup : (widths.map Prod.fst).Nodup) (h : r.Enacts widths q)
    (hstep : r.Takes result r') :
    ∃ q' limit, r'.Enacts widths q' ∧
      ∀ budget, limit ≤ budget → q.step budget = (result, q') := by
  cases hstep with
  | yields hreaches =>
    obtain ⟨out, ⟨limit, hyields⟩, hends, _⟩ := h.paused.of_reaches hnodup hreaches h.values
    cases hends with
    | waits hv hpaused =>
      refine ⟨⟨_, _, q.steps + 1⟩, limit, ⟨hv, congrArg (· + 1) h.steps, hpaused⟩, ?_⟩
      intro budget hle
      rw [step, hyields budget hle]
  | fails hreaches =>
    obtain ⟨out, ⟨limit, hyields⟩, hends, hfollows⟩ := h.paused.of_reaches hnodup hreaches h.values
    cases hends with
    | fails hv =>
      refine ⟨⟨_, q.agenda, q.steps⟩, limit, ⟨hv, h.steps, .apart (hfollows _ rfl)⟩, ?_⟩
      intro budget hle
      rw [step, hyields budget hle]

theorem Enacts.of_step (hnodup : (widths.map Prod.fst).Nodup) (h : r.Enacts widths q)
    (hstays : ∀ n, (q.step budget).1 ≠ .error (.runaway n)) :
    ∃ r', r.Takes (q.step budget).1 r' ∧ r'.Enacts widths (q.step budget).2 := by
  rw [step] at hstays ⊢
  cases hrun : q.agenda.run budget q.values with
  | none =>
    rw [hrun] at hstays
    exact (hstays budget rfl).elim
  | some out =>
    obtain ⟨out', hreaches, hends, hfollows⟩ := h.paused.of_run hnodup hrun h.values
    cases hends with
    | waits hv hpaused => exact ⟨_, .yields hreaches, hv, congrArg (· + 1) h.steps, hpaused⟩
    | fails hv => exact ⟨_, .fails hreaches, hv, h.steps, .apart (hfollows _ rfl)⟩

theorem Enacts.set (h : r.Enacts widths q) (hx : x ∉ widths.map Prod.fst) (a : Value) :
    (r.set x a).Enacts widths (q.set x a) :=
  ⟨h.values.insert hx a, h.steps, h.paused.insert hx a⟩

variable {body body' : List (Stmt Expr)}

theorem Enacts.of_obeys (hnodup : (widths.map Prod.fst).Nodup)
    (hinit : ∀ reset, (initWaiting body reset).Enacts widths (init body' reset))
    (hobeys : Obeys body r cs results r') (h : r.Enacts widths q)
    (hcs : ∀ c ∈ cs, ∀ x ∈ widths.map Prod.fst, c.Spares x) :
    ∃ q' limit, r'.Enacts widths q' ∧ ∀ budget, limit ≤ budget →
      Command.obeyAll (obey budget body') q cs = (results, q') := by
  induction hobeys generalizing q with
  | done => exact ⟨q, 0, h, fun _ _ => rfl⟩
  | init _ ih =>
    obtain ⟨q', limit, h', hall⟩ := ih (hinit _) (List.forall_mem_cons.1 hcs).2
    exact ⟨q', limit, h', hall⟩
  | set _ ih =>
    obtain ⟨hspares, hcs⟩ := List.forall_mem_cons.1 hcs
    obtain ⟨q', limit, h', hall⟩ := ih (h.set (fun hmem => hspares _ hmem rfl) _) hcs
    exact ⟨q', limit, h', hall⟩
  | step hstep _ ih =>
    obtain ⟨q₁, limit₁, h₁, hq₁⟩ := h.of_takes hnodup hstep
    obtain ⟨q', limit, h', hall⟩ := ih h₁ (List.forall_mem_cons.1 hcs).2
    refine ⟨q', max limit₁ limit, h', ?_⟩
    intro budget hle
    have hstep' := hq₁ budget (Nat.le_trans (Nat.le_max_left _ _) hle)
    have hall' := hall budget (Nat.le_trans (Nat.le_max_right _ _) hle)
    simp only [Command.obeyAll, obey, hstep', hall']
    rfl

theorem Enacts.of_obeyAll (hnodup : (widths.map Prod.fst).Nodup)
    (hinit : ∀ reset, (initWaiting body reset).Enacts widths (init body' reset))
    (h : r.Enacts widths q) (budget : Nat) (cs : List Command)
    (hcs : ∀ c ∈ cs, ∀ x ∈ widths.map Prod.fst, c.Spares x)
    (hstays : ∀ result ∈ (Command.obeyAll (obey budget body') q cs).1,
      ∀ n, result ≠ .error (.runaway n)) :
    ∃ r', Obeys body r cs (Command.obeyAll (obey budget body') q cs).1 r' ∧
      r'.Enacts widths (Command.obeyAll (obey budget body') q cs).2 := by
  induction cs generalizing r q with
  | nil => exact ⟨r, .done, h⟩
  | cons c cs ih =>
    obtain ⟨hspares, hrest⟩ := List.forall_mem_cons.1 hcs
    cases c with
    | init reset =>
      obtain ⟨r', hobeys, h'⟩ := ih (hinit reset) hrest hstays
      exact ⟨r', .init hobeys, h'⟩
    | set x a =>
      have hset := h.set (fun hmem => hspares x hmem rfl) a
      obtain ⟨r', hobeys, h'⟩ := ih hset hrest hstays
      exact ⟨r', .set hobeys, h'⟩
    | step =>
      obtain ⟨hhead, htail⟩ := List.forall_mem_cons.1 hstays
      obtain ⟨r₁, htakes, h₁⟩ := h.of_step hnodup hhead
      obtain ⟨r', hobeys, h'⟩ := ih h₁ hrest htail
      exact ⟨r', .step htakes hobeys, h'⟩

end SourceRun

theorem Stmt.declarations_of_expands (h : Stmt.Expands widths ss ss') :
    Stmt.declarations ss' = Stmt.declarations ss := by
  induction h with
  | nil => rfl
  | @plain rest rest' s hs _ _ ih =>
    have happend (ts : List (Stmt Expr)) : declarations (s :: ts) =
        declarations [s] ++ declarations ts := List.filterMap_append (l := [s])
    rw [happend rest', happend rest, ih]
  | branch _ _ _ _ _ _ ih => exact ih
  | loop _ _ _ _ ih => exact ih
  | zero _ ih => exact ih
  | one _ ih => exact ih
  | counted _ _ _ _ ih => exact ih

theorem Stmt.mem_listNames {s : Stmt Expr} (hs : s ∈ body) (hx : x ∈ s.names) :
    x ∈ Stmt.listNames body := by
  induction body with
  | nil => cases hs
  | cons t body ih =>
    rcases List.mem_cons.1 hs with rfl | hs
    · exact List.mem_append_left _ hx
    · exact List.mem_append_right _ (ih hs)

theorem Stmt.mem_names_of_declarations (h : x ∈ (Stmt.declarations body).map Prod.fst) :
    x ∈ Stmt.listNames body := by
  obtain ⟨⟨y, width⟩, hmem, rfl⟩ := List.mem_map.1 h
  obtain ⟨s, hs, hdeclaration⟩ := List.mem_filterMap.1 hmem
  obtain ⟨w, rfl⟩ := Stmt.declaration_eq_ok (Except.toOption_eq_some.1 hdeclaration)
  exact Stmt.mem_listNames hs List.mem_cons_self

theorem randomValues_names (r : Xoshiro) (registers : List (String × Nat)) :
    (randomValues r registers).map Prod.fst = registers.map Prod.fst := by
  induction registers generalizing r with
  | nil => rfl
  | cons entry registers ih =>
    rw [randomValues, List.map_cons, List.map_cons, ih]

theorem Reset.get?_eq_none (h : x ∉ registers.map Prod.fst) (reset : Reset) :
    (reset.values registers).get? x = none := by
  cases reset with
  | zero =>
    have hkeys : (registers.map fun entry => (entry.1, Value.int 0)).map Prod.fst =
        registers.map Prod.fst := by
      rw [List.map_map]
      rfl
    rw [← hkeys] at h
    exact Table.get?_insertAll_of_not_mem _ h
  | random seed =>
    rw [← randomValues_names (.ofSeed seed)] at h
    exact Table.get?_insertAll_of_not_mem _ h

theorem GraphRun.Performs.run_ofBody {g : Graph} (hg : Graph.ofBody body = .ok g)
    (cs : List Command)
    (hstays : ∀ result ∈ (Command.obeyAll (GraphRun.obey g) (.start g) cs).1,
      ∀ n, result ≠ .error (.runaway n)) :
    ∃ q limit, (Command.obeyAll (GraphRun.obey g) (.start g) cs).2.Performs g q ∧
      ∀ budget, limit ≤ budget → Command.obeyAll (SourceRun.obey budget body) (.start body) cs =
        ((Command.obeyAll (GraphRun.obey g) (.start g) cs).1, q) := by
  have hwaits := Graph.waits_ofBody hg
  have hstart : (GraphRun.start g).Performs g (.start body) := ⟨rfl, rfl, hwaits⟩
  apply hstart.obeyAll ?_ cs hstays
  intro reset
  refine ⟨?_, rfl, hwaits⟩
  rw [SourceRun.init, Graph.registers_ofBody hg]
  rfl

theorem ClockedProcess.enacts {p : ClockedProcess Expr} (h : p.expandWaits = .ok expansion) :
    (SourceRun.startWaiting p.body).Enacts expansion.counters (.start expansion.body) ∧
      ∀ reset, (SourceRun.initWaiting p.body reset).Enacts expansion.counters
        (.init expansion.body reset) := by
  obtain ⟨_, hfree, hexpands⟩ := p.expands h
  have hpaused (v : Valuation) : Agenda.Paused expansion.counters v
      (.waiting 0 p.body) (.of 0 expansion.body) := by
    have hfollows := Agenda.Follows.list hexpands .nil 0
    rw [List.append_nil, List.append_nil] at hfollows
    exact .apart hfollows
  have hcounts {v : Valuation} (hv : ∀ x ∈ expansion.counters.map Prod.fst, v.get? x = none) :
      v.Counts expansion.counters v := by
    refine ⟨fun _ _ => rfl, ?_⟩
    intro x w hx a ha
    rw [hv x (List.mem_map_of_mem hx)] at ha
    cases ha
  refine ⟨⟨hcounts fun _ _ => rfl, rfl, hpaused _⟩, ?_⟩
  intro reset
  refine ⟨?_, rfl, hpaused _⟩
  rw [SourceRun.init, Stmt.declarations_of_expands hexpands]
  apply hcounts
  intro x hx
  apply Reset.get?_eq_none
  intro hdeclared
  exact hfree x hx (mem_addAllNew.2 (.inr (Stmt.mem_names_of_declarations hdeclared)))

/-- The results, the values and the number of steps are those of a process whose waits are executed
as they are; only the counters have values of their own. -/
def ClockedProcess.Accounts (p : ClockedProcess Expr) (counters : List (String × Nat))
    (cs : List Command) (results : List (Except RunError Nat)) (values : Valuation)
    (steps : Nat) : Prop :=
  ∃ r, SourceRun.Obeys p.body (.startWaiting p.body) cs results r ∧
    r.values.Counts counters values ∧ steps = r.steps

/-- What a process does with its waits as they are, its expansion does, and conversely: a wait of
`n` clock edges suspends `n` times in a row and changes nothing but a counter. -/
theorem expandWaits_waits {p : ClockedProcess Expr} (h : p.expandWaits = .ok expansion)
    (cs : List Command) (hcs : ∀ c ∈ cs, ∀ x ∈ expansion.counters.map Prod.fst, c.Spares x) :
    (∀ x ∈ expansion.counters.map Prod.fst, x ∉ p.names) ∧
    (∀ results r, SourceRun.Obeys p.body (.startWaiting p.body) cs results r →
      ∃ q limit, r.values.Counts expansion.counters q.values ∧ q.steps = r.steps ∧
        ∀ budget, limit ≤ budget →
          Command.obeyAll (SourceRun.obey budget expansion.body) (.start expansion.body) cs =
            (results, q)) ∧
    (∀ budget,
      let run := Command.obeyAll (SourceRun.obey budget expansion.body) (.start expansion.body) cs
      (∀ result ∈ run.1, ∀ n, result ≠ .error (.runaway n)) →
        p.Accounts expansion.counters cs run.1 run.2.values run.2.steps) ∧
    ∀ g, Graph.ofBody expansion.body = .ok g →
      let run := Command.obeyAll (GraphRun.obey g) (.start g) cs
      (∀ result ∈ run.1, ∀ n, result ≠ .error (.runaway n)) →
        p.Accounts expansion.counters cs run.1 run.2.values run.2.steps := by
  obtain ⟨hnodup, hfree, _⟩ := p.expands h
  obtain ⟨hstart, hinit⟩ := p.enacts h
  have hsource (budget : Nat) := hstart.of_obeyAll hnodup hinit budget cs hcs
  refine ⟨hfree, ?_, ?_, ?_⟩
  · intro results r hobeys
    obtain ⟨q, limit, hq, hall⟩ := hstart.of_obeys hnodup hinit hobeys hcs
    exact ⟨q, limit, hq.values, hq.steps, hall⟩
  · intro budget run hstays
    obtain ⟨r, hr, hq⟩ := hsource budget hstays
    exact ⟨r, hr, hq.values, hq.steps⟩
  · intro g hg run hstays
    obtain ⟨q, limit, hperforms, hall⟩ := GraphRun.Performs.run_ofBody hg cs hstays
    have hrun := hall limit (Nat.le_refl limit)
    have hobeys := hsource limit
    rw [hrun] at hobeys
    obtain ⟨r, hr, hq⟩ := hobeys hstays
    exact ⟨r, hr, hperforms.values ▸ hq.values, hperforms.steps ▸ hq.steps⟩

/-- A process with waits of all lengths on both edges of a branch and in a loop. -/
def patientProcess : ClockedProcess Expr where
  name := "patient"
  ports := Table.empty.insert "a" .input
  body := [.register "n" (.int 4),
    .loop (.bool true)
      [.branch (.var "a") [.wait (.int 3)] [.wait (.int 1), .wait (.int 0)],
        .update "n" .add (.int 1),
        .loop (.binary .lt (.var "n") (.int 2)) [.wait (.int 2), .update "n" .add (.int 1)]]]

def patientCommands : List Command :=
  [.init .zero, .set "a" (.bool true), .step, .step, .step, .step, .step, .set "a" (.bool false),
    .step, .step]

theorem expandWaits_waits_patientProcess :
    ∃ expansion, patientProcess.expandWaits = .ok expansion ∧
      expansion.counters = [("__repeat0", 2), ("__repeat1", 1)] ∧
      (∀ c ∈ patientCommands, ∀ x ∈ expansion.counters.map Prod.fst, c.Spares x) ∧
      ∃ r q, SourceRun.Obeys patientProcess.body (.startWaiting patientProcess.body)
          patientCommands [.ok 1, .ok 1, .ok 2, .ok 4, .ok 5, .ok 3, .ok 3] r ∧
        r.values.Counts expansion.counters q ∧ r.values.get? "n" = some (.int 3) ∧
        q.get? "__repeat0" = some (.int 2) := by
  have heval : (patientProcess.expandWaits.toOption.map fun expansion =>
      let run := Command.obeyAll (SourceRun.obey 20 expansion.body) (.start expansion.body)
        patientCommands
      (expansion.counters, run.1, run.2.values.get? "n", run.2.values.get? "__repeat0")) =
      some ([("__repeat0", 2), ("__repeat1", 1)],
        [.ok 1, .ok 1, .ok 2, .ok 4, .ok 5, .ok 3, .ok 3], some (.int 3), some (.int 2)) := by
    decide +kernel
  obtain ⟨expansion, hexpand, hfacts⟩ := Option.map_eq_some_iff.1 heval
  rw [Except.toOption_eq_some] at hexpand
  simp only [Prod.mk.injEq] at hfacts
  obtain ⟨hcounters, hresults, hn, hcounter⟩ := hfacts
  have hspares : ∀ c ∈ patientCommands, ∀ x ∈ expansion.counters.map Prod.fst, c.Spares x := by
    rw [hcounters]
    simp [patientCommands, Command.Spares]
  obtain ⟨_, _, hsource, _⟩ := expandWaits_waits hexpand patientCommands hspares
  have hstays : ∀ result ∈ (Command.obeyAll (SourceRun.obey 20 expansion.body)
      (.start expansion.body) patientCommands).1, ∀ n, result ≠ .error (.runaway n) := by
    rw [hresults]
    simp
  obtain ⟨r, hobeys, hvalues, _⟩ := hsource 20 hstays
  rw [hresults] at hobeys
  have hname : "n" ∉ expansion.counters.map Prod.fst := by
    rw [hcounters]
    decide
  exact ⟨expansion, hexpand, hcounters, hspares, r, _, hobeys, hvalues,
    (hvalues.others "n" hname).symm.trans hn, hcounter⟩

end Clockwork
