import Clockwork.Proofs.CounterNames
import Clockwork.Proofs.History
import Clockwork.Proofs.Refusals

/-!
The expansion of waits keeps all other statements, and its counters are new names. Statements are
compared by reference: an expression that is kept is the same one, not only an equal one.
-/

namespace Clockwork
set_option autoImplicit true

/-- The second list is the first one with the waits replaced. The loops over counters are listed
in source order, with the counter and the number of clock edges of each. -/
inductive Stmt.Unrolls (read : ε → Option Expr) :
    List (Stmt ε) → List (String × Int64) → List (Stmt ε) → Prop where
  | nil : Unrolls read [] [] []
  | kept (hs : s.nested = [s]) (hwait : ∀ count, s ≠ .wait count)
    (hrest : Unrolls read rest loops rest') : Unrolls read (s :: rest) loops (s :: rest')
  | branch (hts : Unrolls read ts loops₁ ts') (hes : Unrolls read es loops₂ es')
    (hrest : Unrolls read rest loops₃ rest') :
    Unrolls read (.branch c ts es :: rest) (loops₁ ++ loops₂ ++ loops₃) (.branch c ts' es' :: rest')
  | loop (hbody : Unrolls read body loops₁ body') (hrest : Unrolls read rest loops₂ rest') :
    Unrolls read (.loop c body :: rest) (loops₁ ++ loops₂) (.loop c body' :: rest')
  | zero (hcount : read count = some (.int 0)) (hrest : Unrolls read rest loops rest') :
    Unrolls read (.wait count :: rest) loops rest'
  | one (hcount : read count = some (.int 1)) (hrest : Unrolls read rest loops rest') :
    Unrolls read (.wait count :: rest) loops (.suspend :: rest')
  | counted {n : Int64} (hcount : read count = some (.int n)) (hn : 2 ≤ n.toInt)
    (hloop : ss.map (Stmt.map read) = (countingLoop x n).map (Stmt.map some))
    (hrest : Unrolls read rest loops rest') :
    Unrolls read (.wait count :: rest) ((x, n) :: loops) (ss ++ rest')

/-- The number of clock edges of a wait for more than one of them. -/
def Stmt.longWait? (read : ε → Option Expr) : Stmt ε → Option Int64
  | .wait count => (read count).bind fun
    | .int n => if 2 ≤ n.toInt then some n else none
    | _ => none
  | _ => none

theorem Stmt.longWait?_wait {read : ε → Option Expr} (hcount : read count = some (.int n)) :
    Stmt.longWait? read (.wait count) = if 2 ≤ n.toInt then some n else none := by
  rw [Stmt.longWait?, hcount]
  rfl

/-- There is a loop for each wait for more than one clock edge, and for no other statement. -/
theorem Stmt.Unrolls.map_longWait? {read : ε → Option Expr} (h : Stmt.Unrolls read ss loops ss') :
    loops.map Prod.snd = (Stmt.nestedList ss).filterMap (Stmt.longWait? read) := by
  have hwait (count : ε) (rest : List (Stmt ε)) : nestedList (.wait count :: rest) =
      .wait count :: nestedList rest := rfl
  induction h with
  | nil => rfl
  | @kept s rest loops rest' hs hkept _ ih =>
    have hnone : longWait? read s = none := by
      cases s with
      | wait count => exact (hkept count rfl).elim
      | _ => rfl
    rw [nestedList, hs, List.singleton_append, List.filterMap_cons_none hnone, ih]
  | branch _ _ _ ihts ihes ih =>
    rw [nestedList, nested, List.cons_append, List.filterMap_cons_none rfl, List.filterMap_append,
      List.filterMap_append, List.map_append, List.map_append, ihts, ihes, ih]
  | loop _ _ ihbody ih =>
    rw [nestedList, nested, List.cons_append, List.filterMap_cons_none rfl, List.filterMap_append,
      List.map_append, ihbody, ih]
  | zero hcount _ ih => rw [hwait, List.filterMap_cons_none (longWait?_wait hcount), ih]
  | one hcount _ ih => rw [hwait, List.filterMap_cons_none (longWait?_wait hcount), ih]
  | counted hcount hn _ _ ih =>
    have hsome := (longWait?_wait hcount).trans (if_pos hn)
    rw [hwait, List.filterMap_cons_some hsome, List.map_cons, ih]

/-- The width of the counter of a loop. -/
def loopWidth (l : String × Int64) : String × Nat :=
  (l.1, bitWidth (l.2.toInt.toNat - 1))

theorem Stmt.unrolls_of_kept {cs cs' : Counters} (hs : s.nested = [s])
    (hwait : ∀ count, s ≠ .wait count)
    (h : Except.ok (ε := ProcessError) ([s], cs) = .ok (ss, cs')) :
    ∃ loops, cs'.widths = cs.widths ++ loops.map loopWidth ∧
      ∀ rest loops' rest', Stmt.Unrolls some rest loops' rest' →
        Stmt.Unrolls some (s :: rest) (loops ++ loops') (ss ++ rest') := by
  cases h
  exact ⟨[], (List.append_nil _).symm, fun _ _ _ hrest => .kept hs hwait hrest⟩

mutual

theorem Stmt.unrolls_expandWaits {cs cs' : Counters} (s : Stmt Expr)
    (h : s.expandWaits taken cs = .ok (ss, cs')) :
    ∃ loops, cs'.widths = cs.widths ++ loops.map loopWidth ∧
      ∀ rest loops' rest', Stmt.Unrolls some rest loops' rest' →
        Stmt.Unrolls some (s :: rest) (loops ++ loops') (ss ++ rest') := by
  match s with
  | .wait e =>
    rcases expandWait_cases h with ⟨rfl, rfl, rfl⟩ | ⟨rfl, rfl, rfl⟩ | ⟨n, hn, rfl, rfl, rfl⟩
    · exact ⟨[], (List.append_nil _).symm, fun _ _ _ hrest => .zero rfl hrest⟩
    · exact ⟨[], (List.append_nil _).symm, fun _ _ _ hrest => .one rfl hrest⟩
    · exact ⟨[(_, n)], rfl, fun _ _ _ hrest => .counted rfl hn rfl hrest⟩
  | .branch c ts es =>
    obtain ⟨⟨ts', cs₁⟩, hts, htail⟩ := Except.bind_eq_ok h
    obtain ⟨⟨es', cs₂⟩, hes, hss⟩ := Except.bind_eq_ok htail
    cases hss
    obtain ⟨loops₁, hcs₁, hts'⟩ := Stmt.unrolls_expandWaitsList ts hts
    obtain ⟨loops₂, hcs₂, hes'⟩ := Stmt.unrolls_expandWaitsList es hes
    refine ⟨loops₁ ++ loops₂, ?_, fun _ _ _ hrest => .branch hts' hes' hrest⟩
    rw [hcs₂, hcs₁, List.map_append, List.append_assoc]
  | .loop c body =>
    obtain ⟨⟨body', cs₁⟩, hbody, hss⟩ := Except.bind_eq_ok h
    cases hss
    obtain ⟨loops, hcs, hbody'⟩ := Stmt.unrolls_expandWaitsList body hbody
    exact ⟨loops, hcs, fun _ _ _ hrest => .loop hbody' hrest⟩
  | .register x w => exact Stmt.unrolls_of_kept rfl (by simp) h
  | .assign xs v => exact Stmt.unrolls_of_kept rfl (by simp) h
  | .update x op v => exact Stmt.unrolls_of_kept rfl (by simp) h
  | .expr v => exact Stmt.unrolls_of_kept rfl (by simp) h
  | .suspend => exact Stmt.unrolls_of_kept rfl (by simp) h

theorem Stmt.unrolls_expandWaitsList {cs cs' : Counters} (body : List (Stmt Expr))
    (h : Stmt.expandWaitsList taken cs body = .ok (ss, cs')) :
    ∃ loops, cs'.widths = cs.widths ++ loops.map loopWidth ∧ Stmt.Unrolls some body loops ss := by
  match body with
  | [] =>
    cases h
    exact ⟨[], (List.append_nil _).symm, .nil⟩
  | s :: rest =>
    obtain ⟨⟨us, cs₁⟩, hus, htail⟩ := Except.bind_eq_ok h
    obtain ⟨⟨vs, cs₂⟩, hvs, hss⟩ := Except.bind_eq_ok htail
    cases hss
    obtain ⟨loops₁, hcs₁, hs⟩ := Stmt.unrolls_expandWaits s hus
    obtain ⟨loops₂, hcs₂, hrest⟩ := Stmt.unrolls_expandWaitsList rest hvs
    refine ⟨loops₁ ++ loops₂, ?_, hs _ _ _ hrest⟩
    rw [hcs₂, hcs₁, List.map_append, List.append_assoc]

end

theorem ClockedProcess.unrolls {p : ClockedProcess Expr} (h : p.expandWaits = .ok expansion) :
    ∃ loops, expansion.counters = loops.map loopWidth ∧
      Stmt.Unrolls some p.body loops expansion.body := by
  obtain ⟨⟨body, cs⟩, hexpand, he⟩ := Except.bind_eq_ok h
  cases he
  exact Stmt.unrolls_expandWaitsList p.body hexpand

/-- Why a wait has no expansion. -/
inductive Stmt.Uncountable : Stmt Expr → ProcessError → Prop where
  | wait (h : ¬ ∃ n : Int64, count = .int n ∧ 0 ≤ n.toInt) :
    Uncountable (.wait count) (.waitCount count)

theorem judges_expandWait (taken : List String) (cs : Counters) (count : Expr) :
    Judges Stmt.Uncountable [.wait count] (expandWait taken cs count) := by
  cases count with
  | int n =>
    rw [expandWait]
    by_cases hn : n < 0
    · rw [if_pos hn]
      refine .refuses (.here (.wait ?_))
      rintro ⟨m, hm, hpos⟩
      cases hm
      exact Int.not_le.2 (Int64.lt_iff_toInt_lt.1 hn) hpos
    · rw [if_neg hn]
      have hpos : 0 ≤ n.toInt := by
        rw [Int64.lt_iff_toInt_lt] at hn
        exact Int.not_lt.1 hn
      have hcounts : ∀ e, ¬ (Stmt.wait (.int n)).Uncountable e := by
        intro e he
        cases he with
        | wait h => exact h ⟨n, rfl, hpos⟩
      split
      · exact .leaf hcounts
      · split
        · exact .leaf hcounts
        · exact .leaf hcounts
  | var => exact .refuses (.here (.wait (by simp)))
  | bool => exact .refuses (.here (.wait (by simp)))
  | unary => exact .refuses (.here (.wait (by simp)))
  | binary => exact .refuses (.here (.wait (by simp)))
  | ite => exact .refuses (.here (.wait (by simp)))

mutual

/-- The waits inside a statement are judged in the order in which they are expanded. -/
theorem Stmt.judges_expandWaits (taken : List String) (cs : Counters) (s : Stmt Expr) :
    Judges Stmt.Uncountable s.nested (s.expandWaits taken cs) := by
  match s with
  | .wait e => exact judges_expandWait taken cs e
  | .branch c ts es =>
    rw [expandWaits, nested]
    refine .cons (fun _ h => by cases h) ?_
    apply (Stmt.judges_expandWaitsList taken cs ts).bind
    intro r
    exact (Stmt.judges_expandWaitsList taken r.2 es).map _
  | .loop c body =>
    rw [expandWaits, nested]
    exact .cons (fun _ h => by cases h) ((Stmt.judges_expandWaitsList taken cs body).map _)
  | .register x w => exact .leaf fun _ h => by cases h
  | .assign xs v => exact .leaf fun _ h => by cases h
  | .update x op v => exact .leaf fun _ h => by cases h
  | .expr v => exact .leaf fun _ h => by cases h
  | .suspend => exact .leaf fun _ h => by cases h

theorem Stmt.judges_expandWaitsList (taken : List String) (cs : Counters) (ss : List (Stmt Expr)) :
    Judges Stmt.Uncountable (Stmt.nestedList ss) (Stmt.expandWaitsList taken cs ss) := by
  match ss with
  | [] => exact .accepts (List.forall_mem_nil _)
  | s :: rest =>
    rw [expandWaitsList, nestedList]
    apply (Stmt.judges_expandWaits taken cs s).bind
    intro r
    exact (Stmt.judges_expandWaitsList taken r.2 rest).map _

end

theorem ClockedProcess.expandWaits_eq_error_iff {p : ClockedProcess Expr} :
    (∃ e, p.expandWaits = .error e) ↔ ∃ count, .wait count ∈ Stmt.nestedList p.body ∧
      ¬ ∃ n : Int64, count = .int n ∧ 0 ≤ n.toInt := by
  have h : Judges Stmt.Uncountable (Stmt.nestedList p.body) p.expandWaits :=
    (Stmt.judges_expandWaitsList p.names .none p.body).map _
  rw [h.exists_error_iff]
  constructor
  · intro ⟨s, hs, e, he⟩
    cases he with
    | wait hcount => exact ⟨_, hs, hcount⟩
  · intro ⟨count, hs, hcount⟩
    exact ⟨_, hs, _, .wait hcount⟩

theorem countingLoop_not_wait (x : String) (n : Int64) (count : Expr) :
    .wait count ∉ Stmt.nestedList (countingLoop x n) := by
  simp [countingLoop, Stmt.nestedList, Stmt.nested]

theorem Stmt.eq_of_map_some {ss ts : List (Stmt ε)}
    (h : ss.map (Stmt.map some) = ts.map (Stmt.map some)) : ss = ts := by
  have heq : ss.map (Stmt.map fun e => e) = ts.map (Stmt.map fun e => e) :=
    Stmt.map_list_eq_of_imp (fun _ _ => Option.some.inj) h
  simpa only [← mapList_eq_map, mapList_id] using heq

theorem Stmt.Unrolls.not_wait (h : Unrolls some ss loops ss') (count : Expr) :
    .wait count ∉ nestedList ss' := by
  induction h with
  | nil => exact List.not_mem_nil
  | kept hs hwait _ ih =>
    rw [nestedList, hs, List.singleton_append, List.mem_cons, not_or]
    exact ⟨(hwait count).symm, ih⟩
  | branch _ _ _ ihts ihes ih =>
    simp only [nestedList, nested, List.mem_append, List.mem_cons, reduceCtorEq, false_or, not_or]
    exact ⟨⟨ihts, ihes⟩, ih⟩
  | loop _ _ ihbody ih =>
    simp only [nestedList, nested, List.mem_append, List.mem_cons, reduceCtorEq, false_or, not_or]
    exact ⟨ihbody, ih⟩
  | zero _ _ ih => exact ih
  | one _ _ ih =>
    simp only [nestedList, nested, List.mem_append, List.mem_singleton, reduceCtorEq, false_or]
    exact ih
  | counted _ _ hloop _ ih =>
    rw [eq_of_map_some hloop, nestedList_append, List.mem_append, not_or]
    exact ⟨countingLoop_not_wait _ _ count, ih⟩

namespace Pool

variable {p q : Pool}

theorem expr?_injective (hq : q.WellFormed) (ha : q.expr? a = some x) (hb : q.expr? b = some x) :
    a = b :=
  ((expr?_eq_some hq).1 ha).injective hq ((expr?_eq_some hq).1 hb)

/-- Statements that read the same are the same. -/
theorem stmts_injective (hq : q.WellFormed) {rs rs' : List (Stmt ExprRef)} {ss : List (Stmt Expr)}
    (h : rs.map (Stmt.map q.expr?) = ss.map (Stmt.map some))
    (h' : rs'.map (Stmt.map q.expr?) = ss.map (Stmt.map some)) : rs = rs' := by
  obtain ⟨ref, href⟩ := exists_ref hq
  have heq := (Stmt.map_list_eq_of_imp (g := fun r => r) href h).trans
    (Stmt.map_list_eq_of_imp (g := fun r => r) href h').symm
  simpa only [← Stmt.mapList_eq_map, Stmt.mapList_id] using heq

theorem stmt_injective (hq : q.WellFormed) {r r' : Stmt ExprRef} {s : Stmt Expr}
    (h : s.map some = r.map q.expr?) (h' : s.map some = r'.map q.expr?) : r = r' := by
  have hr : [r].map (Stmt.map q.expr?) = [s].map (Stmt.map some) := congrArg (fun s => [s]) h.symm
  have hr' : [r'].map (Stmt.map q.expr?) = [s].map (Stmt.map some) :=
    congrArg (fun s => [s]) h'.symm
  exact List.singleton_inj.1 (stmts_injective hq hr hr')

theorem nested_map_eq {f : ε → γ} {f' : δ → γ} {ss : List (Stmt ε)} {ts : List (Stmt δ)}
    (h : ss.map (Stmt.map f) = ts.map (Stmt.map f')) :
    (Stmt.nestedList ss).map (Stmt.map f) = (Stmt.nestedList ts).map (Stmt.map f') := by
  rw [← Stmt.nestedList_mapList, ← Stmt.nestedList_mapList, Stmt.mapList_eq_map, h,
    Stmt.mapList_eq_map]

theorem exists_alike {f : ε → γ} {f' : δ → γ} {ss : List (Stmt ε)} {ts : List (Stmt δ)}
    (h : ss.map (Stmt.map f) = ts.map (Stmt.map f')) (hs : s ∈ Stmt.nestedList ss) :
    ∃ t ∈ Stmt.nestedList ts, s.Alike f f' t := by
  have hmem : s.map f ∈ (Stmt.nestedList ts).map (Stmt.map f') :=
    nested_map_eq h ▸ List.mem_map_of_mem hs
  obtain ⟨t, ht, heq⟩ := List.mem_map.1 hmem
  exact ⟨t, ht, Stmt.alike_of_map_eq heq.symm⟩

/-- Statements in the pool are unrolled as those that they stand for. -/
theorem unrolls_of_read (hq : q.WellFormed) (h : Stmt.Unrolls some ss loops ss')
    {rs rs' : List (Stmt ExprRef)} (hrs : ss.map (Stmt.map some) = rs.map (Stmt.map q.expr?))
    (hrs' : ss'.map (Stmt.map some) = rs'.map (Stmt.map q.expr?)) :
    Stmt.Unrolls q.expr? rs loops rs' := by
  induction h generalizing rs rs' with
  | nil =>
    cases eq_nil_of_map_eq hrs
    cases eq_nil_of_map_eq hrs'
    exact .nil
  | kept hs hwait _ ih =>
    obtain ⟨r, rest, rfl, hr, hrest⟩ := eq_cons_of_map_eq hrs
    obtain ⟨r', rest', rfl, hr', hrest'⟩ := eq_cons_of_map_eq hrs'
    cases stmt_injective hq hr hr'
    refine .kept ((Stmt.nested_map_eq_singleton (f := q.expr?)).1 ?_) (fun count hcount => ?_)
      (ih hrest hrest')
    · rw [← hr]
      exact Stmt.nested_map_eq_singleton.2 hs
    · subst hcount
      cases Stmt.alike_of_map_eq hr with
      | wait => exact hwait _ rfl
  | branch _ _ _ ihts ihes ih =>
    obtain ⟨r, rest, rfl, hr, hrest⟩ := eq_cons_of_map_eq hrs
    obtain ⟨r', rest', rfl, hr', hrest'⟩ := eq_cons_of_map_eq hrs'
    cases Stmt.alike_of_map_eq hr with
    | branch hc hts hes =>
      cases Stmt.alike_of_map_eq hr' with
      | branch hc' hts' hes' =>
        cases expr?_injective hq hc.symm hc'.symm
        exact .branch (ihts hts hts') (ihes hes hes') (ih hrest hrest')
  | loop _ _ ihbody ih =>
    obtain ⟨r, rest, rfl, hr, hrest⟩ := eq_cons_of_map_eq hrs
    obtain ⟨r', rest', rfl, hr', hrest'⟩ := eq_cons_of_map_eq hrs'
    cases Stmt.alike_of_map_eq hr with
    | loop hc hbody =>
      cases Stmt.alike_of_map_eq hr' with
      | loop hc' hbody' =>
        cases expr?_injective hq hc.symm hc'.symm
        exact .loop (ihbody hbody hbody') (ih hrest hrest')
  | zero hcount _ ih =>
    obtain ⟨r, rest, rfl, hr, hrest⟩ := eq_cons_of_map_eq hrs
    cases Stmt.alike_of_map_eq hr with
    | wait hn => exact .zero (hn.symm.trans hcount) (ih hrest hrs')
  | one hcount _ ih =>
    obtain ⟨r, rest, rfl, hr, hrest⟩ := eq_cons_of_map_eq hrs
    obtain ⟨r', rest', rfl, hr', hrest'⟩ := eq_cons_of_map_eq hrs'
    cases Stmt.alike_of_map_eq hr with
    | wait hn =>
      cases Stmt.alike_of_map_eq hr' with
      | suspend => exact .one (hn.symm.trans hcount) (ih hrest hrest')
  | counted hcount hn hloop _ ih =>
    obtain ⟨r, rest, rfl, hr, hrest⟩ := eq_cons_of_map_eq hrs
    rw [List.map_append] at hrs'
    obtain ⟨loop, rest', rfl, hloop', hrest'⟩ := List.map_eq_append_iff.1 hrs'.symm
    cases Stmt.alike_of_map_eq hr with
    | wait hread =>
      exact .counted (hread.symm.trans hcount) hn (hloop'.trans hloop) (ih hrest hrest'.symm)

mutual

theorem expandWaits_eq_pure (taken : List NameRef) (cs : Counters) (s : Stmt ExprRef)
    (hs : ∀ count, .wait count ∉ s.nested) : expandWaits taken cs s = pure ([s], cs) := by
  match s with
  | .wait count => exact absurd List.mem_cons_self (hs count)
  | .branch c ts es =>
    simp only [Stmt.nested, List.mem_cons, List.mem_append, reduceCtorEq, false_or, not_or] at hs
    simp only [expandWaits, expandWaitsList_eq_pure taken cs ts fun count => (hs count).1,
      expandWaitsList_eq_pure taken cs es fun count => (hs count).2, pure_bind]
  | .loop c body =>
    simp only [Stmt.nested, List.mem_cons, reduceCtorEq, false_or] at hs
    simp only [expandWaits, expandWaitsList_eq_pure taken cs body hs, pure_bind]
  | .register x w => rfl
  | .assign xs v => rfl
  | .update x op v => rfl
  | .expr v => rfl
  | .suspend => rfl

theorem expandWaitsList_eq_pure (taken : List NameRef) (cs : Counters) (ss : List (Stmt ExprRef))
    (hss : ∀ count, .wait count ∉ Stmt.nestedList ss) :
    expandWaitsList taken cs ss = pure (ss, cs) := by
  match ss with
  | [] => rfl
  | s :: rest =>
    simp only [Stmt.nestedList, List.mem_append, not_or] at hss
    simp only [expandWaitsList, expandWaits_eq_pure taken cs s fun count => (hss count).1,
      expandWaitsList_eq_pure taken cs rest fun count => (hss count).2, pure_bind,
      List.singleton_append]

end

/-- Without waits there is nothing to expand. -/
theorem expandProcess_of_not_wait {process : ClockedProcess ExprRef}
    (h : ∀ count, .wait count ∉ Stmt.nestedList process.body) (p : Pool) :
    ((expandProcess process).run p).1 = .ok ⟨process.body, []⟩ := by
  simp only [expandProcess, expandWaitsList_eq_pure _ _ _ h, pure_bind]
  rfl

theorem Agrees.exists_error_iff (h : q.Agrees R result result') :
    (∃ e, result = .error e) ↔ ∃ e, result' = .error e := by
  cases h with
  | ok => exact iff_of_false (fun ⟨_, h⟩ => by cases h) fun ⟨_, h⟩ => by cases h
  | error => exact iff_of_true ⟨_, rfl⟩ ⟨_, rfl⟩

theorem exists_wait_iff (hbody : rs.map (Stmt.map p.expr?) = ss.map (Stmt.map some)) :
    (∃ count, .wait count ∈ Stmt.nestedList rs ∧
      ¬ ∃ n : Int64, p.expr? count = some (.int n) ∧ 0 ≤ n.toInt) ↔
    ∃ count, .wait count ∈ Stmt.nestedList ss ∧ ¬ ∃ n : Int64, count = .int n ∧ 0 ≤ n.toInt := by
  constructor
  · intro ⟨count, hmem, hcount⟩
    obtain ⟨t, ht, halike⟩ := exists_alike hbody hmem
    cases halike with
    | wait hread =>
      refine ⟨_, ht, fun ⟨n, hn, hpos⟩ => hcount ⟨n, hread.trans (congrArg some hn), hpos⟩⟩
  · intro ⟨count, hmem, hcount⟩
    obtain ⟨t, ht, halike⟩ := exists_alike hbody.symm hmem
    cases halike with
    | wait hread =>
      refine ⟨_, ht, fun ⟨n, hn, hpos⟩ => hcount ⟨n, ?_, hpos⟩⟩
      exact Option.some.inj (hread.trans hn)

theorem mem_ownNames_of_alike {s : Stmt ExprRef} {t : Stmt Expr} (h : s.Alike p.expr? some t)
    (hx : x ∈ s.targets ∨ ∃ r e, s.ownExpr? = some r ∧ p.expr? r = some e ∧ x ∈ e.vars) :
    x ∈ t.ownNames Expr.vars := by
  have htargets : s.targets = t.targets := by cases h <;> rfl
  have hown : s.ownExpr?.map p.expr? = t.ownExpr?.map some := by
    cases h <;> simp_all [Stmt.ownExpr?]
  rw [Stmt.mem_ownNames]
  rcases hx with hx | ⟨r, e, hr, he, hx⟩
  · exact .inl (htargets ▸ hx)
  · rw [hr, Option.map_some, he] at hown
    obtain ⟨e', he', heq⟩ := Option.map_eq_some_iff.1 hown.symm
    cases heq
    exact .inr ⟨e, he', hx⟩

theorem not_mentioned {process : ClockedProcess ExprRef} {source : ClockedProcess Expr}
    (hprocess : process.map p.expr? = source.map some) (hx : x ∉ source.names) :
    x ∉ process.ports.keys ∧ ∀ s ∈ Stmt.nestedList process.body, x ∉ s.targets ∧
      ∀ r e, s.ownExpr? = some r → p.expr? r = some e → x ∉ e.vars := by
  obtain ⟨_, hports, hbody⟩ := ClockedProcess.mk.inj hprocess
  rw [Stmt.mapList_eq_map, Stmt.mapList_eq_map] at hbody
  rw [ClockedProcess.names, mem_addAllNew, Stmt.listNames_eq_flatMap, List.mem_flatMap, not_or] at hx
  refine ⟨fun hport => hx.1 (congrArg Table.keys hports ▸ hport), ?_⟩
  intro s hs
  obtain ⟨t, ht, halike⟩ := exists_alike hbody hs
  have hown (h : x ∈ t.ownNames Expr.vars) : False := hx.2 ⟨t, ht, h⟩
  exact ⟨fun h => hown (mem_ownNames_of_alike halike (.inl h)), fun r e hr he h =>
    hown (mem_ownNames_of_alike halike (.inr ⟨r, e, hr, he, h⟩))⟩

theorem not_wait_of_read (hread : rs.map (Stmt.map q.expr?) = ss.map (Stmt.map some))
    (h : ∀ count, .wait count ∉ Stmt.nestedList ss) (count : ExprRef) :
    .wait count ∉ Stmt.nestedList rs := by
  intro hcount
  obtain ⟨t, ht, halike⟩ := exists_alike hread hcount
  cases halike with
  | wait => exact h _ ht

/-- Waits are expanded unless one of them has no count. Every long wait gets a counter of its own
that the process does not mention, all other statements stay, and no wait is left. -/
theorem expandProcess_unrolls (hp : p.WellFormed) {process : ClockedProcess ExprRef}
    {source : ClockedProcess Expr} (hprocess : process.map p.expr? = source.map some)
    (hrun : (expandProcess process).run p = (result, q)) :
    ((∃ e, result = .error e) ↔ ∃ count, .wait count ∈ Stmt.nestedList process.body ∧
      ¬ ∃ n : Int64, p.expr? count = some (.int n) ∧ 0 ≤ n.toInt) ∧
    ∀ expansion, result = .ok expansion →
      (expansion.counters.map Prod.fst).Nodup ∧
      (∀ x ∈ expansion.counters.map Prod.fst, x ∉ process.ports.keys ∧
        ∀ s ∈ Stmt.nestedList process.body, x ∉ s.targets ∧
          ∀ r e, s.ownExpr? = some r → p.expr? r = some e → x ∉ e.vars) ∧
      (∀ r e, p.expr? r = some e → q.expr? r = some e) ∧
      (∃ loops, expansion.counters = loops.map loopWidth ∧
        Stmt.Unrolls q.expr? process.body loops expansion.body) ∧
      (∀ count, .wait count ∉ Stmt.nestedList expansion.body) ∧
      ∀ name ports,
        ((expandProcess ⟨name, ports, expansion.body⟩).run q).1 = .ok ⟨expansion.body, []⟩ := by
  have hmatches := matches_expandProcess hp hprocess
  have hgrows : p.Grows q := by
    have h := hmatches.grows
    rwa [show (expandProcess process).run.run p = (result, q) from hrun] at h
  have hagrees := (hmatches.of_run hrun).2
  obtain ⟨_, _, hbody⟩ := ClockedProcess.mk.inj hprocess
  rw [Stmt.mapList_eq_map, Stmt.mapList_eq_map] at hbody
  refine ⟨?_, fun expansion hresult => ?_⟩
  · rw [hagrees.exists_error_iff, ClockedProcess.expandWaits_eq_error_iff, exists_wait_iff hbody]
  · subst hresult
    generalize hsource : source.expandWaits = outcome at hagrees
    cases hagrees with
    | ok h =>
      obtain ⟨hread, hcounters⟩ := h
      obtain ⟨hnodup, hfree, _⟩ := ClockedProcess.expands hsource
      obtain ⟨loops, hloops, hunrolls⟩ := ClockedProcess.unrolls hsource
      rw [← hcounters] at hnodup hfree hloops
      have hbody' := Stmt.map_list_eq_of_imp (fun _ _ => hgrows.expr? hp) hbody
      have hwait := not_wait_of_read hread hunrolls.not_wait
      exact ⟨hnodup, fun x hx => not_mentioned hprocess (hfree x hx), fun _ _ => hgrows.expr? hp,
        ⟨loops, hloops, unrolls_of_read hgrows.wellFormed hunrolls hbody'.symm hread.symm⟩, hwait,
        fun _ _ => expandProcess_of_not_wait hwait q⟩

/-- The process has a register whose name is the first candidate for a counter. -/
theorem expandProcess_avoids_register :
    let source : ClockedProcess Expr := ⟨"p", .empty, [.register "__repeat0" (.int 3),
      .loop (.bool true) [.branch (.var "__repeat0") [.wait (.int 5)] [.suspend], .wait (.int 2)]]⟩
    let built := (addProcess source).run .empty
    ∃ expansion q loops, (expandProcess built.1).run built.2 = (.ok expansion, q) ∧
      expansion.counters = [("__repeat1", 3), ("__repeat2", 1)] ∧
      (expansion.counters.map Prod.fst).Nodup ∧ "__repeat0" ∉ expansion.counters.map Prod.fst ∧
      expansion.body.map (Stmt.map q.expr?) = List.map (Stmt.map some)
        [.register "__repeat0" (.int 3), .loop (.bool true)
          (.branch (.var "__repeat0") (countingLoop "__repeat1" 5) [.suspend] ::
            countingLoop "__repeat2" 2)] ∧
      expansion.counters = loops.map loopWidth ∧
      Stmt.Unrolls q.expr? built.1.body loops expansion.body := by
  intro source built
  obtain ⟨hp, hprocess⟩ := (adds_addProcess wellFormed_empty source).of_run (Prod.eta _).symm
  have hsource : source.expandWaits.toOption = some ⟨[.register "__repeat0" (.int 3),
      .loop (.bool true) (.branch (.var "__repeat0") (countingLoop "__repeat1" 5) [.suspend] ::
        countingLoop "__repeat2" 2)], [("__repeat1", 3), ("__repeat2", 1)]⟩ := by
    decide +kernel
  rw [Except.toOption_eq_some] at hsource
  obtain ⟨result, q, hrun⟩ : ∃ result q, (expandProcess built.1).run built.2 = (result, q) :=
    ⟨_, _, rfl⟩
  have hagrees := ((matches_expandProcess hp hprocess).of_run hrun).2
  rw [hsource] at hagrees
  cases hagrees with
  | @ok expansion _ h =>
    obtain ⟨hbody, hcounters⟩ := h
    obtain ⟨hnodup, hfresh, _, ⟨loops, hloops, hunrolls⟩, _⟩ :=
      (expandProcess_unrolls hp hprocess hrun).2 expansion rfl
    refine ⟨expansion, q, loops, hrun, hcounters, hnodup, fun hx => ?_, hbody, hloops, hunrolls⟩
    exact ((hfresh _ hx).2 _ List.mem_cons_self).1 List.mem_cons_self

end Pool

end Clockwork
