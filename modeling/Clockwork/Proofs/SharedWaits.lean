import Clockwork.Pool.Waits
import Clockwork.Proofs.SharedNames
import Clockwork.Proofs.SharedPropagation

namespace Clockwork
set_option autoImplicit true

namespace Pool

variable {p q : Pool}

/-- An outcome in the pool stands for another one: both succeed with related results, or both fail
with the same error. -/
inductive Agrees (p : Pool) (R : α → β → Prop) :
    Except (ProcessError ExprRef) α → Except ProcessError β → Prop
  | ok (h : R v w) : Agrees p R (.ok v) (.ok w)
  | error (h : e.map p.expr? = e'.map some) : Agrees p R (.error e) (.error e')

/-- An attempt keeps what is in the pool, and its outcome stands for another one. -/
def Attempt.Matches (f : Attempt α) (p : Pool) (x : Except ProcessError β)
    (R : Pool → α → β → Prop) : Prop :=
  Adds f.run p fun q result => q.Agrees (R q) result x

section Outcomes

variable {R : Pool → α → β → Prop} {S : Pool → α' → β' → Prop}

theorem Agrees.bind {R : α → β → Prop} {S : α' → β' → Prop} {x : Except (ProcessError ExprRef) α}
    {y : Except ProcessError β} {k : α → Except (ProcessError ExprRef) α'}
    {l : β → Except ProcessError β'} (h : p.Agrees R x y)
    (hk : ∀ v w, R v w → p.Agrees S (k v) (l w)) : p.Agrees S (x >>= k) (y >>= l) := by
  cases h with
  | ok h => exact hk _ _ h
  | error h => exact .error h

/-- What does not look into expressions agrees with itself. -/
theorem Agrees.of_relabel {x : Except (ProcessError ExprRef) α} {y : Except ProcessError β}
    {f : α → γ} {g : β → γ} (h : relabel p.expr? f x = relabel some g y) :
    p.Agrees (fun v w => f v = g w) x y := by
  cases x with
  | error e =>
    cases y with
    | error e' => exact .error (Except.error.inj h)
    | ok w => cases h
  | ok v =>
    cases y with
    | error e' => cases h
    | ok w => exact .ok (Except.ok.inj h)

namespace Attempt

theorem Matches.pure (hp : p.WellFormed) (h : R p v w) :
    Matches (pure v : Attempt α) p (pure w) R :=
  Adds.pure hp (.ok h)

theorem Matches.throw (hp : p.WellFormed) (h : e.map p.expr? = e'.map some) :
    Matches (throw e : Attempt α) p (throw e') R :=
  Adds.pure hp (.error h)

theorem Matches.bind {f : Attempt α} {g : α → Attempt α'} {x : Except ProcessError β}
    {k : β → Except ProcessError β'} (hf : f.Matches p x R)
    (hg : ∀ q v w, p.Grows q → R q v w → (g v).Matches q (k w) S) :
    Matches (f >>= g) p (x >>= k) S := by
  apply Adds.bind (g := ExceptT.bindCont g) hf
  intro q result hq hresult
  cases hresult with
  | ok h => exact hg _ _ _ hq h
  | error h => exact Adds.pure hq.wellFormed (.error h)

theorem Matches.bindAdds {f : StateM Pool α} {g : α → Attempt α'} {x : Except ProcessError β'}
    {R : Pool → α → Prop} (hf : Adds f p R)
    (hg : ∀ q v, p.Grows q → R q v → (g v).Matches q x S) :
    Matches ((liftM f : Attempt α) >>= g) p x S := by
  have hlift : Adds (liftM f : Attempt α).run p fun q result => ∃ v, result = .ok v ∧ R q v :=
    ⟨hf.grows, _, rfl, hf.result⟩
  apply Adds.bind (g := ExceptT.bindCont g) hlift
  rintro q _ hq ⟨v, rfl, hv⟩
  exact hg q v hq hv

theorem Matches.get {g : Pool → Attempt α} {x : Except ProcessError β} (h : (g p).Matches p x R) :
    Matches (get >>= g) p x R :=
  ⟨h.grows, h.result⟩

theorem Matches.bindAgrees {x : Except (ProcessError ExprRef) α} {y : Except ProcessError β}
    {R : α → β → Prop} {g : α → Attempt α'} {k : β → Except ProcessError β'} (hp : p.WellFormed)
    (hx : p.Agrees R x y) (hg : ∀ v w, R v w → (g v).Matches p (k w) S) :
    Matches ((liftM x : Attempt α) >>= g) p (y >>= k) S := by
  cases hx with
  | ok h => exact hg _ _ h
  | error h => exact .throw hp h

end Attempt

end Outcomes

section Waits

variable {taken : List NameRef} {names : List String}

theorem mem_iff_mem_names (hp : p.WellFormed) {i : NameRef} {s : String} (hi : p.name? i = some s)
    (htaken : taken.map p.name? = names.map some) : i ∈ taken ↔ s ∈ names := by
  have hname : p.name? i ∈ taken.map p.name? ↔ some s ∈ names.map some := by rw [hi, htaken]
  constructor
  · intro h
    simpa using hname.1 (List.mem_map_of_mem h)
  · intro h
    obtain ⟨j, hj, hji⟩ := List.mem_map.1 (hname.2 (List.mem_map_of_mem h))
    cases name?_injective hp hi (hji.trans hi)
    exact hj

theorem Grows.map_name? (h : p.Grows q) (htaken : taken.map p.name? = names.map some) :
    taken.map q.name? = names.map some :=
  map_eq_map_of_imp h.name? htaken

/-- Whether a counter name is taken does not depend on what else is in the pool. -/
theorem adds_freeCounter (hp : p.WellFormed) (htaken : taken.map p.name? = names.map some)
    (bound k : Nat) :
    Adds (freeCounter taken bound k) p fun _ n => n = Clockwork.freeCounter names bound k := by
  induction bound generalizing p k with
  | zero => exact .pure hp rfl
  | succ bound ih =>
    apply (adds_addName hp (counterName k)).bind
    intro q i hq hi
    have htaken' := hq.map_name? htaken
    have hmem := mem_iff_mem_names hq.wellFormed hi htaken'
    rw [Clockwork.freeCounter]
    by_cases h : counterName k ∈ names
    · rw [if_pos (hmem.2 h), if_pos h]
      exact ih hq.wellFormed htaken' (k + 1)
    · rw [if_neg (mt hmem.1 h), if_neg h]
      exact .pure hq.wellFormed rfl

theorem adds_addCounter (hp : p.WellFormed) (htaken : taken.map p.name? = names.map some)
    (width : Nat) (cs : Counters) :
    Adds (addCounter taken width cs) p fun _ result => result = cs.add names width := by
  have hlength : taken.length = names.length := by simpa using congrArg List.length htaken
  apply (adds_freeCounter hp htaken taken.length cs.next).bind
  intro q k hq hk
  exact .pure hq.wellFormed (by rw [hk, hlength, Counters.add])

/-- A statement with an expression of its own and no nested ones. -/
theorem adds_ownExpr (hp : p.WellFormed) {s : Stmt Expr} (v : Expr) {k : ExprRef → Stmt ExprRef}
    {k' : Option Expr → Stmt (Option Expr)}
    (hk : ∀ (q : Pool) r, (k r).map q.expr? = k' (q.expr? r)) (hs : s.map some = k' (some v)) :
    Adds (do return k (← addExpr v)) p fun q t => t.map q.expr? = s.map some := by
  apply (adds_addExpr hp v).bind
  intro q r hq hr
  exact .pure hq.wellFormed (by rw [hk, hr.expr? hq.wellFormed, hs])

mutual

theorem adds_mapM {p : Pool} (hp : p.WellFormed) (s : Stmt Expr) :
    Adds (s.mapM addExpr) p fun q t => t.map q.expr? = s.map some := by
  cases s with
  | register x w => exact adds_ownExpr hp w (fun _ _ => rfl) rfl
  | assign xs v => exact adds_ownExpr hp v (fun _ _ => rfl) rfl
  | update x op v => exact adds_ownExpr hp v (fun _ _ => rfl) rfl
  | expr v => exact adds_ownExpr hp v (fun _ _ => rfl) rfl
  | branch c ts es =>
    apply (adds_addExpr hp c).bind
    intro q r hq hr
    apply (adds_mapListM hq.wellFormed ts).bind
    intro q₁ ts' hq₁ hts
    apply (adds_mapListM hq₁.wellFormed es).bind
    intro q₂ es' hq₂ hes
    apply Adds.pure hq₂.wellFormed
    have hr₂ := ((hr.mono hq₁).mono hq₂).expr? hq₂.wellFormed
    have hts₂ := Stmt.map_list_eq_of_imp (fun _ _ => hq₂.expr? hq₁.wellFormed) hts
    simp only [Stmt.map, Stmt.mapList_eq_map, hr₂, hts₂, hes]
  | loop c body =>
    apply (adds_addExpr hp c).bind
    intro q r hq hr
    apply (adds_mapListM hq.wellFormed body).bind
    intro q₁ body' hq₁ hbody
    apply Adds.pure hq₁.wellFormed
    simp only [Stmt.map, Stmt.mapList_eq_map, (hr.mono hq₁).expr? hq₁.wellFormed, hbody]
  | suspend => exact .pure hp rfl
  | wait n => exact adds_ownExpr hp n (fun _ _ => rfl) rfl

theorem adds_mapListM {p : Pool} (hp : p.WellFormed) (ss : List (Stmt Expr)) :
    Adds (Stmt.mapListM addExpr ss) p fun q ts =>
      ts.map (Stmt.map q.expr?) = ss.map (Stmt.map some) := by
  cases ss with
  | nil => exact .pure hp rfl
  | cons s ss =>
    apply (adds_mapM hp s).bind
    intro q t hq ht
    apply (adds_mapListM hq.wellFormed ss).bind
    intro q₁ ts hq₁ hts
    apply Adds.pure hq₁.wellFormed
    simp only [List.map_cons, Stmt.map_eq_of_imp (fun _ _ => hq₁.expr? hq.wellFormed) t ht, hts]

end

/-- Adding the expressions of statements gives statements that stand for them. -/
theorem adds_addStmts (hp : p.WellFormed) (ss : List (Stmt Expr)) :
    Adds (addStmts ss) p fun q ts => ts.map (Stmt.map q.expr?) = ss.map (Stmt.map some) :=
  adds_mapListM hp ss

theorem adds_addCountingLoop (hp : p.WellFormed) (counter : String) (n : Int64) :
    Adds (addCountingLoop counter n) p fun q ts =>
      ts.map (Stmt.map q.expr?) = (countingLoop counter n).map (Stmt.map some) := by
  apply (adds_addVar hp counter).bind
  intro q₁ var hq₁ hvar
  apply (adds_int hq₁.wellFormed 0).bind
  intro q₂ zero hq₂ hzero
  apply (adds_int hq₂.wellFormed 1).bind
  intro q₃ one hq₃ hone
  apply (adds_int hq₃.wellFormed (n - 1)).bind
  intro q₄ bound hq₄ hbound
  have hvar₄ := hvar.mono ((hq₂.trans hq₃).trans hq₄)
  apply (adds_binary hq₄.wellFormed hvar₄ hbound .lt).bind
  intro q₅ cond hq₅ hcond
  have hone₅ := hone.mono (hq₄.trans hq₅)
  apply (adds_binary hq₅.wellFormed (hvar₄.mono hq₅) hone₅ .add).bind
  intro q₆ increment hq₆ hincrement
  apply Adds.pure hq₆.wellFormed
  have hzero₆ := (hzero.mono (((hq₃.trans hq₄).trans hq₅).trans hq₆)).expr? hq₆.wellFormed
  have hcond₆ := (hcond.mono hq₆).expr? hq₆.wellFormed
  simp only [countingLoop, List.map_cons, List.map_nil, Stmt.map, Stmt.mapList, hzero₆, hcond₆,
    hincrement.expr? hq₆.wellFormed]

/-- Expanded statements stand for others, with the same counters. -/
def Expanded (p : Pool) (r : List (Stmt ExprRef) × Counters) (r' : List (Stmt Expr) × Counters) :
    Prop :=
  r.1.map (Stmt.map p.expr?) = r'.1.map (Stmt.map some) ∧ r.2 = r'.2

theorem matches_expandWait (hp : p.WellFormed) (htaken : taken.map p.name? = names.map some)
    (cs : Counters) (hr : p.Denotes r x) :
    (expandWait taken cs r).Matches p (Clockwork.expandWait names cs x) Expanded := by
  have herror : (ProcessError.waitCount r).map p.expr? = (ProcessError.waitCount x).map some := by
    simp only [ProcessError.map, hr.expr? hp]
  apply Attempt.Matches.get
  cases hr with
  | @int _ n h =>
    simp only [h, Clockwork.expandWait]
    split
    · exact .throw hp herror
    · split
      · exact .pure hp ⟨rfl, rfl⟩
      · split
        · exact .pure hp ⟨rfl, rfl⟩
        · apply Attempt.Matches.bindAdds (adds_addCounter hp htaken _ cs)
          rintro q _ hq rfl
          apply Attempt.Matches.bindAdds (adds_addCountingLoop hq.wellFormed _ n)
          intro q' ss hq' hss
          exact .pure hq'.wellFormed ⟨hss, rfl⟩
  | var h _ | bool h | unary h _ | binary h _ _ | ite h _ _ _ =>
    simpa only [h] using .throw hp herror

mutual

theorem matches_expandWaits {p : Pool} (hp : p.WellFormed)
    (htaken : taken.map p.name? = names.map some) (cs : Counters) (s : Stmt ExprRef) {t : Stmt Expr}
    (hs : s.map p.expr? = t.map some) :
    (expandWaits taken cs s).Matches p (t.expandWaits names cs) Expanded := by
  cases Stmt.alike_of_map_eq hs with
  | wait hn =>
    rw [expandWaits, Stmt.expandWaits]
    exact matches_expandWait hp htaken cs ((expr?_eq_some hp).1 hn)
  | @branch c x ts ts' es es' hc hts hes =>
    rw [expandWaits, Stmt.expandWaits]
    apply (matches_expandWaitsList hp htaken cs ts hts).bind
    rintro q ⟨ts₁, cs₁⟩ ⟨ts₁', _⟩ hq ⟨hts₁, rfl⟩
    have hes₁ := Stmt.map_list_eq_of_imp (fun _ _ => hq.expr? hp) hes
    apply (matches_expandWaitsList hq.wellFormed (hq.map_name? htaken) cs₁ es hes₁).bind
    rintro q' ⟨es₂, cs₂⟩ ⟨es₂', _⟩ hq' ⟨hes₂, rfl⟩
    refine .pure hq'.wellFormed ⟨?_, rfl⟩
    have hc₂ := (hq.trans hq').expr? hp hc
    have hts₂ := Stmt.map_list_eq_of_imp (fun _ _ => hq'.expr? hq.wellFormed) hts₁
    simp only [List.map_cons, List.map_nil, Stmt.map, Stmt.mapList_eq_map, hc₂, hts₂, hes₂]
  | @loop c x body body' hc hbody =>
    rw [expandWaits, Stmt.expandWaits]
    apply (matches_expandWaitsList hp htaken cs body hbody).bind
    rintro q ⟨body₁, cs₁⟩ ⟨body₁', _⟩ hq ⟨hbody₁, rfl⟩
    refine .pure hq.wellFormed ⟨?_, rfl⟩
    simp only [List.map_cons, List.map_nil, Stmt.map, Stmt.mapList_eq_map, hq.expr? hp hc, hbody₁]
  | _ =>
    simp only [expandWaits, Stmt.expandWaits]
    exact .pure hp ⟨congrArg (fun s => [s]) hs, rfl⟩

theorem matches_expandWaitsList {p : Pool} (hp : p.WellFormed)
    (htaken : taken.map p.name? = names.map some) (cs : Counters) (ss : List (Stmt ExprRef))
    {ts : List (Stmt Expr)} (hss : ss.map (Stmt.map p.expr?) = ts.map (Stmt.map some)) :
    (expandWaitsList taken cs ss).Matches p (Stmt.expandWaitsList names cs ts) Expanded := by
  cases ss with
  | nil =>
    cases eq_nil_of_map_eq hss
    rw [expandWaitsList, Stmt.expandWaitsList]
    exact .pure hp ⟨rfl, rfl⟩
  | cons s ss =>
    obtain ⟨t, ts, rfl, hs, hss⟩ := eq_cons_of_map_eq hss
    rw [expandWaitsList, Stmt.expandWaitsList]
    apply (matches_expandWaits hp htaken cs s hs).bind
    rintro q ⟨ss₁, cs₁⟩ ⟨ts₁, _⟩ hq ⟨hss₁, rfl⟩
    have hss₂ := Stmt.map_list_eq_of_imp (fun _ _ => hq.expr? hp) hss
    apply (matches_expandWaitsList hq.wellFormed (hq.map_name? htaken) cs₁ ss hss₂).bind
    rintro q' ⟨ss₃, cs₃⟩ ⟨ts₃, _⟩ hq' ⟨hss₃, rfl⟩
    refine .pure hq'.wellFormed ⟨?_, rfl⟩
    have hss₄ := Stmt.map_list_eq_of_imp (fun _ _ => hq'.expr? hq.wellFormed) hss₁
    simp only [List.map_append, hss₃, hss₄]

end

theorem expr_of_expr? (r : ExprRef) (x : Expr) (h : p.expr? r = some x) : p.expr r = x := by
  rw [Pool.expr, h]
  rfl

/-- Waits are expanded alike in every pool. -/
theorem matches_expandProcess (hp : p.WellFormed) {process : ClockedProcess ExprRef}
    {process' : ClockedProcess Expr} (hprocess : process.map p.expr? = process'.map some) :
    (expandProcess process).Matches p process'.expandWaits fun q r r' =>
      r.body.map (Stmt.map q.expr?) = r'.body.map (Stmt.map some) ∧ r.counters = r'.counters := by
  obtain ⟨_, _, hbody⟩ := ClockedProcess.mk.inj hprocess
  rw [Stmt.mapList_eq_map, Stmt.mapList_eq_map] at hbody
  have hnames : p.processNames process = process'.names := by
    have hread : process.map p.expr = process'.map fun x => x :=
      ClockedProcess.map_eq_of_imp expr_of_expr? hprocess
    rw [processNames_eq hp, hread, ClockedProcess.map_id]
  apply Attempt.Matches.get
  rw [hnames]
  apply Attempt.Matches.bindAdds (adds_addNames hp process'.names)
  intro q taken hq htaken
  have hbody' := Stmt.map_list_eq_of_imp (fun _ _ => hq.expr? hp) hbody
  apply (matches_expandWaitsList hq.wellFormed htaken .none process.body hbody').bind
  rintro q' ⟨body, cs⟩ ⟨body', _⟩ hq' ⟨hbody, rfl⟩
  exact .pure hq'.wellFormed ⟨hbody, rfl⟩

end Waits

end Pool

end Clockwork
