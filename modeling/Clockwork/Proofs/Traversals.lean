import Clockwork.Pool.Traversal
import Clockwork.Proofs.SharedFolding

namespace Clockwork
set_option autoImplicit true

/-- The occurrences of subexpressions in an expression, each after its operands and operands from
left to right. -/
def Expr.postorder : Expr → List Expr
  | .var x => [.var x]
  | .int n => [.int n]
  | .bool b => [.bool b]
  | .unary op a => a.postorder ++ [.unary op a]
  | .binary op a b => a.postorder ++ b.postorder ++ [.binary op a b]
  | .ite c t e => c.postorder ++ t.postorder ++ e.postorder ++ [.ite c t e]

theorem Expr.length_postorder (x : Expr) : x.postorder.length = x.size := by
  induction x with
  | var => rfl
  | int => rfl
  | bool => rfl
  | unary op a iha => simp [postorder, size, iha]
  | binary op a b iha ihb => simp [postorder, size, iha, ihb, Nat.add_assoc]
  | ite c t e ihc iht ihe => simp [postorder, size, ihc, iht, ihe, Nat.add_assoc]

namespace Pool

/-- One call of a visitor: what it was given, and the result that it gave. -/
structure Call (ρ : Type) where
  ref : ExprRef
  entry : Entry
  operands : List ρ
  result : ρ

/-- The recursive definition of a traversal, for one expression after the other. The calls are
listed in the order in which they are made. -/
inductive Recurses (pool : σ → Pool) (visitor : Visitor σ ρ) :
    σ → List ExprRef → List (Call ρ) → List ρ → σ → Prop
  | nil : Recurses pool visitor s [] [] [] s
  | cons (hget : (pool s).get? r = some e)
      (hoperands : Recurses pool visitor s e.operands calls results t)
      (hcall : (visitor r e results).run t = (v, u))
      (hrest : Recurses pool visitor u rs calls' vs w) :
      Recurses pool visitor s (r :: rs) (calls ++ ⟨r, e, results, v⟩ :: calls') (v :: vs) w

/-- Every entry of a pool has its place in another one. -/
def KeptIn (p q : Pool) : Prop :=
  ∀ r e, p.get? r = some e → q.get? r = some e

/-- Whatever a visitor is called with, no entry of the pool in its state gets lost. -/
def Visitor.Keeps (pool : σ → Pool) (visitor : Visitor σ ρ) : Prop :=
  ∀ r e results s, (pool s).KeptIn (pool ((visitor r e results).run s).2)

variable {p : Pool} {pool : σ → Pool} {visitor : Visitor σ ρ} {s t : σ} {r : ExprRef}
  {rs : List ExprRef} {calls : List (Call ρ)} {vs : List ρ} {x : Expr}

theorem KeptIn.trans {p q p' : Pool} (h : p.KeptIn q) (h' : q.KeptIn p') : p.KeptIn p' :=
  fun r e hr => h' r e (h r e hr)

theorem Visitor.Keeps.of_call (hkeeps : visitor.Keeps pool)
    (hcall : (visitor r e vs).run s = (v, t)) : (pool s).KeptIn (pool t) := by
  have hkept := hkeeps r e vs s
  rw [hcall] at hkept
  exact hkept

namespace Recurses

theorem keeps (hkeeps : visitor.Keeps pool) (h : Recurses pool visitor s rs calls vs t) :
    (pool s).KeptIn (pool t) := by
  induction h with
  | nil => exact fun _ _ h => h
  | cons _ _ hcall _ ihoperands ihrest =>
    exact (ihoperands.trans (hkeeps.of_call hcall)).trans ihrest

theorem length_eq (h : Recurses pool visitor s rs calls vs t) : vs.length = rs.length := by
  induction h with
  | nil => rfl
  | cons _ _ _ _ _ ihrest => rw [List.length_cons, List.length_cons, ihrest]

/-- The recursion has at most one outcome. -/
theorem unique (h : Recurses pool visitor s rs calls vs t)
    (h' : Recurses pool visitor s rs calls' vs' t') : calls' = calls ∧ vs' = vs ∧ t' = t := by
  induction h generalizing calls' vs' t' with
  | nil =>
    cases h'
    exact ⟨rfl, rfl, rfl⟩
  | cons hget _ hcall _ ihoperands ihrest =>
    cases h' with
    | cons hget' hoperands' hcall' hrest' =>
      cases hget.symm.trans hget'
      obtain ⟨rfl, rfl, rfl⟩ := ihoperands hoperands'
      cases hcall.symm.trans hcall'
      obtain ⟨rfl, rfl, rfl⟩ := ihrest hrest'
      exact ⟨rfl, rfl, rfl⟩

theorem append (h : Recurses pool visitor s rs calls vs t)
    (h' : Recurses pool visitor t rs' calls' vs' t') :
    Recurses pool visitor s (rs ++ rs') (calls ++ calls') (vs ++ vs') t' := by
  induction h with
  | nil => exact h'
  | cons hget hoperands hcall _ _ ihrest =>
    have hrest := ihrest h'
    rw [List.append_assoc, List.cons_append, List.cons_append, List.cons_append]
    exact .cons hget hoperands hcall hrest

/-- Every call is for an entry of the pool and gets one result for each of its operands. -/
theorem entry_of_mem (hkeeps : visitor.Keeps pool) (h : Recurses pool visitor s rs calls vs t)
    {c : Call ρ} (hc : c ∈ calls) :
    (∀ e, (pool s).get? c.ref = some e → c.entry = e) ∧
      c.operands.length = c.entry.operands.length := by
  induction h with
  | nil => cases hc
  | cons hget hoperands hcall hrest ihoperands ihrest =>
    rcases List.mem_append.1 hc with hc | hc
    · exact ihoperands hc
    · rcases List.mem_cons.1 hc with rfl | hc
      · exact ⟨fun e he => Option.some.inj (hget.symm.trans he), hoperands.length_eq⟩
      · have hkept := (hoperands.keeps hkeeps).trans (hkeeps.of_call hcall)
        obtain ⟨hentry, hlength⟩ := ihrest hc
        exact ⟨fun e he => hentry e (hkept _ _ he), hlength⟩

end Recurses

section Work

theorem work?_leaf (hget : (pool s).get? r = some e) (he : e.operands = [])
    (hcall : (visitor r e []).run s = (v, t)) (fuel : Nat) (todo : List Task) (stack : List ρ) :
    (work? pool visitor (fuel + 1) (.visit r :: todo) stack).run s =
      (work? pool visitor fuel todo (v :: stack)).run t := by
  rw [work?]
  simp only [StateT.run_bind, StateT.run_get, pure_bind, hget, he, List.isEmpty_nil, if_true, hcall]
  rfl

theorem work?_visit (hget : (pool s).get? r = some e) (he : e.operands ≠ []) (fuel : Nat)
    (todo : List Task) (stack : List ρ) :
    (work? pool visitor (fuel + 1) (.visit r :: todo) stack).run s =
      (work? pool visitor fuel (e.operands.map .visit ++ .combine r :: todo) stack).run s := by
  have hsome : e.operands.isEmpty = false := List.isEmpty_eq_false_iff.2 he
  rw [work?]
  simp only [StateT.run_bind, StateT.run_get, pure_bind, hget, hsome, Bool.false_eq_true, if_false]

theorem work?_combine (hget : (pool s).get? r = some e) (hlength : vs.length = e.operands.length)
    (hcall : (visitor r e vs).run s = (v, t)) (fuel : Nat) (todo : List Task) (stack : List ρ) :
    (work? pool visitor (fuel + 1) (.combine r :: todo) (vs.reverse ++ stack)).run s =
      (work? pool visitor fuel todo (v :: stack)).run t := by
  have henough : ¬ (vs.reverse ++ stack).length < e.operands.length := by
    rw [List.length_append, List.length_reverse, hlength]
    omega
  have htop : ((vs.reverse ++ stack).take e.operands.length).reverse = vs := by
    rw [← hlength, ← List.length_reverse, List.take_left, List.reverse_reverse]
  have hbelow : (vs.reverse ++ stack).drop e.operands.length = stack := by
    rw [← hlength, ← List.length_reverse, List.drop_left]
  rw [work?]
  simp only [StateT.run_bind, StateT.run_get, pure_bind, hget, henough, if_false, htop, hbelow,
    hcall]
  rfl

/-- The tasks that calls take: an expression with operands is met again after them. -/
def taskCount : List (Call ρ) → Nat
  | [] => 0
  | c :: calls => (if c.entry.operands.isEmpty then 1 else 2) + taskCount calls

theorem taskCount_append (calls calls' : List (Call ρ)) :
    taskCount (calls ++ calls') = taskCount calls + taskCount calls' := by
  induction calls with
  | nil => exact (Nat.zero_add _).symm
  | cons c calls ih => rw [List.cons_append, taskCount, taskCount, ih, Nat.add_assoc]

theorem taskCount_le (calls : List (Call ρ)) : taskCount calls ≤ 2 * calls.length := by
  induction calls with
  | nil => exact Nat.le_refl 0
  | cons c calls ih =>
    rw [taskCount, List.length_cons]
    split <;> omega

/-- The tasks of expressions are worked off as the recursion says: their results come to lie on the
stack, and what is below and what is still to do stays as it is. -/
theorem Recurses.work?_eq (hkeeps : visitor.Keeps pool)
    (h : Recurses pool visitor s rs calls vs t) (fuel : Nat) (todo : List Task) (stack : List ρ) :
    (work? pool visitor (taskCount calls + fuel) (rs.map .visit ++ todo) stack).run s =
      (work? pool visitor fuel todo (vs.reverse ++ stack)).run t := by
  induction h generalizing fuel todo stack with
  | nil =>
    rw [taskCount, Nat.zero_add]
    rfl
  | @cons s r e calls results t v u rs calls' vs w hget hoperands hcall _ ihoperands ihrest =>
    have hstack : (v :: vs).reverse ++ stack = vs.reverse ++ v :: stack := by simp
    rw [hstack, ← ihrest, List.map_cons, List.cons_append]
    generalize rs.map Task.visit ++ todo = rest
    rw [taskCount_append, taskCount]
    -- Only an expression with operands is met a second time, when their results are on the stack.
    cases he : e.operands with
    | nil =>
      rw [he] at hoperands
      cases hoperands
      have hcount : taskCount ([] : List (Call ρ)) + (1 + taskCount calls') + fuel =
          taskCount calls' + fuel + 1 := by
        rw [taskCount]
        omega
      rw [List.isEmpty_nil, if_pos rfl, hcount]
      exact work?_leaf hget he hcall _ _ _
    | cons a as =>
      have hcount : taskCount calls + (2 + taskCount calls') + fuel =
          taskCount calls + (taskCount calls' + fuel + 1) + 1 := by omega
      have hinner : e.operands ≠ [] := by
        rw [he]
        exact List.cons_ne_nil a as
      rw [List.isEmpty_cons, if_neg Bool.false_ne_true, hcount]
      calc
        _ = (work? pool visitor (taskCount calls + (taskCount calls' + fuel + 1))
              (e.operands.map .visit ++ .combine r :: rest) stack).run s :=
          work?_visit hget hinner _ _ _
        _ = (work? pool visitor (taskCount calls' + fuel + 1) (.combine r :: rest)
              (results.reverse ++ stack)).run t := ihoperands _ _ _
        _ = (work? pool visitor (taskCount calls' + fuel) rest (v :: stack)).run u :=
          work?_combine (hoperands.keeps hkeeps r e hget) hoperands.length_eq hcall _ _ _

/-- One expression is worked off with its result alone on the stack. -/
theorem Recurses.work?_single (hkeeps : visitor.Keeps pool)
    (h : Recurses pool visitor s [r] calls [v] t) {fuel : Nat} (hfuel : 2 * calls.length ≤ fuel) :
    (work? pool visitor fuel [.visit r] []).run s = (some v, t) := by
  have hcount := taskCount_le calls
  have hsplit : fuel = taskCount calls + (fuel - taskCount calls) := by omega
  rw [hsplit]
  refine (h.work?_eq hkeeps _ [] []).trans ?_
  rw [List.append_nil, List.reverse_singleton, work?]
  rfl

end Work

/-- The recursion along an expression ends with the call for the expression itself. -/
theorem Recurses.ascend {y : Expr} (hp : p.WellFormed) (hy : p.Denotes r y)
    (hget : (pool s).get? r = some e) (h : Recurses pool visitor s e.operands calls vs t)
    (horder : calls.map (fun c => p.expr? c.ref) ++ [some y] = y.postorder.map some) :
    ∃ calls v t, Recurses pool visitor s [r] calls [v] t ∧
      calls.map (fun c => p.expr? c.ref) = y.postorder.map some := by
  have hread : p.expr? r = some y := hy.expr? hp
  refine ⟨_, _, _, .cons hget h rfl .nil, ?_⟩
  rw [List.map_append, ← horder, List.map_cons, hread, List.map_nil]

/-- Every expression has a traversal by recursion, with one call for each occurrence. -/
theorem Denotes.recurses (hp : p.WellFormed) (hkeeps : visitor.Keeps pool) (hr : p.Denotes r x)
    (hs : p.KeptIn (pool s)) :
    ∃ calls v t, Recurses pool visitor s [r] calls [v] t ∧
      calls.map (fun c => p.expr? c.ref) = x.postorder.map some := by
  induction hr generalizing s with
  | var h hx => exact Recurses.nil.ascend hp (.var h hx) (hs _ _ h) rfl
  | int h => exact Recurses.nil.ascend hp (.int h) (hs _ _ h) rfl
  | bool h => exact Recurses.nil.ascend hp (.bool h) (hs _ _ h) rfl
  | unary h ha iha =>
    obtain ⟨calls, v, t, hrec, horder⟩ := iha hs
    exact hrec.ascend hp (.unary h ha) (hs _ _ h) (by simp [horder, Expr.postorder])
  | binary h ha hb iha ihb =>
    obtain ⟨calls, v, t, hrec, horder⟩ := iha hs
    obtain ⟨calls', v', t', hrec', horder'⟩ := ihb (hs.trans (hrec.keeps hkeeps))
    exact (hrec.append hrec').ascend hp (.binary h ha hb) (hs _ _ h)
      (by simp [horder, horder', Expr.postorder])
  | ite h hc ht he ihc iht ihe =>
    obtain ⟨calls, v, t, hrec, horder⟩ := ihc hs
    have hs' := hs.trans (hrec.keeps hkeeps)
    obtain ⟨calls', v', t', hrec', horder'⟩ := iht hs'
    obtain ⟨calls'', v'', t'', hrec'', horder''⟩ := ihe (hs'.trans (hrec'.keeps hkeeps))
    exact (hrec.append (hrec'.append hrec'')).ascend hp (.ite h hc ht he) (hs _ _ h)
      (by simp [horder, horder', horder'', Expr.postorder])

/-- A visitor that also notes its calls. -/
def Visitor.noting (visitor : Visitor σ ρ) : Visitor (σ × List (Call ρ)) ρ := fun r e operands s =>
  let out := (visitor r e operands).run s.1
  (out.1, out.2, s.2 ++ [⟨r, e, operands, out.1⟩])

theorem Visitor.Keeps.noting (hkeeps : visitor.Keeps pool) :
    visitor.noting.Keeps (fun s => pool s.1) :=
  fun r e operands s => hkeeps r e operands s.1

theorem Recurses.noting (h : Recurses pool visitor s rs calls vs t) (before : List (Call ρ)) :
    Recurses (fun s => pool s.1) visitor.noting (s, before) rs calls vs (t, before ++ calls) := by
  induction h generalizing before with
  | nil =>
    rw [List.append_nil]
    exact .nil
  | @cons s r e calls results t v u rs calls' vs w hget _ hcall _ ihoperands ihrest =>
    have hnoted : (visitor.noting r e results).run (t, before ++ calls) =
        (v, u, before ++ calls ++ [⟨r, e, results, v⟩]) := by
      show (((visitor r e results).run t).1, ((visitor r e results).run t).2, _) = _
      rw [hcall]
    have hcalls : before ++ (calls ++ ⟨r, e, results, v⟩ :: calls') =
        before ++ calls ++ [⟨r, e, results, v⟩] ++ calls' := by simp
    rw [hcalls]
    exact .cons hget (ihoperands before) hnoted (ihrest _)

/-- A traversal from one state to another works as the recursion along the expression does. -/
structure Completes (pool : σ → Pool) (visitor : Visitor σ ρ) (s : σ) (r : ExprRef) (x : Expr)
    (calls : List (Call ρ)) (v : ρ) (t : σ) : Prop where
  /-- The recursive definition has this outcome and no other one. -/
  recursion : ∀ calls' vs t', Recurses pool visitor s [r] calls' vs t' ↔
    calls' = calls ∧ vs = [v] ∧ t' = t
  /-- There is one call for each occurrence, in postorder. -/
  occurrences : calls.map (fun c => (pool s).expr? c.ref) = x.postorder.map some
  /-- Every call gets the entry and one result for each operand. -/
  operands : ∀ c ∈ calls, (pool s).get? c.ref = some c.entry ∧
    c.operands.length = c.entry.operands.length
  /-- The tasks come to an end, and one result is left. -/
  ends : ∀ fuel, 2 * x.size ≤ fuel → (work? pool visitor fuel [.visit r] []).run s = (some v, t)
  /-- The calls are the ones that are made. -/
  noted : ∀ fuel, 2 * x.size ≤ fuel →
    (work? (fun s => pool s.1) visitor.noting fuel [.visit r] []).run (s, []) = (some v, t, calls)

theorem exists_completes (pool : σ → Pool) (visitor : Visitor σ ρ) (s : σ)
    (hp : (pool s).WellFormed) (hr : (pool s).Denotes r x) (hkeeps : visitor.Keeps pool) :
    ∃ calls v t, Completes pool visitor s r x calls v t ∧
      (traverse? pool visitor r).run s = (some v, t) := by
  obtain ⟨calls, v, t, hrec, horder⟩ := hr.recurses hp hkeeps fun _ _ h => h
  have hlength : calls.length = x.size := by
    have hlengths := congrArg List.length horder
    rw [List.length_map, List.length_map, x.length_postorder] at hlengths
    exact hlengths
  have hstored (c : Call ρ) (hc : c ∈ calls) : ∃ e, (pool s).get? c.ref = some e := by
    have hread : (pool s).expr? c.ref ∈ x.postorder.map some :=
      horder ▸ List.mem_map.2 ⟨c, hc, rfl⟩
    obtain ⟨y, _, hy⟩ := List.mem_map.1 hread
    exact ((expr?_eq_some hp).1 hy.symm).get?
  have hends (fuel : Nat) (hfuel : 2 * x.size ≤ fuel) :
      (work? pool visitor fuel [.visit r] []).run s = (some v, t) :=
    hrec.work?_single hkeeps (hlength ▸ hfuel)
  refine ⟨calls, v, t, ⟨?_, horder, ?_, hends, ?_⟩, ?_⟩
  · intro calls' vs t'
    constructor
    · exact hrec.unique
    · rintro ⟨rfl, rfl, rfl⟩
      exact hrec
  · intro c hc
    obtain ⟨e, he⟩ := hstored c hc
    obtain ⟨hentry, hoperands⟩ := hrec.entry_of_mem hkeeps hc
    exact ⟨he.trans (congrArg some (hentry e he).symm), hoperands⟩
  · intro fuel hfuel
    exact (hrec.noting []).work?_single hkeeps.noting (hlength ▸ hfuel)
  · have hread : (pool s).expr r = x := by
      rw [Pool.expr, hr.expr? hp]
      rfl
    have hlast := hends (2 * x.size) (Nat.le_refl _)
    rw [← hread] at hlast
    exact hlast

end Pool

open Pool

/-- In a well-formed pool, a traversal with two stacks computes the recursion along the expression,
also where the visitor adds to the pool on the way. -/
theorem traversal_recurses {p : Pool} {r : ExprRef} {x : Expr} (hp : p.WellFormed)
    (hr : p.Denotes r x) :
    (∀ (σ ρ : Type) (visitor : Visitor σ ρ) (s : σ), ∃ calls v t,
      Completes (fun _ => p) visitor s r x calls v t ∧ (survey? p visitor r).run s = (some v, t)) ∧
      ∀ (σ ρ : Type) (pool : σ → Pool) (visitor : Visitor σ ρ) (s : σ), pool s = p →
        visitor.Keeps pool → ∃ calls v t, Completes pool visitor s r x calls v t ∧
          (traverse? pool visitor r).run s = (some v, t) := by
  constructor
  · intro σ ρ visitor s
    exact exists_completes (fun _ => p) visitor s hp hr fun _ _ _ _ _ _ h => h
  · intro σ ρ pool visitor s hs hkeeps
    subst hs
    exact exists_completes pool visitor s hp hr hkeeps

/-- Counts nodes and calls. -/
def tally : Visitor Nat Nat := fun _ _ counts => do
  modify (· + 1)
  return counts.foldl (· + ·) 0 + 1

/-- Counts nodes and adds the negation of each. -/
def negating : Visitor Pool Nat := fun r _ counts => do
  let _ ← add (.unary .not r)
  return counts.foldl (· + ·) 0 + 1

/-- The variable `a` is shared and visited twice. -/
theorem traversal_recurses_sharedVar :
    let x : Expr := .ite (.var "c") (.binary .add (.var "a") (.int 1)) (.var "a")
    let built := (addExpr x).run .empty
    built.2.WellFormed ∧ built.2.Denotes built.1 x ∧ negating.Keeps id ∧
      (∃ calls, Completes (fun _ => built.2) tally 0 built.1 x calls 6 6 ∧
        (survey? built.2 tally built.1).run 0 = (some 6, 6)) ∧
      ∃ calls t, Completes id negating built.2 built.1 x calls 6 t ∧
        (traverse? id negating built.1).run built.2 = (some 6, t) ∧
        built.2.entries.length = 5 ∧ t.entries.length = 10 := by
  intro x built
  have hbuilt := adds_addExpr wellFormed_empty x
  have hp : built.2.WellFormed := hbuilt.grows.wellFormed
  have hr : built.2.Denotes built.1 x := hbuilt.result
  have hkeeps : negating.Keeps id := fun _ _ _ _ _ _ h => get?_add_of_eq_some h
  obtain ⟨hsurvey, htraverse⟩ := traversal_recurses hp hr
  obtain ⟨calls, v, t, h, hrun⟩ := hsurvey Nat Nat tally 0
  have htallied : (survey? built.2 tally built.1).run 0 = (some 6, 6) :=
    Prod.ext (by decide +kernel) (by decide +kernel)
  cases hrun.symm.trans htallied
  obtain ⟨calls', v', t', h', hrun'⟩ := htraverse Pool Nat id negating built.2 rfl hkeeps
  have hvalue : ((traverse? id negating built.1).run built.2).1 = some 6 := by decide +kernel
  have hgrown : ((traverse? id negating built.1).run built.2).2.entries.length = 10 := by
    decide +kernel
  rw [hrun'] at hvalue hgrown
  cases hvalue
  exact ⟨hp, hr, hkeeps, ⟨calls, h, htallied⟩, calls', t', h', hrun', by decide +kernel, hgrown⟩

end Clockwork
