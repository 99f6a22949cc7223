import Clockwork.Proofs.SharedCompilation
import Mathlib.Logic.Function.Basic
import Mathlib.Logic.Relation

namespace Clockwork
set_option autoImplicit true

namespace Pool

/-- One use of a pool: something is added to it, out of what is already there. -/
inductive Use (p : Pool) : Pool → Prop
  | name (s : String) : Use p ((addName s).run p).2
  | entry (e : Entry) (hoperands : ∀ r ∈ e.operands, r.index < p.entries.length)
    (hname : ∀ i, e = .var i → i.index < p.names.length) : Use p ((add e).run p).2
  | fold (hr : p.Denotes r x) : Use p ((fold r).run p).2
  | substitute (htable : p.Tabulates table known) (hr : p.Denotes r x) :
    Use p ((substitute table r).run p).2
  | process (tree : ClockedProcess Expr) : Use p ((addProcess tree).run p).2
  | expandWaits {process : ClockedProcess ExprRef} {tree : ClockedProcess Expr}
    (h : process.map p.expr? = tree.map some) : Use p ((expandProcess process).run.run p).2
  | simplify {g : Graph ExprRef} {g' : Graph} (h : g.map p.expr? = g'.map some) (bypass : Bool) :
    Use p ((simplify bypass g).run p).2
  | propagate {path : Path ExprRef} {path' : Path} (h : path.map p.expr? = path'.map some) :
    Use p ((propagatePath path).run p).2
  | compile {process : ClockedProcess ExprRef} {tree : ClockedProcess Expr}
    (h : process.map p.expr? = tree.map some) (options : Options) :
    Use p ((compile process options).run p).2

/-- The second pool comes out of the first one by uses of it. -/
def History : Pool → Pool → Prop :=
  Relation.ReflTransGen Use

variable {p q : Pool}

/-- Adding a process gives a process that stands for it. -/
theorem adds_addProcess (hp : p.WellFormed) (tree : ClockedProcess Expr) :
    Adds (addProcess tree) p fun q process => process.map q.expr? = tree.map some := by
  apply (adds_addStmts hp tree.body).bind
  intro q body hq hbody
  apply Adds.pure hq.wellFormed
  simp only [ClockedProcess.map, Stmt.mapList_eq_map, hbody]

theorem Grows.map_process (h : p.Grows q) (hp : p.WellFormed) {process : ClockedProcess ExprRef}
    {tree : ClockedProcess Expr} (hprocess : process.map p.expr? = tree.map some) :
    process.map q.expr? = tree.map some :=
  ClockedProcess.map_eq_of_imp (fun _ _ => h.expr? hp) hprocess

theorem Use.grows (h : p.Use q) (hp : p.WellFormed) : p.Grows q := by
  cases h with
  | name s => exact (adds_addName hp s).grows
  | entry e hoperands hname => exact (adds_add hp hoperands hname).grows
  | fold hr => exact (adds_fold hp hr).grows
  | substitute htable hr => exact (adds_substitute hp htable hr).grows
  | process tree => exact (adds_addProcess hp tree).grows
  | expandWaits h => exact (matches_expandProcess hp h).grows
  | simplify h bypass => exact (adds_simplify hp h bypass).grows
  | propagate h => exact (adds_propagatePath hp h).grows
  | compile h options => exact (adds_compile hp h options).grows

theorem History.grows (h : History p q) (hp : p.WellFormed) : p.Grows q := by
  induction h with
  | refl => exact .refl hp
  | tail _ huse ih => exact ih.trans (huse.grows ih.wellFormed)

/-- Expressions of a well-formed pool have one reference each. -/
theorem exists_ref (hp : p.WellFormed) :
    ∃ ref : Expr → ExprRef, ∀ r x, p.expr? r = some x → r = ref x := by
  have : Nonempty ExprRef := ⟨⟨0⟩⟩
  refine ⟨fun x => Function.invFun p.expr? (some x), fun r x hr => ?_⟩
  have hinv : p.expr? (Function.invFun p.expr? (some x)) = some x := Function.invFun_eq ⟨r, hr⟩
  exact ((expr?_eq_some hp).1 hr).injective hp ((expr?_eq_some hp).1 hinv)

section Outcomes

variable {x y : Except ProcessError (Machine ExprRef)} {z : Except ProcessError (Machine Expr)}

theorem Grows.outcome_eq (h : p.Grows q) (hp : p.WellFormed)
    (hx : p.outcome x = z.map (Machine.map some)) : q.outcome x = z.map (Machine.map some) :=
  Except.map_eq_map_of_imp (fun _ _ => Machine.map_eq_of_imp fun _ _ => h.expr? hp) hx

/-- Outcomes that stand for the same one are the same, reference by reference. -/
theorem eq_of_outcome_eq (hp : p.WellFormed) (hx : p.outcome x = z.map (Machine.map some))
    (hy : p.outcome y = z.map (Machine.map some)) : x = y := by
  obtain ⟨ref, href⟩ := exists_ref hp
  have hid : Machine.map (fun r : ExprRef => r) = id := funext Machine.map_id
  have hmachine {w : Except ProcessError (Machine ExprRef)}
      (hw : p.outcome w = z.map (Machine.map some)) : w = z.map (Machine.map ref) := by
    have hread : w.map (Machine.map fun r => r) = z.map (Machine.map ref) :=
      Except.map_eq_map_of_imp (fun _ _ => Machine.map_eq_of_imp href) hw
    rwa [hid, Except.map_id] at hread
  rw [hmachine hx, hmachine hy]

end Outcomes

end Pool

open Pool

/-- What a compilation gives does not depend on what else has been done with the pool, and a second
compilation gives the same references. -/
theorem compile_forgets_history {p p₁ q q₁ : Pool} {process process' : ClockedProcess ExprRef}
    {tree : ClockedProcess Expr} {result result' : Except ProcessError (Machine ExprRef)}
    (hp : History .empty p) (hprocess : process.map p.expr? = tree.map some)
    (hq : History .empty q) (hprocess' : process'.map q.expr? = tree.map some) (options : Options)
    (hresult : (Pool.compile process options).run p = (result, p₁))
    (hresult' : (Pool.compile process' options).run q = (result', q₁)) :
    p₁.outcome result = (tree.compile options).map (Machine.map some) ∧
      p₁.outcome result = q₁.outcome result' ∧
      ∀ p₂, History p₁ p₂ → ((Pool.compile process options).run p₂).1 = result := by
  have hwf := (hp.grows wellFormed_empty).wellFormed
  have hfirst := adds_compile hwf hprocess options
  have hsecond := adds_compile (hq.grows wellFormed_empty).wellFormed hprocess' options
  have hgrows := hfirst.grows
  have houtcome := hfirst.result
  have houtcome' := hsecond.result
  rw [hresult] at hgrows houtcome
  rw [hresult'] at houtcome'
  refine ⟨houtcome, houtcome.trans houtcome'.symm, ?_⟩
  intro p₂ hlater
  have hp₂ := hlater.grows hgrows.wellFormed
  have hkept := (hgrows.trans hp₂).map_process hwf hprocess
  have hagain := adds_compile hp₂.wellFormed hkept options
  have hsame := (hp₂.trans hagain.grows).outcome_eq hgrows.wellFormed houtcome
  exact eq_of_outcome_eq hagain.grows.wellFormed hagain.result hsame

/-- A process whose counter has to avoid a name of its own. -/
def delayedProcess : ClockedProcess Expr where
  name := "delayed"
  ports := Table.empty.insert "go" .input
  body := [.register "__repeat0" (.int 2),
    .loop (.bool true)
      [.branch (.var "go") [.wait (.int 3)] [.suspend], .update "__repeat0" .add (.int 1)]]

/-- A process that leaves other names and expressions behind. -/
def echoProcess : ClockedProcess Expr where
  name := "echo"
  ports := (Table.empty.insert "in" .input).insert "out" .output
  body := [.loop (.bool true) [.assign ["out"] (.unary .not (.var "in")), .wait (.int 2)]]

theorem compile_forgets_history_delayedProcess :
    ∃ p p₁ q q₁ process process' result result',
      History .empty p ∧ process.map p.expr? = delayedProcess.map some ∧
      History .empty q ∧ process'.map q.expr? = delayedProcess.map some ∧
      (Pool.compile process .default).run p = (result, p₁) ∧
      (Pool.compile process' .default).run q = (result', q₁) ∧
      process.body ≠ process'.body ∧ q.name? ⟨0⟩ = some "__repeat1" ∧
      (∃ m, p₁.outcome result = .ok m ∧
        m.registers.entries = [("yield_state", 2), ("__repeat0", 2), ("__repeat1", 2)]) ∧
      p₁.outcome result = q₁.outcome result' ∧
      ((Pool.compile process .default).run p₁).1 = result := by
  have hfresh : History .empty ((addProcess delayedProcess).run .empty).2 :=
    .single (.process delayedProcess)
  have hbuilt := (adds_addProcess wellFormed_empty delayedProcess).result
  -- The other pool holds the name of a counter and has seen the compilation of another process.
  have hname := Use.name (p := .empty) "__repeat1"
  have hecho := adds_addProcess (hname.grows wellFormed_empty).wellFormed echoProcess
  have hdelayed := adds_addProcess hecho.grows.wellFormed delayedProcess
  have hecho' := hdelayed.grows.map_process hecho.grows.wellFormed hecho.result
  have hcompiled := (adds_compile hdelayed.grows.wellFormed hecho' .default).grows
  have hused : History .empty _ := (((Relation.ReflTransGen.single hname).tail
    (.process echoProcess)).tail (.process delayedProcess)).tail (.compile hecho' .default)
  have hbuilt' := hcompiled.map_process hdelayed.grows.wellFormed hdelayed.result
  have hstored := ((hecho.grows.trans hdelayed.grows).trans hcompiled).name? ⟨0⟩ "__repeat1" rfl
  have hbodies : ((addProcess delayedProcess).run .empty).1.body ≠
      ((addProcess delayedProcess).run ((addProcess echoProcess).run
        ((addName "__repeat1").run .empty).2).2).1.body := by
    decide
  have hregisters : (delayedProcess.compile .default).toOption.map (·.registers.entries) =
      some [("yield_state", 2), ("__repeat0", 2), ("__repeat1", 2)] := by
    decide +kernel
  obtain ⟨m, hm, hentries⟩ := Option.map_eq_some_iff.1 hregisters
  rw [Except.toOption_eq_some] at hm
  obtain ⟨houtcome, hsame, hagain⟩ := compile_forgets_history hfresh hbuilt hused hbuilt' .default
    (Prod.eta _).symm (Prod.eta _).symm
  rw [hm] at houtcome
  exact ⟨_, _, _, _, _, _, _, _, hfresh, hbuilt, hused, hbuilt', (Prod.eta _).symm,
    (Prod.eta _).symm, hbodies, hstored, ⟨_, houtcome, hentries⟩, hsame, hagain _ .refl⟩

end Clockwork
