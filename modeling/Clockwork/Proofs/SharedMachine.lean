import Clockwork.Pool.Machine
import Clockwork.Proofs.Registers
import Clockwork.Proofs.SharedNames
import Clockwork.Proofs.SharedPropagation

namespace Clockwork
set_option autoImplicit true

section Paths

variable {ε δ : Type} (f : ε → δ) (path : Path ε)

theorem Waypoint.stateId_map (n : Waypoint ε) : (n.map f).stateId = n.stateId := by
  cases n <;> rfl

theorem Path.startId_map : (path.map f).startId = path.startId := by
  simp [startId, map, Waypoint.stateId_map, Function.comp_def]

theorem Path.endId_map : (path.map f).endId = path.endId := by
  simp [endId, map, Waypoint.stateId_map, Function.comp_def]

theorem Path.branches_map :
    (path.map f).branches = path.branches.map fun b => (f b.1, b.2) := by
  simp only [branches, map, List.filterMap_map, List.map_filterMap]
  congr
  funext n
  cases n <;> rfl

theorem Path.stmts_map : (path.map f).stmts = path.stmts.map (Stmt.map f) := by
  simp only [stmts, map, List.flatMap_map, List.map_flatMap]
  congr
  funext n
  cases n <;> rfl

end Paths

theorem filterMap_eq_of_map_eq {as : List α} {cs : List κ} {f : α → β} {f' : κ → β}
    {k : α → Option γ} {k' : κ → Option γ} (h : as.map f = cs.map f')
    (hk : ∀ a c, f a = f' c → k a = k' c) : as.filterMap k = cs.filterMap k' := by
  induction as generalizing cs with
  | nil =>
    cases eq_nil_of_map_eq h
    rfl
  | cons a as ih =>
    obtain ⟨c, cs, rfl, ha, has⟩ := eq_cons_of_map_eq h
    rw [List.filterMap_cons, List.filterMap_cons, hk a c ha, ih has]

namespace Pool

variable {p q : Pool}

theorem adds_guardOf (hp : p.WellFormed) (hc : p.Denotes c x) (taken : Bool) :
    Adds (guardOf (c, taken)) p fun q r => q.Denotes r (Clockwork.guardOf (x, taken)) := by
  cases taken with
  | true => exact .pure hp hc
  | false =>
    apply (adds_unary hp hc .not).bind
    intro q r hq hr
    exact adds_fold hq.wellFormed hr

theorem Grows.map_branches (hp : p.WellFormed) (hq : p.Grows q) {bs : List (ExprRef × Bool)}
    {bs' : List (Expr × Bool)}
    (h : bs.map (fun b => (p.expr? b.1, b.2)) = bs'.map fun b => (some b.1, b.2)) :
    bs.map (fun b => (q.expr? b.1, b.2)) = bs'.map fun b => (some b.1, b.2) := by
  apply map_eq_map_of_imp _ h
  intro b b' hb
  obtain ⟨hc, htaken⟩ := Prod.mk.inj hb
  rw [hq.expr? hp hc, htaken]

theorem adds_guards (hp : p.WellFormed) {bs : List (ExprRef × Bool)} {bs' : List (Expr × Bool)}
    (h : bs.map (fun b => (p.expr? b.1, b.2)) = bs'.map fun b => (some b.1, b.2)) :
    Adds (bs.mapM guardOf) p fun q rs => rs.map q.expr? = (bs'.map Clockwork.guardOf).map some := by
  induction bs generalizing p bs' with
  | nil =>
    cases eq_nil_of_map_eq h
    exact .pure hp rfl
  | cons b bs ih =>
    obtain ⟨⟨x, taken⟩, bs', rfl, hb, hbs⟩ := eq_cons_of_map_eq h
    obtain ⟨c, _⟩ := b
    obtain ⟨hc, rfl⟩ := Prod.mk.inj hb
    rw [List.mapM_cons]
    apply (adds_guardOf hp ((expr?_eq_some hp).1 hc) _).bind
    intro q r hq hr
    apply (ih hq.wellFormed (hq.map_branches hp hbs)).bind
    intro q' rs hq' hrs
    apply Adds.pure hq'.wellFormed
    simp only [List.map_cons, (hr.mono hq').expr? hq'.wellFormed, hrs]

theorem adds_transition (hp : p.WellFormed) {path : Path ExprRef} {path' : Path}
    (h : path.map p.expr? = path'.map some) (stateVar : String) :
    Adds (transition stateVar path) p fun q t =>
      t.map q.expr? = (path'.transition stateVar).map some := by
  have hstart : path.startId = path'.startId := by
    rw [← Path.startId_map p.expr?, h, Path.startId_map]
  have hend : path.endId = path'.endId := by
    rw [← Path.endId_map p.expr?, h, Path.endId_map]
  have hbranches := congrArg Path.branches h
  rw [Path.branches_map, Path.branches_map] at hbranches
  have hstmts := congrArg Path.stmts h
  rw [Path.stmts_map, Path.stmts_map] at hstmts
  unfold transition
  rw [hstart, hend]
  apply (adds_addExpr hp _).bind
  intro q₁ activation hq₁ hactivation
  apply (adds_guards hq₁.wellFormed (hq₁.map_branches hp hbranches)).bind
  intro q₂ guards hq₂ hguards
  apply (adds_addExpr hq₂.wellFormed _).bind
  intro q₃ target hq₃ htarget
  apply Adds.pure hq₃.wellFormed
  have hactivation₃ := (hactivation.mono (hq₂.trans hq₃)).expr? hq₃.wellFormed
  have hguards₃ := hq₃.map_expr? hq₂.wellFormed hguards
  have hstmts₃ := Stmt.map_list_eq_of_imp (fun _ _ => ((hq₁.trans hq₂).trans hq₃).expr? hp) hstmts
  simp only [Transition.map, Path.transition, Stmt.map, Stmt.mapList_eq_map, hactivation₃, hguards₃,
    hstmts₃, htarget.expr? hq₃.wellFormed]

theorem adds_transitions (hp : p.WellFormed) {paths : List (Path ExprRef)} {paths' : List Path}
    (h : paths.map (Path.map p.expr?) = paths'.map (Path.map some)) (stateVar : String) :
    Adds (paths.mapM fun path => do transition stateVar (← propagatePath path)) p fun q ts =>
      ts.map (Transition.map q.expr?) =
        (paths'.map fun path => path.propagate.transition stateVar).map (Transition.map some) := by
  induction paths generalizing p paths' with
  | nil =>
    cases eq_nil_of_map_eq h
    exact .pure hp rfl
  | cons path paths ih =>
    obtain ⟨path', paths', rfl, hpath, hpaths⟩ := eq_cons_of_map_eq h
    rw [List.mapM_cons, bind_assoc]
    apply (adds_propagatePath hp hpath).bind
    intro q₁ path₁ hq₁ hpath₁
    apply (adds_transition hq₁.wellFormed hpath₁ stateVar).bind
    intro q₂ t hq₂ ht
    have hpaths₂ : paths.map (Path.map q₂.expr?) = paths'.map (Path.map some) :=
      map_eq_map_of_imp (fun _ _ => Path.map_eq_of_imp fun _ _ => (hq₁.trans hq₂).expr? hp) hpaths
    apply (ih hq₂.wellFormed hpaths₂).bind
    intro q₃ ts hq₃ hts
    apply Adds.pure hq₃.wellFormed
    have ht₃ := Transition.map_eq_of_imp (fun _ _ => hq₃.expr? hq₂.wellFormed) ht
    simp only [List.map_cons, ht₃, hts]

section Widths

variable {ts : List (Transition ExprRef)} {ts' : List (Transition Expr)}

theorem literalWidth?_eq (hp : p.WellFormed) (x : String) {s : Stmt ExprRef} {t : Stmt Expr}
    (h : s.map p.expr? = t.map some) : p.literalWidth? x s = t.literalWidth? x := by
  cases Stmt.alike_of_map_eq h with
  | @assign xs v y hv =>
    match xs with
    | [] => rfl
    | _ :: _ :: _ => rfl
    | [s] =>
      simp only [literalWidth?, Stmt.literalWidth?, Stmt.singleTarget?]
      cases (expr?_eq_some hp).1 hv with
      | int hget | var hget _ | bool hget | unary hget _ | binary hget _ _ | ite hget _ _ _ =>
        simp only [hget]
  | _ => rfl

theorem widthOf_eq (hp : p.WellFormed)
    (h : ts.map (Transition.map p.expr?) = ts'.map (Transition.map some)) (x : String) :
    p.widthOf ts x = Clockwork.widthOf ts' x := by
  have heffects := congrArg (List.flatMap Transition.effects) h
  simp only [List.flatMap_map, Transition.map, Stmt.mapList_eq_map] at heffects
  rw [← List.map_flatMap, ← List.map_flatMap] at heffects
  rw [widthOf, Clockwork.widthOf, filterMap_eq_of_map_eq heffects fun _ _ => literalWidth?_eq hp x]

end Widths

end Pool

/-- A name that is read again is among the ports or the registers by then. -/
theorem promoteAll_addAllNew (process : ClockedProcess Expr) (ts : List (Transition Expr))
    (registers : Table String Nat) (ys xs : List String) :
    (addAllNew ys xs).foldl (promote process ts) registers =
      xs.foldl (promote process ts) (ys.foldl (promote process ts) registers) := by
  induction xs generalizing ys with
  | nil => rfl
  | cons x xs ih =>
    have hstep : (addNew ys x).foldl (promote process ts) registers =
        promote process ts (ys.foldl (promote process ts) registers) x := by
      unfold addNew
      split
      · next hx =>
        have hsettled :
            process.isPort x || (ys.foldl (promote process ts) registers).contains x := by
          cases hport : process.isPort x with
          | true => rfl
          | false =>
            rw [Bool.false_or, Table.contains_iff, mem_keys_promoteAll]
            exact .inr ⟨hport, hx⟩
        rw [promote, if_pos hsettled]
      · rw [List.foldl_append, List.foldl_cons, List.foldl_nil]
    have hhead : addAllNew ys (x :: xs) = addAllNew (addNew ys x) xs := rfl
    rw [hhead, ih, hstep, List.foldl_cons]

namespace Pool

variable {p : Pool} {process : ClockedProcess ExprRef} {process' : ClockedProcess Expr}

theorem promoteAll_eq (hp : p.WellFormed) {ts : List (Transition ExprRef)}
    {ts' : List (Transition Expr)}
    (h : ts.map (Transition.map p.expr?) = ts'.map (Transition.map some))
    (hports : process.ports = process'.ports) (registers : Table String Nat) :
    (ts.flatMap fun t => t.guards.flatMap p.distinctVars).foldl (p.promote process ts) registers =
      (ts'.flatMap fun t => t.guards.flatMap Expr.vars).foldl (Clockwork.promote process' ts')
        registers := by
  have hpromote : p.promote process ts = Clockwork.promote process' ts' := by
    funext registers x
    rw [promote, Clockwork.promote, widthOf_eq hp h, ClockedProcess.isPort, hports,
      ClockedProcess.isPort]
  have hguards := congrArg (List.flatMap Transition.guards) h
  simp only [List.flatMap_map, Transition.map] at hguards
  rw [← List.map_flatMap, ← List.map_flatMap] at hguards
  rw [hpromote, ← List.flatMap_assoc, ← List.flatMap_assoc]
  generalize ts.flatMap Transition.guards = gs at hguards ⊢
  generalize ts'.flatMap Transition.guards = gs' at hguards ⊢
  clear hpromote h
  induction gs generalizing gs' registers with
  | nil =>
    cases eq_nil_of_map_eq hguards
    rfl
  | cons g gs ih =>
    obtain ⟨x, gs', rfl, hg, hgs⟩ := eq_cons_of_map_eq hguards
    have hvars : p.distinctVars g = addAllNew [] x.vars := by
      rw [distinctVars, collectVars_eq hp, varsOf_of_denotes hp ((expr?_eq_some hp).1 hg)]
    rw [List.flatMap_cons, List.foldl_append, hvars, promoteAll_addAllNew, List.flatMap_cons,
      List.foldl_append]
    exact ih _ _ hgs

/-- The machine of paths does not depend on how their expressions are shared. -/
theorem adds_machineOf (hp : p.WellFormed) (hname : process.name = process'.name)
    (hports : process.ports = process'.ports) {paths : List (Path ExprRef)} {paths' : List Path}
    (hpaths : paths.map (Path.map p.expr?) = paths'.map (Path.map some))
    (declared : List (String × Nat)) (suspensionCount : Nat) (stateVar : String) :
    Adds (machineOf process declared suspensionCount stateVar paths) p fun q m =>
      m.map q.expr? =
        (Machine.ofPaths process' declared suspensionCount stateVar paths').map some := by
  apply (adds_addVar hp stateVar).bind
  intro q₁ _ hq₁ _
  have hpaths₁ : paths.map (Path.map q₁.expr?) = paths'.map (Path.map some) :=
    map_eq_map_of_imp (fun _ _ => Path.map_eq_of_imp fun _ _ => hq₁.expr? hp) hpaths
  apply (adds_transitions hq₁.wellFormed hpaths₁ stateVar).bind
  intro q ts hq hts
  apply Adds.get
  apply Adds.pure hq.wellFormed
  simp only [Machine.map, Machine.ofPaths, hname, hts, promoteAll_eq hq.wellFormed hts hports]

end Pool

end Clockwork
