import Clockwork.Proofs.Execution
import Clockwork.Proofs.MainLoop
import Clockwork.Proofs.Refusals
import Mathlib.Algebra.Group.Int.Defs
import Mathlib.Data.List.Forall2

/-!
Which bodies have a graph, and for which statement a body is refused. What is asked of a statement
depends on where it stands: before the main loop it declares a register, and anywhere inside the
loop it neither declares nor waits more than once nor assigns to several targets.
-/

namespace Clockwork
set_option autoImplicit true

/-- A statement declares a register of a width that is written out and fits in 32 bits. -/
inductive Stmt.Declares : Stmt Expr → String × Nat → Prop where
  | register {w : Int64} (hpos : 1 ≤ w.toInt) (hle : w.toInt ≤ 2 ^ 32 - 1) :
    Declares (.register x (.int w)) (x, w.toInt.toNat)

/-- Why a statement cannot stand before the main loop. -/
inductive Stmt.Undeclarable : Stmt Expr → ProcessError → Prop where
  | width (h : ∀ declared, ¬ (Stmt.register x w).Declares declared) :
    Undeclarable (.register x w) (.registerWidth x w)
  | other (h : ∀ x w, s ≠ .register x w) : Undeclarable s (.notDeclaration s)

/-- Why a statement cannot stand in the main loop, whatever stands inside it. -/
inductive Stmt.Misplaced : Stmt Expr → ProcessError → Prop where
  | wait : Misplaced (.wait n) (.unexpandedWait (.wait n))
  | register : Misplaced (.register x w) (.lateRegister x)
  | assign {xs : List String} (h : xs.length ≠ 1) :
    Misplaced (.assign xs v) (.targetCount (.assign xs v))

theorem Stmt.Undeclarable.unique (h : Undeclarable s e) (h' : Undeclarable s e') : e = e' := by
  cases h with
  | width =>
    cases h' with
    | width => rfl
    | other h' => exact absurd rfl (h' _ _)
  | other h =>
    cases h' with
    | width => exact absurd rfl (h _ _)
    | other => rfl

theorem Stmt.Misplaced.unique (h : Misplaced s e) (h' : Misplaced s e') : e = e' := by
  cases h <;> cases h' <;> rfl

theorem Stmt.Undeclarable.kind_eq (h : Undeclarable s e) : e.kind = .unsupported := by
  cases h <;> rfl

theorem Stmt.Misplaced.kind_eq (h : Misplaced s e) : e.kind = .unsupported := by
  cases h <;> rfl

theorem Stmt.declares_of_declaration {s : Stmt Expr} (h : s.declaration = .ok declared) :
    s.Declares declared := by
  obtain ⟨x, width⟩ := declared
  obtain ⟨w, rfl⟩ := declaration_eq_ok h
  cases w with
  | int n =>
    rw [declaration] at h
    split at h
    · next hn =>
      cases h
      exact .register (by omega) (by have := hn.2; simp only [UInt32.size] at this; omega)
    · cases h
  | var => cases h
  | bool => cases h
  | unary => cases h
  | binary => cases h
  | ite => cases h

theorem Stmt.declares_of_declarations {preamble : List (Stmt Expr)}
    {registers : List (String × Nat)} (h : preamble.map declaration = registers.map .ok) :
    List.Forall₂ Declares preamble registers := by
  induction preamble generalizing registers with
  | nil =>
    rw [List.map_eq_nil_iff.1 h.symm]
    exact .nil
  | cons s preamble ih =>
    obtain ⟨entry, rest, rfl, hs, hrest⟩ := List.map_eq_cons_iff.1 h.symm
    exact .cons (declares_of_declaration hs.symm) (ih hrest.symm)

theorem Stmt.Declares.declaration_eq (h : Declares s declared) : s.declaration = .ok declared := by
  cases h with
  | register hpos hle =>
    rw [declaration, if_pos]
    exact ⟨by omega, by simp only [UInt32.size]; omega⟩

theorem Stmt.undeclarable_of_declaration {s : Stmt Expr} (h : s.declaration = .error e) :
    s.Undeclarable e := by
  have hnone : ∀ declared, ¬ s.Declares declared := by
    intro declared hs
    rw [hs.declaration_eq] at h
    cases h
  cases s with
  | register x w =>
    have he : e = .registerWidth x w := by
      cases w with
      | int n =>
        rw [declaration] at h
        split at h
        · cases h
        · cases h
          rfl
      | _ => cases h; rfl
    exact he ▸ .width hnone
  | _ =>
    cases h
    exact .other (by simp)

theorem Stmt.not_undeclarable_iff {s : Stmt Expr} :
    (∀ e, ¬ s.Undeclarable e) ↔ ∃ declared, s.Declares declared := by
  cases h : s.declaration with
  | ok declared =>
    have hs := declares_of_declaration h
    refine iff_of_true (fun e he => ?_) ⟨declared, hs⟩
    cases he with
    | width hw => exact hw _ hs
    | other hother =>
      cases hs with
      | register => exact hother _ _ rfl
  | error e =>
    refine iff_of_false (fun hs => hs e (undeclarable_of_declaration h)) fun ⟨declared, hs⟩ => ?_
    rw [hs.declaration_eq] at h
    cases h

theorem Stmt.judges_declaration (s : Stmt Expr) : Judges Undeclarable [s] s.declaration := by
  cases h : s.declaration with
  | ok declared =>
    have hs := not_undeclarable_iff.2 ⟨declared, declares_of_declaration h⟩
    exact .accepts fun t ht => List.mem_singleton.1 ht ▸ hs
  | error e => exact .refuses (.here (undeclarable_of_declaration h))

namespace Draft

mutual

/-- The statements inside a statement are judged in the order in which they are added. -/
theorem judges_addStmt (d : Draft) (s : Stmt Expr) :
    Judges Stmt.Misplaced s.nested (d.addStmt s) := by
  match s with
  | .loop c body =>
    rw [addStmt, Stmt.nested]
    exact ((judges_addStmts _ body).map _).cons fun _ h => by cases h
  | .branch c ts [] =>
    rw [addStmt, Stmt.nested, Stmt.nestedList, List.append_nil]
    exact ((judges_addStmts _ ts).map _).cons fun _ h => by cases h
  | .branch c ts (e :: es) =>
    rw [addStmt, Stmt.nested, Stmt.nestedList]
    refine .cons (fun _ h => by cases h) ((judges_addStmts _ ts).bind fun d₁ => ?_)
    exact (judges_addStmt _ e).bind fun d₂ => (judges_addStmts d₂ es).map _
  | .suspend => exact .leaf fun _ h => by cases h
  | .assign [x] v => exact .leaf fun _ h => by cases h with | assign h => exact h rfl
  | .assign [] v => exact .refuses (.here (.assign (by simp)))
  | .assign (x :: y :: xs) v => exact .refuses (.here (.assign (by simp)))
  | .update x op v => exact .leaf fun _ h => by cases h
  | .expr v => exact .leaf fun _ h => by cases h
  | .wait n => exact .refuses (.here .wait)
  | .register x w => exact .refuses (.here .register)

theorem judges_addStmts (d : Draft) (ss : List (Stmt Expr)) :
    Judges Stmt.Misplaced (Stmt.nestedList ss) (d.addStmts ss) := by
  match ss with
  | [] => exact .accepts (List.forall_mem_nil _)
  | s :: rest => exact (judges_addStmt d s).bind fun d' => judges_addStmts d' rest

end

end Draft

theorem Stmt.isInfiniteLoop_iff {s : Stmt Expr} :
    s.isInfiniteLoop = true ↔ ∃ c ss, s = .loop c ss ∧ c.HoldsAlways := by
  cases s with
  | loop c ss =>
    cases hc : c.eval .empty with
    | none => simp [isInfiniteLoop, Expr.HoldsAlways, hc]
    | some v => simp [isInfiniteLoop, Expr.HoldsAlways, hc]
  | _ => simp [isInfiniteLoop]

namespace Graph

theorem ofBody_concat_of_not_loop {last : Stmt Expr} (preamble : List (Stmt Expr))
    (h : ∀ c ss, last = .loop c ss → ¬ c.HoldsAlways) :
    ofBody (preamble ++ [last]) = .error (.noMainLoop last) := by
  have hlast : last.isInfiniteLoop = false := by
    rw [← Bool.not_eq_true, Stmt.isInfiniteLoop_iff]
    intro ⟨c, ss, hloop, hc⟩
    exact h c ss hloop hc
  rw [ofBody, List.getLast?_concat]
  simp only [hlast]
  rfl

theorem ofBody_concat_loop (preamble ss : List (Stmt Expr)) (hc : Expr.HoldsAlways c) :
    ofBody (preamble ++ [.loop c ss]) = (preamble.mapM Stmt.declaration >>= fun registers =>
      (Draft.start registers).addStmt (.loop c ss) >>= fun d => .ok d.graph) := by
  have hloop : (Stmt.loop c ss).isInfiniteLoop = true := Stmt.isInfiniteLoop_iff.2 ⟨c, ss, rfl, hc⟩
  rw [ofBody, List.getLast?_concat, List.dropLast_concat]
  simp only [hloop]
  rfl

/-- The declarations are judged first; the main loop is reached if all of them are accepted. -/
theorem judges_ofBody (preamble ss : List (Stmt Expr)) (hc : Expr.HoldsAlways c) :
    (∃ e, ofBody (preamble ++ [.loop c ss]) = .error e ∧
      FirstRefused Stmt.Undeclarable preamble e) ∨
    (∀ s ∈ preamble, ∀ e, ¬ s.Undeclarable e) ∧
      Judges Stmt.Misplaced (Stmt.nestedList ss) (ofBody (preamble ++ [.loop c ss])) := by
  rw [ofBody_concat_loop preamble ss hc]
  have h := judges_mapM Stmt.judges_declaration preamble
  generalize preamble.mapM Stmt.declaration = r at h
  cases h with
  | refuses h => exact .inl ⟨_, rfl, h⟩
  | accepts h =>
    refine .inr ⟨h, ?_⟩
    exact Judges.map ((Draft.judges_addStmts _ ss).map _) Draft.graph

theorem ofBody_loop_eq_ok_iff (preamble ss : List (Stmt Expr)) (hc : Expr.HoldsAlways c) :
    (∃ g, ofBody (preamble ++ [.loop c ss]) = .ok g) ↔
      (∀ s ∈ preamble, ∃ declared, s.Declares declared) ∧
        ∀ s ∈ Stmt.nestedList ss, ∀ e, ¬ s.Misplaced e := by
  simp only [← Stmt.not_undeclarable_iff]
  rcases judges_ofBody preamble ss hc with ⟨e, he, hfirst⟩ | ⟨hpreamble, hloop⟩
  · obtain ⟨s, hs, hse⟩ := hfirst.exists_mem
    refine iff_of_false (fun ⟨g, hg⟩ => ?_) fun h => h.1 s hs e hse
    cases he.symm.trans hg
  · rw [hloop.exists_ok_iff]
    exact (and_iff_right hpreamble).symm

theorem ofBody_loop_eq_error_iff (preamble ss : List (Stmt Expr)) (hc : Expr.HoldsAlways c) :
    ofBody (preamble ++ [.loop c ss]) = .error e ↔
      FirstRefused Stmt.Undeclarable preamble e ∨
        (∀ s ∈ preamble, ∃ declared, s.Declares declared) ∧
          FirstRefused Stmt.Misplaced (Stmt.nestedList ss) e := by
  simp only [← Stmt.not_undeclarable_iff]
  rcases judges_ofBody preamble ss hc with ⟨e', he', hfirst⟩ | ⟨hpreamble, hloop⟩
  · obtain ⟨s, hs, hse⟩ := hfirst.exists_mem
    rw [he', Except.error.injEq, or_iff_left fun h => h.1 s hs e' hse]
    exact ⟨fun heq => heq ▸ hfirst, hfirst.unique fun _ _ _ => Stmt.Undeclarable.unique⟩
  · rw [hloop.eq_error_iff fun _ _ _ => Stmt.Misplaced.unique, and_iff_right hpreamble]
    refine (or_iff_right fun hfirst => ?_).symm
    obtain ⟨s, hs, hse⟩ := hfirst.exists_mem
    exact hpreamble s hs e hse

theorem kind_of_ofBody_loop (hc : Expr.HoldsAlways c)
    (h : ofBody (preamble ++ [.loop c ss]) = .error e) : e.kind = .unsupported := by
  rcases (ofBody_loop_eq_error_iff preamble ss hc).1 h with hfirst | ⟨_, hfirst⟩
  · obtain ⟨s, _, hs⟩ := hfirst.exists_mem
    exact hs.kind_eq
  · obtain ⟨s, _, hs⟩ := hfirst.exists_mem
    exact hs.kind_eq

theorem declares_of_ofBody (h : ofBody body = .ok g) :
    List.Forall₂ Stmt.Declares body.dropLast g.registers := by
  obtain ⟨preamble, c, ss, registers, d, rfl, _, hpreamble, hd, rfl⟩ := ofBody_eq_ok h
  obtain ⟨hgrows, _⟩ := (Draft.sound_start registers).addStmt _ hd
  rw [List.dropLast_concat, hgrows.registers]
  exact Stmt.declares_of_declarations hpreamble

/-- There is no loop at the end of a body, or it may be left. -/
def LacksMainLoop (body : List (Stmt Expr)) : Prop :=
  body = [] ∨ ∃ before last, body = before ++ [last] ∧
    ∀ c ss, last = .loop c ss → ¬ c.HoldsAlways

theorem lacksMainLoop_or (body : List (Stmt Expr)) :
    LacksMainLoop body ∨ ∃ preamble c ss, body = preamble ++ [.loop c ss] ∧ c.HoldsAlways := by
  rcases body.eq_nil_or_concat with rfl | ⟨before, last, rfl⟩
  · exact .inl (.inl rfl)
  · rw [List.concat_eq_append]
    by_cases hlast : last.isInfiniteLoop = true
    · obtain ⟨c, ss, rfl, hc⟩ := Stmt.isInfiniteLoop_iff.1 hlast
      exact .inr ⟨before, c, ss, rfl, hc⟩
    · refine .inl (.inr ⟨before, last, rfl, fun c ss hloop hc => hlast ?_⟩)
      exact Stmt.isInfiniteLoop_iff.2 ⟨c, ss, hloop, hc⟩

theorem LacksMainLoop.ofBody_eq_error (h : LacksMainLoop body) :
    ∃ e, ofBody body = .error e ∧ e.kind = .structural := by
  rcases h with rfl | ⟨before, last, rfl, hlast⟩
  · exact ⟨.emptyBody, rfl, rfl⟩
  · exact ⟨.noMainLoop last, ofBody_concat_of_not_loop before hlast, rfl⟩

theorem ofBody_ok_iff (body : List (Stmt Expr)) :
    (∃ g, ofBody body = .ok g) ↔
      ∃ preamble c ss, body = preamble ++ [.loop c ss] ∧ c.HoldsAlways ∧
        (∀ s ∈ preamble, ∃ declared, s.Declares declared) ∧
        ∀ s ∈ Stmt.nestedList ss, ∀ e, ¬ s.Misplaced e := by
  refine ⟨fun ⟨g, hg⟩ => ?_, fun ⟨preamble, c, ss, hbody, hc, hjudged⟩ => ?_⟩
  · rcases lacksMainLoop_or body with hlacks | ⟨preamble, c, ss, rfl, hc⟩
    · obtain ⟨e, he, _⟩ := hlacks.ofBody_eq_error
      cases he.symm.trans hg
    · exact ⟨preamble, c, ss, rfl, hc, (ofBody_loop_eq_ok_iff preamble ss hc).1 ⟨g, hg⟩⟩
  · rw [hbody]
    exact (ofBody_loop_eq_ok_iff preamble ss hc).2 hjudged

theorem ofBody_structural_iff (body : List (Stmt Expr)) :
    (∃ e, ofBody body = .error e ∧ e.kind = .structural) ↔ LacksMainLoop body := by
  refine ⟨fun ⟨e, he, hkind⟩ => ?_, LacksMainLoop.ofBody_eq_error⟩
  rcases lacksMainLoop_or body with hlacks | ⟨preamble, c, ss, rfl, hc⟩
  · exact hlacks
  · cases hkind.symm.trans (kind_of_ofBody_loop hc he)

theorem ofBody_unsupported_iff (body : List (Stmt Expr)) (e : ProcessError) :
    ofBody body = .error e ∧ e.kind ≠ .structural ↔
      e.kind = .unsupported ∧ ∃ preamble c ss, body = preamble ++ [.loop c ss] ∧ c.HoldsAlways ∧
        (FirstRefused Stmt.Undeclarable preamble e ∨
          (∀ s ∈ preamble, ∃ declared, s.Declares declared) ∧
            FirstRefused Stmt.Misplaced (Stmt.nestedList ss) e) := by
  refine ⟨fun ⟨he, hkind⟩ => ?_, fun ⟨hkind, preamble, c, ss, hbody, hc, hfirst⟩ => ?_⟩
  · rcases lacksMainLoop_or body with hlacks | ⟨preamble, c, ss, rfl, hc⟩
    · obtain ⟨e', he', hkind'⟩ := hlacks.ofBody_eq_error
      cases he.symm.trans he'
      exact absurd hkind' hkind
    · have hfirst := (ofBody_loop_eq_error_iff preamble ss hc).1 he
      exact ⟨kind_of_ofBody_loop hc he, preamble, c, ss, rfl, hc, hfirst⟩
  · rw [hbody, hkind]
    exact ⟨(ofBody_loop_eq_error_iff preamble ss hc).2 hfirst, by decide⟩

/-- A body has a graph exactly if it declares registers and then loops forever over statements that
may stand in the loop. Otherwise the first statement out of place is to blame. -/
theorem ofBody_accepts_exactly (body : List (Stmt Expr)) :
    ((∃ g, ofBody body = .ok g) ↔
      ∃ preamble c ss, body = preamble ++ [.loop c ss] ∧ c.HoldsAlways ∧
        (∀ s ∈ preamble, ∃ declared, s.Declares declared) ∧
        ∀ s ∈ Stmt.nestedList ss, ∀ e, ¬ s.Misplaced e) ∧
    ((∃ e, ofBody body = .error e ∧ e.kind = .structural) ↔
      body = [] ∨ ∃ before last, body = before ++ [last] ∧
        ∀ c ss, last = .loop c ss → ¬ c.HoldsAlways) ∧
    (∀ e, ofBody body = .error e ∧ e.kind ≠ .structural ↔
      e.kind = .unsupported ∧ ∃ preamble c ss, body = preamble ++ [.loop c ss] ∧ c.HoldsAlways ∧
        (FirstRefused Stmt.Undeclarable preamble e ∨
          (∀ s ∈ preamble, ∃ declared, s.Declares declared) ∧
            FirstRefused Stmt.Misplaced (Stmt.nestedList ss) e)) ∧
    ∀ g, ofBody body = .ok g → List.Forall₂ Stmt.Declares body.dropLast g.registers :=
  ⟨ofBody_ok_iff body, ofBody_structural_iff body, ofBody_unsupported_iff body,
    fun _ => declares_of_ofBody⟩

/-- The second branch of the first loop waits twice, and the late register after it is not reached.
The second loop assigns there instead. -/
theorem ofBody_nested_wait :
    ofBody [.register "r" (.int 3), .loop (.bool true)
      [.branch (.var "a") [.suspend] [.wait (.int 2)], .register "s" (.int 1)]] =
      .error (.unexpandedWait (.wait (.int 2))) ∧
    ∃ g, ofBody [.register "r" (.int 3), .register "s" (.int 1), .loop (.bool true)
      [.branch (.var "a") [.suspend] [.assign ["s"] (.int 1)], .suspend]] = .ok g ∧
      g.registers = [("r", 3), ("s", 1)] := by
  have hr : (Stmt.register "r" (.int 3)).Declares ("r", 3) := .register (by decide) (by decide)
  have hs : (Stmt.register "s" (.int 1)).Declares ("s", 1) := .register (by decide) (by decide)
  constructor
  · refine (((ofBody_accepts_exactly _).2.2.1 _).2 ⟨rfl, [.register "r" (.int 3)], .bool true, _,
      rfl, rfl, .inr ⟨?_, ?_⟩⟩).1
    · exact List.forall_mem_singleton.2 ⟨_, hr⟩
    · exact .later (fun _ h => by cases h) (.later (fun _ h => by cases h) (.here .wait))
  · have hplaced : ∀ s ∈ Stmt.nestedList [.branch (.var "a") [.suspend] [.assign ["s"] (.int 1)],
        .suspend], ∀ e, ¬ s.Misplaced e := by
      intro s hs e he
      simp only [Stmt.nestedList, Stmt.nested, List.cons_append, List.nil_append, List.mem_cons,
        List.not_mem_nil, or_false] at hs
      rcases hs with rfl | rfl | rfl | rfl <;> cases he
      contradiction
    obtain ⟨haccepts, _, _, hregisters⟩ := ofBody_accepts_exactly
      [.register "r" (.int 3), .register "s" (.int 1), .loop (.bool true)
        [.branch (.var "a") [.suspend] [.assign ["s"] (.int 1)], .suspend]]
    obtain ⟨g, hg⟩ := haccepts.2 ⟨[.register "r" (.int 3), .register "s" (.int 1)], .bool true, _,
      rfl, rfl, List.forall_mem_cons.2 ⟨⟨_, hr⟩, List.forall_mem_singleton.2 ⟨_, hs⟩⟩, hplaced⟩
    refine ⟨g, hg, ?_⟩
    have hdeclares := hregisters g hg
    generalize g.registers = registers at hdeclares
    rcases hdeclares with _ | ⟨hr', _ | ⟨hs', _ | _⟩⟩
    cases hr'
    cases hs'
    rfl

end Graph

end Clockwork
