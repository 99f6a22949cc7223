import Clockwork.Proofs.Containers
import Clockwork.Proofs.Typing
import Clockwork.Waits

namespace Clockwork
set_option autoImplicit true

variable {leaf : Stmt Expr → Prop} {test : Expr → Prop}

def Counters.names (cs : Counters) : List String := cs.widths.map Prod.fst

theorem Counters.names_add (taken : List String) (width : Nat) (cs : Counters) :
    (cs.add taken width).2.names = cs.names ++ [(cs.add taken width).1] :=
  List.map_append

/-- What a wait becomes: as many suspensions as it takes, or a loop over a new counter. -/
theorem expandWait_cases (h : expandWait taken cs e = .ok (ss, cs')) :
    (e = .int 0 ∧ ss = [] ∧ cs' = cs) ∨ (e = .int 1 ∧ ss = [.suspend] ∧ cs' = cs) ∨
      ∃ n : Int64, 2 ≤ n.toInt ∧ e = .int n ∧
        ss = countingLoop (cs.add taken (bitWidth (n.toInt.toNat - 1))).1 n ∧
        cs' = (cs.add taken (bitWidth (n.toInt.toNat - 1))).2 := by
  cases e with
  | int n =>
    rw [expandWait] at h
    split at h
    · cases h
    · next hneg =>
      split at h
      · next hzero =>
        cases h
        exact .inl ⟨congrArg Expr.int hzero, rfl, rfl⟩
      · next hzero =>
        split at h
        · next hone =>
          cases h
          exact .inr (.inl ⟨congrArg Expr.int hone, rfl, rfl⟩)
        · next hone =>
          cases h
          refine .inr (.inr ⟨n, ?_, rfl, rfl, rfl⟩)
          have h0 : n.toInt ≠ 0 := fun he => hzero (Int64.toInt_inj.1 he)
          have h1 : n.toInt ≠ 1 := fun he => hone (Int64.toInt_inj.1 he)
          have hle : 0 ≤ n.toInt := by
            rw [Int64.lt_iff_toInt_lt] at hneg
            exact Int.not_lt.1 hneg
          omega
  | var => cases h
  | bool => cases h
  | unary => cases h
  | binary => cases h
  | ite => cases h

/-- The loops of the counters hold what is asked of all statements. -/
def Counters.LoopsHold (leaf : Stmt Expr → Prop) (test : Expr → Prop) (cs : Counters) : Prop :=
  ∀ x ∈ cs.names, ∀ n, Stmt.ListEverywhere leaf test (countingLoop x n)

theorem Counters.LoopsHold.of_subset {cs cs' : Counters} (h : cs'.LoopsHold leaf test)
    (hsub : cs.names ⊆ cs'.names) : cs.LoopsHold leaf test :=
  fun x hx => h x (hsub hx)

mutual

theorem Stmt.everywhere_expandWaits {cs cs' : Counters} (s : Stmt Expr) (hsuspend : leaf .suspend)
    (hs : s.Everywhere leaf test) (h : s.expandWaits taken cs = .ok (ss, cs')) :
    cs.names ⊆ cs'.names ∧ (cs'.LoopsHold leaf test → Stmt.ListEverywhere leaf test ss) := by
  match s with
  | .wait e =>
    rcases expandWait_cases h with ⟨_, rfl, rfl⟩ | ⟨_, rfl, rfl⟩ | ⟨n, _, _, rfl, rfl⟩
    · exact ⟨List.Subset.refl _, fun _ => trivial⟩
    · exact ⟨List.Subset.refl _, fun _ => ⟨hsuspend, trivial⟩⟩
    · rw [Counters.names_add]
      refine ⟨List.subset_append_left _ _, fun hloops => hloops _ ?_ n⟩
      rw [Counters.names_add]
      exact List.mem_append_right _ List.mem_cons_self
  | .branch c ts es =>
    obtain ⟨⟨ts', cs₁⟩, hts, htail⟩ := Except.bind_eq_ok h
    obtain ⟨⟨es', cs₂⟩, hes, hss⟩ := Except.bind_eq_ok htail
    cases hss
    obtain ⟨hsub₁, hts'⟩ := Stmt.everywhere_expandWaitsList ts hsuspend hs.2.1 hts
    obtain ⟨hsub₂, hes'⟩ := Stmt.everywhere_expandWaitsList es hsuspend hs.2.2 hes
    refine ⟨List.Subset.trans hsub₁ hsub₂, fun hloops => ⟨⟨hs.1, ?_, hes' hloops⟩, trivial⟩⟩
    exact hts' (hloops.of_subset hsub₂)
  | .loop c body =>
    obtain ⟨⟨body', cs₁⟩, hbody, hss⟩ := Except.bind_eq_ok h
    cases hss
    obtain ⟨hsub, hbody'⟩ := Stmt.everywhere_expandWaitsList body hsuspend hs.2 hbody
    exact ⟨hsub, fun hloops => ⟨⟨hs.1, hbody' hloops⟩, trivial⟩⟩
  | .register x w => cases h; exact ⟨List.Subset.refl _, fun _ => ⟨hs, trivial⟩⟩
  | .assign xs v => cases h; exact ⟨List.Subset.refl _, fun _ => ⟨hs, trivial⟩⟩
  | .update x op v => cases h; exact ⟨List.Subset.refl _, fun _ => ⟨hs, trivial⟩⟩
  | .expr v => cases h; exact ⟨List.Subset.refl _, fun _ => ⟨hs, trivial⟩⟩
  | .suspend => cases h; exact ⟨List.Subset.refl _, fun _ => ⟨hs, trivial⟩⟩

theorem Stmt.everywhere_expandWaitsList {cs cs' : Counters} (body : List (Stmt Expr))
    (hsuspend : leaf .suspend) (hbody : Stmt.ListEverywhere leaf test body)
    (h : Stmt.expandWaitsList taken cs body = .ok (ss, cs')) :
    cs.names ⊆ cs'.names ∧ (cs'.LoopsHold leaf test → Stmt.ListEverywhere leaf test ss) := by
  match body with
  | [] => cases h; exact ⟨List.Subset.refl _, fun _ => trivial⟩
  | s :: rest =>
    obtain ⟨⟨us, cs₁⟩, hus, htail⟩ := Except.bind_eq_ok h
    obtain ⟨⟨vs, cs₂⟩, hvs, hss⟩ := Except.bind_eq_ok htail
    cases hss
    obtain ⟨hsub₁, hus'⟩ := Stmt.everywhere_expandWaits s hsuspend hbody.1 hus
    obtain ⟨hsub₂, hvs'⟩ := Stmt.everywhere_expandWaitsList rest hsuspend hbody.2 hvs
    refine ⟨List.Subset.trans hsub₁ hsub₂, fun hloops => Stmt.listEverywhere_append.2 ⟨?_, hvs' hloops⟩⟩
    exact hus' (hloops.of_subset hsub₂)

end

theorem ClockedProcess.everywhere_expandWaits {p : ClockedProcess Expr} (hsuspend : leaf .suspend)
    (hbody : Stmt.ListEverywhere leaf test p.body) (h : p.expandWaits = .ok expansion)
    (hloops : ∀ x ∈ expansion.counters.map Prod.fst, ∀ n,
      Stmt.ListEverywhere leaf test (countingLoop x n)) :
    Stmt.ListEverywhere leaf test expansion.body := by
  obtain ⟨⟨body, cs⟩, hexpand, he⟩ := Except.bind_eq_ok h
  cases he
  exact (Stmt.everywhere_expandWaitsList p.body hsuspend hbody hexpand).2 hloops

theorem countingLoop_wellTyped (hx : Γ x = .int) (n : Int64) :
    Stmt.ListWellTyped Γ (countingLoop x n) := by
  simp [Stmt.ListWellTyped, countingLoop, Stmt.ListEverywhere, Stmt.Everywhere, Stmt.Checks,
    Expr.type?, BinaryOp.type?, hx]

mutual

theorem Stmt.everywhere_of_not_mem_names (s : Stmt Expr) (h : x ∉ s.names) :
    s.Everywhere (fun s => x ∉ s.names) (fun _ => True) := by
  match s with
  | .branch c ts es =>
    rw [Stmt.names, List.mem_append, List.mem_append, not_or, not_or] at h
    exact ⟨trivial, Stmt.listEverywhere_of_not_mem_names ts h.1.2,
      Stmt.listEverywhere_of_not_mem_names es h.2⟩
  | .loop c body =>
    rw [Stmt.names, List.mem_append, not_or] at h
    exact ⟨trivial, Stmt.listEverywhere_of_not_mem_names body h.2⟩
  | .register y w => exact h
  | .assign xs v => exact h
  | .update y op v => exact h
  | .expr v => exact h
  | .suspend => exact h
  | .wait n => exact h

theorem Stmt.listEverywhere_of_not_mem_names (ss : List (Stmt Expr)) (h : x ∉ Stmt.listNames ss) :
    Stmt.ListEverywhere (fun s => x ∉ s.names) (fun _ => True) ss := by
  match ss with
  | [] => trivial
  | s :: rest =>
    rw [Stmt.listNames, List.mem_append, not_or] at h
    exact ⟨Stmt.everywhere_of_not_mem_names s h.1, Stmt.listEverywhere_of_not_mem_names rest h.2⟩

end

theorem countingLoop_names (h : y ≠ x) (n : Int64) : x ∉ Stmt.listNames (countingLoop y n) := by
  simp [countingLoop, Stmt.listNames, Stmt.names, Expr.vars, h.symm]

end Clockwork
