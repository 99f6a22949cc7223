import Clockwork.Proofs.WaitExpansion

namespace Clockwork
set_option autoImplicit true

variable {taken : List String} {cs cs' : Counters}

theorem counterName_injective (h : counterName j = counterName k) : j = k := by
  have hdigits : Nat.toDigits 10 j = Nat.toDigits 10 k := by
    rw [← Nat.toList_repr, ← Nat.toList_repr]
    exact congrArg String.toList ((String.append_right_inj "__repeat").1 h)
  rw [← Nat.ofDigitChars_ten_toDigits (n := j), hdigits, Nat.ofDigitChars_ten_toDigits]

theorem le_freeCounter (taken : List String) (bound k : Nat) : k ≤ freeCounter taken bound k := by
  induction bound generalizing k with
  | zero => exact Nat.le_refl k
  | succ bound ih =>
    rw [freeCounter]
    split
    · exact Nat.le_of_succ_le (ih (k + 1))
    · exact Nat.le_refl k

theorem freeCounter_taken (h : counterName (freeCounter taken bound k) ∈ taken) :
    (List.range' k (bound + 1)).map counterName ⊆ taken := by
  induction bound generalizing k with
  | zero => simpa [freeCounter] using h
  | succ bound ih =>
    rw [freeCounter] at h
    split at h
    · next hk =>
      rw [List.range'_succ, List.map_cons, List.cons_subset]
      exact ⟨hk, ih h⟩
    · next hk => exact (hk h).elim

/-- There are more candidates than taken names. -/
theorem freeCounter_not_mem (taken : List String) (k : Nat) :
    counterName (freeCounter taken taken.length k) ∉ taken := by
  intro h
  have hnodup : ((List.range' k (taken.length + 1)).map counterName).Nodup :=
    List.Pairwise.map counterName (fun _ _ hne he => hne (counterName_injective he))
      List.nodup_range'
  have hle := hnodup.length_le_of_subset (freeCounter_taken h)
  rw [List.length_map, List.length_range'] at hle
  omega

namespace Counters

/-- The counters have names of their own, none of which is taken. -/
structure Fresh (taken : List String) (cs : Counters) : Prop where
  nodup : cs.names.Nodup
  free : ∀ x ∈ cs.names, x ∉ taken
  below : ∀ x ∈ cs.names, ∃ k, k < cs.next ∧ x = counterName k

theorem Fresh.none (taken : List String) : Counters.none.Fresh taken where
  nodup := List.nodup_nil
  free _ hx := (List.not_mem_nil hx).elim
  below _ hx := (List.not_mem_nil hx).elim

theorem Fresh.add (h : cs.Fresh taken) (width : Nat) : (cs.add taken width).2.Fresh taken := by
  have hle : cs.next ≤ freeCounter taken taken.length cs.next := le_freeCounter ..
  constructor
  · rw [names_add, List.nodup_append]
    refine ⟨h.nodup, List.pairwise_singleton _ _, ?_⟩
    rintro x hx y hy rfl
    obtain ⟨k, hk, hname⟩ := h.below x hx
    have he : freeCounter taken taken.length cs.next = k :=
      counterName_injective ((List.mem_singleton.1 hy).symm.trans hname)
    omega
  · intro x hx
    rw [names_add, List.mem_append, List.mem_singleton] at hx
    rcases hx with hx | rfl
    · exact h.free x hx
    · exact freeCounter_not_mem taken cs.next
  · intro x hx
    rw [names_add, List.mem_append, List.mem_singleton] at hx
    rcases hx with hx | rfl
    · obtain ⟨k, hk, hname⟩ := h.below x hx
      exact ⟨k, Nat.lt_of_lt_of_le hk (Nat.le_succ_of_le hle), hname⟩
    · exact ⟨_, Nat.lt_succ_self _, rfl⟩

end Counters

mutual

/-- What every new counter preserves holds of the counters of a whole statement. -/
theorem Stmt.expandWaits_invariant {P : Counters → Prop} {cs cs' : Counters}
    (hadd : ∀ cs width, P cs → P (cs.add taken width).2) (s : Stmt Expr)
    (h : s.expandWaits taken cs = .ok (ss, cs')) (hP : P cs) : P cs' := by
  match s with
  | .wait e =>
    rcases expandWait_cases h with ⟨_, _, rfl⟩ | ⟨_, _, rfl⟩ | ⟨n, _, _, _, rfl⟩
    · exact hP
    · exact hP
    · exact hadd cs _ hP
  | .branch c ts es =>
    obtain ⟨⟨ts', cs₁⟩, hts, htail⟩ := Except.bind_eq_ok h
    obtain ⟨⟨es', cs₂⟩, hes, hss⟩ := Except.bind_eq_ok htail
    cases hss
    exact Stmt.expandWaitsList_invariant hadd es hes
      (Stmt.expandWaitsList_invariant hadd ts hts hP)
  | .loop c body =>
    obtain ⟨⟨body', cs₁⟩, hbody, hss⟩ := Except.bind_eq_ok h
    cases hss
    exact Stmt.expandWaitsList_invariant hadd body hbody hP
  | .register x w => cases h; exact hP
  | .assign xs v => cases h; exact hP
  | .update x op v => cases h; exact hP
  | .expr v => cases h; exact hP
  | .suspend => cases h; exact hP

theorem Stmt.expandWaitsList_invariant {P : Counters → Prop} {cs cs' : Counters}
    (hadd : ∀ cs width, P cs → P (cs.add taken width).2) (body : List (Stmt Expr))
    (h : Stmt.expandWaitsList taken cs body = .ok (ss, cs')) (hP : P cs) : P cs' := by
  match body with
  | [] => cases h; exact hP
  | s :: rest =>
    obtain ⟨⟨us, cs₁⟩, hus, htail⟩ := Except.bind_eq_ok h
    obtain ⟨⟨vs, cs₂⟩, hvs, hss⟩ := Except.bind_eq_ok htail
    cases hss
    exact Stmt.expandWaitsList_invariant hadd rest hvs
      (Stmt.expandWaits_invariant hadd s hus hP)

end

theorem Stmt.widths_expandWaitsList (h : Stmt.expandWaitsList taken cs body = .ok (ss, cs')) :
    cs.widths ⊆ cs'.widths := by
  apply Stmt.expandWaitsList_invariant (P := fun cs' => cs.widths ⊆ cs'.widths) ?_ body h
    (List.Subset.refl _)
  intro cs₁ width hsub
  exact List.Subset.trans hsub (List.subset_append_left _ _)

/-- A statement that neither nests others nor waits for several edges. -/
def Stmt.IsPlain : Stmt Expr → Prop
  | .branch .. | .loop .. | .wait _ => False
  | _ => True

/-- The second list of statements is the first one with a counting loop in the place of every long
wait. The counters are listed with their widths, and no other statement mentions them. -/
inductive Stmt.Expands (widths : List (String × Nat)) : List (Stmt Expr) → List (Stmt Expr) → Prop
  | nil : Expands widths [] []
  | plain (hs : s.IsPlain) (hnames : ∀ x ∈ s.names, x ∉ widths.map Prod.fst)
    (hrest : Expands widths rest rest') : Expands widths (s :: rest) (s :: rest')
  | branch (hc : ∀ x ∈ c.vars, x ∉ widths.map Prod.fst) (hts : Expands widths ts ts')
    (hes : Expands widths es es') (hrest : Expands widths rest rest') :
    Expands widths (.branch c ts es :: rest) (.branch c ts' es' :: rest')
  | loop (hc : ∀ x ∈ c.vars, x ∉ widths.map Prod.fst) (hbody : Expands widths body body')
    (hrest : Expands widths rest rest') :
    Expands widths (.loop c body :: rest) (.loop c body' :: rest')
  | zero (hrest : Expands widths rest rest') : Expands widths (.wait (.int 0) :: rest) rest'
  | one (hrest : Expands widths rest rest') :
    Expands widths (.wait (.int 1) :: rest) (.suspend :: rest')
  | counted (n : Int64) (hn : 2 ≤ n.toInt) (hx : (x, bitWidth (n.toInt.toNat - 1)) ∈ widths)
    (hrest : Expands widths rest rest') :
    Expands widths (.wait (.int n) :: rest) (countingLoop x n ++ rest')

mutual

theorem Stmt.expands_expandWaits {widths : List (String × Nat)} {cs cs' : Counters} (s : Stmt Expr)
    (hnames : ∀ x ∈ s.names, x ∉ widths.map Prod.fst)
    (h : s.expandWaits taken cs = .ok (ss, cs')) (hsub : cs'.widths ⊆ widths)
    (hrest : Stmt.Expands widths rest rest') : Stmt.Expands widths (s :: rest) (ss ++ rest') := by
  match s with
  | .wait e =>
    rcases expandWait_cases h with ⟨rfl, rfl, _⟩ | ⟨rfl, rfl, _⟩ | ⟨n, hn, rfl, rfl, rfl⟩
    · exact .zero hrest
    · exact .one hrest
    · exact .counted n hn (hsub (List.mem_append_right _ List.mem_cons_self)) hrest
  | .branch c ts es =>
    obtain ⟨⟨ts', cs₁⟩, hts, htail⟩ := Except.bind_eq_ok h
    obtain ⟨⟨es', cs₂⟩, hes, hss⟩ := Except.bind_eq_ok htail
    cases hss
    rw [Stmt.names, List.forall_mem_append, List.forall_mem_append] at hnames
    have hsub₁ := List.Subset.trans (Stmt.widths_expandWaitsList hes) hsub
    exact .branch hnames.1.1 (Stmt.expands_expandWaitsList ts hnames.1.2 hts hsub₁)
      (Stmt.expands_expandWaitsList es hnames.2 hes hsub) hrest
  | .loop c body =>
    obtain ⟨⟨body', cs₁⟩, hbody, hss⟩ := Except.bind_eq_ok h
    cases hss
    rw [Stmt.names, List.forall_mem_append] at hnames
    exact .loop hnames.1 (Stmt.expands_expandWaitsList body hnames.2 hbody hsub) hrest
  | .register x w => cases h; exact .plain trivial hnames hrest
  | .assign xs v => cases h; exact .plain trivial hnames hrest
  | .update x op v => cases h; exact .plain trivial hnames hrest
  | .expr v => cases h; exact .plain trivial hnames hrest
  | .suspend => cases h; exact .plain trivial hnames hrest

theorem Stmt.expands_expandWaitsList {widths : List (String × Nat)} {cs cs' : Counters}
    (body : List (Stmt Expr))
    (hnames : ∀ x ∈ Stmt.listNames body, x ∉ widths.map Prod.fst)
    (h : Stmt.expandWaitsList taken cs body = .ok (ss, cs')) (hsub : cs'.widths ⊆ widths) :
    Stmt.Expands widths body ss := by
  match body with
  | [] => cases h; exact .nil
  | s :: rest =>
    obtain ⟨⟨us, cs₁⟩, hus, htail⟩ := Except.bind_eq_ok h
    obtain ⟨⟨vs, cs₂⟩, hvs, hss⟩ := Except.bind_eq_ok htail
    cases hss
    rw [Stmt.listNames, List.forall_mem_append] at hnames
    have hsub₁ := List.Subset.trans (Stmt.widths_expandWaitsList hvs) hsub
    exact Stmt.expands_expandWaits s hnames.1 hus hsub₁
      (Stmt.expands_expandWaitsList rest hnames.2 hvs hsub)

end

/-- The counters of a process are distinct, the process does not use their names, and its body is
expanded with them. -/
theorem ClockedProcess.expands {p : ClockedProcess Expr} (h : p.expandWaits = .ok expansion) :
    (expansion.counters.map Prod.fst).Nodup ∧
      (∀ x ∈ expansion.counters.map Prod.fst, x ∉ p.names) ∧
      Stmt.Expands expansion.counters p.body expansion.body := by
  obtain ⟨⟨body, cs⟩, hexpand, he⟩ := Except.bind_eq_ok h
  cases he
  have hfresh : cs.Fresh p.names :=
    Stmt.expandWaitsList_invariant (fun _ width hcs => hcs.add width) p.body hexpand (.none _)
  refine ⟨hfresh.nodup, hfresh.free, ?_⟩
  apply Stmt.expands_expandWaitsList p.body ?_ hexpand (List.Subset.refl _)
  intro x hx hcounter
  exact hfresh.free x hcounter (mem_addAllNew.2 (.inr hx))

end Clockwork
