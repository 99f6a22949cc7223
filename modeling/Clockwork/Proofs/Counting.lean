import Clockwork.Proofs.CounterNames
import Clockwork.Proofs.Routes
import Clockwork.Proofs.StateName
import Clockwork.Proofs.Waiting
import Mathlib.Data.List.Nodup

namespace Clockwork
set_option autoImplicit true

section

variable {widths : List (String × Nat)} {v v' : Valuation} {x : String} {n : Int64} {i m : Nat}

theorem Valuation.eval_congr (h : ∀ x ∈ e.vars, v.get? x = v'.get? x) : v.eval e = v'.eval e := by
  rw [Valuation.eval, Valuation.eval, Expr.eval_congr h]

theorem Stmt.assignments_congr {s : Stmt Expr} (h : ∀ x ∈ s.names, v.get? x = v'.get? x) :
    s.assignments v = s.assignments v' := by
  cases s with
  | assign xs e =>
    have heval := Valuation.eval_congr fun x hx => h x (List.mem_append_right xs hx)
    rw [assignments, assignments, heval]
  | update y op e =>
    have heval := Valuation.eval_congr fun x hx => h x (List.mem_cons_of_mem y hx)
    rw [assignments, assignments, heval, h y List.mem_cons_self]
  | register => rfl
  | expr => rfl
  | branch => rfl
  | loop => rfl
  | suspend => rfl
  | wait => rfl

namespace Valuation

/-- What is asked of the value of each counter outlasts a store to one of them. -/
theorem forall_insert {P : Nat → Option Value → Prop}
    (h : ∀ x w, (x, w) ∈ widths → P w (v.get? x)) (hnodup : (widths.map Prod.fst).Nodup)
    (hx : (x, w) ∈ widths) (ha : P w (some a)) (y : String) (u : Nat) (hy : (y, u) ∈ widths) :
    P u ((v.insert x a).get? y) := by
  rw [Table.get?_insert]
  split
  · next he =>
    subst he
    have hwidth : (y, u) = (y, w) := List.inj_on_of_nodup_map hnodup hy hx rfl
    cases hwidth
    exact ha
  · exact h y u hy

/-- A valuation with counters: it has the values of another one for all other names, and each
counter that has a value holds a number that fits in its width and in a signed word. -/
structure Counts (widths : List (String × Nat)) (v v' : Valuation) : Prop where
  others : ∀ x, x ∉ widths.map Prod.fst → v'.get? x = v.get? x
  bounded : ∀ x w, (x, w) ∈ widths → ∀ a, v'.get? x = some a →
    ∃ i : Nat, a = .int (Int64.ofNat i) ∧ i < 2 ^ w ∧ i < 2 ^ 63

namespace Counts

theorem eval (h : Counts widths v v') (hc : ∀ x ∈ e.vars, x ∉ widths.map Prod.fst) :
    v'.eval e = v.eval e :=
  Valuation.eval_congr fun x hx => h.others x (hc x hx)

theorem insert (h : Counts widths v v') (hx : x ∉ widths.map Prod.fst) (a : Value) :
    Counts widths (v.insert x a) (v'.insert x a) where
  others y hy := by rw [Table.get?_insert, Table.get?_insert, h.others y hy]
  bounded y w hy b hb := by
    have hne : y ≠ x := by
      rintro rfl
      exact hx (List.mem_map_of_mem hy)
    rw [Table.get?_insert, if_neg hne] at hb
    exact h.bounded y w hy b hb

theorem assignments {s : Stmt Expr} (h : Counts widths v v')
    (hnames : ∀ x ∈ s.names, x ∉ widths.map Prod.fst) (hws : s.assignments v = .ok ws) :
    Counts widths (v.insertAll ws) (v'.insertAll ws) := by
  have hws' : s.assignments v' = .ok ws :=
    (Stmt.assignments_congr fun x hx => h.others x (hnames x hx)).trans hws
  constructor
  · intro x hx
    rw [Table.get?_insertAll, Table.get?_insertAll, h.others x hx]
  · intro x w hx a ha
    have hname : x ∉ s.names := fun hmem => hnames x hmem (List.mem_map_of_mem hx)
    rw [Stmt.get?_assignments hname hws'] at ha
    exact h.bounded x w hx a ha

theorem count (h : Counts widths v v') (hnodup : (widths.map Prod.fst).Nodup)
    (hx : (x, w) ∈ widths) (hi : i < 2 ^ w) (hword : i < 2 ^ 63) :
    Counts widths v (v'.insert x (.int (Int64.ofNat i))) where
  others y hy := by
    have hne : y ≠ x := by
      rintro rfl
      exact hy (List.mem_map_of_mem hx)
    rw [Table.get?_insert, if_neg hne, h.others y hy]
  bounded := by
    refine forall_insert (P := fun w b => ∀ a, b = some a → ∃ i : Nat, a = .int (Int64.ofNat i) ∧
      i < 2 ^ w ∧ i < 2 ^ 63) h.bounded hnodup hx ?_
    rintro a ⟨⟩
    exact ⟨i, rfl, hi, hword⟩

end Counts

theorem apply_below (hn : n.toInt = m + 2) (hi : i ≤ m + 1) :
    BinaryOp.lt.apply (.int (Int64.ofNat i)) (.int (n - 1)) =
      some (.bool (decide (i < m + 1))) := by
  have hlt := n.toInt_lt
  have hsub : (n - 1).toInt = m + 1 := by
    rw [Int64.toInt_sub, hn, Int64.toInt_one, Int.bmod_eq_of_le]
    · omega
    · omega
    · omega
  have hiff : Int64.ofNat i < n - 1 ↔ i < m + 1 := by
    rw [Int64.lt_iff_toInt_lt, hsub, Int64.toInt_ofNat_of_lt (by omega)]
    omega
  simp only [BinaryOp.apply, Value.toInt64, hiff]

theorem eval_below (hx : v.get? x = some (.int (Int64.ofNat i))) (hn : n.toInt = m + 2)
    (hi : i ≤ m + 1) :
    v.eval (.binary .lt (.var x) (.int (n - 1))) = .ok (.bool (decide (i < m + 1))) := by
  rw [eval_eq_ok, Expr.eval, Expr.eval, hx]
  exact apply_below hn hi

theorem eval_next (hx : v.get? x = some (.int (Int64.ofNat i))) (hi : i + 1 < 2 ^ 63) :
    v.eval (.binary .add (.var x) (.int 1)) = .ok (.int (Int64.ofNat (i + 1))) := by
  have hmin : Int64.minValue.toInt = -2 ^ 63 := rfl
  have hmax : Int64.maxValue.toInt = 2 ^ 63 - 1 := rfl
  have hsum : Value.ofInt? ((i : Int) + 1) = some (.int (Int64.ofNat (i + 1))) := by
    rw [Value.ofInt?, if_pos (by omega)]
    rfl
  simp only [Valuation.eval, Expr.eval, hx, Option.bind_some, BinaryOp.apply, Value.toInt64,
    Int64.toInt_ofNat_of_lt (Nat.lt_of_succ_lt hi), Int64.toInt_one, hsum]

end Valuation

end

/-- The loop of a counting loop. -/
def countingBody (x : String) (n : Int64) : Stmt Expr :=
  .loop (.binary .lt (.var x) (.int (n - 1)))
    [.suspend, .assign [x] (.binary .add (.var x) (.int 1))]

namespace Agenda

/-- A counting loop after one of its suspensions, before it counts. -/
def recount (k : Nat) (x : String) (n : Int64) (B : Agenda) : Agenda :=
  (k + 1, .assign [x] (.binary .add (.var x) (.int 1))) :: (k, countingBody x n) ::
    (k + 1, .suspend) :: B

/-- The rest of a wait: `j` clock edges before the last one. -/
def remaining (k j : Nat) (A : Agenda) : Agenda :=
  List.replicate j (k, .suspend) ++ (k + 1, .suspend) :: A

/-- The second agenda has counting loops where the first one has waits. -/
inductive Follows (widths : List (String × Nat)) : Agenda → Agenda → Prop
  | nil : Follows widths [] []
  | plain {k : Nat} (hs : s.IsPlain) (hnames : ∀ x ∈ s.names, x ∉ widths.map Prod.fst)
    (hrest : Follows widths A B) : Follows widths ((k, s) :: A) ((k, s) :: B)
  | branch {k : Nat} (hc : ∀ x ∈ c.vars, x ∉ widths.map Prod.fst)
    (hts : Stmt.Expands widths ts ts') (hes : Stmt.Expands widths es es')
    (hrest : Follows widths A B) :
    Follows widths ((k, .branch c ts es) :: A) ((k, .branch c ts' es') :: B)
  | loop {k : Nat} (hc : ∀ x ∈ c.vars, x ∉ widths.map Prod.fst)
    (hbody : Stmt.Expands widths body body') (hrest : Follows widths A B) :
    Follows widths ((k, .loop c body) :: A) ((k, .loop c body') :: B)
  | counted {k m : Nat} {n : Int64} (hn : n.toInt = m + 2)
    (hx : (x, bitWidth (m + 1)) ∈ widths) (hrest : Follows widths A B) :
    Follows widths (remaining k (m + 1) A)
      ((k, .assign [x] (.int 0)) :: (k, countingBody x n) :: (k + 1, .suspend) :: B)

/-- The places at which the two agendas wait: in a counting loop, the counter tells how many edges
are left. -/
inductive Paused (widths : List (String × Nat)) (v : Valuation) : Agenda → Agenda → Prop
  | apart (h : Follows widths A B) : Paused widths v A B
  | counting {k m : Nat} {n : Int64} (hn : n.toInt = m + 2)
    (hx : (x, bitWidth (m + 1)) ∈ widths)
    (hi : v.get? x = some (.int (Int64.ofNat i))) (hj : i + j = m) (hrest : Follows widths A B) :
    Paused widths v (remaining k j A) (recount k x n B)

/-- Two executions come to the same end. -/
inductive Answers (widths : List (String × Nat)) : Valuation × Except RunError (Nat × Agenda) →
    Valuation × Except RunError (Nat × Agenda) → Prop
  | waits {id : Nat} (hv : v.Counts widths v') (h : Paused widths v' A B) :
    Answers widths (v, .ok (id, A)) (v', .ok (id, B))
  | fails (hv : v.Counts widths v') : Answers widths (v, .error e) (v', .error e)

/-- Both agendas go on or both stop. For a suspension in a counting loop the second agenda may need
a few moves more. -/
inductive Proceeds (widths : List (String × Nat)) (v v' : Valuation) (A B : Agenda) : Prop
  | goes (h : A.advanceWaiting v = .goes u A') (h' : B.advance v' = .goes u' B')
    (hrest : Follows widths A' B') (hv : u.Counts widths u')
  | stops (h : A.advanceWaiting v = .stops u result) (h' : B.Yields v' out)
    (hends : Answers widths (u, result) out)

variable {widths : List (String × Nat)} {v v' : Valuation} {x : String} {n : Int64} {i m : Nat}
  {A B : Agenda}

/-- As long as the counter has not reached the last edge, the loop suspends again. -/
theorem yields_recount (hx : v.get? x = some (.int (Int64.ofNat i))) (hn : n.toInt = m + 2)
    (hi : i < m + 1) (k : Nat) (B : Agenda) :
    Yields v ((k, countingBody x n) :: (k + 1, .suspend) :: B)
      (v, .ok (k + 1, recount k x n B)) := by
  have heval := Valuation.eval_below hx hn (Nat.le_of_lt hi)
  rw [decide_eq_true hi] at heval
  have hgoes : advance v ((k, countingBody x n) :: (k + 1, .suspend) :: B) =
      .goes v ((k, .suspend) :: recount k x n B) := by
    simp only [advance, countingBody, Valuation.evalThen, heval]
    rfl
  exact .of_goes hgoes (.of_stops rfl)

theorem yields_last (hx : v.get? x = some (.int (Int64.ofNat (m + 1)))) (hn : n.toInt = m + 2)
    (k : Nat) (B : Agenda) :
    Yields v ((k, countingBody x n) :: (k + 1, .suspend) :: B) (v, .ok (k + 2, B)) := by
  have heval := Valuation.eval_below hx hn (Nat.le_refl _)
  rw [decide_eq_false (Nat.lt_irrefl _)] at heval
  have hgoes : advance v ((k, countingBody x n) :: (k + 1, .suspend) :: B) =
      .goes v ((k + 1, .suspend) :: B) := by
    simp only [advance, countingBody, Valuation.evalThen, heval]
    rfl
  exact .of_goes hgoes (.of_stops rfl)

theorem pauses_append (k m : Nat) (A : Agenda) : pauses k (m + 2) ++ A = remaining k (m + 1) A := by
  rw [pauses, remaining, List.append_assoc]
  rfl

theorem entries_of_plain {s : Stmt Expr} (hs : s.IsPlain) (k : Nat) :
    entries k s = [(k, s)] ∧ s.suspensions = s.points := by
  cases s with
  | branch => exact hs.elim
  | loop => exact hs.elim
  | wait => exact hs.elim
  | register => exact ⟨rfl, rfl⟩
  | assign => exact ⟨rfl, rfl⟩
  | update => exact ⟨rfl, rfl⟩
  | expr => exact ⟨rfl, rfl⟩
  | suspend => exact ⟨rfl, rfl⟩

theorem listSuspensions_of_expands (h : Stmt.Expands widths ss ss') :
    Stmt.listSuspensions ss' = Stmt.listPoints ss := by
  induction h with
  | nil => rfl
  | plain hs _ _ ih =>
    rw [Stmt.listSuspensions, Stmt.listPoints, (entries_of_plain hs 0).2, ih]
  | branch _ _ _ _ ihts ihes ih =>
    rw [Stmt.listSuspensions, Stmt.listPoints, Stmt.suspensions, Stmt.points, ih, ihts, ihes]
  | loop _ _ _ ihbody ih =>
    rw [Stmt.listSuspensions, Stmt.listPoints, Stmt.suspensions, Stmt.points, ih, ihbody]
  | zero _ ih => exact ih.trans (Nat.zero_add _).symm
  | one _ ih => exact congrArg (1 + ·) ih
  | counted n hn _ _ ih =>
    have hpoints : min n.toInt.toNat 2 = 2 := by omega
    rw [Stmt.listPoints, Stmt.points, hpoints, ← ih]
    simp only [countingLoop, List.cons_append, List.nil_append, Stmt.listSuspensions,
      Stmt.suspensions]
    omega

/-- Statements are put on the two agendas together. -/
theorem Follows.list (h : Stmt.Expands widths ss ss') (hrest : Follows widths A B) (k : Nat) :
    Follows widths (waiting k ss ++ A) (of k ss' ++ B) := by
  induction h generalizing k with
  | nil => exact hrest
  | plain hs hnames _ ih =>
    obtain ⟨hentries, hpoints⟩ := entries_of_plain hs k
    rw [waiting, hentries, of, hpoints]
    exact .plain hs hnames (ih _)
  | branch hc hts hes _ _ _ ih =>
    rw [waiting, of, Stmt.suspensions, listSuspensions_of_expands hts,
      listSuspensions_of_expands hes]
    exact .branch hc hts hes (ih _)
  | loop hc hbody _ _ ih =>
    rw [waiting, of, Stmt.suspensions, listSuspensions_of_expands hbody]
    exact .loop hc hbody (ih _)
  | zero _ ih => exact ih k
  | one _ ih => exact .plain trivial (by simp [Stmt.names]) (ih (k + 1))
  | counted n hn hx _ ih =>
    obtain ⟨m, hm⟩ : ∃ m : Nat, n.toInt = m + 2 := ⟨n.toInt.toNat - 2, by omega⟩
    have hnat : n.toInt.toNat = m + 2 := by omega
    have hmin : min n.toInt.toNat 2 = 2 := by omega
    rw [waiting, entries, Stmt.points, hmin, hnat, List.append_assoc, pauses_append]
    rw [hnat] at hx
    exact .counted hm hx (ih (k + 2))

theorem Proceeds.straight {s : Stmt Expr} (hs : s.isStraight)
    (hnames : ∀ x ∈ s.names, x ∉ widths.map Prod.fst) (hrest : Follows widths A B)
    (hv : v.Counts widths v') (hA : advanceWaiting v ((k, s) :: A) = advance v ((k, s) :: A)) :
    Proceeds widths v v' ((k, s) :: A) ((k, s) :: B) := by
  have hB := advance_of_straight hs k v' B
  have hassign := Stmt.assignments_congr fun x hx => hv.others x (hnames x hx)
  rw [advance_of_straight hs] at hA
  rw [hassign] at hB
  cases hws : s.assignments v with
  | error e =>
    rw [hws] at hA hB
    exact .stops hA (.of_stops hB) (.fails hv)
  | ok ws =>
    rw [hws] at hA hB
    exact .goes hA hB hrest (hv.assignments hnames hws)

theorem Proceeds.choose (hc : ∀ x ∈ c.vars, x ∉ widths.map Prod.fst) (hv : v.Counts widths v')
    (ht : Follows widths onTrue onTrue') (hf : Follows widths onFalse onFalse')
    (hA : A.advanceWaiting v = v.evalThen c fun w => .goes v (if w.truth then onTrue else onFalse))
    (hB : B.advance v' =
      v'.evalThen c fun w => .goes v' (if w.truth then onTrue' else onFalse')) :
    Proceeds widths v v' A B := by
  rw [Valuation.evalThen] at hA hB
  rw [hv.eval hc] at hB
  cases he : v.eval c with
  | error e =>
    rw [he] at hA hB
    exact .stops hA (.of_stops hB) (.fails hv)
  | ok w =>
    rw [he] at hA hB
    cases hw : w.truth with
    | true =>
      simp only [hw, if_true] at hA hB
      exact .goes hA hB ht hv
    | false =>
      simp only [hw, Bool.false_eq_true, if_false] at hA hB
      exact .goes hA hB hf hv

/-- A wait suspends, and its loop suspends as well after it has set the counter. -/
theorem Proceeds.counted (hnodup : (widths.map Prod.fst).Nodup) (hn : n.toInt = m + 2)
    (hx : (x, bitWidth (m + 1)) ∈ widths) (hrest : Follows widths A B) (hv : v.Counts widths v')
    (k : Nat) :
    Proceeds widths v v' (remaining k (m + 1) A)
      ((k, .assign [x] (.int 0)) :: (k, countingBody x n) :: (k + 1, .suspend) :: B) := by
  have hcounter : (v'.insert x (.int (Int64.ofNat 0))).get? x = some (.int (Int64.ofNat 0)) := by
    rw [Table.get?_insert, if_pos rfl]
  have hv' := hv.count hnodup hx (Nat.two_pow_pos _) (Nat.two_pow_pos 63)
  refine .stops rfl (.of_goes rfl (yields_recount hcounter hn (Nat.succ_pos m) k B)) ?_
  exact .waits hv' (.counting hn hx hcounter (Nat.zero_add m) hrest)

/-- The next step of a wait that has begun. -/
theorem Proceeds.counting (hnodup : (widths.map Prod.fst).Nodup) (hn : n.toInt = m + 2)
    (hx : (x, bitWidth (m + 1)) ∈ widths) (hi : v'.get? x = some (.int (Int64.ofNat i)))
    (hj : i + j = m) (hrest : Follows widths A B) (hv : v.Counts widths v') (k : Nat) :
    ∃ id A' out, (remaining k j A).advanceWaiting v = .stops v (.ok (id, A')) ∧
      (recount k x n B).Yields v' out ∧ Answers widths (v, .ok (id, A')) out := by
  have hlt := n.toInt_lt
  have hcounter : (v'.insert x (.int (Int64.ofNat (i + 1)))).get? x =
      some (.int (Int64.ofNat (i + 1))) := by
    rw [Table.get?_insert, if_pos rfl]
  have hbound : i + 1 < 2 ^ bitWidth (m + 1) :=
    Nat.lt_of_le_of_lt (by omega) (Nat.lt_log2_self (n := m + 1))
  have hv' := hv.count hnodup hx hbound (by omega)
  have hadvance : (recount k x n B).advance v' = .goes (v'.insert x (.int (Int64.ofNat (i + 1))))
      ((k, countingBody x n) :: (k + 1, .suspend) :: B) := by
    simp only [recount, advance, Valuation.evalThen, Valuation.eval_next hi (by omega)]
    rfl
  cases j with
  | zero =>
    cases hj
    exact ⟨_, _, _, rfl, .of_goes hadvance (yields_last hcounter hn k B), .waits hv' (.apart hrest)⟩
  | succ j =>
    refine ⟨_, _, _, rfl, .of_goes hadvance (yields_recount hcounter hn (by omega) k B), ?_⟩
    exact .waits hv' (.counting hn hx hcounter (by omega) hrest)

theorem Follows.proceeds (hnodup : (widths.map Prod.fst).Nodup) (h : Follows widths A B)
    (hv : v.Counts widths v') : Proceeds widths v v' A B := by
  cases h with
  | nil => exact .stops rfl (.of_stops rfl) (.fails hv)
  | @plain A B s k hs hnames hrest =>
    cases s with
    | branch => exact hs.elim
    | loop => exact hs.elim
    | wait => exact hs.elim
    | register => exact .goes rfl rfl hrest hv
    | suspend => exact .stops rfl (.of_stops rfl) (.waits hv (.apart hrest))
    | assign => exact .straight rfl hnames hrest hv rfl
    | update => exact .straight rfl hnames hrest hv rfl
    | expr => exact .straight rfl hnames hrest hv rfl
  | @branch ts ts' es es' A B c k hc hts hes hrest =>
    have hf : Follows widths (waiting (k + Stmt.listPoints ts) es ++ A)
        (of (k + Stmt.listSuspensions ts') es' ++ B) := by
      rw [listSuspensions_of_expands hts]
      exact .list hes hrest _
    exact .choose hc hv (.list hts hrest k) hf rfl rfl
  | loop hc hbody hrest =>
    exact .choose hc hv (.list hbody (.loop hc hbody hrest) _) hrest rfl rfl
  | counted hn hx hrest => exact .counted hnodup hn hx hrest hv _

end Agenda

end Clockwork
