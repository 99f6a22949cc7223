import Clockwork.Proofs.Routes

namespace Clockwork
set_option autoImplicit true

variable {start now now' : Valuation} {table : Substitution} {Γ : Typing} {v : Value}

/-- Something that is computed along a path: a value for its targets or for a test. -/
inductive Transfer (α : Type) where
  | store (targets : List String) (source : α)
  | test (source : α)
deriving DecidableEq, Repr

def Transfer.eval (v : Valuation) : Transfer Expr → Except RunError (Transfer Value)
  | .store xs e => do return .store xs (← v.eval e)
  | .test c => do return .test (← v.eval c)

def Transfer.writes : Transfer Value → List (String × Value)
  | .store xs w => xs.map (·, w)
  | .test _ => []

/-- Computes transfers one after the other, each with what the earlier ones have written. -/
def Transfer.inOrder (v : Valuation) :
    List (Transfer Expr) → Except RunError (List (Transfer Value))
  | [] => .ok []
  | t :: ts => do
    let u ← t.eval v
    let us ← Transfer.inOrder (v.insertAll u.writes) ts
    return u :: us

/-- The transfers of a statement without nested statements. -/
def Stmt.transfers : Stmt Expr → List (Transfer Expr)
  | .assign xs e => [.store xs e]
  | .update x op e => [.store [x] (.binary op (.var x) e)]
  | _ => []

def Waypoint.transfers : Waypoint → List (Transfer Expr)
  | .block ss => ss.flatMap Stmt.transfers
  | .branch c _ => [.test c]
  | .head | .suspend _ => []

def Path.transfers (p : Path) : List (Transfer Expr) :=
  p.nodes.flatMap Waypoint.transfers

/-- The values behind a node of a path. The condition of a branch needs a value, but the path may
take either edge. -/
def Waypoint.exec (v : Valuation) : Waypoint → Except RunError Valuation
  | .block ss =>
    match Stmt.execList v ss with
    | (u, none) => .ok u
    | (_, some e) => .error e
  | .branch c _ => do
    let _ ← v.eval c
    return v
  | .head | .suspend _ => .ok v

def Path.exec (v : Valuation) (p : Path) : Except RunError Valuation :=
  p.nodes.foldlM Waypoint.exec v

namespace Transfer

theorem eval_store {r : Valuation} (he : e.eval r.get? = some v) (xs : List String) :
    (store xs e).eval r = .ok (.store xs v) := by
  rw [Transfer.eval, Valuation.eval_eq_ok.2 he]
  rfl

theorem eval_test {r : Valuation} (hc : c.eval r.get? = some v) :
    (test c).eval r = .ok (.test v) := by
  rw [Transfer.eval, Valuation.eval_eq_ok.2 hc]
  rfl

/-- The first transfers, computed in order from the present values on, give the same results as the
second ones, which are all computed at the start. The results lead to the next values. -/
def Coincide (start now now' : Valuation) (ts ts' : List (Transfer Expr)) : Prop :=
  ∃ us, inOrder now ts = .ok us ∧ ts'.map (Transfer.eval start) = us.map .ok ∧
    now' = now.insertAll (us.flatMap writes)

theorem Coincide.nil (start now : Valuation) : Coincide start now now [] [] :=
  ⟨[], rfl, rfl, rfl⟩

theorem Coincide.single {t t' : Transfer Expr} {u : Transfer Value} (ht : t.eval now = .ok u)
    (ht' : t'.eval start = .ok u) : Coincide start now (now.insertAll u.writes) [t] [t'] := by
  refine ⟨[u], ?_, ?_, ?_⟩
  · rw [inOrder, ht]
    rfl
  · rw [List.map_singleton, ht']
    rfl
  · rw [List.flatMap_singleton]

theorem inOrder_append (h : inOrder now ts = .ok us)
    (h' : inOrder (now.insertAll (us.flatMap writes)) ts' = .ok us') :
    inOrder now (ts ++ ts') = .ok (us ++ us') := by
  induction ts generalizing now us with
  | nil =>
    cases h
    exact h'
  | cons t ts ih =>
    obtain ⟨u, hu, h⟩ := Except.bind_eq_ok h
    obtain ⟨rest, hrest, h⟩ := Except.bind_eq_ok h
    cases h
    rw [List.flatMap_cons, Table.insertAll_append] at h'
    rw [List.cons_append, inOrder, hu]
    exact congrArg (Except.map (u :: ·)) (ih hrest h')

theorem Coincide.append {now'' : Valuation} (h : Coincide start now now' ts ts')
    (h' : Coincide start now' now'' us us') :
    Coincide start now now'' (ts ++ us) (ts' ++ us') := by
  obtain ⟨rs, horder, honce, rfl⟩ := h
  obtain ⟨rs', horder', honce', rfl⟩ := h'
  refine ⟨rs ++ rs', inOrder_append horder horder', ?_, ?_⟩
  · rw [List.map_append, List.map_append, honce, honce']
  · rw [List.flatMap_append, Table.insertAll_append]

end Transfer

theorem Stmt.Idle.transfers {s : Stmt Expr} (hs : s.Idle) (table : Substitution) :
    s.transfers = [] ∧ (s.propagate table).1.transfers = [] := by
  cases s with
  | assign => exact hs.elim
  | update => exact hs.elim
  | register => exact ⟨rfl, rfl⟩
  | expr => exact ⟨rfl, rfl⟩
  | branch => exact ⟨rfl, rfl⟩
  | loop => exact ⟨rfl, rfl⟩
  | suspend => exact ⟨rfl, rfl⟩
  | wait => exact ⟨rfl, rfl⟩

theorem Stmt.propagate_coincide {s : Stmt Expr} (h : table.Tracks Γ start now)
    (hstart : Env.Respects start.get? Γ) (hs : s.Checks Γ) (hws : s.assignments now = .ok ws) :
    Transfer.Coincide start now (now.insertAll ws) s.transfers
      (s.propagate table).1.transfers := by
  rcases Stmt.assignments_eq_ok hws with
    ⟨xs, e, v, rfl, hv, rfl⟩ | ⟨x, op, e, v, rfl, hv, rfl⟩ | ⟨rfl, hidle⟩
  · obtain ⟨τ, ht, _⟩ := hs
    have hv' := h.eval_reduce hstart ht hv
    exact .single (Transfer.eval_store hv xs) (Transfer.eval_store hv' xs)
  · have hv' := h.eval_reduce hstart hs hv
    exact .single (Transfer.eval_store hv [x]) (Transfer.eval_store hv' [x])
  · obtain ⟨hnone, hnone'⟩ := hidle.transfers table
    rw [hnone, hnone']
    exact .nil start now

theorem Stmt.propagateList_coincide (h : table.Tracks Γ start now)
    (hstart : Env.Respects start.get? Γ) (hss : ∀ s ∈ ss, Stmt.Checks Γ s)
    (hexec : Stmt.execList now ss = (now', none)) :
    Transfer.Coincide start now now' (ss.flatMap Stmt.transfers)
      ((Stmt.propagateList table ss).1.flatMap Stmt.transfers) := by
  induction ss generalizing table now with
  | nil =>
    cases hexec
    exact .nil start _
  | cons s ss ih =>
    obtain ⟨ws, hws, hexec⟩ := Stmt.execList_cons_eq hexec
    obtain ⟨hs, hss⟩ := List.forall_mem_cons.1 hss
    obtain ⟨htracks, _⟩ := Stmt.propagate_tracks h hstart hs hws
    exact (Stmt.propagate_coincide h hstart hs hws).append (ih htracks hss hexec)

/-- The types in a node of a path fit. -/
def Waypoint.Checks (Γ : Typing) : Waypoint → Prop
  | .block ss => ∀ s ∈ ss, Stmt.Checks Γ s
  | .branch c _ => (c.type? Γ).isSome
  | .head | .suspend _ => True

theorem Waypoint.propagateList_coincide (h : table.Tracks Γ start now)
    (hstart : Env.Respects start.get? Γ) (hns : ∀ n ∈ ns, Waypoint.Checks Γ n)
    (hexec : ns.foldlM Waypoint.exec now = .ok now') :
    Transfer.Coincide start now now' (ns.flatMap Waypoint.transfers)
      ((Waypoint.propagateList table ns).flatMap Waypoint.transfers) := by
  -- The table stands for all statements passed so far, so it tracks the present values.
  induction ns generalizing table now with
  | nil =>
    cases hexec
    exact .nil start _
  | cons n ns ih =>
    obtain ⟨hn, hrest⟩ := List.forall_mem_cons.1 hns
    obtain ⟨u, hu, hlater⟩ := Except.bind_eq_ok hexec
    cases n with
    | head =>
      cases hu
      exact ih h hrest hlater
    | suspend id =>
      cases hu
      exact ih h hrest hlater
    | block ss =>
      rw [Waypoint.exec] at hu
      split at hu
      · next hss =>
        cases hu
        obtain ⟨ws, _, htracks, _⟩ := Stmt.propagateList_tracks h hstart hn hss
        exact (Stmt.propagateList_coincide h hstart hn hss).append (ih htracks hrest hlater)
      · cases hu
    | branch c taken =>
      obtain ⟨w, hw, hu⟩ := Except.bind_eq_ok hu
      cases hu
      rw [Valuation.eval_eq_ok] at hw
      obtain ⟨τ, ht⟩ := Option.isSome_iff_exists.1 hn
      have hw' := h.eval_reduce hstart ht hw
      exact (Transfer.Coincide.single (Transfer.eval_test hw) (Transfer.eval_test hw')).append
        (ih h hrest hlater)

/-- The propagated transfers of a path, all computed at its start, give what its own transfers give
one after the other. -/
theorem propagate_transfers {nodes : List Waypoint} {first last : Valuation}
    (hfirst : Env.Respects first.get? Γ) (hnodes : ∀ n ∈ nodes, Waypoint.Checks Γ n)
    (hexec : (Path.ofNodes nodes).exec first = .ok last) :
    ∃ us, Transfer.inOrder first (Path.ofNodes nodes).transfers = .ok us ∧
      (Path.ofNodes nodes).propagate.transfers.map (Transfer.eval first) = us.map .ok ∧
      last = first.insertAll (us.flatMap Transfer.writes) :=
  Waypoint.propagateList_coincide (.empty Γ first) hfirst hnodes hexec

/-- Statements that read what earlier ones have written, several targets and none, and a branch with
the edge that the values do not take. -/
def shuffledNodes : List Waypoint :=
  [.suspend 1,
    .block [.update "n" .add (.int 1), .assign ["x", "y"] (.binary .mul (.var "n") (.var "y"))],
    .branch (.binary .lt (.var "x") (.var "n")) false,
    .block [.assign ["n"] (.var "y"), .update "y" .sub (.var "x"), .expr (.var "z"),
      .assign [] (.var "n")],
    .branch (.unary .not (.var "b")) true,
    .suspend 2]

def shuffledValues : Valuation :=
  Table.empty.insertAll [("n", .int 2), ("y", .int 5), ("b", .bool true)]

def shuffledTypes : Typing := fun x => if x = "b" then .bool else .int

theorem propagate_transfers_shuffledNodes :
    ∃ last, (Path.ofNodes shuffledNodes).exec shuffledValues = .ok last ∧
      last.get? "n" = some (.int 15) ∧ last.get? "y" = some (.int 0) ∧
      ∃ us, Transfer.inOrder shuffledValues (Path.ofNodes shuffledNodes).transfers = .ok us ∧
        (Path.ofNodes shuffledNodes).propagate.transfers.map (Transfer.eval shuffledValues) =
          us.map .ok ∧
        last = shuffledValues.insertAll (us.flatMap Transfer.writes) := by
  have hvalues : Env.Respects shuffledValues.get? shuffledTypes := by
    apply Env.Respects.insertAll
    · intro x w hx
      cases hx
    · intro x w hx
      simp only [List.mem_cons, Prod.mk.injEq, List.not_mem_nil, or_false] at hx
      rcases hx with ⟨rfl, rfl⟩ | ⟨rfl, rfl⟩ | ⟨rfl, rfl⟩ <;> rfl
  have hnodes : ∀ n ∈ shuffledNodes, Waypoint.Checks shuffledTypes n := by
    simp [shuffledNodes, Waypoint.Checks, Stmt.Checks, Expr.type?, BinaryOp.type?, UnaryOp.type?,
      shuffledTypes]
  have heval : ((Path.ofNodes shuffledNodes).exec shuffledValues).toOption.map
      (fun last => (last.get? "n", last.get? "y")) = some (some (.int 15), some (.int 0)) := by
    decide +kernel
  obtain ⟨last, hlast, heval⟩ := Option.map_eq_some_iff.1 heval
  rw [Except.toOption_eq_some] at hlast
  obtain ⟨hn, hy⟩ := Prod.mk.inj heval
  exact ⟨last, hlast, hn, hy, propagate_transfers hvalues hnodes hlast⟩

end Clockwork
