import Clockwork.Proofs.Construction
import Clockwork.Proofs.Guards
import Clockwork.Proofs.Runs

namespace Clockwork
set_option autoImplicit true

variable {g : Graph} {leaf : Stmt Expr → Prop} {test : Expr → Prop} {Γ : Typing}
  {v now now' : Valuation} {id : Nat}

theorem Stmt.execList_invariant {P : Valuation → Prop}
    (hstep : ∀ s v ws, leaf s → s.assignments v = .ok ws → P v → P (v.insertAll ws))
    (hss : ∀ s ∈ ss, leaf s) (hv : P v) : P (Stmt.execList v ss).1 := by
  induction ss generalizing v with
  | nil => exact hv
  | cons s ss ih =>
    rw [Stmt.execList]
    cases hs : s.assignments v with
    | error e => exact hv
    | ok ws =>
      apply ih fun t ht => hss t (List.mem_cons_of_mem _ ht)
      exact hstep s v ws (hss s List.mem_cons_self) hs hv

/-- A walk keeps what each statement of the graph keeps. -/
theorem Graph.WellBuilt.walk_invariant {P : Valuation → Prop} (hg : g.WellBuilt leaf test)
    (hstep : ∀ s v ws, leaf s → s.assignments v = .ok ws → P v → P (v.insertAll ws))
    (hv : P v) (budget : Nat) (edge : Option NodeId) : P (g.walk budget v edge).1 := by
  induction budget generalizing v edge with
  | zero => exact hv
  | succ budget ih =>
    cases edge with
    | none => exact hv
    | some i =>
      rw [walk_succ, visit]
      cases hi : g.node? i with
      | none => exact hv
      | some n =>
        cases n with
        | head next => exact ih hv _
        | suspend id next => exact hv
        | block ss next =>
          have hexec := Stmt.execList_invariant hstep (hg.holds i _ hi) hv
          simp only [Node.visit]
          cases hrun : Stmt.execList v ss with
          | mk u failure =>
            rw [hrun] at hexec
            cases failure with
            | none => exact ih hexec _
            | some e => exact hexec
        | branch c t f =>
          simp only [Node.visit]
          cases v.eval c with
          | error e => exact hv
          | ok w => exact ih hv _

theorem Env.Respects.insertAll (hv : Env.Respects v.get? Γ)
    (hws : ∀ x w, (x, w) ∈ ws → w.type = Γ x) :
    Env.Respects (v.insertAll ws).get? Γ := by
  intro x w hx
  rw [Table.get?_insertAll] at hx
  cases he : entryOf? x ws.reverse with
  | none =>
    rw [he] at hx
    exact hv x w hx
  | some a =>
    rw [he] at hx
    cases hx
    exact hws x w (List.mem_reverse.1 (entryOf?_mem he))

/-- Statements store values of the types of their targets. -/
theorem Stmt.Checks.respects {s : Stmt Expr} (hs : s.Checks Γ) (hws : s.assignments v = .ok ws)
    (hv : Env.Respects v.get? Γ) : Env.Respects (v.insertAll ws).get? Γ := by
  apply hv.insertAll
  intro x w hx
  rcases Stmt.assignments_eq_ok hws with
    ⟨xs, e, a, rfl, ha, rfl⟩ | ⟨y, op, e, a, rfl, ha, rfl⟩ | ⟨rfl, _⟩
  · obtain ⟨τ, ht, hxs⟩ := hs
    obtain ⟨y, hy, he⟩ := List.mem_map.1 hx
    cases he
    rw [hxs x hy]
    exact Expr.eval_type hv ht ha
  · cases List.mem_singleton.1 hx
    exact Expr.eval_type hv hs ha
  · cases hx

theorem Stmt.get?_assignments {s : Stmt Expr} (hs : x ∉ s.names) (hws : s.assignments v = .ok ws) :
    (v.insertAll ws).get? x = v.get? x := by
  apply Table.get?_insertAll_of_not_mem
  rcases Stmt.assignments_eq_ok hws with
    ⟨xs, e, a, rfl, _, rfl⟩ | ⟨y, op, e, a, rfl, _, rfl⟩ | ⟨rfl, _⟩
  · intro hx
    apply hs
    rw [Stmt.names, List.mem_append]
    rw [List.map_map] at hx
    obtain ⟨y, hy, rfl⟩ := List.mem_map.1 hx
    exact .inl hy
  · intro hx
    apply hs
    rw [Stmt.names, List.mem_singleton.1 hx]
    exact List.mem_cons_self
  · exact List.not_mem_nil

/-- Under the values at its start, the guards of a route hold and its effects are the assignments
that lead from one valuation to another. -/
structure Waypoint.Leads (v : Valuation) (table : Substitution) (now now' : Valuation) (id : Nat)
    (route : List Waypoint) : Prop where
  isOpen : v.holdAll (guards table route) = .ok true
  effects : ∃ ws, v.writes (effects table route) = .ok ws ∧ now' = now.insertAll ws
  last : route.getLast? = some (.suspend id)

theorem Waypoint.Leads.block
    (hws : v.writes (Stmt.propagateList table ss).1 = .ok ws)
    (h : Leads v (Stmt.propagateList table ss).2 (now.insertAll ws) now' id route) :
    Leads v table now now' id (.block ss :: route) where
  isOpen := by
    rw [guards_block]
    exact h.isOpen
  effects := by
    obtain ⟨us, hus, rfl⟩ := h.effects
    rw [effects_block]
    exact ⟨ws ++ us, Valuation.writes_append_eq_ok.2 ⟨ws, us, hws, hus, rfl⟩,
      (Table.insertAll_append now ws us).symm⟩
  last := getLast?_cons_of_eq_some h.last _

theorem Waypoint.Leads.branch (hw : (c.reduce table).eval v.get? = some w)
    (h : Leads v table now now' id route) :
    Leads v table now now' id (.branch c w.truth :: route) where
  isOpen := by
    rw [guards_branch, Valuation.holdAll_guardOf_of_some (Expr.folded_reduce table c) hw,
      if_pos (beq_self_eq_true _)]
    exact h.isOpen
  effects := by
    rw [effects_branch]
    exact h.effects
  last := getLast?_cons_of_eq_some h.last _

/-- Walking to a suspension takes one of the enumerated routes. -/
theorem Graph.WellBuilt.route_of_walk
    (hg : g.WellBuilt (Stmt.Checks Γ) fun c => (c.type? Γ).isSome) (hstart : Env.Respects v.get? Γ)
    (h : g.suffixes depth edge = .ok routes) (htracks : Substitution.Tracks table Γ v now)
    (hwalk : g.walk budget now edge = (now', .ok (j, id))) :
    ∃ route ∈ routes, Waypoint.Leads v table now now' id route := by
  refine suffixes_induction (P := fun edge routes => ∀ budget table now,
    Substitution.Tracks table Γ v now → g.walk budget now edge = (now', .ok (j, id)) →
    ∃ route ∈ routes, Waypoint.Leads v table now now' id route) ?_ ?_ ?_ h budget table now
    htracks hwalk
  · intro i id' next hi budget table now _ hwalk
    cases budget with
    | zero => cases hwalk
    | succ budget =>
      simp only [walk_succ, visit, hi, Node.visit] at hwalk
      cases hwalk
      exact ⟨[.suspend id], List.mem_cons_self, rfl, ⟨[], rfl, rfl⟩, rfl⟩
  · intro i ss next rest hi ih budget table now htracks hwalk
    cases budget with
    | zero => cases hwalk
    | succ budget =>
      simp only [walk_succ, visit, hi, Node.visit] at hwalk
      cases hexec : Stmt.execList now ss with
      | mk u failure =>
        rw [hexec] at hwalk
        cases failure with
        | some e => cases hwalk
        | none =>
          obtain ⟨ws, rfl, htracks', hws⟩ :=
            Stmt.propagateList_tracks htracks hstart (hg.holds i _ hi) hexec
          obtain ⟨route, hroute, hleads⟩ := ih budget _ _ htracks' hwalk
          exact ⟨.block ss :: route, List.mem_map_of_mem hroute, hleads.block hws⟩
  · intro i c t f onTrue onFalse hi htrue hfalse budget table now htracks hwalk
    cases budget with
    | zero => cases hwalk
    | succ budget =>
      simp only [walk_succ, visit, hi, Node.visit] at hwalk
      cases hc : now.eval c with
      | error e => rw [hc] at hwalk; cases hwalk
      | ok w =>
        obtain ⟨τ, hτ⟩ := Option.isSome_iff_exists.1 (hg.holds i _ hi)
        have hw := htracks.eval_reduce hstart hτ (Valuation.eval_eq_ok.1 hc)
        simp only [hc] at hwalk
        split at hwalk
        · next htruth =>
          obtain ⟨route, hroute, hleads⟩ := htrue budget table now htracks hwalk
          refine ⟨_, List.mem_append_left _ (List.mem_map_of_mem hroute), ?_⟩
          exact htruth ▸ hleads.branch hw
        · next htruth =>
          obtain ⟨route, hroute, hleads⟩ := hfalse budget table now htracks hwalk
          refine ⟨_, List.mem_append_right _ (List.mem_map_of_mem hroute), ?_⟩
          exact Bool.eq_false_iff.2 htruth ▸ hleads.branch hw

end Clockwork
