import Clockwork.Proofs.Enumeration
import Clockwork.Proofs.Execution
import Clockwork.Proofs.Routes

namespace Clockwork
set_option autoImplicit true

/-- An agenda is executed up to its next suspension on the values at the start: what it tests and
what it stores are the expressions that are left of its own once the table is known. -/
inductive Agenda.Traces (v : Valuation) :
    Substitution → Valuation → Agenda → Valuation × Nat × Agenda → Prop
  | suspend : Traces v table now ((k, .suspend) :: rest) (now, k + 1, rest)
  | register (h : Traces v table now rest out) : Traces v table now ((k, .register x w) :: rest) out
  | straight (hs : s.isStraight) (hws : v.writes [(s.propagate table).1] = .ok ws)
    (h : Traces v (s.propagate table).2 (now.insertAll ws) rest out) :
    Traces v table now ((k, s) :: rest) out
  | branch (hw : (c.reduce table).eval v.get? = some w)
    (h : Traces v table now
      (if w.truth then of k ts ++ rest else of (k + Stmt.listSuspensions ts) es ++ rest) out) :
    Traces v table now ((k, .branch c ts es) :: rest) out
  | loop (hw : (c.reduce table).eval v.get? = some w)
    (h : Traces v table now
      (if w.truth then of k body ++ (k, .loop c body) :: rest else rest) out) :
    Traces v table now ((k, .loop c body) :: rest) out

variable {g : Graph} {v now now' : Valuation} {id : Nat}

namespace Waypoint.Leads

theorem last_of_cons {n : Waypoint} (h : Leads v table now now' id (n :: route))
    (hn : n ≠ .suspend id) : route.getLast? = some (.suspend id) := by
  have hlast := h.last
  cases route with
  | nil =>
    cases hlast
    exact (hn rfl).elim
  | cons m route => exact hlast

theorem of_emptyBlock (h : Leads v table now now' id (.block [] :: route)) :
    Leads v table now now' id route where
  isOpen := h.isOpen
  effects := h.effects
  last := h.last_of_cons fun he => by cases he

theorem of_block (h : Leads v table now now' id (.block (s :: ss) :: route)) :
    ∃ ws, v.writes [(s.propagate table).1] = .ok ws ∧
      Leads v (s.propagate table).2 (now.insertAll ws) now' id (.block ss :: route) := by
  obtain ⟨us, hus, rfl⟩ := h.effects
  have hsplit : Waypoint.effects table (.block (s :: ss) :: route) =
      [(s.propagate table).1] ++ Waypoint.effects (s.propagate table).2 (.block ss :: route) := rfl
  rw [hsplit] at hus
  obtain ⟨ws, rest, hws, hrest, rfl⟩ := Valuation.writes_append_eq_ok.1 hus
  refine ⟨ws, hws, h.isOpen, ⟨rest, hrest, Table.insertAll_append now ws rest⟩, ?_⟩
  exact getLast?_cons_of_eq_some (h.last_of_cons fun he => by cases he) _

theorem of_branch {taken : Bool} (h : Leads v table now now' id (.branch c taken :: route)) :
    ∃ w, (c.reduce table).eval v.get? = some w ∧ w.truth = taken ∧
      Leads v table now now' id route := by
  have hopen := h.isOpen
  have hfolded := Expr.folded_reduce table c
  rw [guards_branch] at hopen
  cases hw : (c.reduce table).eval v.get? with
  | none =>
    rw [Valuation.holdAll_guardOf_of_none hfolded hw] at hopen
    cases hopen
  | some w =>
    rw [Valuation.holdAll_guardOf_of_some hfolded hw] at hopen
    split at hopen
    · next htruth =>
      exact ⟨w, rfl, eq_of_beq htruth, hopen, h.effects, h.last_of_cons fun he => by cases he⟩
    · cases hopen

theorem of_suspend {i : Nat} (h : Leads v table now now' id [.suspend i]) :
    i = id ∧ now' = now := by
  obtain ⟨ws, hws, rfl⟩ := h.effects
  have hlast := h.last
  cases hws
  cases hlast
  exact ⟨rfl, rfl⟩

end Waypoint.Leads

namespace Graph

theorem Route.cases (h : g.Route edge route) :
    (∃ i id next, edge = some i ∧ g.node? i = some (.suspend id next) ∧ route = [.suspend id]) ∨
      ∃ n next rest, g.Passes edge n next ∧ g.Route next rest ∧ route = n :: rest := by
  obtain ⟨ns, i, id, next, ht, hi, rfl⟩ := h
  cases ht with
  | nil => exact .inl ⟨i, id, next, rfl, hi, rfl⟩
  | cons hn ht => exact .inr ⟨_, _, _, hn, ⟨_, i, id, next, ht, hi, rfl⟩, rfl⟩

theorem Route.of_suspend (h : g.Route (some i) route)
    (hi : g.node? i = some (.suspend id next)) : route = [.suspend id] := by
  rcases h.cases with ⟨j, id', next', he, hj, rfl⟩ | ⟨n, next', rest, hn, _⟩
  · cases he
    cases hi.symm.trans hj
    rfl
  · cases hn.mem_ways hi

theorem Route.of_block (h : g.Route (some i) route) (hi : g.node? i = some (.block ss next)) :
    ∃ rest, g.Route next rest ∧ route = .block ss :: rest := by
  rcases h.cases with ⟨j, id, next', he, hj, _⟩ | ⟨n, next', rest, hn, hrest, rfl⟩
  · cases he
    cases hi.symm.trans hj
  · cases List.mem_singleton.1 (hn.mem_ways hi)
    exact ⟨rest, hrest, rfl⟩

theorem Route.of_branch (h : g.Route (some i) route) (hi : g.node? i = some (.branch c t f)) :
    ∃ taken rest, g.Route (if taken then t else f) rest ∧ route = .branch c taken :: rest := by
  rcases h.cases with ⟨j, id, next', he, hj, _⟩ | ⟨n, next', rest, hn, hrest, rfl⟩
  · cases he
    cases hi.symm.trans hj
  · rcases List.mem_cons.1 (hn.mem_ways hi) with he | hmem
    · cases he
      exact ⟨true, rest, hrest, rfl⟩
    · cases List.mem_singleton.1 hmem
      exact ⟨false, rest, hrest, rfl⟩

theorem not_route_none : ¬ g.Route none route := by
  intro h
  rcases h.cases with ⟨i, id, next, he, _⟩ | ⟨n, next, rest, hn, _⟩
  · cases he
  · cases hn

/-- The rest of a block and a route of `n` nodes behind it lead from one valuation to another. -/
def LeadsFrom (g : Graph) (v now' : Valuation) (id n : Nat) (p : Place) (table : Substitution)
    (now : Valuation) : Prop :=
  ∃ ss next route, g.node? p.block = some (.block ss next) ∧ g.Route next route ∧
    route.length = n ∧ Waypoint.Leads v table now now' id (.block (ss.drop p.offset) :: route)

theorem LeadsFrom.ends (h : g.LeadsFrom v now' id n p table now) (hp : g.Ends p edge) :
    ∃ route, g.Route edge route ∧ route.length = n ∧ Waypoint.Leads v table now now' id route := by
  obtain ⟨ss, next, route, hnode, hroute, hlength, hleads⟩ := h
  obtain ⟨ss', hnode', hoffset⟩ := hp
  rw [hnode] at hnode'
  cases hnode'
  rw [hoffset, List.drop_length] at hleads
  exact ⟨route, hroute, hlength, hleads.of_emptyBlock⟩

theorem LeadsFrom.has (h : g.LeadsFrom v now' id n p table now) (hp : g.Has p s) :
    ∃ ws, v.writes [(s.propagate table).1] = .ok ws ∧
      g.LeadsFrom v now' id n p.succ (s.propagate table).2 (now.insertAll ws) := by
  obtain ⟨ss, next, route, hnode, hroute, hlength, hleads⟩ := h
  obtain ⟨ss', next', hnode', hs⟩ := hp
  rw [hnode] at hnode'
  cases hnode'
  obtain ⟨hlt, rfl⟩ := List.getElem?_eq_some_iff.1 hs
  rw [List.drop_eq_getElem_cons hlt] at hleads
  obtain ⟨ws, hws, hrest⟩ := hleads.of_block
  exact ⟨ws, hws, ss, next, route, hnode, hroute, hlength, hrest⟩

theorem Route.leadsFrom (h : g.Route (some i) route) (hi : g.node? i = some (.block ss next))
    (hleads : Waypoint.Leads v table now now' id route) :
    ∃ n, n < route.length ∧ g.LeadsFrom v now' id n (.start i) table now := by
  obtain ⟨rest, hrest, rfl⟩ := h.of_block hi
  exact ⟨rest.length, Nat.lt_succ_self _, ss, next, rest, hi, hrest, rfl, hleads⟩

/-- The execution of an agenda comes to a suspension of the graph, and what is left of the agenda
waits there. -/
def Arrives (g : Graph) (v now' : Valuation) (id : Nat) (table : Substitution) (now : Valuation)
    (B : Agenda) : Prop :=
  ∃ i next B', g.node? i = some (.suspend id next) ∧ g.Waits i B' ∧
    B.Traces v table now (now', id, B')

theorem Arrives.imp (h : g.Arrives v now' id table now B)
    (htraces : ∀ out, B.Traces v table now out → A.Traces v table' now₁ out) :
    g.Arrives v now' id table' now₁ A := by
  obtain ⟨i, next, B', hi, hwaits, hB⟩ := h
  exact ⟨i, next, B', hi, hwaits, htraces _ hB⟩

/-- Whatever is left to do at a place, a route of `n` nodes behind the block traces it. -/
def Traced (g : Graph) (v now' : Valuation) (id n : Nat) : Prop :=
  ∀ p B table now, g.Continues p B → g.LeadsFrom v now' id n p table now →
    g.Arrives v now' id table now B

theorem Traced.enter (h : ∀ m, m < n → g.Traced v now' id m) (hle : route.length ≤ n)
    (hi : g.Continues (.start i) B) (hroute : g.Route (some i) route)
    (hleads : Waypoint.Leads v table now now' id route) : g.Arrives v now' id table now B := by
  obtain ⟨ss, next, hblock⟩ := hi.block
  obtain ⟨m, hlt, hfrom⟩ := hroute.leadsFrom hblock hleads
  exact h m (Nat.lt_of_lt_of_le hlt hle) _ B table now hi hfrom

/-- The condition of a statement decides which of two agendas is traced. -/
theorem Traced.choose (h : ∀ m, m < n → g.Traced v now' id m) (hp : g.Ends p (some b))
    (hb : g.node? b = some (.branch c (some t) (some f)))
    (ht : g.Continues (.start t) onTrue) (hf : g.Continues (.start f) onFalse)
    (hfrom : g.LeadsFrom v now' id n p table now) :
    ∃ w, (c.reduce table).eval v.get? = some w ∧
      g.Arrives v now' id table now (if w.truth then onTrue else onFalse) := by
  obtain ⟨route, hroute, hlength, hleads⟩ := hfrom.ends hp
  obtain ⟨taken, rest, hrest, rfl⟩ := hroute.of_branch hb
  obtain ⟨w, hw, rfl, hleads'⟩ := hleads.of_branch
  have hle : rest.length ≤ n := hlength ▸ Nat.le_succ _
  refine ⟨w, hw, ?_⟩
  cases htruth : w.truth with
  | true =>
    rw [htruth] at hrest
    exact Traced.enter h hle ht hrest hleads'
  | false =>
    rw [htruth] at hrest
    exact Traced.enter h hle hf hrest hleads'

theorem traced (g : Graph) (v now' : Valuation) (id n : Nat) : g.Traced v now' id n := by
  induction n using Nat.strongRecOn with
  | ind n ih =>
    intro p B table now hcontinues hfrom
    -- Statements of a block take nothing off the route: they have an induction of their own.
    induction hcontinues generalizing table now with
    | done hp =>
      obtain ⟨route, hroute, _⟩ := hfrom.ends hp
      exact (not_route_none hroute).elim
    | jump hp hi _ =>
      obtain ⟨route, hroute, hlength, hleads⟩ := hfrom.ends hp
      exact Traced.enter ih (Nat.le_of_eq hlength) hi hroute hleads
    | @stmt k s p q rest hs hrest ihrest =>
      cases hs with
      | register => exact (ihrest table now hfrom).imp fun _ => .register
      | straight hs hp =>
        obtain ⟨ws, hws, hfrom'⟩ := hfrom.has hp
        exact (ihrest _ _ hfrom').imp fun _ => .straight hs hws
      | suspend hp hi =>
        obtain ⟨route, hroute, _, hleads⟩ := hfrom.ends hp
        cases hroute.of_suspend hi
        obtain ⟨rfl, rfl⟩ := hleads.of_suspend
        exact ⟨_, _, rest, hi, ⟨_, by rw [hi]; rfl, hrest⟩, .suspend⟩
      | loop hp hb hbody hq =>
        have hagain := Continues.stmt (.loop hq hb hbody hq) hrest
        obtain ⟨w, hw, harrives⟩ := Traced.choose ih hp hb (.list hbody hagain) hrest hfrom
        exact harrives.imp fun _ => .loop hw
      | branch hp hb hts hq hes hq' =>
        obtain ⟨w, hw, harrives⟩ := Traced.choose ih hp hb (.list hts (.jump hq hrest))
          (.list hes (hrest.before hq')) hfrom
        exact harrives.imp fun _ => .branch hw

/-- An open route from where an agenda waits traces the agenda. -/
theorem Waits.arrives (h : g.Waits i B) (hroute : g.Route ((g.node? i).bind Node.next?) route)
    (hleads : Waypoint.Leads v table now now' id route) : g.Arrives v now' id table now B := by
  obtain ⟨j, hj, hcontinues⟩ := h
  rw [hj] at hroute
  exact Traced.enter (fun m _ => g.traced v now' id m) (Nat.le_refl _) hcontinues hroute hleads

end Graph

end Clockwork
