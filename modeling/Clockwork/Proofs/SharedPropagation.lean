import Clockwork.Pool.Propagation
import Clockwork.Proofs.Relabelling
import Clockwork.Proofs.SharedFolding

namespace Clockwork
set_option autoImplicit true

namespace Pool

variable {p q : Pool} {table : Table NameRef ExprRef} {known : Substitution} {r : ExprRef}
  {x : Expr}

theorem Tabulates.insertNames (hp : p.WellFormed) (h : p.Tabulates table known)
    {is : List NameRef} {xs : List String} (his : is.map p.name? = xs.map some)
    (hr : p.expr? r = some x) :
    p.Tabulates (is.foldl (fun table i => table.insert i r) table)
      (xs.foldl (fun known s => known.insert s x) known) := by
  induction is generalizing xs table known with
  | nil =>
    cases eq_nil_of_map_eq his
    exact h
  | cons i is ih =>
    obtain ⟨s, xs, rfl, hi, his⟩ := eq_cons_of_map_eq his
    exact ih (h.insert hp hi hr) his

theorem EntriesDenote.filter (hp : p.WellFormed) {entries : List (NameRef × ExprRef)}
    {knowns : List (String × Expr)} (h : p.EntriesDenote entries knowns) :
    p.EntriesDenote (entries.filter fun entry => (p.literal? entry.2).isSome)
      (knowns.filter fun known => known.2.literal?.isSome) := by
  induction entries generalizing knowns with
  | nil =>
    cases eq_nil_of_map_eq h
    rfl
  | cons entry entries ih =>
    obtain ⟨u, y, rest, rfl, hj, ht, hrest⟩ := h.cons_inv
    have hliteral := ((expr?_eq_some hp).1 ht).literal?
    simp only [List.filter_cons, hliteral]
    split
    · exact .cons hj ht (ih hrest)
    · exact ih hrest

theorem Tabulates.filterLiterals (hp : p.WellFormed) (h : p.Tabulates table known) :
    p.Tabulates (table.filterValues fun r => (p.literal? r).isSome)
      (known.filterValues fun e => e.literal?.isSome) :=
  EntriesDenote.filter hp h

theorem adds_propagate (hp : p.WellFormed) (htable : p.Tabulates table known) {s : Stmt ExprRef}
    {t : Stmt Expr} (hs : s.map p.expr? = t.map some) :
    Adds (propagate table s) p fun q result =>
      result.1.map q.expr? = (t.propagate known).1.map some ∧
        q.Tabulates result.2 (t.propagate known).2 := by
  cases Stmt.alike_of_map_eq hs with
  | @assign xs v y hv =>
    apply (adds_reduce hp htable ((expr?_eq_some hp).1 hv)).bind
    intro q w hq hw
    apply (adds_addNames hq.wellFormed xs).bind
    intro q' is hq' his
    have hw' := (hw.mono hq').expr? hq'.wellFormed
    refine .pure hq'.wellFormed ⟨?_, ?_⟩
    · simp only [Stmt.map, Stmt.propagate, hw']
    · exact (htable.mono hp (hq.trans hq')).insertNames hq'.wellFormed his hw'
  | @update s op v y hv =>
    apply (adds_addName hp s).bind
    intro q₁ i hq₁ hi
    apply (adds_nameVar hq₁.wellFormed hi).bind
    intro q₂ current hq₂ hcurrent
    have hv₂ := (((expr?_eq_some hp).1 hv).mono hq₁).mono hq₂
    apply (adds_binary hq₂.wellFormed hcurrent hv₂ op).bind
    intro q₃ sum hq₃ hsum
    have hgrows := (hq₁.trans hq₂).trans hq₃
    apply (adds_reduce hq₃.wellFormed (htable.mono hp hgrows) hsum).bind
    intro q₄ w hq₄ hw
    have hw' := hw.expr? hq₄.wellFormed
    refine .pure hq₄.wellFormed ⟨?_, ?_⟩
    · simp only [Stmt.map, Stmt.propagate, hw']
    · have hi₄ := ((hq₂.trans hq₃).trans hq₄).name? _ _ hi
      exact (htable.mono hp (hgrows.trans hq₄)).insert hq₄.wellFormed hi₄ hw'
  | expr hv =>
    apply (adds_reduce hp htable ((expr?_eq_some hp).1 hv)).bind
    intro q w hq hw
    refine .pure hq.wellFormed ⟨?_, htable.mono hp hq⟩
    simp only [Stmt.map, Stmt.propagate, hw.expr? hq.wellFormed]
  | _ => exact .pure hp ⟨hs, htable⟩

theorem adds_propagateList (hp : p.WellFormed) (htable : p.Tabulates table known)
    {ss : List (Stmt ExprRef)} {ts : List (Stmt Expr)}
    (hss : ss.map (Stmt.map p.expr?) = ts.map (Stmt.map some)) :
    Adds (propagateList table ss) p fun q result =>
      result.1.map (Stmt.map q.expr?) = (Stmt.propagateList known ts).1.map (Stmt.map some) ∧
        q.Tabulates result.2 (Stmt.propagateList known ts).2 := by
  induction ss generalizing p table known ts with
  | nil =>
    cases eq_nil_of_map_eq hss
    exact .pure hp ⟨rfl, htable⟩
  | cons s ss ih =>
    obtain ⟨t, ts, rfl, hs, hss⟩ := eq_cons_of_map_eq hss
    apply (adds_propagate hp htable hs).bind
    rintro q ⟨s', table'⟩ hq ⟨hs', htable'⟩
    have hss' := Stmt.map_list_eq_of_imp (fun _ _ => hq.expr? hp) hss
    apply (ih hq.wellFormed htable' hss').bind
    rintro q' ⟨ss', table''⟩ hq' ⟨hss'', htable''⟩
    refine .pure hq'.wellFormed ⟨?_, htable''⟩
    have hs'' := Stmt.map_eq_of_imp (fun _ _ => hq'.expr? hq.wellFormed) s' hs'
    simp only [Stmt.propagateList, List.map_cons, hs'', hss'']

theorem adds_knownLiterals (hp : p.WellFormed) {ss : List (Stmt ExprRef)} {ts : List (Stmt Expr)}
    (hss : ss.map (Stmt.map p.expr?) = ts.map (Stmt.map some)) :
    Adds (knownLiterals ss) p fun q table => q.Tabulates table (Clockwork.knownLiterals ts) := by
  apply (adds_propagateList hp (tabulates_empty p) hss).bind
  rintro q ⟨ss', table⟩ hq ⟨_, htable⟩
  apply Adds.get
  exact .pure hq.wellFormed (htable.filterLiterals hq.wellFormed)

theorem adds_propagateNodes (hp : p.WellFormed) (htable : p.Tabulates table known)
    {ns : List (Waypoint ExprRef)} {ms : List Waypoint}
    (hns : ns.map (Waypoint.map p.expr?) = ms.map (Waypoint.map some)) :
    Adds (propagateNodes table ns) p fun q ns =>
      ns.map (Waypoint.map q.expr?) =
        (Waypoint.propagateList known ms).map (Waypoint.map some) := by
  induction ns generalizing p table known ms with
  | nil =>
    cases eq_nil_of_map_eq hns
    exact .pure hp rfl
  | cons n ns ih =>
    obtain ⟨m, ms, rfl, hn, htail⟩ := eq_cons_of_map_eq hns
    have hrest {q : Pool} (hq : p.Grows q) :
        ns.map (Waypoint.map q.expr?) = ms.map (Waypoint.map some) :=
      map_eq_map_of_imp (fun _ _ => Waypoint.map_eq_of_imp fun _ _ => hq.expr? hp) htail
    cases Waypoint.alike_of_map_eq hn with
    | block hss =>
      apply (adds_propagateList hp htable hss).bind
      rintro q ⟨ss', table'⟩ hq ⟨hss', htable'⟩
      apply (ih hq.wellFormed htable' (hrest hq)).bind
      intro q' ns' hq' hns'
      apply Adds.pure hq'.wellFormed
      have hss'' := Stmt.map_list_eq_of_imp (fun _ _ => hq'.expr? hq.wellFormed) hss'
      simp only [Waypoint.propagateList, List.map_cons, Waypoint.map, hss'', hns']
    | branch hc =>
      apply (adds_reduce hp htable ((expr?_eq_some hp).1 hc)).bind
      intro q c' hq hc'
      apply (ih hq.wellFormed (htable.mono hp hq) (hrest hq)).bind
      intro q' ns' hq' hns'
      apply Adds.pure hq'.wellFormed
      have hc'' := (hc'.mono hq').expr? hq'.wellFormed
      simp only [Waypoint.propagateList, List.map_cons, Waypoint.map, hc'', hns']
    | head | suspend =>
      apply (ih hp htable htail).bind
      intro q ns' hq hns'
      apply Adds.pure hq.wellFormed
      simp only [Waypoint.propagateList, List.map_cons, Waypoint.map, hns']

/-- Propagating a path in the pool gives the path that propagating it outside gives. -/
theorem adds_propagatePath (hp : p.WellFormed) {path : Path ExprRef} {path' : Path}
    (hpath : path.map p.expr? = path'.map some) :
    Adds (propagatePath path) p fun q result => result.map q.expr? = path'.propagate.map some := by
  obtain ⟨hnodes, hpropagated⟩ := Path.mk.inj hpath
  unfold propagatePath Path.propagate
  rw [hpropagated]
  split
  · exact .pure hp hpath
  · apply (adds_propagateNodes hp (tabulates_empty p) hnodes).bind
    intro q nodes hq hnodes'
    exact .pure hq.wellFormed (by rw [Path.map, hnodes', Path.map])

end Pool

end Clockwork
