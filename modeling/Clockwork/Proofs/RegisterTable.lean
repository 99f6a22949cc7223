import Clockwork.Proofs.Acceptance
import Clockwork.Proofs.BoundedWaits
import Clockwork.Proofs.Enumeration
import Clockwork.Proofs.Registers
import Mathlib.Algebra.Group.Nat.Defs
import Mathlib.Order.Bounds.Defs

/-!
The registers of a compiled machine, their order and their widths.
-/

namespace Clockwork
set_option autoImplicit true

theorem eraseDups_of_nodup [DecidableEq α] {xs : List α} (h : xs.Nodup) : xs.eraseDups = xs := by
  induction xs with
  | nil => rfl
  | cons x xs ih =>
    obtain ⟨hx, hxs⟩ := List.nodup_cons.1 h
    have hfilter : xs.filter (fun y => !y == x) = xs := by
      rw [List.filter_eq_self]
      intro y hy
      simpa using fun he : y = x => hx (he ▸ hy)
    rw [List.eraseDups_cons, hfilter, ih hxs]

namespace Table

variable [DecidableEq κ] (t : Table κ α)

theorem keys_insertIfNew (k : κ) (v : α) : (t.insertIfNew k v).keys = addNew t.keys k := by
  unfold insertIfNew
  split
  · next h => rw [addNew, if_pos ((t.contains_iff k).1 h)]
  · exact t.keys_insert k v

theorem keys_foldl_insertIfNew (entries : List (κ × α)) :
    (entries.foldl (fun t (k, v) => t.insertIfNew k v) t).keys =
      addAllNew t.keys (entries.map Prod.fst) := by
  induction entries generalizing t with
  | nil => rfl
  | cons entry entries ih =>
    rw [List.foldl_cons, ih, keys_insertIfNew, List.map_cons]
    rfl

theorem get?_insertIfNew (k j : κ) (v : α) :
    (t.insertIfNew k v).get? j = (t.get? j).or (entryOf? j [(k, v)]) := by
  by_cases hj : j = k
  · subst hj
    cases h : t.get? j with
    | none => simp [insertIfNew, contains, h, get?_insert, entryOf?]
    | some w => simp [insertIfNew, contains, h]
  · have hk : ¬ k = j := fun he => hj he.symm
    have hentry : entryOf? j [(k, v)] = none := by simp [entryOf?, hk]
    rw [hentry, Option.or_none, insertIfNew]
    split
    · rfl
    · rw [get?_insert, if_neg hj]

/-- The first of several declarations of a key wins. -/
theorem get?_foldl_insertIfNew (entries : List (κ × α)) (k : κ) :
    (entries.foldl (fun t (k, v) => t.insertIfNew k v) t).get? k =
      (t.get? k).or (entryOf? k entries) := by
  induction entries generalizing t with
  | nil => exact Option.or_none.symm
  | cons entry entries ih =>
    rw [List.foldl_cons, ih, get?_insertIfNew, Option.or_assoc, ← entryOf?_append]
    rfl

end Table

section Promotion

variable {p : ClockedProcess Expr} {ts : List (Transition Expr)}

theorem keys_promote (registers : Table String Nat) (x : String) :
    (promote p ts registers x).keys =
      if p.isPort x then registers.keys else addNew registers.keys x := by
  unfold promote
  by_cases hport : p.isPort x = true
  · simp [hport]
  · by_cases hx : registers.contains x = true
    · simp [hport, hx, addNew, (registers.contains_iff x).1 hx]
    · simp [hport, hx, Table.keys_insert]

theorem keys_promoteAll (read : List String) (registers : Table String Nat) :
    (read.foldl (promote p ts) registers).keys =
      addAllNew registers.keys (read.filter fun x => !p.isPort x) := by
  induction read generalizing registers with
  | nil => rfl
  | cons x read ih =>
    rw [List.foldl_cons, ih, keys_promote]
    by_cases hport : p.isPort x = true
    · simp [hport]
    · simp [hport, addAllNew]

theorem get?_promote (registers : Table String Nat) (x y : String) :
    (promote p ts registers x).get? y = (registers.get? y).or
      (if p.isPort y = false ∧ y = x then some (widthOf ts y) else none) := by
  unfold promote
  by_cases hy : y = x
  · subst hy
    cases hport : p.isPort y with
    | true => simp
    | false =>
      cases h : registers.get? y with
      | none => simp [Table.contains, h, Table.get?_insert]
      | some w => simp [Table.contains, h]
  · have hnone : ¬ (p.isPort y = false ∧ y = x) := fun h => hy h.2
    rw [if_neg hnone, Option.or_none]
    split
    · rfl
    · rw [Table.get?_insert, if_neg hy]

/-- A register keeps its width when variables are added, each with a width of its own. -/
theorem get?_promoteAll (read : List String) (registers : Table String Nat) (x : String) :
    (read.foldl (promote p ts) registers).get? x = (registers.get? x).or
      (if p.isPort x = false ∧ x ∈ read then some (widthOf ts x) else none) := by
  induction read generalizing registers with
  | nil => simp
  | cons y read ih =>
    rw [List.foldl_cons, ih, get?_promote, Option.or_assoc]
    congr 1
    by_cases hx : x = y
    · subst hx
      cases p.isPort x <;> simp
    · simp [hx]

end Promotion

theorem bitWidth_le_iff (n w : Nat) : bitWidth n ≤ w ↔ 0 < w ∧ n < 2 ^ w := by
  rw [bitWidth, Nat.add_one_le_iff]
  by_cases hn : n = 0
  · subst hn
    exact ⟨fun h => ⟨h, Nat.two_pow_pos w⟩, And.left⟩
  · rw [Nat.log2_lt hn]
    refine ⟨fun h => ⟨Nat.pos_of_ne_zero ?_, h⟩, And.right⟩
    rintro rfl
    omega

theorem foldl_max_le_iff (ns : List Nat) (a w : Nat) :
    ns.foldl max a ≤ w ↔ a ≤ w ∧ ∀ n ∈ ns, n ≤ w := by
  induction ns generalizing a with
  | nil => simp
  | cons n ns ih => rw [List.foldl_cons, ih, Nat.max_le, List.forall_mem_cons, and_assoc]

theorem Stmt.literalWidth?_eq_some {s : Stmt Expr} : s.literalWidth? x = some w ↔
    ∃ n : Int64, s = .assign [x] (.int n) ∧ 0 ≤ n.toInt ∧ w = bitWidth n.toInt.toNat := by
  unfold literalWidth?
  cases s with
  | assign xs v =>
    cases xs with
    | nil => simp [singleTarget?]
    | cons y ys =>
      cases ys with
      | cons => simp [singleTarget?]
      | nil =>
        cases v with
        | int n =>
          simp only [singleTarget?, Option.ite_none_right_eq_some, Option.some.injEq,
            assign.injEq, List.cons.injEq, and_true, Expr.int.injEq]
          rw [Int64.le_iff_toInt_le, Int64.toInt_zero]
          constructor
          · intro ⟨⟨hy, hn⟩, hw⟩
            exact ⟨n, ⟨hy, rfl⟩, hn, hw.symm⟩
          · intro ⟨m, ⟨hy, hm⟩, hn, hw⟩
            subst hm
            exact ⟨⟨hy, hn⟩, hw.symm⟩
        | _ => simp [singleTarget?]
  | _ => simp [singleTarget?]

/-- A width holds the literals that transitions assign to a variable. -/
def Fits (ts : List (Transition Expr)) (x : String) (w : Nat) : Prop :=
  ∀ t ∈ ts, ∀ (xs : List String) (n : Int64), .assign xs (.int n) ∈ t.effects → x ∈ xs →
    0 ≤ n.toInt → n.toInt.toNat < 2 ^ w

/-- Where every effect has one target at most, no literal is overlooked. -/
theorem widthOf_le_iff {ts : List (Transition Expr)}
    (hts : ∀ t ∈ ts, ∀ s ∈ t.effects, s.targets.length ≤ 1) (x : String) (w : Nat) :
    widthOf ts x ≤ w ↔ 0 < w ∧ Fits ts x w := by
  rw [widthOf, foldl_max_le_iff]
  constructor
  · rintro ⟨hw, hall⟩
    refine ⟨hw, fun t ht xs n hn hx hpos => ?_⟩
    have hsingle : xs = [x] := by
      obtain ⟨y, rfl⟩ := List.length_eq_one_iff.1
        (Nat.le_antisymm (hts t ht _ hn) (List.length_pos_of_mem hx))
      rw [List.mem_singleton.1 hx]
    subst hsingle
    have heffect := List.mem_flatMap.2 ⟨t, ht, hn⟩
    have hwidth : bitWidth n.toInt.toNat ∈
        (ts.flatMap Transition.effects).filterMap (Stmt.literalWidth? x) :=
      List.mem_filterMap.2 ⟨_, heffect, Stmt.literalWidth?_eq_some.2 ⟨n, rfl, hpos, rfl⟩⟩
    exact ((bitWidth_le_iff _ w).1 (hall _ hwidth)).2
  · rintro ⟨hw, hall⟩
    refine ⟨hw, fun width hwidth => ?_⟩
    obtain ⟨s, hs, hliteral⟩ := List.mem_filterMap.1 hwidth
    obtain ⟨n, rfl, hpos, rfl⟩ := Stmt.literalWidth?_eq_some.1 hliteral
    obtain ⟨t, ht, hn⟩ := List.mem_flatMap.1 hs
    exact (bitWidth_le_iff _ w).2 ⟨hw, hall t ht [x] n hn List.mem_cons_self hpos⟩

/-- The width of a variable is the least one that holds the literals. -/
theorem isLeast_widthOf {ts : List (Transition Expr)}
    (hts : ∀ t ∈ ts, ∀ s ∈ t.effects, s.targets.length ≤ 1) (x : String) :
    IsLeast {w | 0 < w ∧ Fits ts x w} (widthOf ts x) :=
  ⟨(widthOf_le_iff hts x _).1 (Nat.le_refl _), fun _ hw => (widthOf_le_iff hts x _).2 hw⟩

section Targets

variable {g : Graph} {test : Expr → Prop}

theorem Stmt.targets_propagate (table : Substitution) (s : Stmt Expr) :
    (s.propagate table).1.targets = s.targets := by
  cases s <;> rfl

theorem Stmt.map_targets_propagateList (table : Substitution) (ss : List (Stmt Expr)) :
    (propagateList table ss).1.map targets = ss.map targets := by
  induction ss generalizing table with
  | nil => rfl
  | cons s ss ih =>
    rw [propagateList, List.map_cons, List.map_cons, targets_propagate, ih]

theorem Stmt.not_misplaced_targets {s : Stmt Expr} (h : ∀ e, ¬ s.Misplaced e) :
    s.targets.length ≤ 1 := by
  cases s with
  | assign xs v =>
    have hone : xs.length = 1 := by
      by_contra hne
      exact h _ (.assign hne)
    exact Nat.le_of_eq hone
  | _ => simp [targets]

/-- No block of a graph has an assignment to several targets. -/
theorem Graph.wellBuilt_targets (h : Graph.ofBody body = .ok g) :
    g.WellBuilt (fun s => s.targets.length ≤ 1) fun _ => True := by
  obtain ⟨preamble, c, ss, registers, d, rfl, _, _, hd, rfl⟩ := ofBody_eq_ok h
  have hplaced := (Draft.judges_addStmt _ _).exists_ok_iff.1 ⟨d, hd⟩
  refine Draft.wellBuilt_addStmt _ (Stmt.everywhere_of_nested _ ?_ fun _ => trivial)
    (Draft.wellBuilt_start fun _ _ => ⟨.int 1, Nat.le_refl 1⟩) hd
  exact fun t ht => Stmt.not_misplaced_targets (hplaced t ht)

/-- What holds of the targets in a graph holds of those of the effects along its paths. -/
theorem Graph.WellBuilt.targets_effects {P : List String → Prop}
    (hg : g.WellBuilt (fun s => P s.targets) test) (h : g.suffixes depth edge = .ok routes) :
    ∀ route ∈ routes, ∀ table, ∀ s ∈ Waypoint.effects table route, P s.targets := by
  refine Graph.suffixes_induction (P := fun _ routes => ∀ route ∈ routes, ∀ table,
    ∀ s ∈ Waypoint.effects table route, P s.targets) ?_ ?_ ?_ h
  · intro i id next _ route hroute table s hs
    cases List.mem_singleton.1 hroute
    cases hs
  · intro i ss next rest hi ih route hroute table s hs
    obtain ⟨tail, htail, rfl⟩ := List.mem_map.1 hroute
    rw [Waypoint.effects_block, List.mem_append] at hs
    rcases hs with hs | hs
    · have hmem : s.targets ∈ ss.map Stmt.targets :=
        Stmt.map_targets_propagateList table ss ▸ List.mem_map_of_mem hs
      obtain ⟨u, hu, htargets⟩ := List.mem_map.1 hmem
      exact htargets ▸ hg.holds i _ hi u hu
    · exact ih tail htail _ s hs
  · intro i c t f onTrue onFalse _ htrue hfalse route hroute table s hs
    rcases List.mem_append.1 hroute with hroute | hroute
    · obtain ⟨tail, htail, rfl⟩ := List.mem_map.1 hroute
      exact htrue tail htail table s hs
    · obtain ⟨tail, htail, rfl⟩ := List.mem_map.1 hroute
      exact hfalse tail htail table s hs

theorem Machine.Realizes.targets_le {m : Machine Expr} (hm : m.Realizes g)
    (hg : g.WellBuilt (fun s => s.targets.length ≤ 1) test) :
    ∀ t ∈ m.transitions, ∀ s ∈ t.effects, s.targets.length ≤ 1 := by
  intro t ht s hs
  obtain ⟨depth, paths, hpaths, htransitions⟩ := hm.transitions
  rw [htransitions] at ht
  obtain ⟨path, hpath, rfl⟩ := List.mem_map.1 ht
  obtain ⟨start, i, routes, route, _, hroutes, hroute, rfl⟩ :=
    (Graph.mem_paths_iff hpaths).1 hpath
  have heffects := start.effects_transition m.stateVar route
  exact Graph.WellBuilt.targets_effects (P := fun xs => xs.length ≤ 1) hg hroutes route hroute
    .empty s (heffects ▸ hs)

end Targets

theorem Machine.Realizes.ids_le {m : Machine Expr} (hm : m.Realizes g) (ht : t ∈ m.transitions) :
    t.source ≤ m.suspensionCount ∧ t.target ≤ m.suspensionCount := by
  obtain ⟨depth, paths, hpaths, htransitions⟩ := hm.transitions
  rw [htransitions] at ht
  obtain ⟨path, hpath, rfl⟩ := List.mem_map.1 ht
  obtain ⟨s, i, routes, route, hs, hroutes, hroute, rfl⟩ := (Graph.mem_paths_iff hpaths).1 hpath
  obtain ⟨j, id, next, hj, hlast⟩ := Graph.suffixes_last hroutes route hroute
  have hsource : (s.transition m.stateVar route).source = s.stateId := by cases s <;> rfl
  have htarget := s.target_transition m.stateVar hlast
  rw [hm.count]
  exact ⟨hsource ▸ hm.built.stateId_le hs, htarget ▸ (hm.built.id_range j id next hj).2⟩

/-- The variables that guards read, in the order of the transitions and from left to right. -/
def Machine.guardVars (m : Machine Expr) : List String :=
  m.transitions.flatMap fun t => t.guards.flatMap Expr.vars

theorem Machine.keys_ofPaths (p : ClockedProcess Expr) (declared : List (String × Nat))
    (n : Nat) (y : String) (paths : List Path) :
    (Machine.ofPaths p declared n y paths).registers.keys =
      addAllNew (addAllNew [y] (declared.map Prod.fst))
        ((Machine.ofPaths p declared n y paths).guardVars.filter fun x => !p.isPort x) := by
  simp only [ofPaths, guardVars, keys_promoteAll, Table.keys_foldl_insertIfNew]
  rfl

theorem Machine.get?_ofPaths (p : ClockedProcess Expr) (declared : List (String × Nat))
    (n : Nat) (y : String) (paths : List Path) (x : String) :
    (Machine.ofPaths p declared n y paths).registers.get? x =
      (entryOf? x ((y, bitWidth n) :: declared)).or
        (if p.isPort x = false ∧ x ∈ (Machine.ofPaths p declared n y paths).guardVars then
          some (widthOf (Machine.ofPaths p declared n y paths).transitions x) else none) := by
  have hstate : (Table.empty.insert y (bitWidth n)).get? x = entryOf? x [(y, bitWidth n)] := rfl
  simp only [ofPaths, guardVars, get?_promoteAll, Table.get?_foldl_insertIfNew, hstate,
    ← entryOf?_append, List.singleton_append]
  rfl

theorem entryOf?_eq_some_of_first [DecidableEq κ] {k : κ} {v : α} {before after : List (κ × α)}
    (h : k ∉ before.map Prod.fst) : entryOf? k (before ++ (k, v) :: after) = some v := by
  rw [entryOf?_append, entryOf?_eq_none h, Option.none_or, entryOf?, if_pos rfl]

theorem entryOf?_eq_some_of_mem [DecidableEq κ] {k : κ} {v : α} {entries : List (κ × α)}
    (hnodup : (entries.map Prod.fst).Nodup) (h : (k, v) ∈ entries) :
    entryOf? k entries = some v := by
  obtain ⟨before, after, rfl⟩ := List.append_of_mem h
  apply entryOf?_eq_some_of_first
  intro hk
  rw [List.map_append, List.nodup_append] at hnodup
  exact hnodup.2.2 k hk k List.mem_cons_self rfl

/-- What is added to names that are distinct from each other and from those before is appended. -/
theorem addAllNew_of_disjoint [DecidableEq α] {xs ys : List α} (hnodup : ys.Nodup)
    (h : ∀ y ∈ ys, y ∉ xs) : addAllNew xs ys = xs ++ ys := by
  have hfilter : ys.filter (· ∉ xs) = ys := by
    rw [List.filter_eq_self]
    intro y hy
    simpa using h y hy
  rw [addAllNew_eq, hfilter, eraseDups_of_nodup hnodup]

/-- The registers before the ones that guards read: distinct names, in order of first mention. -/
theorem addAllNew_fixed [DecidableEq α] {y : α} {declared counters : List α} (hy : y ∉ declared)
    (hy' : y ∉ counters) (hnodup : counters.Nodup) (h : ∀ x ∈ counters, x ∉ declared) :
    addAllNew [y] (declared ++ counters) = y :: declared.eraseDups ++ counters := by
  have hfilter : declared.filter (· ∉ [y]) = declared := by
    rw [List.filter_eq_self]
    intro x hx
    simpa using fun he : x = y => hy (he ▸ hx)
  rw [addAllNew_append, addAllNew_eq [y], hfilter, List.singleton_append]
  apply addAllNew_of_disjoint hnodup
  intro x hx hmem
  rcases List.mem_cons.1 hmem with rfl | hmem
  · exact hy' hx
  · exact h x hx (List.mem_eraseDups.1 hmem)

section

variable {p : ClockedProcess Expr} {declared counters : List (String × Nat)} {n : Nat}
  {y : String} {paths : List Path}

theorem Machine.get?_stateVar : (Machine.ofPaths p declared n y paths).registers.get? y =
    some (bitWidth n) := by
  rw [get?_ofPaths, entryOf?, if_pos rfl, Option.some_or]

theorem Machine.get?_declared (hy : y ∉ declared.map Prod.fst)
    (hdeclared : declared = before ++ (x, width) :: after) (hx : x ∉ before.map Prod.fst) :
    (Machine.ofPaths p (declared ++ counters) n y paths).registers.get? x = some width := by
  subst hdeclared
  have hne : y ≠ x := by
    rintro rfl
    exact hy (List.mem_map_of_mem (List.mem_append_right _ List.mem_cons_self))
  rw [get?_ofPaths, entryOf?, if_neg hne, List.append_assoc, List.cons_append,
    entryOf?_eq_some_of_first hx, Option.some_or]

theorem Machine.get?_counter (hy : y ∉ counters.map Prod.fst)
    (hnodup : (counters.map Prod.fst).Nodup) (hx : (x, width) ∈ counters)
    (hdeclared : x ∉ declared.map Prod.fst) :
    (Machine.ofPaths p (declared ++ counters) n y paths).registers.get? x = some width := by
  have hne : y ≠ x := fun he => hy (he ▸ List.mem_map_of_mem hx)
  rw [get?_ofPaths, entryOf?, if_neg hne, entryOf?_append, entryOf?_eq_none hdeclared,
    Option.none_or, entryOf?_eq_some_of_mem hnodup hx, Option.some_or]

theorem Machine.get?_guardVar (hx : x ∈ (Machine.ofPaths p declared n y paths).guardVars)
    (hport : p.isPort x = false) (hne : x ≠ y) (hdeclared : x ∉ declared.map Prod.fst) :
    (Machine.ofPaths p declared n y paths).registers.get? x =
      some (widthOf (Machine.ofPaths p declared n y paths).transitions x) := by
  rw [get?_ofPaths, entryOf?, if_neg hne.symm, entryOf?_eq_none hdeclared, Option.none_or,
    if_pos ⟨hport, hx⟩]

end

/-- The declared registers and the counters of a process that is compiled. -/
theorem ClockedProcess.counters_distinct {p : ClockedProcess Expr}
    (h : p.expandWaits = .ok expansion) :
    (expansion.counters.map Prod.fst).Nodup ∧
      ∀ x ∈ expansion.counters.map Prod.fst, x ∉ (Stmt.declarations p.body).map Prod.fst := by
  obtain ⟨hnodup, hfree, _⟩ := p.expands h
  refine ⟨hnodup, fun x hx hdeclared => ?_⟩
  exact hfree x hx (mem_addAllNew.2 (.inr (Stmt.mem_names_of_declarations hdeclared)))

/-- A machine has the paths of the simplified flow of its process, and its first registers are the
declared ones and the counters. -/
theorem ClockedProcess.machine_of_compile {p : ClockedProcess Expr}
    (h : p.compile options = .ok m) :
    ∃ (f : Flow) (expansion : Expansion) (paths : List Path), p.flow = .ok f ∧
      p.expandWaits = .ok expansion ∧ m.Realizes (f.graph.simplify options.bypass) ∧
      (options.stateVar ∉ (Stmt.declarations p.body).map Prod.fst ∧
        options.stateVar ∉ expansion.counters.map Prod.fst) ∧
      m = .ofPaths p (Stmt.declarations p.body ++ expansion.counters)
        (f.graph.simplify options.bypass).suspensionCount options.stateVar paths := by
  obtain ⟨f, hflow, hrealizes⟩ := ClockedProcess.compile_realizes h
  obtain ⟨f', paths, hflow', hstate, _, hm⟩ := ClockedProcess.compile_eq_ok h
  cases hflow.symm.trans hflow'
  obtain ⟨expansion, hexpand, hgraph, hcounters⟩ := ClockedProcess.flow_eq_ok hflow
  obtain ⟨_, _, hexpands⟩ := p.expands hexpand
  have hregisters : f.registers = Stmt.declarations p.body ++ expansion.counters := by
    rw [Flow.registers, ← Graph.registers_ofBody hgraph, Stmt.declarations_of_expands hexpands,
      hcounters]
  have hsimplified : (f.simplify options.bypass).registers = f.registers :=
    congrArg (· ++ f.counters) (Graph.simplify_within options.bypass f.graph).registers
  rw [Flow.machine, hsimplified, hregisters] at hm
  rw [hregisters, List.map_append, List.mem_append, not_or] at hstate
  exact ⟨f, expansion, paths, hflow, hexpand, hrealizes, hstate, hm⟩

/-- The registers of a compiled machine in order, with their widths. A variable that becomes a
register has the least width for the literals assigned to it. -/
theorem compile_registerTable {p : ClockedProcess Expr} (h : p.compile options = .ok m) :
    ∃ expansion fixed, p.expandWaits = .ok expansion ∧ m.stateVar = options.stateVar ∧
      fixed = m.stateVar :: ((Stmt.declarations p.body).map Prod.fst).eraseDups ++
        expansion.counters.map Prod.fst ∧
      m.registers.keys = fixed ++
        (m.guardVars.filter fun x => decide (x ∉ fixed) && !p.isPort x).eraseDups ∧
      m.registers.keys.Nodup ∧
      (∃ width, m.registers.get? m.stateVar = some width ∧
        ∀ t ∈ m.transitions, t.source < 2 ^ width ∧ t.target < 2 ^ width) ∧
      (∀ x width before after, Stmt.declarations p.body = before ++ (x, width) :: after →
        x ∉ before.map Prod.fst → m.registers.get? x = some width) ∧
      (∀ x width, (x, width) ∈ expansion.counters → m.registers.get? x = some width) ∧
      ∀ x ∈ m.guardVars, p.isPort x = false → x ∉ fixed →
        ∃ width, m.registers.get? x = some width ∧
          IsLeast {w | 0 < w ∧ Fits m.transitions x w} width := by
  obtain ⟨flow, expansion, paths, hflow, hexpand, hrealizes, hstate, rfl⟩ := p.machine_of_compile h
  obtain ⟨hnodup, hdisjoint⟩ := p.counters_distinct hexpand
  obtain ⟨_, _, hgraph, _⟩ := ClockedProcess.flow_eq_ok hflow
  have htargets := hrealizes.targets_le ((Graph.wellBuilt_targets hgraph).within
    (Graph.simplify_within options.bypass flow.graph))
  refine ⟨expansion, _, hexpand, rfl, rfl, ?_, Table.nodup_keys _, ⟨_, Machine.get?_stateVar, ?_⟩,
    ?_, ?_, ?_⟩
  · rw [Machine.keys_ofPaths, List.map_append,
      addAllNew_fixed hstate.1 hstate.2 hnodup hdisjoint, addAllNew_eq, List.filter_filter]
    rfl
  · intro t ht
    obtain ⟨hsource, htarget⟩ := hrealizes.ids_le ht
    have hlt := ((bitWidth_le_iff (flow.simplify options.bypass).graph.suspensionCount _).1
      (Nat.le_refl _)).2
    exact ⟨Nat.lt_of_le_of_lt hsource hlt, Nat.lt_of_le_of_lt htarget hlt⟩
  · intro x width before after hdeclared hx
    exact Machine.get?_declared hstate.1 hdeclared hx
  · intro x width hx
    exact Machine.get?_counter hstate.2 hnodup hx (hdisjoint x (List.mem_map_of_mem hx))
  · intro x hx hport hfixed
    simp only [List.cons_append, List.mem_cons, List.mem_append, List.mem_eraseDups, not_or]
      at hfixed
    obtain ⟨hne, hdeclared, hcounters⟩ := hfixed
    refine ⟨_, Machine.get?_guardVar hx hport hne ?_, isLeast_widthOf htargets x⟩
    rw [List.map_append, List.mem_append, not_or]
    exact ⟨hdeclared, hcounters⟩

/-- A process that declares a register twice and keeps what it has decided over a clock edge. -/
def latchProcess : ClockedProcess Expr where
  name := "latch"
  ports := Table.empty.insert "a" .input
  body := [.register "r" (.int 3), .register "r" (.int 5), .loop (.bool true)
    [.branch (.var "a") [.assign ["t"] (.int 5)] [.assign ["t"] (.int 0)], .suspend,
      .branch (.var "t") [.wait (.int 3)] []]]

theorem compile_registerTable_latchProcess :
    ∃ m, latchProcess.compile .default = .ok m ∧
      m.registers.keys = ["yield_state", "r", "__repeat0", "t"] ∧ m.registers.keys.Nodup ∧
      m.registers.get? "r" = some 3 ∧ m.registers.get? "__repeat0" = some 2 ∧
      m.registers.get? "t" = some 3 ∧ IsLeast {w | 0 < w ∧ Fits m.transitions "t" w} 3 := by
  have hmachine : ((latchProcess.compile .default).toOption.map fun m =>
      (m.registers.keys, m.registers.get? "t", decide ("t" ∈ m.guardVars))) =
        some (["yield_state", "r", "__repeat0", "t"], some 3, true) := by
    decide +kernel
  have hcounters : latchProcess.expandWaits.toOption.map Expansion.counters =
      some [("__repeat0", 2)] := by
    decide +kernel
  obtain ⟨m, hm, hm'⟩ := Option.map_eq_some_iff.1 hmachine
  rw [Except.toOption_eq_some] at hm
  obtain ⟨hkeys, hwidth, hguard⟩ : _ ∧ _ ∧ _ := by simpa using hm'
  obtain ⟨expansion, fixed, hexpand, hstate, hfixed, _, hnodup, _, hdeclared, hcounted,
    hpromoted⟩ := compile_registerTable hm
  rw [hexpand, Except.toOption, Option.map_some, Option.some.injEq] at hcounters
  have hfree : "t" ∉ fixed := by
    rw [hfixed, hcounters, hstate]
    decide +kernel
  obtain ⟨width, hwidth', hleast⟩ := hpromoted "t" hguard (by decide) hfree
  cases hwidth.symm.trans hwidth'
  exact ⟨m, hm, hkeys, hnodup, hdeclared "r" 3 [] [("r", 5)] (by decide) List.not_mem_nil,
    hcounted "__repeat0" 2 (hcounters ▸ List.mem_cons_self), hwidth, hleast⟩

end Clockwork
