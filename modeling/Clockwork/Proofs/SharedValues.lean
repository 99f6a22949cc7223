import Clockwork.Proofs.DecidedBranches
import Clockwork.Proofs.SharedFolding

namespace Clockwork
set_option autoImplicit true

namespace Pool

variable {p q : Pool} {table : Table NameRef ExprRef} {known : Substitution} {r t : ExprRef}
  {x y : Expr} {env : Env}

/-- The value of a shared expression. -/
def eval (p : Pool) (env : Env) (r : ExprRef) : Option Value :=
  (p.expr? r).bind (Expr.eval env)

theorem Denotes.eval (hp : p.WellFormed) (h : p.Denotes r x) (env : Env) :
    p.eval env r = x.eval env := by
  rw [Pool.eval, h.expr? hp, Option.bind_some]

theorem eval_eq_some (hp : p.WellFormed) (h : p.eval env r = some v) :
    ∃ x, p.Denotes r x ∧ x.eval env = some v := by
  obtain ⟨x, hx, hv⟩ := Option.bind_eq_some_iff.1 h
  exact ⟨x, (expr?_eq_some hp).1 hx, hv⟩

theorem nameRef?_eq_some (hp : p.WellFormed) {i : NameRef} :
    p.nameRef? s = some i ↔ p.name? i = some s := by
  have hread {j : NameRef} (hj : p.nameRef? s = some j) : p.name? j = some s := by
    obtain ⟨n, hn, rfl⟩ := Option.map_eq_some_iff.1 hj
    obtain ⟨hlt, hs, _⟩ := List.idxOf?_eq_some_iff.1 hn
    exact List.getElem?_eq_some_iff.2 ⟨hlt, hs⟩
  constructor
  · exact hread
  · intro hi
    have hmem : s ∈ p.names := List.mem_of_getElem? hi
    cases hj : p.nameRef? s with
    | none => exact absurd hmem (List.idxOf?_eq_none_iff.1 (Option.map_eq_none_iff.1 hj))
    | some j => rw [name?_injective hp (hread hj) hi]

/-- The names and expressions of a table lie in the pool. -/
def Stores (p : Pool) (table : Table NameRef ExprRef) : Prop :=
  ∀ entry ∈ table.entries, entry.1.index < p.names.length ∧ entry.2.index < p.entries.length

instance (p : Pool) (table : Table NameRef ExprRef) : Decidable (p.Stores table) :=
  inferInstanceAs (Decidable (∀ entry ∈ table.entries,
    entry.1.index < p.names.length ∧ entry.2.index < p.entries.length))

theorem exists_tabulates (hp : p.WellFormed) (h : p.Stores table) :
    ∃ known, p.Tabulates table known := by
  let knowns := table.entries.map fun entry => ((p.name? entry.1).getD "", p.expr entry.2)
  have hname (entry : NameRef × ExprRef) (hmem : entry ∈ table.entries) :
      p.name? entry.1 = some ((p.name? entry.1).getD "") := by
    rw [Pool.name?, List.getElem?_eq_getElem (h entry hmem).1, Option.getD_some]
  have hexpr (entry : NameRef × ExprRef) (hmem : entry ∈ table.entries) :
      p.expr? entry.2 = some (p.expr entry.2) := by
    obtain ⟨x, hx⟩ := exists_denotes hp (h entry hmem).2
    rw [Pool.expr, hx.expr? hp, Option.getD_some]
  have hkeys : (knowns.map Prod.fst).Nodup := by
    rw [List.map_map, List.Nodup, List.pairwise_map]
    apply (List.pairwise_map.1 table.nodup_keys).imp_of_mem
    intro a b ha hb hne hsame
    have hsame' : (p.name? a.1).getD "" = (p.name? b.1).getD "" := hsame
    have hb' := hname b hb
    rw [← hsame'] at hb'
    exact hne (name?_injective hp (hname a ha) hb')
  refine ⟨⟨knowns, hkeys⟩, ?_⟩
  rw [Tabulates, EntriesDenote, List.map_map]
  apply List.map_congr_left
  intro entry hmem
  rw [hname entry hmem, hexpr entry hmem]
  rfl

theorem Tabulates.entry_of_known (hp : p.WellFormed) (h : p.Tabulates table known)
    (hs : known.get? s = some y) :
    ∃ i a, p.name? i = some s ∧ table.get? i = some a ∧ p.expr? a = some y := by
  have hmem : (some s, some y) ∈ known.entries.map fun known => (some known.1, some known.2) :=
    List.mem_map.2 ⟨(s, y), entryOf?_mem hs, rfl⟩
  rw [← h] at hmem
  obtain ⟨⟨i, a⟩, _, hentry⟩ := List.mem_map.1 hmem
  have hi := (Prod.mk.inj hentry).1
  cases ha : table.get? i with
  | none =>
    rw [h.get?_of_none hp hi ha] at hs
    cases hs
  | some b =>
    obtain ⟨z, hz, hb⟩ := h.get?_of_some hp hi ha
    cases hs.symm.trans hz
    exact ⟨i, b, hi, ha, hb⟩

theorem Tabulates.known_of_entry (hp : p.WellFormed) (h : p.Tabulates table known)
    (ha : table.get? i = some a) :
    ∃ s y, p.name? i = some s ∧ known.get? s = some y ∧ p.expr? a = some y := by
  have hmem : (p.name? i, p.expr? a) ∈
      table.entries.map fun entry => (p.name? entry.1, p.expr? entry.2) :=
    List.mem_map.2 ⟨(i, a), entryOf?_mem ha, rfl⟩
  rw [h] at hmem
  obtain ⟨⟨s, z⟩, _, hentry⟩ := List.mem_map.1 hmem
  have hi := (Prod.mk.inj hentry).1.symm
  obtain ⟨y, hy, hay⟩ := h.get?_of_some hp hi ha
  exact ⟨s, y, hi, hy, hay⟩

/-- The environment in which every name of a table has the value of its entry and every other name
keeps its own. -/
def rebind (p : Pool) (table : Table NameRef ExprRef) (env : Env) : Env := fun s =>
  match (p.nameRef? s).bind table.get? with
  | some a => p.eval env a
  | none => env s

theorem Tabulates.eval_var (hp : p.WellFormed) (h : p.Tabulates table known) (env : Env)
    (s : String) : ((Expr.var s).substitute known).eval env = p.rebind table env s := by
  rw [Expr.substitute, rebind]
  cases hi : p.nameRef? s with
  | none =>
    have hs : known.get? s = none := by
      rw [Option.eq_none_iff_forall_ne_some]
      intro y hy
      obtain ⟨i, _, hname, _⟩ := h.entry_of_known hp hy
      rw [(nameRef?_eq_some hp).2 hname] at hi
      cases hi
    rw [hs]
    rfl
  | some i =>
    have hname := (nameRef?_eq_some hp).1 hi
    rw [Option.bind_some]
    cases ha : table.get? i with
    | none =>
      rw [h.get?_of_none hp hname ha]
      rfl
    | some a =>
      obtain ⟨y, hy, hay⟩ := h.get?_of_some hp hname ha
      rw [hy, Option.getD_some]
      exact (((expr?_eq_some hp).1 hay).eval hp env).symm

theorem Tabulates.eval_substitute (hp : p.WellFormed) (h : p.Tabulates table known) (env : Env)
    (x : Expr) : (x.substitute known).eval env = x.eval (p.rebind table env) := by
  have hsame : (fun s => ((Expr.var s).substitute known).eval env) = p.rebind table env :=
    funext (h.eval_var hp env)
  rw [Expr.eval_substitute, hsame]

end Pool

open Pool

/-- A substituted expression has the value of the expression itself where the names of the table
have the values of their entries. -/
theorem substitute_rebinds {p q : Pool} {table : Table NameRef ExprRef} {r t : ExprRef} {x : Expr}
    (hp : p.WellFormed) (htable : p.Stores table) (hr : p.expr? r = some x)
    (hrun : (Pool.substitute table r).run p = (t, q)) :
    (∀ env, q.eval env t = p.eval (p.rebind table env) r) ∧
      ∀ known, p.Tabulates table known → q.expr? t = some (x.substitute known) := by
  have hx := (expr?_eq_some hp).1 hr
  constructor
  · intro env
    obtain ⟨known, hknown⟩ := exists_tabulates hp htable
    obtain ⟨hq, hdenotes⟩ := (adds_substitute hp hknown hx).of_run hrun
    rw [hdenotes.eval hq, hx.eval hp, hknown.eval_substitute hp]
  · intro known hknown
    obtain ⟨hq, hdenotes⟩ := (adds_substitute hp hknown hx).of_run hrun
    exact hdenotes.expr? hq

/-- `x + z` where `x` is below `y`, and `1 / z` elsewhere. -/
def orderedSum : Expr :=
  .ite (.binary .lt (.var "x") (.var "y")) (.binary .add (.var "x") (.var "z"))
    (.binary .div (.int 1) (.var "z"))

/-- The table exchanges `x` and `y` and sends `z` to `z + 1`. -/
theorem substitute_rebinds_orderedSum :
    let p := (([orderedSum, .binary .add (.var "z") (.int 1)].mapM addExpr).run .empty).2
    let table := Table.ofList [(⟨0⟩, ⟨1⟩), (⟨1⟩, ⟨0⟩), (⟨2⟩, ⟨8⟩)]
    let next : Expr := .binary .add (.var "z") (.int 1)
    let env := Env.ofList [("x", .int 1), ("y", .int 2), ("z", .int (-1))]
    ∃ t q, p.WellFormed ∧ p.Stores table ∧ p.expr? ⟨7⟩ = some orderedSum ∧
      (Pool.substitute table ⟨7⟩).run p = (t, q) ∧
      q.expr? t = some (.ite (.binary .lt (.var "y") (.var "x")) (.binary .add (.var "y") next)
        (.binary .div (.int 1) next)) ∧
      q.eval env t = none ∧ ∀ env, q.eval env t = p.eval (p.rebind table env) ⟨7⟩ := by
  intro p table next env
  have hp : p.WellFormed := (adds_addExprs wellFormed_empty _).grows.wellFormed
  have htable : p.Stores table := by decide +kernel
  have hr : p.expr? ⟨7⟩ = some orderedSum := by decide +kernel
  have hrebinds := (substitute_rebinds hp htable hr rfl).1
  exact ⟨_, _, hp, htable, hr, rfl, by decide +kernel, by decide +kernel, hrebinds⟩

/-- With the literal of every bound name at hand, an expression that has a value is reduced to the
literal of that value. -/
theorem reduce_evaluates {p q : Pool} {table : Table NameRef ExprRef} {r t : ExprRef} {env : Env}
    {v : Value} (hp : p.WellFormed) (htable : p.Stores table)
    (hliterals : ∀ s w, env s = some w →
      ∃ i a, p.name? i = some s ∧ table.get? i = some a ∧ p.literal? a = some w)
    (hv : p.eval env r = some v) (hrun : (Pool.reduce table r).run p = (t, q)) :
    q.expr? t = some (.ofValue v) := by
  obtain ⟨x, hx, hv⟩ := eval_eq_some hp hv
  obtain ⟨known, hknown⟩ := exists_tabulates hp htable
  have hvalues (s : String) (w : Value) (hs : env s = some w) :
      known.get? s = some (.ofValue w) := by
    obtain ⟨i, a, hi, ha, hw⟩ := hliterals s w hs
    obtain ⟨y, hy, hay⟩ := hknown.get?_of_some hp hi ha
    rw [((expr?_eq_some hp).1 hay).literal?] at hw
    rw [hy, Expr.eq_ofValue_of_literal? hw]
  obtain ⟨hq, hdenotes⟩ := (adds_reduce hp hknown hx).of_run hrun
  rw [hdenotes.expr? hq, Expr.reduce_of_eval hvalues hv]

/-- A number and a truth value in each other's place, with an arm that nothing defines. -/
def mixedExpr : Expr :=
  .ite (.binary .and (.var "x") (.var "b"))
    (.binary .shiftLeft (.binary .add (.var "b") (.var "x")) (.bool true))
    (.binary .div (.var "u") (.int 0))

theorem reduce_evaluates_mixedExpr :
    let p := (([mixedExpr, .int 4].mapM addExpr).run .empty).2
    let table := Table.ofList [(⟨0⟩, ⟨10⟩), (⟨1⟩, ⟨4⟩)]
    let env := Env.ofList [("x", .int 4), ("b", .bool true)]
    ∃ t q, p.WellFormed ∧ p.Stores table ∧ p.expr? ⟨9⟩ = some mixedExpr ∧
      p.eval env ⟨9⟩ = some (.int 10) ∧ (Pool.reduce table ⟨9⟩).run p = (t, q) ∧
      q.expr? t = some (.int 10) := by
  intro p table env
  have hp : p.WellFormed := (adds_addExprs wellFormed_empty _).grows.wellFormed
  have htable : p.Stores table := by decide +kernel
  have hv : p.eval env ⟨9⟩ = some (.int 10) := by decide +kernel
  have hliterals (s : String) (w : Value) (hs : env s = some w) :
      ∃ i a, p.name? i = some s ∧ table.get? i = some a ∧ p.literal? a = some w := by
    have hbound : s = "x" ∧ w = .int 4 ∨ s = "b" ∧ w = .bool true := by
      simp only [env, Env.ofList, List.lookup_cons, List.lookup_nil] at hs
      grind
    rcases hbound with ⟨rfl, rfl⟩ | ⟨rfl, rfl⟩
    · exact ⟨⟨0⟩, ⟨10⟩, by decide +kernel⟩
    · exact ⟨⟨1⟩, ⟨4⟩, by decide +kernel⟩
  exact ⟨_, _, hp, htable, by decide +kernel, hv, rfl,
    reduce_evaluates hp htable hliterals hv rfl⟩

end Clockwork
