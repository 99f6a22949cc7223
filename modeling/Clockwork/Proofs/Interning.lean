import Clockwork.Pool.Vars
import Clockwork.Proofs.Containers

namespace Clockwork
set_option autoImplicit true

theorem getElem?_addNew [DecidableEq α] {xs : List α} {x y : α} {i : Nat}
    (h : (addNew xs x)[i]? = some y) : xs[i]? = some y ∨ i = xs.length ∧ y = x := by
  unfold addNew at h
  split at h
  · exact .inl h
  · rw [List.getElem?_append] at h
    split at h
    · exact .inl h
    · obtain ⟨hi, hy⟩ := List.getElem?_eq_some_iff.1 h
      rw [List.length_singleton] at hi
      have hzero : i - xs.length = 0 := by omega
      simp only [hzero, List.getElem_cons_zero] at hy
      exact .inr ⟨by omega, hy.symm⟩

namespace Pool

/-- The expression that a reference stands for, read off the entries. -/
inductive Denotes (p : Pool) : ExprRef → Expr → Prop
  | var (h : p.get? r = some (.var x)) (hx : p.name? x = some s) : Denotes p r (.var s)
  | int (h : p.get? r = some (.int n)) : Denotes p r (.int n)
  | bool (h : p.get? r = some (.bool b)) : Denotes p r (.bool b)
  | unary (h : p.get? r = some (.unary op a)) (ha : Denotes p a x) : Denotes p r (.unary op x)
  | binary (h : p.get? r = some (.binary op a b)) (ha : Denotes p a x) (hb : Denotes p b y) :
    Denotes p r (.binary op x y)
  | ite (h : p.get? r = some (.ite c t e)) (hc : Denotes p c x) (ht : Denotes p t y)
    (he : Denotes p e z) : Denotes p r (.ite x y z)

/-- A well-formed pool in which every name and every entry of another one has kept its place. -/
structure Grows (p q : Pool) : Prop where
  wellFormed : q.WellFormed
  name? : ∀ x s, p.name? x = some s → q.name? x = some s
  get? : ∀ r e, p.get? r = some e → q.get? r = some e

variable {p q : Pool} {r a b c t e : ExprRef} {x y z : Expr}

theorem Grows.refl (hp : p.WellFormed) : p.Grows p :=
  ⟨hp, fun _ _ h => h, fun _ _ h => h⟩

theorem Grows.trans {p' : Pool} (h : p.Grows q) (h' : q.Grows p') : p.Grows p' :=
  ⟨h'.wellFormed, fun x s hx => h'.name? x s (h.name? x s hx),
    fun r e hr => h'.get? r e (h.get? r e hr)⟩

theorem wellFormed_empty : WellFormed empty where
  nodup_names := List.nodup_nil
  nodup_entries := List.nodup_nil
  operand_lt i e h := by cases h
  name_lt i r h := by cases h

theorem Denotes.mono (h : p.Denotes r x) (hpq : p.Grows q) : q.Denotes r x := by
  induction h with
  | var h hx => exact .var (hpq.get? _ _ h) (hpq.name? _ _ hx)
  | int h => exact .int (hpq.get? _ _ h)
  | bool h => exact .bool (hpq.get? _ _ h)
  | unary h _ iha => exact .unary (hpq.get? _ _ h) iha
  | binary h _ _ iha ihb => exact .binary (hpq.get? _ _ h) iha ihb
  | ite h _ _ _ ihc iht ihe => exact .ite (hpq.get? _ _ h) ihc iht ihe

theorem name?_injective (hp : p.WellFormed) {i j : NameRef} (hi : p.name? i = some s)
    (hj : p.name? j = some s) : i = j := by
  obtain ⟨hlt, _⟩ := List.getElem?_eq_some_iff.1 hi
  have hindex : i.index = j.index := (List.getElem?_inj hlt hp.nodup_names).1 (hi.trans hj.symm)
  cases i
  cases j
  cases hindex
  rfl

theorem get?_injective (hp : p.WellFormed) {i j : ExprRef} {e : Entry} (hi : p.get? i = some e)
    (hj : p.get? j = some e) : i = j := by
  obtain ⟨hlt, _⟩ := List.getElem?_eq_some_iff.1 hi
  have hindex : i.index = j.index := (List.getElem?_inj hlt hp.nodup_entries).1 (hi.trans hj.symm)
  cases i
  cases j
  cases hindex
  rfl

/-- Equal expressions have equal references. -/
theorem Denotes.injective (hp : p.WellFormed) (h : p.Denotes a x) (h' : p.Denotes b x) :
    a = b := by
  induction h generalizing b with
  | var h hx =>
    cases h' with
    | var h' hx' =>
      cases name?_injective hp hx hx'
      exact get?_injective hp h h'
  | int h =>
    cases h' with
    | int h' => exact get?_injective hp h h'
  | bool h =>
    cases h' with
    | bool h' => exact get?_injective hp h h'
  | unary h _ iha =>
    cases h' with
    | unary h' ha' =>
      cases iha ha'
      exact get?_injective hp h h'
  | binary h _ _ iha ihb =>
    cases h' with
    | binary h' ha' hb' =>
      cases iha ha'
      cases ihb hb'
      exact get?_injective hp h h'
  | ite h _ _ _ ihc iht ihe =>
    cases h' with
    | ite h' hc' ht' he' =>
      cases ihc hc'
      cases iht ht'
      cases ihe he'
      exact get?_injective hp h h'

theorem Denotes.lt (h : p.Denotes r x) : r.index < p.entries.length := by
  have hstored : ∃ e, p.get? r = some e := by
    cases h with
    | var h _ | int h | bool h | unary h _ | binary h _ _ | ite h _ _ _ => exact ⟨_, h⟩
  obtain ⟨e, he⟩ := hstored
  exact (List.getElem?_eq_some_iff.1 he).1

section Exprs

/-- Appends the expressions of entries to those of the entries before them. -/
def readOn (names : List String) (earlier : Array Expr) (entries : List Entry) : Array Expr :=
  entries.foldl (fun earlier e => earlier.push (entryExpr names earlier e)) earlier

theorem size_readOn (names : List String) (earlier : Array Expr) (entries : List Entry) :
    (readOn names earlier entries).size = earlier.size + entries.length := by
  induction entries generalizing earlier with
  | nil => rfl
  | cons e entries ih =>
    have hstep := ih (earlier.push (entryExpr names earlier e))
    rw [Array.size_push] at hstep
    rw [List.length_cons, readOn, List.foldl_cons]
    exact hstep.trans (by omega)

theorem getElem?_readOn {names : List String} {earlier : Array Expr} {entries : List Entry}
    {i : Nat} (h : i < earlier.size) : (readOn names earlier entries)[i]? = earlier[i]? := by
  induction entries generalizing earlier with
  | nil => rfl
  | cons e entries ih =>
    have hpush : i < (earlier.push (entryExpr names earlier e)).size := by
      rw [Array.size_push]
      omega
    rw [readOn, List.foldl_cons]
    exact (ih hpush).trans (by rw [Array.getElem?_push_lt h, Array.getElem?_eq_getElem h])

theorem entryExpr_congr {names : List String} {earlier later : Array Expr} {e : Entry}
    (h : ∀ r ∈ e.operands, earlier[r.index]? = later[r.index]?) :
    entryExpr names earlier e = entryExpr names later e := by
  cases e <;> simp_all [entryExpr, Entry.operands]

theorem size_exprs (p : Pool) : p.exprs.size = p.entries.length :=
  (size_readOn p.names #[] p.entries).trans (Nat.zero_add _)

theorem expr?_of_get? (hp : p.WellFormed) {e : Entry} (h : p.get? r = some e) :
    p.expr? r = some (entryExpr p.names p.exprs e) := by
  obtain ⟨hi, he⟩ := List.getElem?_eq_some_iff.1 h
  let before := readOn p.names #[] (p.entries.take r.index)
  have hbefore : before.size = r.index := by
    have hsize := size_readOn p.names #[] (p.entries.take r.index)
    rw [List.length_take, Nat.min_eq_left (Nat.le_of_lt hi)] at hsize
    exact hsize.trans (Nat.zero_add _)
  have hexprs : p.exprs = readOn p.names (before.push (entryExpr p.names before e))
      (p.entries.drop (r.index + 1)) := by
    have hsplit : p.entries = p.entries.take r.index ++ e :: p.entries.drop (r.index + 1) := by
      rw [← he, ← List.drop_eq_getElem_cons hi, List.take_append_drop]
    have hfold := congrArg (readOn p.names #[]) hsplit
    rw [readOn, readOn, List.foldl_append, List.foldl_cons] at hfold
    exact hfold
  have hlook {j : Nat} (hj : j ≤ r.index) :
      p.exprs[j]? = (before.push (entryExpr p.names before e))[j]? := by
    rw [hexprs]
    apply getElem?_readOn
    rw [Array.size_push]
    omega
  have hsame : entryExpr p.names before e = entryExpr p.names p.exprs e := by
    apply entryExpr_congr
    intro a ha
    have hlt := hp.operand_lt r.index e h a ha
    rw [hlook (Nat.le_of_lt hlt), Array.getElem?_push, hbefore, if_neg (Nat.ne_of_lt hlt)]
  rw [Pool.expr?, hlook (Nat.le_refl _), Array.getElem?_push, hbefore, if_pos rfl, hsame]

end Exprs

theorem Denotes.expr? (hp : p.WellFormed) (h : p.Denotes r x) : p.expr? r = some x := by
  induction h with
  | @var r i s h hi =>
    have hi' : p.names[i.index]? = some s := hi
    simp [expr?_of_get? hp h, entryExpr, hi']
  | int h => exact expr?_of_get? hp h
  | bool h => exact expr?_of_get? hp h
  | @unary r op a x h _ iha =>
    have ha : p.exprs[a.index]? = some x := iha
    simp [expr?_of_get? hp h, entryExpr, ha]
  | @binary r op a b x y h _ _ iha ihb =>
    have ha : p.exprs[a.index]? = some x := iha
    have hb : p.exprs[b.index]? = some y := ihb
    simp [expr?_of_get? hp h, entryExpr, ha, hb]
  | @ite r c t e x y z h _ _ _ ihc iht ihe =>
    have hc : p.exprs[c.index]? = some x := ihc
    have ht : p.exprs[t.index]? = some y := iht
    have he : p.exprs[e.index]? = some z := ihe
    simp [expr?_of_get? hp h, entryExpr, hc, ht, he]

/-- Every stored entry stands for an expression, by induction along the indices. -/
theorem exists_denotes (hp : p.WellFormed) (h : r.index < p.entries.length) :
    ∃ x, p.Denotes r x := by
  induction hi : r.index using Nat.strongRecOn generalizing r with
  | ind i ih =>
    have hget : p.get? r = some p.entries[r.index] := List.getElem?_eq_getElem h
    have hoperand (a : ExprRef) (ha : a ∈ p.entries[r.index].operands) : ∃ x, p.Denotes a x := by
      have hlt := hp.operand_lt _ _ hget a ha
      exact ih a.index (hi ▸ hlt) (Nat.lt_trans hlt h) rfl
    generalize p.entries[r.index] = e at hget hoperand
    cases e with
    | var i =>
      have hname := hp.name_lt _ _ hget
      exact ⟨_, .var hget (List.getElem?_eq_getElem hname)⟩
    | int n => exact ⟨_, .int hget⟩
    | bool b => exact ⟨_, .bool hget⟩
    | unary op a =>
      obtain ⟨x, hx⟩ := hoperand a (by simp [Entry.operands])
      exact ⟨_, .unary hget hx⟩
    | binary op a b =>
      obtain ⟨x, hx⟩ := hoperand a (by simp [Entry.operands])
      obtain ⟨y, hy⟩ := hoperand b (by simp [Entry.operands])
      exact ⟨_, .binary hget hx hy⟩
    | ite c t e =>
      obtain ⟨x, hx⟩ := hoperand c (by simp [Entry.operands])
      obtain ⟨y, hy⟩ := hoperand t (by simp [Entry.operands])
      obtain ⟨z, hz⟩ := hoperand e (by simp [Entry.operands])
      exact ⟨_, .ite hget hx hy hz⟩

theorem expr?_eq_some (hp : p.WellFormed) : p.expr? r = some x ↔ p.Denotes r x := by
  constructor
  · intro h
    obtain ⟨hlt, _⟩ := Array.getElem?_eq_some_iff.1 h
    obtain ⟨y, hy⟩ := exists_denotes hp (size_exprs p ▸ hlt)
    cases (hy.expr? hp).symm.trans h
    exact hy
  · exact Denotes.expr? hp

theorem Grows.expr? (hp : p.WellFormed) (h : p.Grows q) (hr : p.expr? r = some x) :
    q.expr? r = some x :=
  (((expr?_eq_some hp).1 hr).mono h).expr? h.wellFormed

/-- A computation keeps what is in the pool, and its result is right in the pool that it leaves. -/
structure Adds (f : StateM Pool α) (p : Pool) (R : Pool → α → Prop) : Prop where
  grows : p.Grows (f.run p).2
  result : R (f.run p).2 (f.run p).1

theorem Adds.of_run (h : Adds f p R) (hrun : f.run p = (v, q)) : q.WellFormed ∧ R q v := by
  have hgrows := h.grows
  have hresult := h.result
  rw [hrun] at hgrows hresult
  exact ⟨hgrows.wellFormed, hresult⟩

theorem Adds.pure (hp : p.WellFormed) (h : R p v) : Adds (pure v) p R :=
  ⟨.refl hp, h⟩

theorem Adds.bind {f : StateM Pool α} {g : α → StateM Pool β} (hf : Adds f p R)
    (hg : ∀ q v, p.Grows q → R q v → Adds (g v) q S) : Adds (f >>= g) p S := by
  have hnext := hg _ _ hf.grows hf.result
  exact ⟨hf.grows.trans hnext.grows, hnext.result⟩

theorem Adds.imp {f : StateM Pool α} (hf : Adds f p R) (h : ∀ q v, p.Grows q → R q v → S q v) :
    Adds f p S :=
  ⟨hf.grows, h _ _ hf.grows hf.result⟩

theorem adds_addName (hp : p.WellFormed) (s : String) :
    Adds (addName s) p fun q i => q.name? i = some s where
  grows := by
    refine ⟨⟨nodup_addNew hp.nodup_names, hp.nodup_entries, hp.operand_lt, ?_⟩,
      fun _ _ => name?_addName_of_eq_some, fun _ _ h => h⟩
    intro i x h
    have hx := List.getElem?_eq_getElem (hp.name_lt i x h)
    exact (List.getElem?_eq_some_iff.1 (getElem?_addNew_of_eq_some hx)).1
  result := name?_addName s p

/-- An entry can be added if its name and its operands are there. -/
theorem adds_add (hp : p.WellFormed) {e : Entry}
    (hoperands : ∀ a ∈ e.operands, a.index < p.entries.length)
    (hname : ∀ i, e = .var i → i.index < p.names.length) :
    Adds (add e) p fun q r => q.get? r = some e where
  grows := by
    refine ⟨⟨hp.nodup_names, nodup_addNew hp.nodup_entries, ?_, ?_⟩, fun _ _ h => h,
      fun _ _ => get?_add_of_eq_some⟩
    · intro i e' h
      rcases getElem?_addNew h with h | ⟨rfl, rfl⟩
      · exact hp.operand_lt i e' h
      · exact hoperands
    · intro i x h
      rcases getElem?_addNew h with h | ⟨_, rfl⟩
      · exact hp.name_lt i x h
      · exact hname x rfl
  result := get?_add e p

theorem adds_int (hp : p.WellFormed) (n : Int64) :
    Adds (add (.int n)) p fun q r => q.Denotes r (.int n) :=
  (adds_add hp (by simp [Entry.operands]) (by simp)).imp fun _ _ _ h => .int h

theorem adds_bool (hp : p.WellFormed) (b : Bool) :
    Adds (add (.bool b)) p fun q r => q.Denotes r (.bool b) :=
  (adds_add hp (by simp [Entry.operands]) (by simp)).imp fun _ _ _ h => .bool h

theorem adds_value (hp : p.WellFormed) (v : Value) :
    Adds (addValue v) p fun q r => q.Denotes r (.ofValue v) := by
  cases v with
  | int n => exact adds_int hp n
  | bool b => exact adds_bool hp b

theorem adds_nameVar (hp : p.WellFormed) {i : NameRef} (hi : p.name? i = some s) :
    Adds (add (.var i)) p fun q r => q.Denotes r (.var s) := by
  have hlt : ∀ j, Entry.var i = .var j → j.index < p.names.length := by
    intro j hj
    cases hj
    exact (List.getElem?_eq_some_iff.1 hi).1
  exact (adds_add hp (by simp [Entry.operands]) hlt).imp fun q _ hq h => .var h (hq.name? _ _ hi)

theorem adds_unary (hp : p.WellFormed) (ha : p.Denotes a x) (op : UnaryOp) :
    Adds (add (.unary op a)) p fun q r => q.Denotes r (.unary op x) :=
  (adds_add hp (by simpa [Entry.operands] using ha.lt) (by simp)).imp
    fun _ _ hq h => .unary h (ha.mono hq)

theorem adds_binary (hp : p.WellFormed) (ha : p.Denotes a x) (hb : p.Denotes b y)
    (op : BinaryOp) :
    Adds (add (.binary op a b)) p fun q r => q.Denotes r (.binary op x y) :=
  (adds_add hp (by simpa [Entry.operands] using ⟨ha.lt, hb.lt⟩) (by simp)).imp
    fun _ _ hq h => .binary h (ha.mono hq) (hb.mono hq)

theorem adds_ite (hp : p.WellFormed) (hc : p.Denotes c x) (ht : p.Denotes t y)
    (he : p.Denotes e z) : Adds (add (.ite c t e)) p fun q r => q.Denotes r (.ite x y z) :=
  (adds_add hp (by simpa [Entry.operands] using ⟨hc.lt, ht.lt, he.lt⟩) (by simp)).imp
    fun _ _ hq h => .ite h (hc.mono hq) (ht.mono hq) (he.mono hq)

theorem adds_addVar (hp : p.WellFormed) (s : String) :
    Adds (addVar s) p fun q r => q.Denotes r (.var s) :=
  (adds_addName hp s).bind fun _ _ hq hi => adds_nameVar hq.wellFormed hi

/-- Adding an expression gives a reference to it. -/
theorem adds_addExpr (hp : p.WellFormed) (x : Expr) :
    Adds (addExpr x) p fun q r => q.Denotes r x := by
  induction x generalizing p with
  | var s => exact adds_addVar hp s
  | int n => exact adds_int hp n
  | bool b => exact adds_bool hp b
  | unary op x ih => exact (ih hp).bind fun q a hq ha => adds_unary hq.wellFormed ha op
  | binary op x y ihx ihy =>
    apply (ihx hp).bind
    intro q a hq ha
    apply (ihy hq.wellFormed).bind
    intro q' b hq' hb
    exact adds_binary hq'.wellFormed (ha.mono hq') hb op
  | ite x y z ihx ihy ihz =>
    apply (ihx hp).bind
    intro q c hq hc
    apply (ihy hq.wellFormed).bind
    intro q' t hq' ht
    apply (ihz hq'.wellFormed).bind
    intro q'' e hq'' he
    exact adds_ite hq''.wellFormed ((hc.mono hq').mono hq'') (ht.mono hq'') he

theorem adds_addExprs (hp : p.WellFormed) (xs : List Expr) :
    Adds (xs.mapM addExpr) p fun q rs => rs.map q.expr? = xs.map some := by
  induction xs generalizing p with
  | nil => exact .pure hp rfl
  | cons x xs ih =>
    rw [List.mapM_cons]
    apply (adds_addExpr hp x).bind
    intro q r hq hr
    apply (ih hq.wellFormed).bind
    intro q' rs hq' hrs
    have hr' := (hr.mono hq').expr? hq'.wellFormed
    exact .pure hq'.wellFormed (by rw [List.map_cons, hr', hrs, List.map_cons])

theorem adds_addNames (hp : p.WellFormed) (xs : List String) :
    Adds (addNames xs) p fun q is => is.map q.name? = xs.map some := by
  induction xs generalizing p with
  | nil => exact .pure hp rfl
  | cons s xs ih =>
    rw [addNames, List.mapM_cons]
    apply (adds_addName hp s).bind
    intro q i hq hi
    apply (ih hq.wellFormed).bind
    intro q' is hq' his
    exact .pure hq'.wellFormed (by rw [List.map_cons, hq'.name? _ _ hi, his, List.map_cons])

end Pool

end Clockwork
