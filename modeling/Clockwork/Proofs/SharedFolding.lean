import Clockwork.Expr.Fold
import Clockwork.Pool.Fold
import Clockwork.Proofs.Interning

namespace Clockwork
set_option autoImplicit true

/-- The same expression over other operands. -/
def Expr.withChildren (x : Expr) (children : List Expr) : Expr :=
  match x, children with
  | .unary op _, [a] => .unary op a
  | .binary op _ _, [a, b] => .binary op a b
  | .ite _ _ _, [c, t, e] => .ite c t e
  | x, _ => x

theorem Expr.withChildren_children (x : Expr) : x.withChildren x.children = x := by
  cases x <;> rfl

theorem Expr.fold_eq_foldRoot (x : Expr) :
    x.fold = (x.withChildren (x.children.map Expr.fold)).foldRoot := by
  cases x <;> rfl

namespace Pool

variable {p q : Pool} {r a : ExprRef} {x y : Expr} {xs ys : List Expr} {ts : List ExprRef}
  {e : Entry}

theorem Adds.get {g : Pool → StateM Pool α} (h : Adds (g p) p R) : Adds (get >>= g) p R :=
  ⟨h.grows, h.result⟩

theorem Denotes.unique (hp : p.WellFormed) (h : p.Denotes r x) (h' : p.Denotes r y) : x = y :=
  Option.some.inj ((h.expr? hp).symm.trans (h'.expr? hp))

theorem Denotes.get? (h : p.Denotes r x) : ∃ e, p.get? r = some e :=
  ⟨_, List.getElem?_eq_getElem h.lt⟩

theorem Grows.map_expr? (hp : p.WellFormed) (h : p.Grows q) (hts : ts.map p.expr? = xs.map some) :
    ts.map q.expr? = xs.map some :=
  map_eq_map_of_imp (fun _ _ => h.expr? hp) hts

theorem Denotes.operands (hp : p.WellFormed) (h : p.Denotes r x) (hr : p.get? r = some e) :
    e.operands.map p.expr? = x.children.map some := by
  cases h with
  | var h _ | int h | bool h =>
    cases h.symm.trans hr
    rfl
  | unary h ha =>
    cases h.symm.trans hr
    simp [Entry.operands, Expr.children, ha.expr? hp]
  | binary h ha hb =>
    cases h.symm.trans hr
    simp [Entry.operands, Expr.children, ha.expr? hp, hb.expr? hp]
  | ite h hc ht he =>
    cases h.symm.trans hr
    simp [Entry.operands, Expr.children, hc.expr? hp, ht.expr? hp, he.expr? hp]

/-- A change of single expressions amounts to a function on expressions, in every pool that has
grown out of `p`. -/
def Implements (p : Pool) (change : Visitor Pool ExprRef) (f : Expr → Expr) : Prop :=
  ∀ q r e ts x, p.Grows q → q.Denotes r x → q.get? r = some e →
    ts.map q.expr? = (x.children.map f).map some →
      Adds (change r e ts) q fun q t => q.Denotes t (f x)

/-- The results so far are right. -/
def Renewal.Sound (f : Expr → Expr) (s : Renewal) : Prop :=
  ∀ r t, s.results.get? r = some t → ∃ x, s.pool.Denotes r x ∧ s.pool.Denotes t (f x)

/-- A renewal keeps what is in the pool and notes right results only. -/
structure Renews (f : Expr → Expr) (m : StateM Renewal α) (s : Renewal) (R : Pool → α → Prop) :
    Prop where
  grows : s.pool.Grows (m.run s).2.pool
  sound : (m.run s).2.Sound f
  result : R (m.run s).2.pool (m.run s).1

section Renewals

variable {f : Expr → Expr} {change : Visitor Pool ExprRef} {s : Renewal}

theorem Renews.bind {m : StateM Renewal α} {g : α → StateM Renewal β} (hm : Renews f m s R)
    (hg : ∀ s' v, s.pool.Grows s'.pool → s'.Sound f → R s'.pool v → Renews f (g v) s' S) :
    Renews f (m >>= g) s S := by
  have hnext := hg _ _ hm.grows hm.sound hm.result
  exact ⟨hm.grows.trans hnext.grows, hnext.sound, hnext.result⟩

theorem renews_note {m : StateM Pool ExprRef} (hs : s.Sound f) (hr : s.pool.Denotes r x)
    (hm : Adds m s.pool fun q t => q.Denotes t (f x)) :
    Renews f (Renewal.note r m) s fun q t => q.Denotes t (f x) where
  grows := hm.grows
  sound := by
    intro r' t' h
    have hget : (s.results.insert r (m.run s.pool).1).get? r' = some t' := h
    rw [Table.get?_insert] at hget
    split at hget
    · next hr' =>
      cases hget
      subst hr'
      exact ⟨x, hr.mono hm.grows, hm.result⟩
    · obtain ⟨x', hx', ht'⟩ := hs r' t' hget
      exact ⟨x', hx'.mono hm.grows, ht'.mono hm.grows⟩
  result := hm.result

/-- Renewing references one after the other renews each of them. -/
theorem renews_mapM {m : ExprRef → StateM Renewal ExprRef}
    (hm : ∀ a ∈ ts, ∀ s' x, p.Grows s'.pool → s'.Sound f → s'.pool.Denotes a x →
      Renews f (m a) s' fun q t => q.Denotes t (f x))
    (hp : p.Grows s.pool) (hs : s.Sound f) (hts : ts.map s.pool.expr? = xs.map some) :
    Renews f (ts.mapM m) s fun q us => us.map q.expr? = (xs.map f).map some := by
  induction ts generalizing s xs with
  | nil =>
    cases eq_nil_of_map_eq hts
    exact ⟨.refl hp.wellFormed, hs, rfl⟩
  | cons a ts ih =>
    obtain ⟨x, xs, rfl, ha, hts⟩ := eq_cons_of_map_eq hts
    obtain ⟨hhead, htail⟩ := List.forall_mem_cons.1 hm
    rw [List.mapM_cons]
    apply (hhead s x hp hs ((expr?_eq_some hp.wellFormed).1 ha)).bind
    intro s₁ t hs₁ hsound₁ ht
    apply (ih htail (hp.trans hs₁) hsound₁ (hs₁.map_expr? hp.wellFormed hts)).bind
    intro s₂ us hs₂ hsound₂ hus
    have hall : (t :: us).map s₂.pool.expr? = ((x :: xs).map f).map some := by
      rw [List.map_cons, (ht.mono hs₂).expr? hs₂.wellFormed, hus, List.map_cons, List.map_cons]
    exact ⟨.refl hs₂.wellFormed, hsound₂, hall⟩

theorem run_renewWithin_known (change : Visitor Pool ExprRef) (hknown : s.results.get? r = some t)
    (depth : Nat) : (renewWithin change (depth + 1) r).run s = (t, s) := by
  simp only [renewWithin, StateT.run_bind, StateT.run_get, pure_bind, hknown]
  rfl

theorem run_renewWithin_new (change : Visitor Pool ExprRef) (hknown : s.results.get? r = none)
    (he : s.pool.get? r = some e) (depth : Nat) :
    (renewWithin change (depth + 1) r).run s = (e.operands.mapM (renewWithin change depth) >>=
      fun ts => Renewal.note r (change r e ts)).run s := by
  simp only [renewWithin, StateT.run_bind, StateT.run_get, pure_bind, hknown, he]

/-- By induction on the depth: operands stand before the expressions that they belong to. -/
theorem renews_renewWithin (hchange : p.Implements change f) (depth : Nat)
    (hr : r.index < depth) (hp : p.Grows s.pool) (hs : s.Sound f) (hx : s.pool.Denotes r x) :
    Renews f (renewWithin change depth r) s fun q t => q.Denotes t (f x) := by
  induction depth generalizing r s x with
  | zero => exact absurd hr (Nat.not_lt_zero _)
  | succ depth ih =>
    cases hknown : s.results.get? r with
    | some t =>
      obtain ⟨x', hx', ht⟩ := hs r t hknown
      cases hx'.unique hp.wellFormed hx
      have hrun := run_renewWithin_known change hknown depth
      exact ⟨hrun ▸ .refl hp.wellFormed, hrun ▸ hs, hrun ▸ ht⟩
    | none =>
      obtain ⟨e, he⟩ := hx.get?
      have hrun := run_renewWithin_new change hknown he depth
      have hrenews : Renews f (e.operands.mapM (renewWithin change depth) >>=
          fun ts => Renewal.note r (change r e ts)) s fun q t => q.Denotes t (f x) := by
        apply (renews_mapM ?_ hp hs (hx.operands hp.wellFormed he)).bind
        · intro s' ts hs' hsound hts
          exact renews_note hsound (hx.mono hs')
            (hchange _ _ _ _ _ (hp.trans hs') (hx.mono hs') (hs'.get? _ _ he) hts)
        · intro a ha s' y hs' hsound hy
          have hlt := hp.wellFormed.operand_lt _ _ he a ha
          exact ih (Nat.lt_of_lt_of_le hlt (Nat.le_of_lt_succ hr)) hs' hsound hy
      exact ⟨hrun ▸ hrenews.grows, hrun ▸ hrenews.sound, hrun ▸ hrenews.result⟩

theorem adds_renew (hp : p.WellFormed) (hchange : p.Implements change f) (hx : p.Denotes r x) :
    Adds (renew change r) p fun q t => q.Denotes t (f x) := by
  have hempty : (Renewal.mk p .empty).Sound f := fun r t h => nomatch h
  have h := renews_renewWithin hchange (r.index + 1) (Nat.lt_succ_self _) (s := ⟨p, .empty⟩)
    (.refl hp) hempty hx
  exact ⟨h.grows, h.result⟩

end Renewals

theorem adds_rebuild (hp : p.WellFormed) (hx : p.Denotes r x) (he : p.get? r = some e)
    (hts : ts.map p.expr? = ys.map some) (hlength : ys.length = x.children.length) :
    Adds (rebuild r e ts) p fun q t => q.Denotes t (x.withChildren ys) := by
  unfold rebuild
  split
  · next hsame =>
    have hys : ys.map some = x.children.map some := by
      rw [← hts, ← hsame, hx.operands hp he]
    cases (List.map_inj_right fun _ _ => Option.some.inj).1 hys
    exact .pure hp (by rwa [Expr.withChildren_children])
  · next hchanged =>
    have hlength' : ts.length = ys.length := by
      simpa using congrArg List.length hts
    cases hx with
    | var h | int h | bool h =>
      cases h.symm.trans he
      exact absurd (List.eq_nil_of_length_eq_zero (hlength'.trans hlength)).symm hchanged
    | unary h =>
      cases h.symm.trans he
      match ys, ts, hts with
      | [y], [t], hts =>
        have ht := (List.cons.inj hts).1
        exact adds_unary hp ((expr?_eq_some hp).1 ht) _
    | binary h =>
      cases h.symm.trans he
      match ys, ts, hts with
      | [y, z], [t, u], hts =>
        obtain ⟨ht, hts⟩ := List.cons.inj hts
        have hu := (List.cons.inj hts).1
        exact adds_binary hp ((expr?_eq_some hp).1 ht) ((expr?_eq_some hp).1 hu) _
    | ite h =>
      cases h.symm.trans he
      match ys, ts, hts with
      | [y, z, w], [t, u, v], hts =>
        obtain ⟨ht, hts⟩ := List.cons.inj hts
        obtain ⟨hu, hts⟩ := List.cons.inj hts
        have hv := (List.cons.inj hts).1
        exact adds_ite hp ((expr?_eq_some hp).1 ht) ((expr?_eq_some hp).1 hu)
          ((expr?_eq_some hp).1 hv)

theorem name?_eq_iff (hp : p.WellFormed) {i j : NameRef} {s u : String} (hi : p.name? i = some s)
    (hj : p.name? j = some u) : j = i ↔ u = s := by
  constructor
  · intro hji
    subst hji
    exact Option.some.inj (hj.symm.trans hi)
  · intro hus
    subst hus
    exact name?_injective hp hj hi

/-- Entries of a table with shared names and expressions stand for others. -/
def EntriesDenote (p : Pool) (entries : List (NameRef × ExprRef))
    (knowns : List (String × Expr)) : Prop :=
  entries.map (fun entry => (p.name? entry.1, p.expr? entry.2)) =
    knowns.map fun known => (some known.1, some known.2)

/-- A table of shared expressions stands for a substitution, entry by entry. -/
def Tabulates (p : Pool) (table : Table NameRef ExprRef) (known : Substitution) : Prop :=
  p.EntriesDenote table.entries known.entries

theorem EntriesDenote.cons_inv {j : NameRef} {t : ExprRef} {entries : List (NameRef × ExprRef)}
    {knowns : List (String × Expr)} (h : p.EntriesDenote ((j, t) :: entries) knowns) :
    ∃ u y rest, knowns = (u, y) :: rest ∧ p.name? j = some u ∧ p.expr? t = some y ∧
      p.EntriesDenote entries rest := by
  obtain ⟨known, rest, hknowns, hhead, htail⟩ := eq_cons_of_map_eq h
  obtain ⟨hj, ht⟩ := Prod.mk.inj hhead
  exact ⟨known.1, known.2, rest, hknowns, hj, ht, htail⟩

theorem EntriesDenote.cons {j : NameRef} {t : ExprRef} {entries : List (NameRef × ExprRef)}
    {knowns : List (String × Expr)} (hj : p.name? j = some u) (ht : p.expr? t = some y)
    (h : p.EntriesDenote entries knowns) :
    p.EntriesDenote ((j, t) :: entries) ((u, y) :: knowns) := by
  rw [EntriesDenote, List.map_cons, hj, ht, List.map_cons]
  exact congrArg _ h

theorem EntriesDenote.entryOf? (hp : p.WellFormed) {entries : List (NameRef × ExprRef)}
    {knowns : List (String × Expr)} (h : p.EntriesDenote entries knowns)
    (hi : p.name? i = some s) :
    (entryOf? i entries).map p.expr? = (entryOf? s knowns).map some := by
  induction entries generalizing knowns with
  | nil =>
    cases eq_nil_of_map_eq h
    rfl
  | cons entry entries ih =>
    obtain ⟨u, y, rest, rfl, hj, ht, hrest⟩ := h.cons_inv
    have hkeys := name?_eq_iff hp hi hj
    by_cases hji : entry.1 = i
    · simp [Clockwork.entryOf?, hji, hkeys.1 hji, ht]
    · simp only [Clockwork.entryOf?, hji, mt hkeys.2 hji, if_false]
      exact ih hrest

theorem EntriesDenote.putEntry (hp : p.WellFormed) {entries : List (NameRef × ExprRef)}
    {knowns : List (String × Expr)} (h : p.EntriesDenote entries knowns)
    (hi : p.name? i = some s) (hr : p.expr? r = some x) :
    p.EntriesDenote (putEntry i r entries) (putEntry s x knowns) := by
  induction entries generalizing knowns with
  | nil =>
    cases eq_nil_of_map_eq h
    exact .cons hi hr rfl
  | cons entry entries ih =>
    obtain ⟨u, y, rest, rfl, hj, ht, hrest⟩ := h.cons_inv
    have hkeys := name?_eq_iff hp hi hj
    by_cases hji : entry.1 = i
    · simp only [Clockwork.putEntry, hji, hkeys.1 hji, if_true]
      exact .cons hi hr hrest
    · simp only [Clockwork.putEntry, hji, mt hkeys.2 hji, if_false]
      exact .cons hj ht (ih hrest)

section Tables

variable {table : Table NameRef ExprRef} {known : Substitution}

theorem tabulates_empty (p : Pool) : p.Tabulates .empty .empty := rfl

theorem Tabulates.mono (hp : p.WellFormed) (hpq : p.Grows q) (h : p.Tabulates table known) :
    q.Tabulates table known := by
  apply map_eq_map_of_imp _ h
  intro entry known hentry
  obtain ⟨hname, hexpr⟩ := Prod.mk.inj hentry
  rw [hpq.name? _ _ hname, hpq.expr? hp hexpr]

theorem Tabulates.get? (hp : p.WellFormed) (h : p.Tabulates table known)
    (hi : p.name? i = some s) : (table.get? i).map p.expr? = (known.get? s).map some :=
  EntriesDenote.entryOf? hp h hi

theorem Tabulates.get?_of_none (hp : p.WellFormed) (h : p.Tabulates table known)
    (hi : p.name? i = some s) (hnone : table.get? i = none) : known.get? s = none := by
  have hlook := h.get? hp hi
  rwa [hnone, Option.map_none, eq_comm, Option.map_eq_none_iff] at hlook

theorem Tabulates.get?_of_some (hp : p.WellFormed) (h : p.Tabulates table known)
    (hi : p.name? i = some s) (ha : table.get? i = some a) :
    ∃ y, known.get? s = some y ∧ p.expr? a = some y := by
  have hlook := h.get? hp hi
  rw [ha, Option.map_some, eq_comm, Option.map_eq_some_iff] at hlook
  obtain ⟨y, hy, hay⟩ := hlook
  exact ⟨y, hy, hay.symm⟩

theorem Tabulates.insert (hp : p.WellFormed) (h : p.Tabulates table known)
    (hi : p.name? i = some s) (hr : p.expr? r = some x) :
    p.Tabulates (table.insert i r) (known.insert s x) :=
  EntriesDenote.putEntry hp h hi hr

theorem implements_substituteAt (hp : p.WellFormed) (htable : p.Tabulates table known) :
    p.Implements (substituteAt table) (Expr.substitute known) := by
  intro q r e ts x hq hx he hts
  have hlength : (x.children.map (Expr.substitute known)).length = x.children.length :=
    List.length_map ..
  have hrebuild := adds_rebuild hq.wellFormed hx he hts hlength
  cases hx with
  | @var _ i s h hi =>
    cases h.symm.trans he
    cases ht : table.get? i with
    | none =>
      have hnone := (htable.mono hp hq).get?_of_none hq.wellFormed hi ht
      simp only [substituteAt, Expr.substitute, hnone, ht]
      exact .pure hq.wellFormed (.var h hi)
    | some t =>
      obtain ⟨y, hy, hty⟩ := (htable.mono hp hq).get?_of_some hq.wellFormed hi ht
      simp only [substituteAt, Expr.substitute, hy, ht]
      exact .pure hq.wellFormed ((expr?_eq_some hq.wellFormed).1 hty)
  | int h | bool h | unary h _ | binary h _ _ | ite h _ _ _ =>
    cases h.symm.trans he
    exact hrebuild

/-- Substituting in the pool gives the expression that substituting outside of it gives. -/
theorem adds_substitute (hp : p.WellFormed) (htable : p.Tabulates table known)
    (hx : p.Denotes r x) :
    Adds (substitute table r) p fun q t => q.Denotes t (x.substitute known) :=
  adds_renew hp (implements_substituteAt hp htable) hx

end Tables

theorem Denotes.literal? (h : p.Denotes r x) : p.literal? r = x.literal? := by
  cases h with
  | var h _ | int h | bool h | unary h _ | binary h _ _ | ite h _ _ _ =>
    simp [Pool.literal?, h, Entry.literal?, Expr.literal?]

theorem Denotes.truth? (h : p.Denotes r x) : p.truth? r = x.truth? := by
  rw [Pool.truth?, h.literal?, Expr.truth?]

/-- A result that is computed is added; otherwise the expression stays. -/
theorem adds_getD_value (hp : p.WellFormed) (hr : p.Denotes r x) (v? : Option Value) :
    Adds ((v?.map addValue).getD (return r)) p fun q t =>
      q.Denotes t ((v?.map Expr.ofValue).getD x) := by
  cases v? with
  | none => exact .pure hp hr
  | some v => exact adds_value hp v

theorem adds_decided (hp : p.WellFormed) (hr : p.Denotes r x) (ha : p.Denotes a y)
    (op : BinaryOp) (known : Bool) :
    Adds (decided r op known a) p fun q t => q.Denotes t ((op.decided? known y).getD x) := by
  cases op with
  | and =>
    cases known with
    | true => exact .pure hp ha
    | false => exact adds_bool hp false
  | or =>
    cases known with
    | true => exact adds_bool hp true
    | false => exact .pure hp ha
  | _ => exact .pure hp hr

theorem adds_foldRoot_unary (hp : p.WellFormed) (hr : p.Denotes r (.unary op x)) :
    Adds (foldRoot r) p fun q t => q.Denotes t (Expr.unary op x).foldRoot := by
  apply Adds.get
  cases hr with
  | @unary _ _ a _ h ha =>
    have hr := Denotes.unary h ha
    simp only [h, ha.literal?, Expr.foldRoot]
    cases x.literal? with
    | some v => exact adds_getD_value hp hr (op.apply v)
    | none =>
      cases op with
      | not =>
        cases ha with
        | @unary _ inner _ _ h' hb =>
          simp only [h']
          cases inner with
          | not => exact .pure hp hb
          | _ => exact .pure hp hr
        | var h' _ | int h' | bool h' | binary h' _ _ | ite h' _ _ _ =>
          simpa only [h'] using .pure hp hr
      | _ => exact .pure hp hr

theorem adds_foldRoot_binary (hp : p.WellFormed) (hr : p.Denotes r (.binary op x y)) :
    Adds (foldRoot r) p fun q t => q.Denotes t (Expr.binary op x y).foldRoot := by
  apply Adds.get
  cases hr with
  | binary h ha hb =>
    have hr := Denotes.binary h ha hb
    simp only [h, ha.literal?, hb.literal?, Expr.foldRoot]
    cases x.literal? with
    | none =>
      cases y.literal? with
      | none => exact .pure hp hr
      | some w => exact adds_decided hp hr ha op w.truth
    | some v =>
      cases y.literal? with
      | none => exact adds_decided hp hr hb op v.truth
      | some w => exact adds_getD_value hp hr (op.apply v w)

theorem adds_foldRoot_ite (hp : p.WellFormed) (hr : p.Denotes r (.ite x y z)) :
    Adds (foldRoot r) p fun q t => q.Denotes t (Expr.ite x y z).foldRoot := by
  apply Adds.get
  cases hr with
  | @ite _ c t e _ _ _ h hc ht he =>
    have harms : t = e ↔ y = z := by
      constructor
      · intro hte
        subst hte
        exact ht.unique hp he
      · intro hyz
        subst hyz
        exact ht.injective hp he
    simp only [h, hc.literal?, Expr.foldRoot, Expr.truth?]
    by_cases hyz : y = z
    · rw [if_pos (harms.2 hyz), if_pos hyz]
      exact .pure hp ht
    · rw [if_neg (mt harms.1 hyz), if_neg hyz]
      cases x.literal? with
      | none => exact .pure hp (.ite h hc ht he)
      | some v =>
        cases hv : v.truth with
        | true => exact .pure hp (by simpa [hv] using ht)
        | false => exact .pure hp (by simpa [hv] using he)

theorem adds_foldRoot (hp : p.WellFormed) (hr : p.Denotes r x) :
    Adds (foldRoot r) p fun q t => q.Denotes t x.foldRoot := by
  have hroot := hr
  cases hr with
  | var h _ | int h | bool h =>
    apply Adds.get
    simp only [h]
    exact .pure hp hroot
  | unary => exact adds_foldRoot_unary hp hroot
  | binary => exact adds_foldRoot_binary hp hroot
  | ite => exact adds_foldRoot_ite hp hroot

theorem implements_foldAt (p : Pool) : p.Implements foldAt Expr.fold := by
  intro q r e ts x hq hx he hts
  apply (adds_rebuild hq.wellFormed hx he hts (List.length_map ..)).bind
  intro q' t hq' ht
  rw [Expr.fold_eq_foldRoot]
  exact adds_foldRoot hq'.wellFormed ht

/-- Folding in the pool gives the expression that folding outside of it gives. -/
theorem adds_fold (hp : p.WellFormed) (hx : p.Denotes r x) :
    Adds (fold r) p fun q t => q.Denotes t x.fold :=
  adds_renew hp p.implements_foldAt hx

theorem adds_reduce (hp : p.WellFormed) (htable : p.Tabulates table known)
    (hx : p.Denotes r x) :
    Adds (reduce table r) p fun q t => q.Denotes t (x.reduce known) :=
  (adds_substitute hp htable hx).bind fun _ _ hq ht => adds_fold hq.wellFormed ht

end Pool

end Clockwork
