import Clockwork.Proofs.CanonicalRefs
import Clockwork.Proofs.SharedValues
import Clockwork.Proofs.Traversals

/-!
Evaluation, substitution and folding as traversals. A renewal changes an expression that occurs
again only once; it still gives the reference and the pool of the traversal that changes every
occurrence.
-/

namespace Clockwork
set_option autoImplicit true

namespace Pool

variable {p q : Pool} {r : ExprRef} {x : Expr} {e : Entry} {rs ts : List ExprRef}
  {change : Visitor Pool ExprRef} {f : Expr → Expr}

section Evaluation

/-- The value of an expression out of those of its operands. -/
def evaluateAt (p : Pool) (env : Env) : Visitor σ (Option Value) := fun _ e values =>
  return match e, values with
    | .var i, _ => (p.name? i).bind env
    | .int n, _ => some (.int n)
    | .bool b, _ => some (.bool b)
    | .unary op _, [a] => a.bind op.apply
    | .binary op _ _, [a, b] => a.bind fun x => b.bind fun y => op.apply x y
    | .ite _ _ _, [c, t, e] => c.bind fun v => if v.truth then t else e
    | _, _ => none

theorem run_evaluateAt (hr : p.Denotes r x) (he : p.get? r = some e) (env : Env) (s : σ) :
    (evaluateAt p env r e (x.children.map (Expr.eval env))).run s = (x.eval env, s) := by
  cases hr with
  | var h hi =>
    cases h.symm.trans he
    simp only [evaluateAt, hi]
    rfl
  | int h | bool h | unary h _ | binary h _ _ | ite h _ _ _ =>
    cases h.symm.trans he
    rfl

theorem Recurses.evaluates {s t : σ} {xs : List Expr} (hp : p.WellFormed)
    (h : Recurses (fun _ => p) (evaluateAt p env) s rs calls vs t)
    (hrs : rs.map p.expr? = xs.map some) : vs = xs.map (Expr.eval env) ∧ t = s := by
  induction h generalizing xs with
  | nil =>
    cases eq_nil_of_map_eq hrs
    exact ⟨rfl, rfl⟩
  | cons hget _ hcall _ ihoperands ihrest =>
    obtain ⟨x, xs, rfl, hr, hrs⟩ := eq_cons_of_map_eq hrs
    have hx := (expr?_eq_some hp).1 hr
    obtain ⟨rfl, rfl⟩ := ihoperands (hx.operands hp hget)
    rw [run_evaluateAt hx hget] at hcall
    cases hcall
    obtain ⟨rfl, rfl⟩ := ihrest hrs
    exact ⟨rfl, rfl⟩

/-- Evaluating in the pool is a traversal that changes nothing. -/
theorem survey?_evaluateAt (hp : p.WellFormed) (hr : p.Denotes r x) (env : Env) (s : σ) :
    (survey? p (evaluateAt p env) r).run s = (some (p.eval env r), s) := by
  obtain ⟨calls, v, t, hcompletes, hrun⟩ :=
    exists_completes (fun _ => p) (evaluateAt p env) s hp hr fun _ _ _ _ _ _ h => h
  have hrec := (hcompletes.recursion calls [v] t).2 ⟨rfl, rfl, rfl⟩
  have hread : [r].map p.expr? = [x].map some := by simp [hr.expr? hp]
  obtain ⟨hv, rfl⟩ := hrec.evaluates hp hread
  cases hv
  rw [hr.eval hp]
  exact hrun

end Evaluation

section Actions

/-- An action that gives a reference or adds one entry. -/
inductive Single : StateM Pool ExprRef → Prop
  | pure (r : ExprRef) : Single (pure r)
  | add (e : Entry) : Single (add e)

/-- Once an action has been done, doing it again gives the same result and adds nothing. -/
def Settles (m : StateM Pool α) (p : Pool) : Prop :=
  ∀ q, (m.run p).2.Grows q → m.run q = ((m.run p).1, q)

theorem Single.keptIn (h : Single m) (p : Pool) : p.KeptIn (m.run p).2 := by
  cases h with
  | pure => exact fun _ _ h => h
  | add => exact fun _ _ h => get?_add_of_eq_some h

theorem Single.settles (h : Single m) (p : Pool) : Settles m p := by
  intro q hq
  cases h with
  | pure => rfl
  | add e => exact run_add_eq hq.wellFormed (hq.get? _ _ (get?_add e p))

theorem Settles.bind {m : StateM Pool α} {g : α → StateM Pool β} (hm : Settles m p)
    (hg : Settles (g (m.run p).1) (m.run p).2)
    (hgrows : (m.run p).2.Grows ((m >>= g).run p).2) : Settles (m >>= g) p := by
  intro q hq
  rw [run_bind_eq (hm q (hgrows.trans hq))]
  exact hg q hq

theorem single_rebuild (r : ExprRef) (e : Entry) (ts : List ExprRef) : Single (rebuild r e ts) := by
  unfold rebuild
  split
  · exact .pure r
  · exact .add _

theorem single_substituteAt (table : Table NameRef ExprRef) (r : ExprRef) (e : Entry)
    (ts : List ExprRef) : Single (substituteAt table r e ts) := by
  cases e with
  | var x => exact .pure _
  | _ => exact single_rebuild ..

theorem single_decided (r : ExprRef) (op : BinaryOp) (known : Bool) (other : ExprRef) :
    Single (decided r op known other) := by
  unfold decided
  split
  · exact .pure other
  · exact .add _
  · exact .add _
  · exact .pure other
  · exact .pure r

theorem single_getD_value (r : ExprRef) (v? : Option Value) :
    Single ((v?.map addValue).getD (return r)) := by
  cases v? with
  | none => exact .pure r
  | some v =>
    cases v with
    | int n => exact .add _
    | bool b => exact .add _

/-- Simplifying an expression is a single action, and the same one in every later pool. -/
theorem foldRoot_eq_bind (r : ExprRef) :
    ∃ action : Pool → StateM Pool ExprRef, foldRoot r = get >>= action ∧
      (∀ p, Single (action p)) ∧
      ∀ p q x, p.Denotes r x → p.Grows q → action q = action p := by
  refine ⟨_, rfl, fun p => ?_, fun p q x hr hq => ?_⟩
  · split
    · split
      · exact single_getD_value r _
      · split
        · exact .pure _
        · exact .pure r
    · split
      · exact single_getD_value r _
      · exact single_decided ..
      · exact single_decided ..
      · exact .pure r
    · split
      · exact .pure _
      · split
        · exact .pure _
        · exact .pure r
    · exact .pure r
  · cases hr with
    | var h _ | int h | bool h => simp only [h, hq.get? _ _ h]
    | unary h ha =>
      obtain ⟨e, he⟩ := ha.get?
      simp only [h, hq.get? _ _ h, ha.literal?, (ha.mono hq).literal?, he, hq.get? _ _ he]
    | binary h ha hb =>
      simp only [h, hq.get? _ _ h, ha.literal?, (ha.mono hq).literal?, hb.literal?,
        (hb.mono hq).literal?]
    | ite h hc ht he => simp only [h, hq.get? _ _ h, hc.literal?, (hc.mono hq).literal?]

theorem settles_foldRoot (hp : p.WellFormed) (hr : p.Denotes r x) : Settles (foldRoot r) p := by
  have hgrows := (adds_foldRoot hp hr).grows
  obtain ⟨action, hbind, hsingle, hsame⟩ := foldRoot_eq_bind r
  rw [hbind] at hgrows ⊢
  intro q hq
  have haction := hsame p q x hr (hgrows.trans hq)
  show (action q).run q = (((action p).run p).1, q)
  rw [haction]
  exact (hsingle p).settles p q hq

theorem keeps_substituteAt (table : Table NameRef ExprRef) :
    (substituteAt table).Keeps id :=
  fun r e ts p => (single_substituteAt table r e ts).keptIn p

theorem keeps_foldAt : foldAt.Keeps id := by
  intro r e ts p
  obtain ⟨action, hbind, hsingle, _⟩ := foldRoot_eq_bind ((rebuild r e ts).run p).1
  have hlast := (hsingle ((rebuild r e ts).run p).2).keptIn ((rebuild r e ts).run p).2
  have hrun : (foldAt r e ts).run p =
      (foldRoot ((rebuild r e ts).run p).1).run ((rebuild r e ts).run p).2 := rfl
  rw [hrun, hbind]
  exact ((single_rebuild r e ts).keptIn p).trans hlast

end Actions

section Renewals

/-- Wherever a change implements a function, it settles. -/
def Steady (p : Pool) (change : Visitor Pool ExprRef) (f : Expr → Expr) : Prop :=
  ∀ q r e ts x, p.Grows q → q.Denotes r x → q.get? r = some e →
    ts.map q.expr? = (x.children.map f).map some → Settles (change r e ts) q

theorem steady_substituteAt (p : Pool) (table : Table NameRef ExprRef) (f : Expr → Expr) :
    p.Steady (substituteAt table) f :=
  fun q r e ts _ _ _ _ _ => (single_substituteAt table r e ts).settles q

theorem steady_foldAt (p : Pool) : p.Steady foldAt Expr.fold := by
  intro q r e ts x hq hx he hts
  have hrebuilt := adds_rebuild hq.wellFormed hx he hts (List.length_map ..)
  exact ((single_rebuild r e ts).settles q).bind
    (settles_foldRoot hrebuilt.grows.wellFormed hrebuilt.result)
    (adds_foldRoot hrebuilt.grows.wellFormed hrebuilt.result).grows

/-- In every later pool the recursion gives these results and adds nothing. -/
def Retraces (p : Pool) (change : Visitor Pool ExprRef) (rs ts : List ExprRef) : Prop :=
  ∀ q, p.Grows q → ∃ calls, Recurses id change q rs calls ts q

theorem Retraces.mono (h : p.Retraces change rs ts) (hpq : p.Grows q) : q.Retraces change rs ts :=
  fun q' hq' => h q' (hpq.trans hq')

/-- The recursion would give the results so far once more. -/
def Renewal.Retraced (change : Visitor Pool ExprRef) (s : Renewal) : Prop :=
  ∀ r t, s.results.get? r = some t → s.pool.Retraces change [r] [t]

/-- A renewal of some expressions follows the recursion along them. -/
structure Traces (change : Visitor Pool ExprRef) (m : StateM Renewal α) (s : Renewal)
    (rs : List ExprRef) (out : α → List ExprRef) : Prop where
  recursion : ∃ calls, Recurses id change s.pool rs calls (out (m.run s).1) (m.run s).2.pool
  again : (m.run s).2.pool.Retraces change rs (out (m.run s).1)
  retraced : (m.run s).2.Retraced change

theorem traces_mapM {s : Renewal} {m : ExprRef → StateM Renewal ExprRef} {xs : List Expr}
    (hm : ∀ a ∈ rs, ∀ s' x, p.Grows s'.pool → s'.Sound f → s'.pool.Denotes a x →
      Renews f (m a) s' fun q t => q.Denotes t (f x))
    (htraces : ∀ a ∈ rs, ∀ s' x, p.Grows s'.pool → s'.Sound f → s'.Retraced change →
      s'.pool.Denotes a x → Traces change (m a) s' [a] fun t => [t])
    (hp : p.Grows s.pool) (hs : s.Sound f) (hretraced : s.Retraced change)
    (hrs : rs.map s.pool.expr? = xs.map some) : Traces change (rs.mapM m) s rs fun ts => ts := by
  induction rs generalizing s xs with
  | nil => exact ⟨⟨_, .nil⟩, fun _ _ => ⟨_, .nil⟩, hretraced⟩
  | cons a rs ih =>
    obtain ⟨x, xs, rfl, ha, hrs⟩ := eq_cons_of_map_eq hrs
    have hx := (expr?_eq_some hp.wellFormed).1 ha
    obtain ⟨hma, hmrs⟩ := List.forall_mem_cons.1 hm
    obtain ⟨hta, htrs⟩ := List.forall_mem_cons.1 htraces
    have hrenews := hma s x hp hs hx
    have hhead := hta s x hp hs hretraced hx
    have hrs' := hrenews.grows.map_expr? hp.wellFormed hrs
    have hp' := hp.trans hrenews.grows
    have htail := ih hmrs htrs hp' hrenews.sound hhead.retraced hrs'
    have hgrows := (renews_mapM hmrs hp' hrenews.sound hrs').grows
    rw [List.mapM_cons]
    refine ⟨?_, fun q hq => ?_, htail.retraced⟩
    · obtain ⟨calls, hfirst⟩ := hhead.recursion
      obtain ⟨calls', hrest⟩ := htail.recursion
      exact ⟨calls ++ calls', hfirst.append hrest⟩
    · obtain ⟨calls, hfirst⟩ := hhead.again q (hgrows.trans hq)
      obtain ⟨calls', hrest⟩ := htail.again q hq
      exact ⟨calls ++ calls', hfirst.append hrest⟩

/-- An expression whose operands have been renewed is handed to the change. -/
theorem traces_note {s : Renewal} {m : StateM Renewal (List ExprRef)}
    (hm : Traces change m s e.operands fun ts => ts) (he : s.pool.get? r = some e)
    (hgrows : s.pool.Grows (m.run s).2.pool)
    (hchange : (m.run s).2.pool.Grows ((change r e (m.run s).1).run (m.run s).2.pool).2)
    (hsettles : Settles (change r e (m.run s).1) (m.run s).2.pool) :
    Traces change (m >>= fun ts => Renewal.note r (change r e ts)) s [r] fun t => [t] := by
  have hagain : ((change r e (m.run s).1).run (m.run s).2.pool).2.Retraces change [r]
      [((change r e (m.run s).1).run (m.run s).2.pool).1] := by
    intro q hq
    obtain ⟨calls, hcalls⟩ := hm.again q (hchange.trans hq)
    have hget : q.get? r = some e := hq.get? _ _ (hchange.get? _ _ (hgrows.get? _ _ he))
    exact ⟨_, .cons hget hcalls (hsettles q hq) .nil⟩
  refine ⟨?_, hagain, fun a t ht => ?_⟩
  · obtain ⟨calls, hcalls⟩ := hm.recursion
    exact ⟨_, .cons he hcalls rfl .nil⟩
  · have hget : ((m.run s).2.results.insert r
        ((change r e (m.run s).1).run (m.run s).2.pool).1).get? a = some t := ht
    rw [Table.get?_insert] at hget
    split at hget
    · next har =>
      cases hget
      subst har
      exact hagain
    · exact (hm.retraced a t hget).mono hchange

/-- By induction on the depth, as for any renewal. A result that is known already is the one that
the recursion gives where the expression occurs again. -/
theorem traces_renewWithin {s : Renewal} (hchange : p.Implements change f)
    (hsteady : p.Steady change f) (depth : Nat) (hr : r.index < depth) (hp : p.Grows s.pool)
    (hs : s.Sound f) (hretraced : s.Retraced change) (hx : s.pool.Denotes r x) :
    Traces change (renewWithin change depth r) s [r] fun t => [t] := by
  induction depth generalizing r s x with
  | zero => exact absurd hr (Nat.not_lt_zero _)
  | succ depth ih =>
    cases hknown : s.results.get? r with
    | some t =>
      have hagain := hretraced r t hknown
      have hrun := run_renewWithin_known change hknown depth
      exact ⟨hrun ▸ hagain _ (.refl hp.wellFormed), hrun ▸ hagain, hrun ▸ hretraced⟩
    | none =>
      obtain ⟨e, he⟩ := hx.get?
      have hbelow (a : ExprRef) (ha : a ∈ e.operands) : a.index < depth :=
        Nat.lt_of_lt_of_le (hp.wellFormed.operand_lt _ _ he a ha) (Nat.le_of_lt_succ hr)
      have hrs := hx.operands hp.wellFormed he
      have hrenew (a : ExprRef) (ha : a ∈ e.operands) (s' : Renewal) (y : Expr)
          (hs' : p.Grows s'.pool) (hsound : s'.Sound f) (hy : s'.pool.Denotes a y) :=
        renews_renewWithin hchange depth (hbelow a ha) hs' hsound hy
      have hrenews := renews_mapM hrenew hp hs hrs
      have htraces : Traces change (e.operands.mapM (renewWithin change depth)) s e.operands
          fun ts => ts :=
        traces_mapM hrenew (fun a ha _ _ hs' hsound ht hy => ih (hbelow a ha) hs' hsound ht hy)
          hp hs hretraced hrs
      have hlater := hx.mono hrenews.grows
      have hentry := hrenews.grows.get? _ _ he
      have hadds := hchange _ _ _ _ _ (hp.trans hrenews.grows) hlater hentry hrenews.result
      have hsettles := hsteady _ _ _ _ _ (hp.trans hrenews.grows) hlater hentry hrenews.result
      have hnote := traces_note htraces he hrenews.grows hadds.grows hsettles
      have hrun := run_renewWithin_new change hknown he depth
      exact ⟨hrun ▸ hnote.recursion, hrun ▸ hnote.again, hrun ▸ hnote.retraced⟩

/-- A renewal is a traversal, although it changes an expression that occurs again only once. -/
theorem traverse?_eq_renew (hp : p.WellFormed) (hkeeps : change.Keeps id)
    (hchange : p.Implements change f) (hsteady : p.Steady change f) (hr : p.Denotes r x) :
    (traverse? id change r).run p = (some <$> renew change r).run p := by
  have hempty : (Renewal.mk p .empty).Sound f := fun r t h => by cases h
  have hnone : (Renewal.mk p .empty).Retraced change := fun r t h => by cases h
  obtain ⟨calls, hrec⟩ := (traces_renewWithin hchange hsteady (r.index + 1) (Nat.lt_succ_self _)
    (s := ⟨p, .empty⟩) (.refl hp) hempty hnone hr).recursion
  obtain ⟨calls', v, t, hcompletes, hrun⟩ := exists_completes id change p hp hr hkeeps
  obtain ⟨_, hv, ht⟩ := (hcompletes.recursion _ _ _).1 hrec
  rw [hrun, ← List.singleton_inj.1 hv, ← ht]
  rfl

theorem traverse?_substituteAt (hp : p.WellFormed) (htable : p.Tabulates table known)
    (hr : p.Denotes r x) :
    (traverse? id (substituteAt table) r).run p = (some <$> substitute table r).run p :=
  traverse?_eq_renew hp (keeps_substituteAt table) (implements_substituteAt hp htable)
    (p.steady_substituteAt table _) hr

theorem traverse?_foldAt (hp : p.WellFormed) (hr : p.Denotes r x) :
    (traverse? id foldAt r).run p = (some <$> fold r).run p :=
  traverse?_eq_renew hp keeps_foldAt p.implements_foldAt p.steady_foldAt hr

end Renewals

end Pool

end Clockwork
