import Clockwork.Proofs.Containers
import Clockwork.Proofs.Decision
import Clockwork.Run.Graph
import Clockwork.Run.Machine
import Clockwork.Propagation

namespace Clockwork
set_option autoImplicit true

variable {a b c t e : Expr} {env env' : Env} {v w : Value} {table : Substitution} {Γ : Typing}

theorem Expr.eval_mono (h : ∀ x v, env x = some v → env' x = some v) (hv : e.eval env = some v) :
    e.eval env' = some v := by
  induction e generalizing v with
  | var x => exact h x v hv
  | int n => exact hv
  | bool b => exact hv
  | unary op a iha =>
    obtain ⟨x, hx, hop⟩ := Option.bind_eq_some_iff.1 hv
    rw [Expr.eval, iha hx]
    exact hop
  | binary op a b iha ihb =>
    obtain ⟨x, hx, hrest⟩ := Option.bind_eq_some_iff.1 hv
    obtain ⟨y, hy, hop⟩ := Option.bind_eq_some_iff.1 hrest
    rw [Expr.eval, iha hx, ihb hy]
    exact hop
  | ite c t e ihc iht ihe =>
    obtain ⟨x, hx, harm⟩ := Option.bind_eq_some_iff.1 hv
    rw [Expr.eval, ihc hx]
    simp only [Option.bind_some]
    split at harm
    · next hxt => rw [if_pos hxt]; exact iht harm
    · next hxt => rw [if_neg hxt]; exact ihe harm

/-- Substitution moves the table from the expression to the environment. -/
theorem Expr.eval_substitute (table : Substitution) (env : Env) (e : Expr) :
    (e.substitute table).eval env =
      e.eval fun x => ((Expr.var x).substitute table).eval env := by
  induction e with
  | var x => rfl
  | int n => rfl
  | bool b => rfl
  | unary op a iha => rw [Expr.substitute, Expr.eval, Expr.eval, iha]
  | binary op a b iha ihb => rw [Expr.substitute, Expr.eval, Expr.eval, iha, ihb]
  | ite c t e ihc iht ihe => rw [Expr.substitute, Expr.eval, Expr.eval, ihc, iht, ihe]

/-- Every entry has the type of its name. -/
def Substitution.Respects (table : Substitution) (Γ : Typing) : Prop :=
  ∀ x e, table.get? x = some e → e.type? Γ = some (Γ x)

theorem Expr.type?_substitute (h : table.Respects Γ) (e : Expr) :
    (e.substitute table).type? Γ = e.type? Γ := by
  induction e with
  | var x =>
    rw [Expr.substitute]
    cases hx : table.get? x with
    | none => rfl
    | some e => exact h x e hx
  | int n => rfl
  | bool b => rfl
  | unary op a iha => rw [Expr.substitute, Expr.type?, Expr.type?, iha]
  | binary op a b iha ihb => rw [Expr.substitute, Expr.type?, Expr.type?, iha, ihb]
  | ite c t e ihc iht ihe => rw [Expr.substitute, Expr.type?, Expr.type?, ihc, iht, ihe]

theorem Expr.type?_reduce (h : table.Respects Γ) (ht : e.type? Γ = some τ) :
    (e.reduce table).type? Γ = some τ := by
  apply Expr.type?_fold
  rw [Expr.type?_substitute h, ht]

/-- The entries of a table, read under the values at the start, give the present values. -/
structure Substitution.Tracks (table : Substitution) (Γ : Typing) (start now : Valuation) :
    Prop where
  types : table.Respects Γ
  values : ∀ x v, now.get? x = some v → ((Expr.var x).substitute table).eval start.get? = some v

theorem Substitution.Tracks.empty (Γ : Typing) (start : Valuation) :
    Substitution.Tracks .empty Γ start start where
  types := nofun
  values _ _ h := h

theorem Substitution.Tracks.eval_reduce {start now : Valuation} (h : table.Tracks Γ start now)
    (hstart : Env.Respects start.get? Γ) (ht : e.type? Γ = some τ)
    (hv : e.eval now.get? = some v) : (e.reduce table).eval start.get? = some v := by
  have hsubst : (e.substitute table).eval start.get? = some v := by
    rw [Expr.eval_substitute]
    exact Expr.eval_mono h.values hv
  have htype : (e.substitute table).type? Γ = some τ := by
    rw [Expr.type?_substitute h.types, ht]
  exact Expr.eval_fold_of_type hstart htype hsubst

theorem Substitution.Tracks.insert {start now : Valuation} (h : table.Tracks Γ start now)
    (ht : e.type? Γ = some (Γ x)) (hv : e.eval start.get? = some v) :
    Substitution.Tracks (table.insert x e) Γ start (now.insert x v) where
  types y f hy := by
    rw [Table.get?_insert] at hy
    split at hy
    · next hyx =>
      cases hy
      rw [hyx]
      exact ht
    · exact h.types y f hy
  values y w hy := by
    rw [Table.get?_insert] at hy
    rw [Expr.substitute, Table.get?_insert]
    split at hy
    · next hyx =>
      cases hy
      rw [if_pos hyx]
      exact hv
    · next hyx =>
      rw [if_neg hyx]
      exact h.values y w hy

theorem Valuation.eval_eq_ok {r : Valuation} : r.eval e = .ok v ↔ e.eval r.get? = some v := by
  unfold Valuation.eval
  cases e.eval r.get? <;> simp

theorem Valuation.eval_eq_error {r : Valuation} (h : r.eval e = .error err) :
    err = .undefined (.expr e) := by
  unfold Valuation.eval at h
  cases he : e.eval r.get? with
  | none => rw [he] at h; cases h; rfl
  | some v => rw [he] at h; cases h

/-- A statement that stores nothing. -/
def Stmt.Idle : Stmt Expr → Prop
  | .assign .. | .update .. => False
  | _ => True

theorem Stmt.Idle.propagate {s : Stmt Expr} (hs : s.Idle) (table : Substitution) :
    (s.propagate table).2 = table ∧
      ∀ r : Valuation, r.writes [(s.propagate table).1] = .ok [] := by
  cases s with
  | assign => exact hs.elim
  | update => exact hs.elim
  | register => exact ⟨rfl, fun _ => rfl⟩
  | expr => exact ⟨rfl, fun _ => rfl⟩
  | branch => exact ⟨rfl, fun _ => rfl⟩
  | loop => exact ⟨rfl, fun _ => rfl⟩
  | suspend => exact ⟨rfl, fun _ => rfl⟩
  | wait => exact ⟨rfl, fun _ => rfl⟩

/-- What a statement does: nothing, or it stores the value of one expression in its targets. -/
theorem Stmt.assignments_eq_ok {s : Stmt Expr} {r : Valuation} (h : s.assignments r = .ok ws) :
    (∃ xs e v, s = .assign xs e ∧ e.eval r.get? = some v ∧ ws = xs.map (·, v)) ∨
      (∃ x op e v, s = .update x op e ∧ (Expr.binary op (.var x) e).eval r.get? = some v ∧
        ws = [(x, v)]) ∨
      (ws = [] ∧ s.Idle) := by
  cases s with
  | assign xs e =>
    obtain ⟨v, hv, hws⟩ := Except.bind_eq_ok h
    cases hws
    exact .inl ⟨xs, e, v, rfl, Valuation.eval_eq_ok.1 hv, rfl⟩
  | update x op e =>
    rw [Stmt.assignments] at h
    split at h
    · cases h
    · next y hy =>
      obtain ⟨w, hw, hrest⟩ := Except.bind_eq_ok h
      split at hrest
      · cases hrest
      · next v hv =>
        cases hrest
        refine .inr (.inl ⟨x, op, e, v, rfl, ?_, rfl⟩)
        rw [Expr.eval, Expr.eval, hy, Valuation.eval_eq_ok.1 hw]
        exact hv
  | register x w => cases h; exact .inr (.inr ⟨rfl, trivial⟩)
  | expr e => cases h; exact .inr (.inr ⟨rfl, trivial⟩)
  | branch c ts es => cases h; exact .inr (.inr ⟨rfl, trivial⟩)
  | loop c body => cases h; exact .inr (.inr ⟨rfl, trivial⟩)
  | suspend => cases h; exact .inr (.inr ⟨rfl, trivial⟩)
  | wait n => cases h; exact .inr (.inr ⟨rfl, trivial⟩)

/-- Only assignments count among actions. -/
theorem Stmt.eq_assign_or_writes (s : Stmt Expr) : (∃ xs e, s = .assign xs e) ∨
    ∀ (r : Valuation) (ss : List (Stmt Expr)), r.writes (s :: ss) = r.writes ss := by
  cases s with
  | assign xs e => exact .inl ⟨xs, e, rfl⟩
  | register => exact .inr fun _ _ => rfl
  | update => exact .inr fun _ _ => rfl
  | expr => exact .inr fun _ _ => rfl
  | branch => exact .inr fun _ _ => rfl
  | loop => exact .inr fun _ _ => rfl
  | suspend => exact .inr fun _ _ => rfl
  | wait => exact .inr fun _ _ => rfl

theorem Valuation.writes_append (r : Valuation) (ss ts : List (Stmt Expr)) :
    r.writes (ss ++ ts) = do
      let ws ← r.writes ss
      let us ← r.writes ts
      return ws ++ us := by
  induction ss with
  | nil => exact (bind_pure _).symm
  | cons s ss ih =>
    rcases s.eq_assign_or_writes with ⟨xs, e, rfl⟩ | hskip
    · simp only [List.cons_append, Valuation.writes, ih, bind_assoc, pure_bind, List.append_assoc]
    · rw [List.cons_append, hskip, hskip, ih]

theorem Valuation.writes_append_eq_ok {r : Valuation} : r.writes (ss ++ ts) = .ok vs ↔
    ∃ ws us, r.writes ss = .ok ws ∧ r.writes ts = .ok us ∧ vs = ws ++ us := by
  rw [Valuation.writes_append]
  constructor
  · intro h
    obtain ⟨ws, hws, htail⟩ := Except.bind_eq_ok h
    obtain ⟨us, hus, hvs⟩ := Except.bind_eq_ok htail
    cases hvs
    exact ⟨ws, us, hws, hus, rfl⟩
  · intro h
    obtain ⟨ws, us, hws, hus, rfl⟩ := h
    rw [hws, hus]
    rfl

theorem Valuation.writes_assign {r : Valuation} (hv : e.eval r.get? = some v) :
    r.writes [.assign xs e] = .ok (xs.map (·, v)) := by
  simp [Valuation.writes, Valuation.eval_eq_ok.2 hv, bind, Except.bind, pure, Except.pure]

/-- A propagated statement makes the assignments of the original one, with values at the start. -/
theorem Stmt.propagate_tracks {s : Stmt Expr} {start now : Valuation}
    (h : table.Tracks Γ start now) (hstart : Env.Respects start.get? Γ) (hs : s.Checks Γ)
    (hws : s.assignments now = .ok ws) :
    (s.propagate table).2.Tracks Γ start (now.insertAll ws) ∧
      start.writes [(s.propagate table).1] = .ok ws := by
  rcases Stmt.assignments_eq_ok hws with
    ⟨xs, e, v, rfl, hv, rfl⟩ | ⟨x, op, e, v, rfl, hv, rfl⟩ | ⟨rfl, hidle⟩
  · obtain ⟨τ, ht, hxs⟩ := hs
    have hred := h.eval_reduce hstart ht hv
    refine ⟨?_, Valuation.writes_assign hred⟩
    rw [Table.insertAll_map]
    apply List.foldl_rel (r := fun known now => Substitution.Tracks known Γ start now) h
    intro x hx known now htracks
    refine htracks.insert ?_ hred
    rw [Expr.type?_reduce h.types ht, hxs x hx]
  · have hred := h.eval_reduce hstart hs hv
    exact ⟨h.insert (Expr.type?_reduce h.types hs) hred, Valuation.writes_assign hred⟩
  · obtain ⟨hsame, hwrites⟩ := hidle.propagate table
    rw [hsame]
    exact ⟨h, hwrites start⟩

theorem Stmt.execList_cons_eq {s : Stmt Expr} {r r' : Valuation}
    (h : Stmt.execList r (s :: ss) = (r', none)) :
    ∃ ws, s.assignments r = .ok ws ∧ Stmt.execList (r.insertAll ws) ss = (r', none) := by
  rw [Stmt.execList] at h
  split at h
  · next ws hws => exact ⟨ws, hws, h⟩
  · cases h

/-- Sequential execution makes the assignments that the propagated statements make at once. -/
theorem Stmt.propagateList_tracks {start now now' : Valuation} (h : table.Tracks Γ start now)
    (hstart : Env.Respects start.get? Γ) (hss : ∀ s ∈ ss, Stmt.Checks Γ s)
    (hexec : Stmt.execList now ss = (now', none)) :
    ∃ ws, now' = now.insertAll ws ∧ (Stmt.propagateList table ss).2.Tracks Γ start now' ∧
      start.writes (Stmt.propagateList table ss).1 = .ok ws := by
  induction ss generalizing table now with
  | nil =>
    cases hexec
    exact ⟨[], rfl, h, rfl⟩
  | cons s ss ih =>
    obtain ⟨ws, hws, hexec⟩ := Stmt.execList_cons_eq hexec
    obtain ⟨htracks, hwrites⟩ :=
      Stmt.propagate_tracks h hstart (hss s List.mem_cons_self) hws
    obtain ⟨us, rfl, htracks', hwrites'⟩ :=
      ih htracks (fun t ht => hss t (List.mem_cons_of_mem _ ht)) hexec
    refine ⟨ws ++ us, (Table.insertAll_append now ws us).symm, htracks', ?_⟩
    exact Valuation.writes_append_eq_ok.2 ⟨ws, us, hwrites, hwrites', rfl⟩

end Clockwork
