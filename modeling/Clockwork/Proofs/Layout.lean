import Clockwork.Proofs.Growth

namespace Clockwork
set_option autoImplicit true

/-- The place before a statement of a block. -/
structure Place where
  block : NodeId
  offset : Nat

def Place.start (i : NodeId) : Place := ⟨i, 0⟩

def Place.succ (p : Place) : Place := ⟨p.block, p.offset + 1⟩

namespace Graph

/-- A statement of a block stands at a place. -/
def Has (g : Graph) (p : Place) (s : Stmt Expr) : Prop :=
  ∃ ss next, g.node? p.block = some (.block ss next) ∧ ss[p.offset]? = some s

/-- A block ends at a place and leads on along an edge. -/
def Ends (g : Graph) (p : Place) (edge : Option NodeId) : Prop :=
  ∃ ss, g.node? p.block = some (.block ss edge) ∧ p.offset = ss.length

mutual

/-- A statement after `k` suspensions is laid out from one place to another one. -/
inductive Lays (g : Graph) : Nat → Stmt Expr → Place → Place → Prop
  | register : Lays g k (.register x w) p p
  | straight (hs : s.isStraight) (hp : g.Has p s) : Lays g k s p p.succ
  | suspend (hp : g.Ends p (some i)) (hi : g.node? i = some (.suspend (k + 1) (some j))) :
    Lays g k .suspend p (.start j)
  | loop (hp : g.Ends p (some b)) (hb : g.node? b = some (.branch c (some t) (some f)))
    (hbody : LaysList g k body (.start t) q) (hq : g.Ends q (some b)) :
    Lays g k (.loop c body) p (.start f)
  | branch (hp : g.Ends p (some b)) (hb : g.node? b = some (.branch c (some t) (some f)))
    (hts : LaysList g k ts (.start t) q) (hq : g.Ends q (some j))
    (hes : LaysList g (k + Stmt.listSuspensions ts) es (.start f) q')
    (hq' : q' = .start j ∨ g.Ends q' (some j)) :
    Lays g k (.branch c ts es) p (.start j)

inductive LaysList (g : Graph) : Nat → List (Stmt Expr) → Place → Place → Prop
  | nil : LaysList g k [] p p
  | cons (hs : Lays g k s p q) (hrest : LaysList g (k + s.suspensions) rest q r) :
    LaysList g k (s :: rest) p r

end

theorem Grows.ends {g h : Graph} (hg : g.Grows h)
    (hi : g.node? i = some (.block ss (some j))) : h.Ends ⟨i, ss.length⟩ (some j) :=
  ⟨ss, hg.keep hi (fun hn => nomatch List.mem_singleton.1 hn), rfl⟩

theorem Grows.suspend {g h : Graph} {id : Nat} (hg : g.Grows h)
    (hi : g.node? i = some (.suspend id (some j))) : h.node? i = some (.suspend id (some j)) :=
  hg.keep hi fun hn => nomatch List.mem_singleton.1 hn

theorem Grows.branch {g h : Graph} (hg : g.Grows h)
    (hi : g.node? i = some (.branch c (some t) (some f))) :
    h.node? i = some (.branch c (some t) (some f)) := by
  apply hg.keep hi
  intro hn
  rcases List.mem_cons.1 hn with hn | hn
  · cases hn
  · cases List.mem_singleton.1 hn

theorem Grows.has {g h : Graph} (hg : g.Grows h)
    (hi : g.node? i = some (.block (ss ++ [s]) none)) : h.Has ⟨i, ss.length⟩ s := by
  obtain ⟨m, hm, hgrows⟩ := hg.node i _ hi
  cases hgrows with
  | refl => exact ⟨_, _, hm, List.getElem?_concat_length⟩
  | block _ ts next =>
    exact ⟨_, _, hm, by simp⟩

end Graph

namespace Draft

variable {d d' : Draft} {s : Stmt Expr} {rest : List (NodeId × Node)}

/-- What adding statements to the current block of a draft does, if it leads to another draft. The
statements are laid out in every later stage of the graph. -/
structure Extends (d : Draft) (ss : List (Stmt Expr)) (rest : List (NodeId × Node)) (n : Nat)
    (lays : Graph → Place → Place → Prop) (d' : Draft) : Prop where
  grows : d.graph.Grows d'.graph
  count : d'.graph.suspensionCount = d.graph.suspensionCount + n
  sound : ∃ ss', d'.Sound ((d'.current, .block ss' none) :: rest) ∧
    ∀ g, d'.graph.Grows g → lays g ⟨d.current, ss.length⟩ ⟨d'.current, ss'.length⟩

theorem Sound.extends_append (hd : d.Sound ((d.current, .block ss none) :: rest))
    (hs : s.isStraight) (hn : s.suspensions = 0) :
    d.Extends ss rest s.suspensions (fun g => g.Lays d.graph.suspensionCount s) (d.append s) := by
  obtain ⟨hd₁, hg₁⟩ := hd.append s
  refine ⟨hg₁, by rw [hn]; rfl, ss ++ [s], hd₁, ?_⟩
  intro g hg
  rw [List.length_append]
  exact .straight hs (hg.has (hd₁.listed _ _ List.mem_cons_self))

/-- Statements behind a test that go on at a target, while the test leads past them. -/
theorem Sound.extends_guarded {lays lays' : Graph → Place → Place → Prop}
    (hd : d.Sound ((d.current, .block ss none) :: rest))
    (hbody : (d.startBranch c).Extends [] ((d.fresh, .branch c (some (d.fresh + 1)) none) :: rest)
      n lays d₂)
    (htarget : d.fresh < d₂.fresh → 0 < target ∧ target ≤ d₂.fresh)
    (hlays : ∀ g p q t, g.Ends p (some d.fresh) →
      g.node? d.fresh = some (.branch c (some t) (some d₂.fresh)) → lays g (.start t) q →
      g.Ends q (some target) → lays' g p (.start d₂.fresh)) :
    d.Extends ss rest n lays' ((d₂.connect d₂.current target).startFalse d.fresh) := by
  have hc := hd.listed _ _ List.mem_cons_self
  obtain ⟨_, hg₁⟩ := hd.startBranch c
  obtain ⟨hg₂, hcount, ss₂, hd₂, hbody⟩ := hbody
  have hc₂ := hd₂.listed _ _ List.mem_cons_self
  have hb := hd₂.listed _ _ (List.mem_cons_of_mem _ List.mem_cons_self)
  obtain ⟨hd₃, hg₃⟩ := hd₂.connect_startFalse (htarget (Graph.lt_size_of_node? hb))
  obtain ⟨hbranch, hend⟩ := node?_connect_startFalse hc₂ hb target
  refine ⟨(hg₁.trans hg₂).trans hg₃, hcount, [], hd₃, ?_⟩
  intro g hg
  have henter := ((hg₂.trans hg₃).trans hg).ends (node?_startBranch hc c)
  have hlaid := hbody g (hg₃.trans hg)
  rw [current_startBranch] at hlaid
  rw [current_connect_startFalse]
  exact hlays g _ _ _ henter (hg.branch hbranch) hlaid (hg.ends hend)

mutual

theorem Sound.addStmt {d d' : Draft} {ss : List (Stmt Expr)} {rest : List (NodeId × Node)}
    (s : Stmt Expr) (hd : d.Sound ((d.current, .block ss none) :: rest))
    (h : d.addStmt s = .ok d') :
    d.Extends ss rest s.suspensions (fun g => g.Lays d.graph.suspensionCount s) d' := by
  have hc := hd.listed _ _ List.mem_cons_self
  match s with
  | .loop c body =>
    rw [Draft.addStmt] at h
    obtain ⟨d₂, h₂, h⟩ := Except.bind_eq_ok h
    cases h
    obtain ⟨hd₁, _⟩ := hd.startBranch c
    have hpos : 0 < d.fresh := Nat.zero_lt_of_lt (Graph.lt_size_of_node? hc)
    apply hd.extends_guarded (Sound.addStmts body hd₁ h₂) fun hlt => ⟨hpos, Nat.le_of_lt hlt⟩
    intro g p q t henter hbranch hbody hback
    exact .loop henter hbranch hbody hback
  | .branch c ts [] =>
    rw [Draft.addStmt] at h
    obtain ⟨d₂, h₂, h⟩ := Except.bind_eq_ok h
    cases h
    obtain ⟨hd₁, _⟩ := hd.startBranch c
    apply hd.extends_guarded (Sound.addStmts ts hd₁ h₂)
      fun hlt => ⟨Nat.zero_lt_of_lt hlt, Nat.le_refl _⟩
    intro g p q t henter hbranch hts hend
    exact .branch henter hbranch hts hend .nil (.inl rfl)
  | .branch c ts (e :: es) =>
    rw [Draft.addStmt] at h
    obtain ⟨d₂, h₂, h⟩ := Except.bind_eq_ok h
    obtain ⟨d₄, h₄, h⟩ := Except.bind_eq_ok h
    obtain ⟨d₅, h₅, h⟩ := Except.bind_eq_ok h
    cases h
    obtain ⟨hd₁, hg₁⟩ := hd.startBranch c
    obtain ⟨hg₂, hcount₂, ss₂, hd₂, hts⟩ := Sound.addStmts ts hd₁ h₂
    have hb := hd₂.listed _ _ (List.mem_cons_of_mem _ List.mem_cons_self)
    obtain ⟨hd₃, hg₃⟩ := hd₂.startFalse
    obtain ⟨hg₄, hcount₄, ss₄, hd₄, he⟩ := Sound.addStmt e hd₃ h₄
    obtain ⟨hg₅, hcount₅, ss₅, hd₅, hes⟩ := Sound.addStmts es hd₄ h₅
    have hc₅ := hd₅.listed _ _ List.mem_cons_self
    have hend := hd₅.listed _ _ (List.mem_cons_of_mem _ List.mem_cons_self)
    have hne : d₂.current ≠ d₅.current := by
      have hdistinct := (List.nodup_cons.1 hd₅.distinct).1
      intro heq
      exact hdistinct (heq ▸ List.mem_cons_self)
    obtain ⟨hd₆, hg₆⟩ := hd₅.join
    obtain ⟨helse, hthen⟩ := node?_join hc₅ hend hne
    have hcount₁ : (d.startBranch c).graph.suspensionCount = d.graph.suspensionCount := rfl
    have hcount₃ : (d₂.startFalse d.fresh).graph.suspensionCount =
        d₂.graph.suspensionCount := rfl
    rw [hcount₁] at hcount₂ hts
    rw [hcount₃, hcount₂] at hcount₄ he
    rw [hcount₄] at hcount₅ hes
    have hg₅₆ := hg₅.trans hg₆
    have hg₄₆ := hg₄.trans hg₅₆
    have hg₃₆ := hg₃.trans hg₄₆
    have hg₂₆ := hg₂.trans hg₃₆
    refine ⟨hg₁.trans hg₂₆, ?_, [], hd₆, ?_⟩
    · rw [Stmt.suspensions, Stmt.listSuspensions, ← Nat.add_assoc, ← Nat.add_assoc]
      exact hcount₅
    · intro g hg
      have henter := (hg₂₆.trans hg).ends (node?_startBranch hc c)
      have hlaid := hts g (hg₃₆.trans hg)
      have hlaid' := he g (hg₅₆.trans hg)
      rw [current_startBranch] at hlaid
      rw [current_startFalse] at hlaid'
      rw [current_join]
      exact .branch henter ((hg₄₆.trans hg).branch (node?_startFalse hb)) hlaid (hg.ends hthen)
        (.cons hlaid' (hes g (hg₆.trans hg))) (.inr (hg.ends helse))
  | .suspend =>
    cases h
    obtain ⟨hd₁, hg₁⟩ := hd.suspend
    obtain ⟨hend, hsuspend⟩ := node?_suspend hc
    refine ⟨hg₁, rfl, [], hd₁, ?_⟩
    intro g hg
    rw [current_suspend]
    exact .suspend (hg.ends hend) (hg.suspend hsuspend)
  | .assign [x] v =>
    cases h
    exact hd.extends_append rfl rfl
  | .assign [] v => cases h
  | .assign (x :: y :: xs) v => cases h
  | .update x op v =>
    cases h
    exact hd.extends_append rfl rfl
  | .expr v =>
    cases h
    exact hd.extends_append rfl rfl
  | .wait n => cases h
  | .register x w => cases h

theorem Sound.addStmts {d d' : Draft} {ss : List (Stmt Expr)} {rest : List (NodeId × Node)}
    (body : List (Stmt Expr)) (hd : d.Sound ((d.current, .block ss none) :: rest))
    (h : d.addStmts body = .ok d') :
    d.Extends ss rest (Stmt.listSuspensions body)
      (fun g => g.LaysList d.graph.suspensionCount body) d' := by
  match body with
  | [] =>
    cases h
    exact ⟨.refl _, rfl, ss, hd, fun g _ => .nil⟩
  | s :: body =>
    rw [Draft.addStmts] at h
    obtain ⟨d₁, h₁, h₂⟩ := Except.bind_eq_ok h
    obtain ⟨hg₁, hcount₁, ss₁, hd₁, hs⟩ := Sound.addStmt s hd h₁
    obtain ⟨hg₂, hcount₂, ss₂, hd₂, hbody⟩ := Sound.addStmts body hd₁ h₂
    refine ⟨hg₁.trans hg₂, ?_, ss₂, hd₂, ?_⟩
    · rw [hcount₂, hcount₁, Stmt.listSuspensions, Nat.add_assoc]
    · intro g hg
      have hrest := hbody g hg
      rw [hcount₁] at hrest
      exact .cons (hs g (hg₂.trans hg)) hrest

end

end Draft

end Clockwork
