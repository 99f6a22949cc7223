import Clockwork.Run.Graph
import Clockwork.Run.Machine

namespace Clockwork
set_option autoImplicit true

/-- Obeys commands one after the other and lists the results of the steps among them. -/
def Command.obeyAll (obey : σ → Command → Option ρ × σ) (s : σ) : List Command → List ρ × σ
  | [] => ([], s)
  | c :: cs =>
    let (result, s) := obey s c
    let (results, s) := Command.obeyAll obey s cs
    (result.toList ++ results, s)

/-- A simulation of a graph from a reset on. -/
def GraphRun.run (g : Graph) (reset : Reset) (cs : List Command) :
    List (Except RunError Nat) × GraphRun :=
  Command.obeyAll (GraphRun.obey g) (.init g reset) cs

/-- A simulation of a machine from a reset on. -/
def MachineRun.run (m : Machine Expr) (reset : Reset) (cs : List Command) :
    List (Except RunError Nat) × MachineRun :=
  Command.obeyAll (MachineRun.obey m) (.init m reset) cs

theorem Command.obeyAll_invariant {obey : σ → Command → Option ρ × σ} {P : σ → Prop}
    {admits : Command → Prop} (hstep : ∀ s c, admits c → P s → P (obey s c).2) (hs : P s)
    (hcs : ∀ c ∈ cs, admits c) : P (Command.obeyAll obey s cs).2 := by
  induction cs generalizing s with
  | nil => exact hs
  | cons c cs ih =>
    apply ih (hstep s c (hcs c List.mem_cons_self) hs)
    intro d hd
    exact hcs d (List.mem_cons_of_mem _ hd)

/-- One system follows another one through a run as long as the results of the other one are such
that it can follow each single command. -/
theorem Command.obeyAll_simulation {obey : σ → Command → Option ρ × σ}
    {obey' : σ' → Command → Option ρ × σ'} {R : σ → σ' → Prop} {keeps : ρ → Prop}
    (admits : Command → Prop)
    (hstep : ∀ s t c, admits c → R s t → (∀ result ∈ (obey s c).1, keeps result) →
      (obey' t c).1 = (obey s c).1 ∧ R (obey s c).2 (obey' t c).2)
    (h : R s t) (hcs : ∀ c ∈ cs, admits c)
    (hkeeps : ∀ result ∈ (Command.obeyAll obey s cs).1, keeps result) :
    (Command.obeyAll obey' t cs).1 = (Command.obeyAll obey s cs).1 ∧
      R (Command.obeyAll obey s cs).2 (Command.obeyAll obey' t cs).2 := by
  induction cs generalizing s t with
  | nil => exact ⟨rfl, h⟩
  | cons c cs ih =>
    simp only [Command.obeyAll, List.mem_append, Option.mem_toList] at hkeeps ⊢
    obtain ⟨hresult, hrel⟩ := hstep s t c (hcs c List.mem_cons_self) h
      fun result hr => hkeeps result (.inl hr)
    obtain ⟨hresults, hrels⟩ := ih hrel (fun d hd => hcs d (List.mem_cons_of_mem _ hd))
      fun result hr => hkeeps result (.inr hr)
    rw [hresult, hresults]
    exact ⟨rfl, hrels⟩

/-- What happens at the end of an edge: a walk stops there or goes on along another edge. -/
inductive Visit where
  | stop (values : Valuation) (result : Except RunError (NodeId × Nat))
  | go (values : Valuation) (edge : Option NodeId)

def Visit.mapEdge (f : Option NodeId → Option NodeId) : Visit → Visit
  | .stop v result => .stop v result
  | .go v edge => .go v (f edge)

def Node.visit (v : Valuation) (i : NodeId) : Node → Visit
  | .head next => .go v next
  | .block ss next =>
    match Stmt.execList v ss with
    | (v, none) => .go v next
    | (v, some e) => .stop v (.error e)
  | .branch c t f =>
    match v.eval c with
    | .error e => .stop v (.error e)
    | .ok w => .go v (if w.truth then t else f)
  | .suspend id _ => .stop v (.ok (i, id))

theorem Node.visit_mapEdges (f : Option NodeId → Option NodeId) (v : Valuation) (i : NodeId)
    (n : Node) : (n.mapEdges f).visit v i = (n.visit v i).mapEdge f := by
  cases n with
  | head next => rfl
  | block ss next =>
    simp only [Node.mapEdges, Node.visit]
    split <;> rfl
  | branch c t e =>
    simp only [Node.mapEdges, Node.visit]
    split
    · rfl
    · next w _ => cases hw : w.truth <;> rfl
  | suspend id next => rfl

namespace Graph

def visit (g : Graph) (v : Valuation) : Option NodeId → Visit
  | none => .stop v (.error .ended)
  | some i =>
    match g.node? i with
    | none => .stop v (.error .ended)
    | some n => n.visit v i

theorem walk_succ (g : Graph) (budget : Nat) (v : Valuation) (edge : Option NodeId) :
    g.walk (budget + 1) v edge =
      match g.visit v edge with
      | .stop v result => (v, result)
      | .go v edge => g.walk budget v edge := by
  cases edge with
  | none => rfl
  | some i =>
    rw [Graph.walk, Graph.visit]
    cases g.node? i with
    | none => rfl
    | some n =>
      cases n with
      | head next => rfl
      | block ss next =>
        simp only [Node.visit]
        cases Stmt.execList v ss with
        | mk r failure => cases failure <;> rfl
      | branch c t f =>
        simp only [Node.visit]
        cases v.eval c <;> rfl
      | suspend id next => rfl

/-- The walk came to an end before its budget did. -/
def Finished (result : Except RunError (NodeId × Nat)) : Prop :=
  result ≠ .error (.runaway visitLimit)

theorem walk_mono {g : Graph} (h : Finished (g.walk budget v edge).2) :
    g.walk (budget + 1) v edge = g.walk budget v edge := by
  induction budget generalizing v edge with
  | zero => exact (h rfl).elim
  | succ budget ih =>
    rw [walk_succ] at h
    rw [walk_succ, walk_succ]
    cases hv : g.visit v edge with
    | stop v result => rfl
    | go v edge =>
      rw [hv] at h
      exact ih h

theorem visit_eq_stop_ok {g : Graph} {id : Nat} (h : g.visit v edge = .stop v' (.ok (i, id))) :
    edge = some i ∧ v' = v ∧ ∃ next, g.node? i = some (.suspend id next) := by
  cases edge with
  | none => cases h
  | some j =>
    rw [visit] at h
    cases hj : g.node? j with
    | none => rw [hj] at h; cases h
    | some n =>
      rw [hj] at h
      cases n with
      | head next => cases h
      | block ss next =>
        simp only [Node.visit] at h
        split at h <;> cases h
      | branch c t f =>
        simp only [Node.visit] at h
        split at h <;> cases h
      | suspend k next =>
        cases h
        exact ⟨rfl, rfl, next, hj⟩

/-- The node at which a walk succeeds is a suspension. -/
theorem node?_of_walk {g : Graph} {id : Nat} (h : g.walk budget v edge = (v', .ok (i, id))) :
    ∃ next, g.node? i = some (.suspend id next) := by
  induction budget generalizing v edge with
  | zero => cases h
  | succ budget ih =>
    rw [walk_succ] at h
    cases hv : g.visit v edge with
    | stop u result =>
      rw [hv] at h
      cases h
      exact (visit_eq_stop_ok hv).2.2
    | go u next =>
      rw [hv] at h
      exact ih h

end Graph

end Clockwork
