import Clockwork.Proofs.Growth
import Clockwork.Proofs.Runs

namespace Clockwork
set_option autoImplicit true

/-- Statements to be executed one after the other, each with the number of suspensions that stand
before it in the source. -/
abbrev Agenda := List (Nat × Stmt Expr)

/-- The agenda of statements after `k` suspensions. -/
def Agenda.of (k : Nat) : List (Stmt Expr) → Agenda
  | [] => []
  | s :: rest => (k, s) :: Agenda.of (k + s.suspensions) rest

/-- What comes of the first statement of an agenda: the process stops with an error or in a
suspension with its number, or it goes on with other statements. -/
inductive Progress where
  | stops (values : Valuation) (result : Except RunError (Nat × Agenda))
  | goes (values : Valuation) (rest : Agenda)

/-- Evaluates an expression and goes on with its value. -/
def Valuation.evalThen (v : Valuation) (e : Expr) (next : Value → Progress) : Progress :=
  match v.eval e with
  | .error err => .stops v (.error err)
  | .ok w => next w

namespace Agenda

/-- Executes the first statement in its source form. -/
def advance (v : Valuation) : Agenda → Progress
  | [] => .stops v (.error .ended)
  | (k, s) :: rest =>
    match s with
    | .assign xs e => v.evalThen e fun w => .goes (v.insertAll (xs.map (·, w))) rest
    | .update x op e =>
      match v.get? x with
      | none => .stops v (.error (.undefined (.name x)))
      | some current => v.evalThen e fun w =>
        match op.apply current w with
        | none => .stops v (.error (.undefined (.stmt (.update x op e))))
        | some w => .goes (v.insert x w) rest
    | .branch c ts es => v.evalThen c fun w =>
      .goes v (if w.truth then of k ts ++ rest else of (k + Stmt.listSuspensions ts) es ++ rest)
    | .loop c body => v.evalThen c fun w =>
      .goes v (if w.truth then of k body ++ (k, .loop c body) :: rest else rest)
    | .suspend => .stops v (.ok (k + 1, rest))
    | .register .. | .expr _ | .wait _ => .goes v rest

/-- Executes at most `budget` statements, up to the next suspension or the first failure. -/
def run : (budget : Nat) → Valuation → Agenda → Option (Valuation × Except RunError (Nat × Agenda))
  | 0, _, _ => none
  | budget + 1, v, agenda =>
    match agenda.advance v with
    | .stops v result => some (v, result)
    | .goes v rest => run budget v rest

/-- The result of an agenda, for every sufficient budget. -/
def Yields (v : Valuation) (agenda : Agenda) (out : Valuation × Except RunError (Nat × Agenda)) :
    Prop :=
  ∃ limit, ∀ budget, limit ≤ budget → agenda.run budget v = some out

theorem Yields.of_stops {agenda : Agenda} (h : agenda.advance v = .stops v' result) :
    agenda.Yields v (v', result) := by
  refine ⟨1, ?_⟩
  intro budget hle
  obtain ⟨budget, rfl⟩ := Nat.exists_eq_add_of_le' hle
  rw [run, h]

theorem Yields.of_goes {agenda : Agenda} (h : agenda.advance v = .goes v' rest)
    (hrest : Yields v' rest out) : agenda.Yields v out := by
  obtain ⟨limit, hlimit⟩ := hrest
  refine ⟨limit + 1, ?_⟩
  intro budget hle
  cases budget with
  | zero => exact (Nat.not_succ_le_zero limit hle).elim
  | succ budget =>
    rw [run, h]
    exact hlimit budget (Nat.le_of_succ_le_succ hle)

/-- The statements of a block are executed alike in a graph and in the source. -/
theorem advance_of_straight {s : Stmt Expr} (hs : s.isStraight) (k : Nat) (v : Valuation)
    (rest : Agenda) :
    advance v ((k, s) :: rest) =
      match s.assignments v with
      | .ok writes => .goes (v.insertAll writes) rest
      | .error e => .stops v (.error e) := by
  cases s with
  | assign xs e =>
    simp only [advance, Stmt.assignments, Valuation.evalThen]
    cases v.eval e with
    | error err => rfl
    | ok w => rfl
  | update x op e =>
    simp only [advance, Stmt.assignments, Valuation.evalThen]
    cases v.get? x with
    | none => rfl
    | some current =>
      cases v.eval e with
      | error err => rfl
      | ok w =>
        dsimp only [bind, Except.bind]
        cases op.apply current w with
        | none => rfl
        | some w => rfl
  | expr e => rfl
  | register => cases hs
  | branch => cases hs
  | loop => cases hs
  | suspend => cases hs
  | wait => cases hs

end Agenda

/-- The registers that a body declares. -/
def Stmt.declarations (body : List (Stmt Expr)) : List (String × Nat) :=
  body.filterMap fun s => s.declaration.toOption

/-- A process that is executed in its source form, waiting for the next step. -/
structure SourceRun where
  values : Valuation
  agenda : Agenda
  steps : Nat

namespace SourceRun

def start (body : List (Stmt Expr)) : SourceRun := ⟨.empty, .of 0 body, 0⟩

def init (body : List (Stmt Expr)) (reset : Reset) : SourceRun :=
  ⟨reset.values (Stmt.declarations body), .of 0 body, 0⟩

def set (r : SourceRun) (x : String) (v : Value) : SourceRun :=
  { r with values := r.values.insert x v }

/-- Executes statements up to the next suspension. A step that fails keeps the assignments made so
far and is repeated from the same suspension on. -/
def step (budget : Nat) (r : SourceRun) : Except RunError Nat × SourceRun :=
  match r.agenda.run budget r.values with
  | none => (.error (.runaway budget), r)
  | some (v, .ok (id, rest)) => (.ok id, ⟨v, rest, r.steps + 1⟩)
  | some (v, .error e) => (.error e, { r with values := v })

def obey (budget : Nat) (body : List (Stmt Expr)) (r : SourceRun) :
    Command → Option (Except RunError Nat) × SourceRun
  | .init reset => (none, init body reset)
  | .set x v => (none, r.set x v)
  | .step => let (result, r) := r.step budget; (some result, r)

end SourceRun

end Clockwork
