import Clockwork.Proofs.Source

namespace Clockwork
set_option autoImplicit true

mutual

/-- The number of places at which a statement waits. A wait for several clock edges has two: one
for its last edge and one for all edges before it. -/
def Stmt.points : Stmt Expr → Nat
  | .suspend => 1
  | .wait (.int n) => min n.toInt.toNat 2
  | .branch _ ts es => Stmt.listPoints ts + Stmt.listPoints es
  | .loop _ body => Stmt.listPoints body
  | _ => 0

def Stmt.listPoints : List (Stmt Expr) → Nat
  | [] => 0
  | s :: rest => s.points + Stmt.listPoints rest

end

namespace Agenda

/-- The suspensions of a wait for `n` clock edges, one after the other. -/
def pauses (k : Nat) : (n : Nat) → Agenda
  | 0 => []
  | 1 => [(k, .suspend)]
  | n + 2 => List.replicate (n + 1) (k, .suspend) ++ [(k + 1, .suspend)]

/-- What a statement puts on the agenda: itself, or the suspensions of a wait. -/
def entries (k : Nat) : Stmt Expr → Agenda
  | .wait (.int n) => pauses k n.toInt.toNat
  | s => [(k, s)]

/-- The agenda of statements with waits after `k` places at which the process waits. -/
def waiting (k : Nat) : List (Stmt Expr) → Agenda
  | [] => []
  | s :: rest => entries k s ++ waiting (k + s.points) rest

/-- Executes the first statement, where nested statements may have waits. -/
def advanceWaiting (v : Valuation) : Agenda → Progress
  | (k, .branch c ts es) :: rest => v.evalThen c fun w =>
    .goes v (if w.truth then waiting k ts ++ rest else waiting (k + Stmt.listPoints ts) es ++ rest)
  | (k, .loop c body) :: rest => v.evalThen c fun w =>
    .goes v (if w.truth then waiting k body ++ (k, .loop c body) :: rest else rest)
  | agenda => agenda.advance v

/-- Statements with waits are executed up to the next suspension or the first failure. -/
inductive Reaches : Valuation → Agenda → Valuation × Except RunError (Nat × Agenda) → Prop
  | stops (h : agenda.advanceWaiting v = .stops v' result) : Reaches v agenda (v', result)
  | goes (h : agenda.advanceWaiting v = .goes v' rest) (hrest : Reaches v' rest out) :
    Reaches v agenda out

end Agenda

namespace SourceRun

/-- A process with waits before its registers have values. -/
def startWaiting (body : List (Stmt Expr)) : SourceRun := ⟨.empty, .waiting 0 body, 0⟩

def initWaiting (body : List (Stmt Expr)) (reset : Reset) : SourceRun :=
  ⟨reset.values (Stmt.declarations body), .waiting 0 body, 0⟩

/-- One step of a process that is executed with its waits as they are. -/
inductive Takes (r : SourceRun) : Except RunError Nat → SourceRun → Prop
  | yields {id : Nat} (h : r.agenda.Reaches r.values (v, .ok (id, rest))) :
    Takes r (.ok id) ⟨v, rest, r.steps + 1⟩
  | fails (h : r.agenda.Reaches r.values (v, .error e)) : Takes r (.error e) { r with values := v }

/-- A process that is executed with its waits as they are obeys commands; the results are those of
the steps. -/
inductive Obeys (body : List (Stmt Expr)) :
    SourceRun → List Command → List (Except RunError Nat) → SourceRun → Prop
  | done : Obeys body r [] [] r
  | init (h : Obeys body (initWaiting body reset) cs results r') :
    Obeys body r (.init reset :: cs) results r'
  | set (h : Obeys body (r.set x v) cs results r') : Obeys body r (.set x v :: cs) results r'
  | step (hstep : r.Takes result r₁) (h : Obeys body r₁ cs results r') :
    Obeys body r (.step :: cs) (result :: results) r'

end SourceRun

end Clockwork
