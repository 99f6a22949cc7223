import Clockwork.Stmt.Text

namespace Clockwork

/-- Where a path starts: at the entry of a process or at one of its suspensions. -/
inductive Start where
  | head
  | suspension (id : Nat)
deriving DecidableEq, Repr

def Start.text : Start → String
  | .head => "head"
  | .suspension id => "suspension " ++ toString id

/-- The reasons for which a process has no state machine, over any representation `ε` of its
expressions. -/
inductive ProcessError (ε : Type := Expr) where
  | emptyBody
  | noMainLoop (last : Stmt ε)
  | stateVarUsed (name : String)
  | endReached (start : Start)
  | headReached
  | waitCount (count : ε)
  | registerWidth (name : String) (width : ε)
  | notDeclaration (stmt : Stmt ε)
  | targetCount (stmt : Stmt ε)
  | unexpandedWait (stmt : Stmt ε)
  | lateRegister (name : String)
  | pathTooLong (start : Start) (depth : Nat)
deriving DecidableEq, Repr

def ProcessError.map {ε δ : Type} (f : ε → δ) : ProcessError ε → ProcessError δ
  | .emptyBody => .emptyBody
  | .noMainLoop last => .noMainLoop (last.map f)
  | .stateVarUsed x => .stateVarUsed x
  | .endReached start => .endReached start
  | .headReached => .headReached
  | .waitCount n => .waitCount (f n)
  | .registerWidth x w => .registerWidth x (f w)
  | .notDeclaration s => .notDeclaration (s.map f)
  | .targetCount s => .targetCount (s.map f)
  | .unexpandedWait s => .unexpandedWait (s.map f)
  | .lateRegister x => .lateRegister x
  | .pathTooLong start depth => .pathTooLong start depth

inductive ProcessError.Kind where
  | structural | unsupported | infiniteGraph
deriving DecidableEq, Repr

/-- A process is malformed, or uses something that has no counterpart in hardware, or may run
forever between two clock edges. -/
def ProcessError.kind : ProcessError → Kind
  | .emptyBody | .noMainLoop _ | .stateVarUsed _ | .endReached _ | .headReached => .structural
  | .waitCount _ | .registerWidth .. | .notDeclaration _ | .targetCount _ | .unexpandedWait _
  | .lateRegister _ => .unsupported
  | .pathTooLong .. => .infiniteGraph

def ProcessError.detail : ProcessError → String
  | .emptyBody => "process body is empty, expected an infinite loop"
  | .noMainLoop last => "process body needs to end in an infinite loop, not:\n" ++ last.text
  | .stateVarUsed x => "the state variable `" ++ x ++ "` is already used by the process"
  | .endReached start =>
    "control reaches the end of the process without a suspension, starting at " ++ start.text
  | .headReached => "an edge points back to the head of the process"
  | .waitCount n =>
    "the number of suspensions needs to be a non-negative integer literal, not `" ++ n.text ++ "`"
  | .registerWidth x w =>
    "register `" ++ x ++ "` needs a positive integer literal as width, not `" ++ w.text ++ "`"
  | .notDeclaration s =>
    "only register declarations may appear before the main loop, not `" ++ s.text ++ "`"
  | .targetCount s => "assignments need exactly one target: `" ++ s.text ++ "`"
  | .unexpandedWait s => "`" ++ s.text ++ "` needs to be desugared into a loop first"
  | .lateRegister x => "register `" ++ x ++ "` needs to be declared before the main loop"
  | .pathTooLong start depth =>
    "path starting at " ++ start.text ++ " is longer than " ++ toString depth ++
      " nodes, the process probably contains a loop without a suspension point"

def ProcessError.message (e : ProcessError) : String :=
  match e.kind with
  | .structural => "malformed process: " ++ e.detail
  | .unsupported => "unsupported construct: " ++ e.detail
  | .infiniteGraph => e.detail

end Clockwork
