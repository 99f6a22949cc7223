import Clockwork.Compile
import Clockwork.Demo.Settings
import Clockwork.Machine.Dot
import Clockwork.Run.Machine

namespace Clockwork.Demo

def Sample.process (s : Sample) : ClockedProcess Expr :=
  let looping (loop : List (Stmt Expr)) : List (Stmt Expr) := [.loop (.bool true) loop]
  let named : List (String × Direction) → List (Stmt Expr) → ClockedProcess Expr :=
    fun ports body => ⟨s.name, .ofList ports, body⟩
  match s with
  | .straight => named [] (looping [.suspend, .assign ["x"] (.int 1), .suspend])
  | .branch =>
    named [("ready", .input)] <| .register "counter" (.int 8) ::
      looping [.branch (.var "ready") [.suspend] [.update "counter" .add (.int 1)], .suspend]
  | .constant =>
    named [] <| looping
      [.assign ["a"] (.int 5),
        .branch (.binary .gt (.var "a") (.int 3)) [.suspend] [.suspend]]
  | .repeated => named [] (looping [.wait (.int 4)])

/-- What the program prints and the files that it writes, as pairs of a name and a content. -/
structure Report where
  output : String
  files : List (String × String)
deriving DecidableEq, Repr

def drawInputs (r : Xoshiro) (run : MachineRun) : List String → Xoshiro × MachineRun
  | [] => (r, run)
  | x :: rest => drawInputs r.nextBool.2 (run.set x (.bool r.nextBool.1)) rest

def trace (m : Machine Expr) (inputs : List String) :
    Nat → Xoshiro → MachineRun → Except RunError (List Nat)
  | 0, _, _ => .ok []
  | steps + 1, r, run => do
    let (r, run) := drawInputs r run inputs
    let (result, run) := run.step m
    return (← result) :: (← trace m inputs steps r run)

/-- The lines about a simulation from random registers, or nothing if no step is asked for. The
inputs and the registers come from two generators with one seed. -/
def simulation (p : ClockedProcess Expr) (m : Machine Expr) (steps : Nat) (seed : UInt64) :
    Except RunError String :=
  if steps = 0 then .ok ""
  else do
    let ids ← trace m (p.portsOf .input) steps (.ofSeed seed) (.init m (.random seed))
    return "\nsuspension points: [" ++ ", ".intercalate (ids.map toString) ++ "]\n"

def Settings.report? (s : Settings) : Option Report := do
  let process := (s.sample.getD .branch).process
  let options := { Options.default with bypass := !s.noBypass }
  let flow ← (process.simplifiedFlow options).toOption
  let paths ← (flow.graph.paths options.maxPathDepth).toOption
  let machine := flow.machine process options.stateVar paths
  let simulation ←
    (simulation process machine ((s.steps.getD 0).toNat) (s.seed.getD 0)).toOption
  let details :=
    if s.verbose then
      process.text ++ "\n\n" ++ String.join (paths.map fun p => p.text ++ "\n") ++ "\n"
    else ""
  let cfgDot := s.cfgDot.map fun name => (name, flow.graph.dot)
  let pathsDot := s.pathsDot.map fun name =>
    (name, machine.pathsDot (paths.map Path.propagate))
  return ⟨details ++ machine.text ++ "\n" ++ simulation, cfgDot.toList ++ pathsDot.toList⟩

/-- The report for the arguments of the program, if they make sense. -/
def report? (arguments : List String) : Option Report := do
  (← Settings.blank.read arguments).report?

end Clockwork.Demo
