import Clockwork.Demo.Report

open Clockwork

/-- Compiles a sample process into a state machine and prints it. -/
def main (arguments : List String) : IO UInt32 := do
  match Demo.report? arguments with
  | none =>
    IO.eprintln "wrong arguments"
    return 2
  | some report =>
    for (name, content) in report.files do
      IO.FS.writeFile name content
    IO.print report.output
    return 0
