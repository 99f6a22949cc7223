namespace Clockwork.Demo

inductive Sample where
  | straight | branch | constant | repeated
deriving DecidableEq, Repr

def Sample.name : Sample → String
  | .straight => "straight"
  | .branch => "branch"
  | .constant => "constant"
  | .repeated => "repeat"

def Sample.ofName? (name : String) : Option Sample :=
  [Sample.straight, .branch, .constant, .repeated].find? fun s => s.name = name

/-- What the arguments have asked for so far. -/
structure Settings where
  sample : Option Sample
  verbose : Bool
  noBypass : Bool
  cfgDot : Option String
  pathsDot : Option String
  steps : Option UInt64
  seed : Option UInt64
deriving DecidableEq, Repr

namespace Settings

def blank : Settings := ⟨none, false, false, none, none, none, none⟩

/-- A number of at most 64 bits in decimal digits, possibly after a plus sign. -/
def number? (text : String) : Option UInt64 :=
  let digits := match text.toList with
    | '+' :: rest => rest
    | cs => cs
  if digits.isEmpty || !digits.all Char.isDigit then none
  else
    let n := digits.foldl (fun n c => 10 * n + (c.toNat - '0'.toNat)) 0
    if n < UInt64.size then some (UInt64.ofNat n) else none

def setSample (s : Settings) (name : String) : Option Settings :=
  if s.sample.isSome then none
  else (Sample.ofName? name).map fun sample => { s with sample := some sample }

/-- Sets a flag; this can be done once. -/
def setFlag (s : Settings) : String → Option Settings
  | "verbose" => if s.verbose then none else some { s with verbose := true }
  | "no-bypass" => if s.noBypass then none else some { s with noBypass := true }
  | _ => none

def takesValue (option : String) : Bool :=
  option ∈ ["cfg-dot", "paths-dot", "steps", "seed"]

def setOption (s : Settings) (option value : String) : Option Settings :=
  match option with
  | "cfg-dot" => if s.cfgDot.isSome then none else some { s with cfgDot := some value }
  | "paths-dot" => if s.pathsDot.isSome then none else some { s with pathsDot := some value }
  | "steps" =>
    if s.steps.isSome then none
    else (number? value).map fun n => { s with steps := some n }
  | "seed" =>
    if s.seed.isSome then none
    else (number? value).map fun n => { s with seed := some n }
  | _ => none

inductive Form where
  | plain
  | short (flags : List Char)
  | long (name : String) (value : Option String)
  | separator

/-- An argument that starts with a hyphen is an option, a lone hyphen apart; two hyphens alone end
the options. -/
def Form.of (argument : String) : Form :=
  match argument.toList with
  | ['-', '-'] => .separator
  | '-' :: '-' :: cs =>
    let name := String.ofList (cs.takeWhile (· ≠ '='))
    match cs.dropWhile (· ≠ '=') with
    | [] => .long name none
    | _ :: value => .long name (some (String.ofList value))
  | '-' :: c :: cs => .short (c :: cs)
  | _ => .plain

/-- Reads arguments in any order. A value follows its option as the next argument, unless that
looks like an option itself, or after an equals sign. -/
def read (s : Settings) : List String → Option Settings
  | [] => some s
  | argument :: rest =>
    match Form.of argument with
    | .plain => do (← s.setSample argument).read rest
    | .separator => rest.foldlM setSample s
    | .short flags => do
      let s ← flags.foldlM (fun s c => if c = 'v' then s.setFlag "verbose" else none) s
      s.read rest
    | .long name (some value) => do (← s.setOption name value).read rest
    | .long name none =>
      if takesValue name then
        match rest with
        | [] => none
        | value :: rest =>
          match Form.of value with
          | .plain => do (← s.setOption name value).read rest
          | _ => none
      else do (← s.setFlag name).read rest

end Settings

end Clockwork.Demo
