import Clockwork.Pool.Vars
import Clockwork.Waits

namespace Clockwork.Pool

/-- A step of a compilation: it may add to the pool, and it may fail. -/
abbrev Attempt := ExceptT (ProcessError ExprRef) (StateM Pool)

/-- The first number from `k` on whose counter name is not taken, looking at most `bound` numbers
ahead. The names that are tried stay in the pool. -/
def freeCounter (taken : List NameRef) : (bound k : Nat) → StateM Pool Nat
  | 0, k => return k
  | bound + 1, k => do
    if (← addName (counterName k)) ∈ taken then freeCounter taken bound (k + 1) else return k

def addCounter (taken : List NameRef) (width : Nat) (cs : Counters) :
    StateM Pool (String × Counters) := do
  let k ← freeCounter taken taken.length cs.next
  return (counterName k, ⟨k + 1, cs.widths ++ [(counterName k, width)]⟩)

/-- Adds the expressions of a counting loop: the counter and the literals, then the condition and
the increment. -/
def addCountingLoop (counter : String) (n : Int64) : StateM Pool (List (Stmt ExprRef)) := do
  let var ← addVar counter
  let zero ← add (.int 0)
  let one ← add (.int 1)
  let bound ← add (.int (n - 1))
  let cond ← add (.binary .lt var bound)
  let increment ← add (.binary .add var one)
  return [.assign [counter] zero, .loop cond [.suspend, .assign [counter] increment], .suspend]

def expandWait (taken : List NameRef) (cs : Counters) (count : ExprRef) :
    Attempt (List (Stmt ExprRef) × Counters) := do
  match (← get).get? count with
  | some (.int n) =>
    if n < 0 then throw (.waitCount count)
    else if n = 0 then return ([], cs)
    else if n = 1 then return ([.suspend], cs)
    else
      let (counter, cs) ← addCounter taken (bitWidth (n.toInt.toNat - 1)) cs
      return (← addCountingLoop counter n, cs)
  | _ => throw (.waitCount count)

mutual

def expandWaits (taken : List NameRef) (cs : Counters) :
    Stmt ExprRef → Attempt (List (Stmt ExprRef) × Counters)
  | .wait count => expandWait taken cs count
  | .branch c ts es => do
    let (ts, cs) ← expandWaitsList taken cs ts
    let (es, cs) ← expandWaitsList taken cs es
    return ([.branch c ts es], cs)
  | .loop c body => do
    let (body, cs) ← expandWaitsList taken cs body
    return ([.loop c body], cs)
  | s => return ([s], cs)

def expandWaitsList (taken : List NameRef) (cs : Counters) :
    List (Stmt ExprRef) → Attempt (List (Stmt ExprRef) × Counters)
  | [] => return ([], cs)
  | s :: rest => do
    let (ss, cs) ← expandWaits taken cs s
    let (rest, cs) ← expandWaitsList taken cs rest
    return (ss ++ rest, cs)

end

/-- Replaces every wait of a process by a loop over a counter of its own. -/
def expandProcess (process : ClockedProcess ExprRef) : Attempt (Expansion ExprRef) := do
  let taken ← addNames ((← get).processNames process)
  let (body, cs) ← expandWaitsList taken .none process.body
  return ⟨body, cs.widths⟩

end Clockwork.Pool
