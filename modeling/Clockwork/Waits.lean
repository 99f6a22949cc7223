import Clockwork.ClockedProcess
import Clockwork.ProcessError

namespace Clockwork

def counterName (k : Nat) : String :=
  "__repeat" ++ toString k

/-- The first number from `k` on whose counter name is not taken, looking at most `bound` numbers
ahead. A bound of as many numbers as there are taken names never gives out. -/
def freeCounter (taken : List String) : (bound k : Nat) → Nat
  | 0, k => k
  | bound + 1, k => if counterName k ∈ taken then freeCounter taken bound (k + 1) else k

/-- The counters handed out so far, in order, and the number to try next. -/
structure Counters where
  next : Nat
  widths : List (String × Nat)
deriving DecidableEq, Repr

def Counters.none : Counters := ⟨0, []⟩

/-- Hands out a counter of a width, under a name that the process does not use. -/
def Counters.add (taken : List String) (width : Nat) (cs : Counters) : String × Counters :=
  let k := freeCounter taken taken.length cs.next
  (counterName k, ⟨k + 1, cs.widths ++ [(counterName k, width)]⟩)

/-- A wait of `n` clock edges. The last edge is awaited outside of the loop, so the counter never
exceeds `n - 1`. -/
def countingLoop (counter : String) (n : Int64) : List (Stmt Expr) :=
  [.assign [counter] (.int 0),
    .loop (.binary .lt (.var counter) (.int (n - 1)))
      [.suspend, .assign [counter] (.binary .add (.var counter) (.int 1))],
    .suspend]

/-- Replaces a wait by suspensions; only a wait of more than one clock edge needs a counter. -/
def expandWait (taken : List String) (cs : Counters) :
    Expr → Except ProcessError (List (Stmt Expr) × Counters)
  | .int n =>
    if n < 0 then .error (.waitCount (.int n))
    else if n = 0 then .ok ([], cs)
    else if n = 1 then .ok ([.suspend], cs)
    else
      let (counter, cs) := cs.add taken (bitWidth (n.toInt.toNat - 1))
      .ok (countingLoop counter n, cs)
  | count => .error (.waitCount count)

mutual

def Stmt.expandWaits (taken : List String) (cs : Counters) :
    Stmt Expr → Except ProcessError (List (Stmt Expr) × Counters)
  | .wait count => expandWait taken cs count
  | .branch c ts es => do
    let (ts, cs) ← Stmt.expandWaitsList taken cs ts
    let (es, cs) ← Stmt.expandWaitsList taken cs es
    return ([.branch c ts es], cs)
  | .loop c body => do
    let (body, cs) ← Stmt.expandWaitsList taken cs body
    return ([.loop c body], cs)
  | s => return ([s], cs)

def Stmt.expandWaitsList (taken : List String) (cs : Counters) :
    List (Stmt Expr) → Except ProcessError (List (Stmt Expr) × Counters)
  | [] => return ([], cs)
  | s :: rest => do
    let (ss, cs) ← s.expandWaits taken cs
    let (rest, cs) ← Stmt.expandWaitsList taken cs rest
    return (ss ++ rest, cs)

end

/-- A body without waits and the counters that it uses, with their widths. -/
structure Expansion (ε : Type := Expr) where
  body : List (Stmt ε)
  counters : List (String × Nat)
deriving DecidableEq, Repr

/-- Replaces every wait of a process by a loop over a counter of its own. -/
def ClockedProcess.expandWaits (p : ClockedProcess Expr) : Except ProcessError Expansion := do
  let (body, cs) ← Stmt.expandWaitsList p.names .none p.body
  return ⟨body, cs.widths⟩

end Clockwork
