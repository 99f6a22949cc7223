import Clockwork.Graph.Basic
import Clockwork.Propagation

namespace Clockwork.Graph

variable {ε : Type}

/-- Tries to change a graph at each of its nodes in turn and counts the changes. -/
def sweep (change? : Graph ε → NodeId → Option (Graph ε)) (g : Graph ε) : Graph ε × Nat :=
  (List.range g.nodes.size).foldl
    (fun (g, count) i =>
      match change? g i with
      | some g => (g, count + 1)
      | none => (g, count))
    (g, 0)

/-- Takes out a block without statements unless it leads to itself. -/
def withoutEmptyBlock? (g : Graph ε) (i : NodeId) : Option (Graph ε) :=
  match g.node? i with
  | some (.block [] next) => if next = some i then none else some (g.splice i next)
  | _ => none

/-- Lets a block lead past the branch that follows it if the statements of the block decide the
branch. -/
def withShortcut? (g : Graph) (i : NodeId) : Option Graph :=
  match g.node? i with
  | some (.block ss (some branch)) =>
    match g.node? branch with
    | some (.branch c t f) =>
      ((c.reduce (knownLiterals ss)).truth?).map fun taken =>
        g.modify i (Node.withNext (if taken then t else f))
    | _ => none
  | _ => none

/-- Takes out a branch with a literal condition unless it leads to itself. -/
def withoutLiteralBranch? (g : Graph) (i : NodeId) : Option Graph :=
  match g.node? i with
  | some (.branch c t f) =>
    c.truth?.bind fun taken =>
      let target := if taken then t else f
      if target = some i then none else some (g.splice i target)
  | _ => none

def pruneEmptyBlocks : Graph ε → Graph ε × Nat := sweep withoutEmptyBlock?

def shortcutDecided : Graph → Graph × Nat := sweep withShortcut?

def pruneLiteralBranches : Graph → Graph × Nat := sweep withoutLiteralBranch?

/-- Removes what does nothing, with or without the bypass of decided branches. -/
def simplify (bypass : Bool) (g : Graph) : Graph :=
  let g := g.pruneEmptyBlocks.1
  let g := if bypass then g.shortcutDecided.1 else g
  g.pruneLiteralBranches.1

end Clockwork.Graph
