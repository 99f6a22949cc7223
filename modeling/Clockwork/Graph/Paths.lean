import Clockwork.Graph.Basic
import Clockwork.Path
import Clockwork.ProcessError

namespace Clockwork

/-- What keeps a walk from a suspension. -/
inductive Obstacle where
  | tooLong | endReached | headReached
deriving DecidableEq, Repr

variable {ε : Type}

/-- Every way to go on along an edge to a suspension over at most `depth` nodes, the true edges of
branches first. -/
def Graph.suffixes (g : Graph ε) :
    (depth : Nat) → Option NodeId → Except Obstacle (List (List (Waypoint ε)))
  | 0, _ => .error .tooLong
  | depth + 1, edge =>
    match edge.bind g.node? with
    | none => .error .endReached
    | some (.suspend id _) => .ok [[.suspend id]]
    | some (.block ss next) => do
      let rest ← g.suffixes depth next
      return rest.map (.block ss :: ·)
    | some (.branch c t f) => do
      let onTrue ← g.suffixes depth t
      let onFalse ← g.suffixes depth f
      return onTrue.map (.branch c true :: ·) ++ onFalse.map (.branch c false :: ·)
    | some (.head _) => .error .headReached

def Obstacle.toProcessError (start : Start) (maxDepth : Nat) : Obstacle → ProcessError ε
  | .tooLong => .pathTooLong start maxDepth
  | .endReached => .endReached start
  | .headReached => .headReached

def Graph.starts (g : Graph ε) : List (Start × NodeId) :=
  (.head, g.head) :: g.suspensions.map fun (i, id) => (.suspension id, i)

def Start.waypoint : Start → Waypoint ε
  | .head => .head
  | .suspension id => .suspend id

def Graph.pathsFrom (g : Graph ε) (maxDepth : Nat) :
    Start × NodeId → Except (ProcessError ε) (List (Path ε))
  | (start, i) => do
    let next := (g.node? i).bind Node.next?
    let suffixes ← (g.suffixes maxDepth next).mapError (·.toProcessError start maxDepth)
    return suffixes.map fun nodes => .ofNodes (start.waypoint :: nodes)

/-- Every path of a graph with at most `maxDepth` nodes after its start. A longer one is an error,
since it hints at a loop without a suspension. -/
def Graph.paths (g : Graph ε) (maxDepth : Nat) : Except (ProcessError ε) (List (Path ε)) := do
  return (← g.starts.mapM (g.pathsFrom maxDepth)).flatten

end Clockwork
