import Clockwork.Expr.Basic
import Clockwork.Stmt.Basic

namespace Clockwork

/-- Nodes are numbered in the order of their creation and keep their number. -/
abbrev NodeId := Nat

/-- A node with its outgoing edges; a missing edge leaves the process. -/
inductive Node (ε : Type := Expr) where
  | head (next : Option NodeId)
  | block (stmts : List (Stmt ε)) (next : Option NodeId)
  | branch (cond : ε) (onTrue onFalse : Option NodeId)
  | suspend (id : Nat) (next : Option NodeId)
deriving DecidableEq, Repr

inductive EdgeKind where
  | next | onTrue | onFalse
deriving DecidableEq, Repr

def EdgeKind.text : EdgeKind → String
  | .next => "next"
  | .onTrue => "T"
  | .onFalse => "F"

variable {ε : Type}

/-- The outgoing edges of a node, the true edge of a branch first. -/
def Node.edges : Node ε → List (EdgeKind × Option NodeId)
  | .head next | .block _ next | .suspend _ next => [(.next, next)]
  | .branch _ t f => [(.onTrue, t), (.onFalse, f)]

/-- The edge along which a walk leaves a head, a block or a suspension. -/
def Node.next? : Node ε → Option NodeId
  | .head next | .block _ next | .suspend _ next => next
  | .branch .. => none

def Node.mapEdges (f : Option NodeId → Option NodeId) : Node ε → Node ε
  | .head next => .head (f next)
  | .block ss next => .block ss (f next)
  | .branch c t e => .branch c (f t) (f e)
  | .suspend id next => .suspend id (f next)

def Node.withNext (target : Option NodeId) : Node ε → Node ε
  | .head _ => .head target
  | .block ss _ => .block ss target
  | .suspend id _ => .suspend id target
  | .branch c t e => .branch c t e

def Node.withFalse (target : Option NodeId) : Node ε → Node ε
  | .branch c t _ => .branch c t target
  | n => n

def Node.append (s : Stmt ε) : Node ε → Node ε
  | .block ss next => .block (ss ++ [s]) next
  | n => n

/-- The control flow of a process. A node that was removed leaves a gap in the numbering. -/
structure Graph (ε : Type := Expr) where
  nodes : Array (Option (Node ε))
  suspensionCount : Nat
  registers : List (String × Nat)
deriving DecidableEq, Repr

namespace Graph

def head (_ : Graph ε) : NodeId := 0

def node? (g : Graph ε) (i : NodeId) : Option (Node ε) :=
  g.nodes[i]?.join

def contains (g : Graph ε) (i : NodeId) : Bool :=
  (g.node? i).isSome

/-- The nodes that are left, by increasing number. -/
def present (g : Graph ε) : List (NodeId × Node ε) :=
  (List.range g.nodes.size).filterMap fun i => (g.node? i).map fun n => (i, n)

def size (g : Graph ε) : Nat :=
  g.present.length

def suspensions (g : Graph ε) : List (NodeId × Nat) :=
  g.present.filterMap fun
    | (i, .suspend id _) => some (i, id)
    | _ => none

def predecessors (g : Graph ε) (target : NodeId) : List (NodeId × EdgeKind) :=
  g.present.flatMap fun (i, n) =>
    n.edges.filterMap fun (label, next) => if next = some target then some (i, label) else none

def modify (g : Graph ε) (i : NodeId) (f : Node ε → Node ε) : Graph ε :=
  { g with nodes := g.nodes.modify i (Option.map f) }

/-- The target of an edge once a node has given way to another one. -/
def redirect (i : NodeId) (target next : Option NodeId) : Option NodeId :=
  if next = some i then target else next

/-- Removes a node and lets the edges to it lead to another one. -/
def splice (g : Graph ε) (i : NodeId) (target : Option NodeId) : Graph ε :=
  { g with
    nodes := (g.nodes.map (Option.map (Node.mapEdges (redirect i target)))).modify i
      fun _ => none }

theorem node?_modify (g : Graph ε) (i j : NodeId) (f : Node ε → Node ε) :
    (g.modify i f).node? j = if i = j then (g.node? j).map f else g.node? j := by
  simp only [node?, modify, Array.getElem?_modify]
  split
  · cases g.nodes[j]? <;> simp
  · rfl

theorem node?_splice (g : Graph ε) (i j : NodeId) (target : Option NodeId) :
    (g.splice i target).node? j =
      if i = j then none else (g.node? j).map (Node.mapEdges (redirect i target)) := by
  simp only [node?, splice, Array.getElem?_modify, Array.getElem?_map]
  split
  · cases g.nodes[j]? <;> simp
  · cases g.nodes[j]? <;> simp

end Graph

end Clockwork
