import Clockwork.Graph.Basic
import Clockwork.Path

namespace Clockwork.Dot

/-- Quotes and backslashes of a label are escaped. -/
def escape (text : String) : String :=
  String.join <| text.toList.map fun c =>
    if c = '\\' then "\\\\" else if c = '"' then "\\\"" else c.toString

def leftAligned (text : String) : String :=
  String.join <| text.toList.map fun c => if c = '\n' then "\\l" else c.toString

def blockLabel (ss : List (Stmt Expr)) : String :=
  String.join (ss.map fun s => escape s.text ++ "\\l")

structure Look where
  shape : String
  label : String

def headLook : Look := ⟨"doublecircle", "head"⟩

def blockLook (ss : List (Stmt Expr)) : Look := ⟨"box", blockLabel ss⟩

def branchLook (mark : String) (c : Expr) : Look := ⟨"invhouse", mark ++ " " ++ escape c.text⟩

def suspendLook (id : Nat) : Look := ⟨"oval", "suspend " ++ toString id⟩

def Look.attributes (look : Look) : String :=
  " [shape=" ++ look.shape ++ ", label=\"" ++ look.label ++ "\"];\n"

def drawing (title body : String) : String :=
  "digraph " ++ title ++ " \x7b\n  node [fontname=\"Courier\"];\n" ++ body ++ "\x7d\n"

end Clockwork.Dot

namespace Clockwork

open Dot

def Node.look : Node → Look
  | .head _ => headLook
  | .block ss _ => blockLook ss
  | .branch c _ _ => branchLook "if" c
  | .suspend id _ => suspendLook id

def Waypoint.look : Waypoint → Look
  | .head => headLook
  | .block ss => blockLook ss
  | .branch c taken => branchLook (takenText taken) c
  | .suspend id => suspendLook id

def Graph.nodeName (i : NodeId) : String :=
  "n" ++ toString i

/-- The edges of a node that stay in the process; those of a branch are labelled. -/
def Graph.edgeLines (i : NodeId) (n : Node) : String :=
  String.join <| n.edges.map fun
    | (_, none) => ""
    | (.next, some j) => "  " ++ nodeName i ++ " -> " ++ nodeName j ++ ";\n"
    | (label, some j) =>
      "  " ++ nodeName i ++ " -> " ++ nodeName j ++ " [label=\"" ++ label.text ++ "\"];\n"

def Graph.dot (g : Graph) : String :=
  drawing "cfg" <|
    String.join (g.present.map fun (i, n) => "  " ++ nodeName i ++ n.look.attributes) ++
    String.join (g.present.map fun (i, n) => edgeLines i n)

end Clockwork
