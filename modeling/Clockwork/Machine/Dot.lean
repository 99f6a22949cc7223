import Clockwork.Dot
import Clockwork.Machine.Basic

namespace Clockwork

open Dot

def Path.nodeName (i j : Nat) : String :=
  "p" ++ toString i ++ "_" ++ toString j

/-- A node of a path and the edge from the node before it. -/
def Waypoint.drawn (i j : Nat) (n : Waypoint) : String :=
  "    " ++ Path.nodeName i j ++ n.look.attributes ++
    if j = 0 then ""
    else "    " ++ Path.nodeName i (j - 1) ++ " -> " ++ Path.nodeName i j ++ ";\n"

/-- A path as a chain of nodes that ends in its transition. -/
def Path.cluster (i : Nat) (p : Path) (t : Transition Expr) : String :=
  let look : Look := ⟨"doubleoctagon", leftAligned (escape t.text) ++ "\\l"⟩
  "  subgraph cluster_" ++ toString i ++ " \x7b\n" ++
    String.join (p.nodes.zipIdx.map fun (n, j) => n.drawn i j) ++
    "    s" ++ toString i ++ look.attributes ++
    "    " ++ Path.nodeName i (p.nodes.length - 1) ++ " -> s" ++ toString i ++
    " [style=dashed];\n  \x7d\n"

def Machine.pathsDot (m : Machine Expr) (paths : List Path) : String :=
  drawing "paths" <| String.join <|
    (paths.zip m.transitions).zipIdx.map fun ((p, t), i) => p.cluster i t

end Clockwork
