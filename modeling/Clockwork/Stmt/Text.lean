import Clockwork.Expr.Basic
import Clockwork.Stmt.Basic

namespace Clockwork

def indentation (level : Nat) : String :=
  String.ofList (List.replicate (2 * level) ' ')

mutual

/-- The lines of a statement at a level of nesting. An empty alternative is left out. -/
def Stmt.lines (level : Nat) : Stmt Expr → List String
  | .register x w => [indentation level ++ "reg " ++ x ++ ": bv<" ++ w.text ++ ">"]
  | .assign xs v => [indentation level ++ String.join (xs.map (· ++ " = ")) ++ v.text]
  | .update x op v => [indentation level ++ x ++ " " ++ op.glyph ++ "= " ++ v.text]
  | .expr v => [indentation level ++ v.text]
  | .branch c ts [] => (indentation level ++ "if " ++ c.text ++ ":") :: Stmt.bodyLines (level + 1) ts
  | .branch c ts (e :: es) =>
    (indentation level ++ "if " ++ c.text ++ ":") :: Stmt.bodyLines (level + 1) ts ++
      (indentation level ++ "else:") :: Stmt.bodyLines (level + 1) (e :: es)
  | .loop c body =>
    (indentation level ++ "while " ++ c.text ++ ":") :: Stmt.bodyLines (level + 1) body
  | .suspend => [indentation level ++ "suspend"]
  | .wait n => [indentation level ++ "suspend(" ++ n.text ++ ")"]

/-- The lines of a nested body; an empty one is written as `pass`. -/
def Stmt.bodyLines (level : Nat) : List (Stmt Expr) → List String
  | [] => [indentation level ++ "pass"]
  | s :: rest => s.lines level ++ Stmt.listLines level rest

def Stmt.listLines (level : Nat) : List (Stmt Expr) → List String
  | [] => []
  | s :: rest => s.lines level ++ Stmt.listLines level rest

end

def Stmt.text (s : Stmt Expr) : String :=
  "\n".intercalate (s.lines 0)

def Stmt.listText (ss : List (Stmt Expr)) : String :=
  "\n".intercalate (Stmt.listLines 0 ss)

end Clockwork
