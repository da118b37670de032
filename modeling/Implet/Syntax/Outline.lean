/-
Implet/Syntax/Outline.lean

Syntax trees as outlines: one line for each declaration, statement and heading,
two spaces of indentation for each level, expressions on the line of the
statement they belong to.  An outline is a list of lines with their levels;
`Entry.outline` writes it out.
-/
import Implet.Syntax.Inline

namespace Implet

/-- A line of an outline and the level it stands at. -/
structure OutlineLine where
  level : Nat
  text : String
  deriving DecidableEq

namespace OutlineLine

/-- A line as it is written, with its newline. -/
def render (line : OutlineLine) : String :=
  String.join (List.replicate line.level "  ") ++ line.text ++ "\n"

end OutlineLine

/-- A declaration or parameter as it is written in a program. -/
def Decl.text (d : Decl) : String :=
  match d.type with
  | some type => type.text ++ " " ++ d.name.name
  | none => "var " ++ d.name.name

/-- The line of a declaration. -/
def Decl.outlineAt (level : Nat) (d : Decl) : OutlineLine := ⟨level, "Declare " ++ d.text⟩

mutual

/-- The lines of a statement. -/
def Stmt.outlineAt (level : Nat) : Stmt → List OutlineLine
  | .block declarations statements _ =>
    ⟨level, "Block"⟩ ::
      (declarations.map (Decl.outlineAt (level + 1)) ++ outlineStmts (level + 1) statements)
  | .cond condition thenBranch none _ =>
    ⟨level, "If " ++ condition.text⟩ :: ⟨level + 1, "Then"⟩ :: thenBranch.outlineAt (level + 2)
  | .cond condition thenBranch (some elseBranch) _ =>
    ⟨level, "If " ++ condition.text⟩ :: ⟨level + 1, "Then"⟩ ::
      (thenBranch.outlineAt (level + 2) ++
        ⟨level + 1, "Else"⟩ :: elseBranch.outlineAt (level + 2))
  | .loop condition body _ => ⟨level, "While " ++ condition.text⟩ :: body.outlineAt (level + 1)
  | .assign target value _ => [⟨level, "Assign " ++ target.name ++ " := " ++ value.text⟩]
  | .ret value _ => [⟨level, "Return " ++ value.text⟩]

/-- The lines of statements that follow each other. -/
def outlineStmts (level : Nat) : List Stmt → List OutlineLine
  | [] => []
  | s :: ss => s.outlineAt level ++ outlineStmts level ss

end

/-- The lines of a function. -/
def FunDef.outlineAt (level : Nat) (f : FunDef) : List OutlineLine :=
  ⟨level, "Function " ++ f.name.name ++ "(" ++ ", ".intercalate (f.params.map Decl.text) ++ ")"⟩
    :: (Stmt.ofBlock f.body).outlineAt (level + 1)

/-- The lines of a program: its three sections, empty or not. -/
def Program.outlineAt (level : Nat) (p : Program) : List OutlineLine :=
  ⟨level, "Program"⟩ :: ⟨level + 1, "Functions"⟩ ::
    (p.functions.flatMap (FunDef.outlineAt (level + 2)) ++
      ⟨level + 1, "Globals"⟩ :: (p.globals.map (Decl.outlineAt (level + 2)) ++
        ⟨level + 1, "Main"⟩ :: outlineStmts (level + 2) p.main))

/-- The lines of an entry. -/
def Entry.outlineAt (level : Nat) : Entry → List OutlineLine
  | .program p => p.outlineAt level
  | .function f => f.outlineAt level
  | .declaration d => [d.outlineAt level]
  | .statement s => s.outlineAt level
  | .expression e => [⟨level, "Expression " ++ e.text⟩]

/-- The outline of an entry, starting at a given level. -/
def Entry.outline (level : Nat) (entry : Entry) : String :=
  String.join ((entry.outlineAt level).map OutlineLine.render)

end Implet
