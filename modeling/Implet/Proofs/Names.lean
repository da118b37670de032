/-
Implet/Proofs/Names.lean

Which names a tree uses and which it declares.  What matters about a function is
what its text says, whatever happens at run time: the names that its body uses
for globals (`FunDef.usesOuter`), whether a variable at the top of its body
takes the function's own name (`FunDef.RedeclaresSelf`), and the variables of
the blocks inside its body.

A block variable that stands in front of a global is harmless as long as nothing
is called from within the block, or no call can tell the difference.
`FunDef.ShadowsAgree` says that the block variables of a function that its own
text could meet in the place of a global have the type of the global;
`FunDef.Clean` says that there are no such variables at all.
-/
import Implet.Proofs.Typing

namespace Implet

/-! ### Names that are used -/

mutual

/-- Whether an expression uses a name. -/
def Expr.mentions (x : String) : Expr → Bool
  | .integer _ _ | .boolean _ _ => false
  | .ident id => id.name = x
  | .binary _ left right _ => left.mentions x || right.mentions x
  | .call func args _ => func.name = x || exprsMention x args

/-- Whether one of some expressions uses a name. -/
def exprsMention (x : String) : List Expr → Bool
  | [] => false
  | e :: es => e.mentions x || exprsMention x es

end

mutual

/-- Whether a statement uses a name for something outside of it. -/
def Stmt.mentions (x : String) : Stmt → Bool
  | .block declarations statements _ =>
    !(declaredNames declarations).contains x && stmtsMention x statements
  | .cond condition thenBranch none _ => condition.mentions x || thenBranch.mentions x
  | .cond condition thenBranch (some elseBranch) _ =>
    condition.mentions x || thenBranch.mentions x || elseBranch.mentions x
  | .loop condition body _ => condition.mentions x || body.mentions x
  | .assign target value _ => target.name = x || value.mentions x
  | .ret value _ => value.mentions x

/-- Whether one of some statements uses a name for something outside of it. -/
def stmtsMention (x : String) : List Stmt → Bool
  | [] => false
  | s :: ss => s.mentions x || stmtsMention x ss

end

/-- Whether the body of a function uses a name for a global. -/
def FunDef.usesOuter (x : String) (f : FunDef) : Bool :=
  f.name.name ≠ x && !(declaredNames f.params).contains x &&
    !(declaredNames f.body.declarations).contains x && stmtsMention x f.body.statements

/-! ### Calls -/

mutual

/-- Whether there is a call in an expression. -/
def Expr.hasCall : Expr → Bool
  | .integer _ _ | .boolean _ _ | .ident _ => false
  | .binary _ left right _ => left.hasCall || right.hasCall
  | .call _ _ _ => true

/-- Whether there is a call in a statement. -/
def Stmt.hasCall : Stmt → Bool
  | .block _ statements _ => stmtsHaveCall statements
  | .cond condition thenBranch none _ => condition.hasCall || thenBranch.hasCall
  | .cond condition thenBranch (some elseBranch) _ =>
    condition.hasCall || thenBranch.hasCall || elseBranch.hasCall
  | .loop condition body _ => condition.hasCall || body.hasCall
  | .assign _ value _ => value.hasCall
  | .ret value _ => value.hasCall

/-- Whether there is a call in some statements. -/
def stmtsHaveCall : List Stmt → Bool
  | [] => false
  | s :: ss => s.hasCall || stmtsHaveCall ss

end

/-! ### Names that are declared in blocks -/

mutual

/-- The names that are declared in the blocks of a statement. -/
def Stmt.blockNames : Stmt → List String
  | .block declarations statements _ => declaredNames declarations ++ stmtsBlockNames statements
  | .cond _ thenBranch none _ => thenBranch.blockNames
  | .cond _ thenBranch (some elseBranch) _ => thenBranch.blockNames ++ elseBranch.blockNames
  | .loop _ body _ => body.blockNames
  | .assign _ _ _ | .ret _ _ => []

/-- The names that are declared in the blocks of some statements. -/
def stmtsBlockNames : List Stmt → List String
  | [] => []
  | s :: ss => s.blockNames ++ stmtsBlockNames ss

end

section

variable (ρ : Valuation) (P : String → Ground → Prop)

mutual

/-- What is declared in a block with a call in it satisfies `P`. -/
def Stmt.Guarded (n : Nat) : Stmt → Prop
  | .block declarations statements _ =>
    (stmtsHaveCall statements → ∀ x g,
      (Frame.declared [] declarations (groundDecls ρ n declarations)).get? x = some g → P x g) ∧
    StmtsGuarded (n + mintedDecls declarations) statements
  | .cond _ thenBranch none _ => thenBranch.Guarded n
  | .cond _ thenBranch (some elseBranch) _ =>
    thenBranch.Guarded n ∧ elseBranch.Guarded (n + thenBranch.minted)
  | .loop _ body _ => body.Guarded n
  | .assign _ _ _ | .ret _ _ => True

/-- What is declared in the blocks with a call in them satisfies `P`. -/
def StmtsGuarded (n : Nat) : List Stmt → Prop
  | [] => True
  | s :: ss => s.Guarded n ∧ StmtsGuarded (n + s.minted) ss

end

variable {ρ P}

mutual

theorem Stmt.guarded_of_blockNames {n : Nat} {s : Stmt}
    (h : ∀ x ∈ s.blockNames, ∀ g, P x g) :
    s.Guarded ρ P n := by
  cases s with
  | block ds ss span =>
    rw [Stmt.blockNames] at h
    refine ⟨fun _ x g hx => h x (List.mem_append_left _ ?_) g,
      stmtsGuarded_of_blockNames fun x hx => h x (List.mem_append_right _ hx)⟩
    have hm := Frame.get?_isSome_iff.mp (Option.isSome_iff_exists.mpr ⟨g, hx⟩)
    rwa [Frame.names_declared _ (length_groundDecls ρ n ds), Frame.names_nil, List.append_nil,
      List.mem_reverse] at hm
  | cond condition thenBranch elseBranch span =>
    cases elseBranch with
    | none => exact thenBranch.guarded_of_blockNames h
    | some elseBranch =>
      rw [Stmt.blockNames] at h
      exact ⟨thenBranch.guarded_of_blockNames fun x hx => h x (List.mem_append_left _ hx),
        elseBranch.guarded_of_blockNames fun x hx => h x (List.mem_append_right _ hx)⟩
  | loop condition body span => exact body.guarded_of_blockNames h
  | assign | ret => trivial

theorem stmtsGuarded_of_blockNames {n : Nat} {ss : List Stmt}
    (h : ∀ x ∈ stmtsBlockNames ss, ∀ g, P x g) : StmtsGuarded ρ P n ss := by
  cases ss with
  | nil => trivial
  | cons s ss =>
    rw [stmtsBlockNames] at h
    exact ⟨s.guarded_of_blockNames fun x hx => h x (List.mem_append_left _ hx),
      stmtsGuarded_of_blockNames fun x hx => h x (List.mem_append_right _ hx)⟩

end

end

/-! ### What is asked of functions -/

namespace FunDef

/-- A variable at the top of the body has the name of the function. -/
def RedeclaresSelf (f : FunDef) : Prop := f.name.name ∈ declaredNames f.body.declarations

instance (f : FunDef) : Decidable f.RedeclaresSelf :=
  inferInstanceAs (Decidable (_ ∈ _))

/-- Where a variable of a block with a call in it hides a global that the body
uses, it has the type of the global. -/
def ShadowsAgree (ρ : Valuation) (n : Nat) (G : Frame Ground) (f : FunDef) : Prop :=
  StmtsGuarded ρ (fun x g => f.usesOuter x → ∀ g', G.get? x = some g' → g = g')
    (f.bodyFirst n + mintedDecls f.body.declarations) f.body.statements

/-- No variable at the top of the body has the name of the function, and no
variable of a block inside the body has the name of a global. -/
structure Clean (globals : List String) (f : FunDef) : Prop where
  self : ¬ f.RedeclaresSelf
  blocks : (stmtsBlockNames f.body.statements).Disjoint globals

theorem clean_iff {globals : List String} {f : FunDef} : f.Clean globals ↔
    ¬ f.RedeclaresSelf ∧ ∀ x ∈ stmtsBlockNames f.body.statements, x ∉ globals :=
  ⟨fun h => ⟨h.self, fun _ hx hg => h.blocks hx hg⟩, fun h => ⟨h.1, fun x hx hg => h.2 x hx hg⟩⟩

instance (globals : List String) (f : FunDef) : Decidable (f.Clean globals) :=
  decidable_of_iff _ clean_iff.symm

theorem Clean.shadowsAgree {ρ : Valuation} {n : Nat} {G : Frame Ground} {f : FunDef}
    (h : f.Clean G.names) : f.ShadowsAgree ρ n G := by
  refine stmtsGuarded_of_blockNames fun x hx g _ g' hg => ?_
  exact absurd (Frame.get?_isSome_iff.mp (Option.isSome_iff_exists.mpr ⟨g', hg⟩)) (h.blocks hx)

end FunDef

/-- The functions that an entry defines, in order. -/
def Entry.functions : Entry → List FunDef
  | .program p => p.functions
  | .function f => [f]
  | .declaration _ | .statement _ | .expression _ => []

/-- Where a variable of a block hides a global that one of some functions uses,
it has the type of the global. -/
def FunctionsAgree (ρ : Valuation) : (n : Nat) → Frame Ground → List FunDef → Prop
  | _, _, [] => True
  | n, G, f :: fs => f.ShadowsAgree ρ n G ∧ FunctionsAgree ρ (n + f.minted) (f.globals ρ n G) fs

/-- Functions are clean, each among the globals and the functions before it. -/
def FunctionsClean (globals : List String) : List FunDef → Prop
  | [] => True
  | f :: fs => f.Clean globals ∧ FunctionsClean (f.name.name :: globals) fs

/-- Cleanness is decided function by function. -/
def decideFunctionsClean : (globals : List String) → (fs : List FunDef) →
    Decidable (FunctionsClean globals fs)
  | _, [] => isTrue trivial
  | globals, f :: fs =>
    have := decideFunctionsClean (f.name.name :: globals) fs
    inferInstanceAs (Decidable (f.Clean globals ∧ FunctionsClean (f.name.name :: globals) fs))

instance (globals : List String) (fs : List FunDef) : Decidable (FunctionsClean globals fs) :=
  decideFunctionsClean globals fs

theorem FunctionsClean.agree {ρ : Valuation} {n : Nat} {G : Frame Ground}
    {fs : List FunDef} (h : FunctionsClean G.names fs) : FunctionsAgree ρ n G fs := by
  induction fs generalizing n G with
  | nil => trivial
  | cons f fs ih => exact ⟨h.1.shadowsAgree, ih h.2⟩

theorem FunctionsClean.not_redeclaresSelf {names : List String} {fs : List FunDef}
    (h : FunctionsClean names fs) : ∀ f ∈ fs, ¬ f.RedeclaresSelf := by
  induction fs generalizing names with
  | nil => exact fun _ hf => nomatch hf
  | cons f fs ih =>
    intro f' hf'
    rcases List.mem_cons.mp hf' with rfl | hf'
    · exact h.1.self
    · exact ih h.2 f' hf'

end Implet
