/-
Implet/Proofs/Typing.lean

The typing rules.  They are about ground types: a valuation says what each type
variable stands for, and a `var` declaration, a `var` parameter and the result
of a function have the type of the variable that is made for them.  The
variables are made in the order in which the text is read, so `n` is passed
along, the number of the next one, and a tree `minted` as many of them as it has
unannotated names.

Main definitions: `Expr.HasType`, `Stmt.Typed`, `FunDef.Typed` and
`Entry.Typed`.
-/
import Implet.Proofs.Scopes
import Implet.Proofs.Valuations

namespace Implet

/-- The types of the names in scope. -/
abbrev Context := Scope Ground

variable (ρ : Valuation)

/-- What the types of a frame stand for. -/
def Frame.ground (f : Frame Ty) : Frame Ground := f.map fun b => (b.1, b.2.ground ρ)

/-- What the types of a scope stand for. -/
def Scope.ground (s : Scope Ty) : Context := ⟨s.frames.map (Frame.ground ρ)⟩

@[simp] theorem Frame.ground_nil : Frame.ground ρ [] = [] := rfl

@[simp] theorem Frame.ground_cons (b : String × Ty) (f : Frame Ty) :
    Frame.ground ρ (b :: f) = (b.1, b.2.ground ρ) :: Frame.ground ρ f := rfl

@[simp] theorem Frame.names_ground (f : Frame Ty) : (f.ground ρ).names = f.names := by
  simp [Frame.names, Frame.ground]

theorem Frame.get?_ground (f : Frame Ty) (name : String) :
    (f.ground ρ).get? name = (f.get? name).map (Ty.ground ρ) := by
  induction f with
  | nil => rfl
  | cons b f ih =>
    rw [ground_cons, get?_cons, get?_cons, ih]
    split <;> rfl

theorem Scope.get?_ground (s : Scope Ty) (name : String) :
    (s.ground ρ).get? name = (s.get? name).map (Ty.ground ρ) := by
  obtain ⟨fs⟩ := s
  induction fs with
  | nil => rfl
  | cons f fs ih =>
    show Scope.get? ⟨f.ground ρ :: fs.map (Frame.ground ρ)⟩ name = _
    rw [get?_cons, get?_cons, Frame.get?_ground]
    cases f.get? name with
    | none => exact ih
    | some t => rfl

/-! ### Expressions -/

/-- An operator takes two operands of one type to a result. -/
def BinOp.HasTypes (operand result : Ground) : BinOp → Prop
  | .add | .sub | .mul | .div => operand = .int ∧ result = .int
  | .lt | .gt => operand = .int ∧ result = .bool
  | .and | .or => operand = .bool ∧ result = .bool
  | .eq => operand.IsBase ∧ result = .bool

mutual

/-- An expression has a type in a context. -/
def Expr.HasType (Γ : Context) : Expr → Ground → Prop
  | .integer _ _, g => g = .int
  | .boolean _ _, g => g = .bool
  | .ident id, g => Γ.get? id.name = some g
  | .binary op left right _, g =>
    ∃ operand, op.HasTypes operand g ∧ left.HasType Γ operand ∧ right.HasType Γ operand
  | .call func args _, g => ∃ params, Γ.get? func.name = some (.func params g) ∧
    HaveTypes Γ args params

/-- Expressions have types in a context, one each. -/
def HaveTypes (Γ : Context) : List Expr → List Ground → Prop
  | [], gs => gs = []
  | e :: es, gs => ∃ g gs', gs = g :: gs' ∧ e.HasType Γ g ∧ HaveTypes Γ es gs'

end

theorem HaveTypes.length_eq {Γ : Context} {es : List Expr} {gs : List Ground}
    (h : HaveTypes Γ es gs) : gs.length = es.length := by
  induction es generalizing gs with
  | nil =>
    obtain rfl : gs = [] := h
    rfl
  | cons e es ih =>
    obtain ⟨g, gs', rfl, -, h⟩ := h
    rw [List.length_cons, List.length_cons, ih h]

/-! ### Declarations -/

/-- The names that are declared. -/
def declaredNames (ds : List Decl) : List String := ds.map (·.name.name)

/-- The number of variables that are made for a declaration. -/
def Decl.minted (d : Decl) : Nat := if d.type.isNone then 1 else 0

/-- The type that a declaration gives its name. -/
def Decl.ground (n : Nat) (d : Decl) : Ground :=
  ((d.type.map Ty.ofBase).getD (.var n)).ground ρ

/-- The number of variables that are made for declarations. -/
def mintedDecls : List Decl → Nat
  | [] => 0
  | d :: ds => d.minted + mintedDecls ds

/-- The types that declarations give their names. -/
def groundDecls : (n : Nat) → List Decl → List Ground
  | _, [] => []
  | n, d :: ds => d.ground ρ n :: groundDecls (n + d.minted) ds

/-- A frame with some names declared after those it has. -/
def Frame.declared {V : Type} (f : Frame V) (ds : List Decl) (vs : List V) : Frame V :=
  ((declaredNames ds).zip vs).reverse ++ f

@[simp] theorem mintedDecls_cons (d : Decl) (ds : List Decl) :
    mintedDecls (d :: ds) = d.minted + mintedDecls ds := rfl

@[simp] theorem length_groundDecls (n : Nat) (ds : List Decl) :
    (groundDecls ρ n ds).length = ds.length := by
  induction ds generalizing n with
  | nil => rfl
  | cons d ds ih => rw [groundDecls, List.length_cons, List.length_cons, ih]

section

variable {V : Type}

@[simp] theorem Frame.declared_nil (f : Frame V) (vs : List V) : f.declared [] vs = f :=
  rfl

@[simp] theorem Frame.declared_cons (f : Frame V) (d : Decl) (ds : List Decl) (v : V)
    (vs : List V) :
    f.declared (d :: ds) (v :: vs) = Frame.declared ((d.name.name, v) :: f) ds vs := by
  simp [declared, declaredNames]

theorem Frame.names_declared (f : Frame V) {ds : List Decl} {vs : List V}
    (h : vs.length = ds.length) :
    (f.declared ds vs).names = (declaredNames ds).reverse ++ f.names := by
  induction ds generalizing f vs with
  | nil => rfl
  | cons d ds ih =>
    cases vs with
    | nil => cases h
    | cons v vs =>
      rw [declared_cons, ih _ (by simpa using h)]
      simp [declaredNames]

end

/-! ### Statements -/

mutual

/-- The number of variables that are made for a statement. -/
def Stmt.minted : Stmt → Nat
  | .block declarations statements _ => mintedDecls declarations + mintedStmts statements
  | .cond _ thenBranch none _ => thenBranch.minted
  | .cond _ thenBranch (some elseBranch) _ => thenBranch.minted + elseBranch.minted
  | .loop _ body _ => body.minted
  | .assign _ _ _ | .ret _ _ => 0

/-- The number of variables that are made for statements. -/
def mintedStmts : List Stmt → Nat
  | [] => 0
  | s :: ss => s.minted + mintedStmts ss

end

mutual

/-- A statement is well typed in a context.  `result` is the type to be
returned, inside a function. -/
def Stmt.Typed (result : Option Ground) (n : Nat) (Γ : Context) : Stmt → Prop
  | .block declarations statements _ => (declaredNames declarations).Nodup ∧
    StmtsTyped result (n + mintedDecls declarations)
      ⟨Frame.declared [] declarations (groundDecls ρ n declarations) :: Γ.frames⟩ statements
  | .cond condition thenBranch none _ =>
    condition.HasType Γ .bool ∧ thenBranch.Typed result n Γ.enter
  | .cond condition thenBranch (some elseBranch) _ =>
    condition.HasType Γ .bool ∧ thenBranch.Typed result n Γ.enter ∧
      elseBranch.Typed result (n + thenBranch.minted) Γ.enter
  | .loop condition body _ => condition.HasType Γ .bool ∧ body.Typed result n Γ.enter
  | .assign target value _ => ∃ g, Γ.get? target.name = some g ∧ value.HasType Γ g
  | .ret value _ => ∃ g, result = some g ∧ value.HasType Γ g

/-- Statements that follow each other are well typed. -/
def StmtsTyped (result : Option Ground) (n : Nat) (Γ : Context) : List Stmt → Prop
  | [] => True
  | s :: ss => s.Typed result n Γ ∧ StmtsTyped result (n + s.minted) Γ ss

end

/-! ### Functions and entries -/

namespace FunDef

/-- The number of variables that are made for a function: those of the
parameters, one for the result, and those of the body. -/
def minted (f : FunDef) : Nat :=
  mintedDecls f.params + 1 + mintedDecls f.body.declarations + mintedStmts f.body.statements

/-- The type of the result of a function. -/
def result (n : Nat) (f : FunDef) : Ground := ρ (n + mintedDecls f.params)

/-- The type of a function. -/
def ground (n : Nat) (f : FunDef) : Ground :=
  .func (groundDecls ρ n f.params) (f.result ρ n)

/-- The number of the first variable that is made for the body of a function. -/
def bodyFirst (n : Nat) (f : FunDef) : Nat := n + mintedDecls f.params + 1

/-- The parameters of a function and the variables at the top of its body, which
share a frame. -/
def frame (n : Nat) (f : FunDef) : Frame Ground :=
  (Frame.declared [] f.params (groundDecls ρ n f.params)).declared f.body.declarations
    (groundDecls ρ (f.bodyFirst n) f.body.declarations)

/-- The globals once a function has been defined. -/
def globals (n : Nat) (G : Frame Ground) (f : FunDef) : Frame Ground :=
  (f.name.name, f.ground ρ n) :: G

/-- A function is well typed among the globals `G`. -/
structure Typed (n : Nat) (G : Frame Ground) (f : FunDef) : Prop where
  fresh : f.name.name ∉ G.names
  nodup_params : (declaredNames f.params).Nodup
  nodup_declarations : (declaredNames f.body.declarations).Nodup
  disjoint : (declaredNames f.params).Disjoint (declaredNames f.body.declarations)
  body : StmtsTyped ρ (some (f.result ρ n)) (f.bodyFirst n + mintedDecls f.body.declarations)
    ⟨[f.frame ρ n, f.globals ρ n G]⟩ f.body.statements

end FunDef

/-- The number of variables that are made for functions. -/
def mintedFunctions : List FunDef → Nat
  | [] => 0
  | f :: fs => f.minted + mintedFunctions fs

/-- The globals once functions have been defined. -/
def globalsAfter : (n : Nat) → Frame Ground → List FunDef → Frame Ground
  | _, G, [] => G
  | n, G, f :: fs => globalsAfter (n + f.minted) (f.globals ρ n G) fs

/-- Functions are well typed, each among the globals and the functions before it. -/
def FunctionsTyped : (n : Nat) → Frame Ground → List FunDef → Prop
  | _, _, [] => True
  | n, G, f :: fs => f.Typed ρ n G ∧ FunctionsTyped (n + f.minted) (f.globals ρ n G) fs

/-- The globals once variables have been declared. -/
def Frame.withGlobals (n : Nat) (G : Frame Ground) (ds : List Decl) : Frame Ground :=
  G.declared ds (groundDecls ρ n ds)

namespace Entry

/-- The number of variables that are made for an entry. -/
def minted : Entry → Nat
  | program p => mintedFunctions p.functions + mintedDecls p.globals + mintedStmts p.main
  | function f => f.minted
  | declaration d => d.minted
  | statement s => s.minted
  | expression _ => 0

/-- The globals after an entry. -/
def globals (n : Nat) (G : Frame Ground) : Entry → Frame Ground
  | program p =>
    (globalsAfter ρ n G p.functions).withGlobals ρ (n + mintedFunctions p.functions) p.globals
  | function f => f.globals ρ n G
  | declaration d => G.withGlobals ρ n [d]
  | statement _ | expression _ => G

/-- An entry is well typed among the globals `G`.  A bare expression and a
function have a type. -/
def Typed (n : Nat) (G : Frame Ground) (type : Option Ground) : Entry → Prop
  | program p => type = none ∧ FunctionsTyped ρ n G p.functions ∧
    (declaredNames p.globals).Nodup ∧
    (globalsAfter ρ n G p.functions).names.Disjoint (declaredNames p.globals) ∧
    StmtsTyped ρ none (n + mintedFunctions p.functions + mintedDecls p.globals)
      ⟨[(program p).globals ρ n G]⟩ p.main
  | function f => type = some (f.ground ρ n) ∧ f.Typed ρ n G
  | declaration d => type = none ∧ d.name.name ∉ G.names
  | statement s => type = none ∧ s.Typed ρ none n ⟨[G]⟩
  | expression e => ∃ g, type = some g ∧ e.HasType ⟨[G]⟩ g

end Entry

end Implet
