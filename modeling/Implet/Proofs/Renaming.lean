/-
Implet/Proofs/Renaming.lean

Giving another name to variables of blocks.  A `Renaming` is a name for
variables of blocks inside functions and a name that is to be used instead,
which occurs nowhere else.

A function has any number of blocks that declare the old name, and each of them
can be renamed or left alone: `Stmt.Renames` relates a statement to those that
come out.  Where a block is renamed, so are the uses that refer to its variable,
and no others.  Blocks with a call in them are renamed only if `safe` says so.
-/
import Implet.Proofs.Names

namespace Implet

/-- The name of some variables and the one that they are given instead. -/
structure Renaming where
  old : String
  new : String

variable (ν : Renaming) (on : Bool)

/-! ### Names in renamed code -/

/-- What a name becomes, where the renaming is `on` and where it is not. -/
def Renaming.name (x : String) : String := if on = true ∧ x = ν.old then ν.new else x

@[simp] theorem Renaming.name_false (x : String) : ν.name false x = x := by
  simp [name]

@[simp] theorem Renaming.name_old : ν.name true ν.old = ν.new := by
  simp [name]

theorem Renaming.name_of_ne {x : String} (h : x ≠ ν.old) : ν.name on x = x := by
  simp [name, h]

/-- Names other than the new one are kept apart. -/
theorem Renaming.name_inj {x y : String} (hx : x ≠ ν.new) (hy : y ≠ ν.new) :
    ν.name on x = ν.name on y ↔ x = y := by
  refine ⟨fun h => ?_, fun h => h ▸ rfl⟩
  simp only [name] at h
  split at h <;> split at h
  · next hx' hy' => rw [hx'.2, hy'.2]
  · exact absurd h.symm hy
  · exact absurd h hx
  · exact h

/-- An identifier in renamed code. -/
def Ident.rename (id : Ident) : Ident := { id with name := ν.name on id.name }

/-- A declaration in a renamed block. -/
def Decl.rename (d : Decl) : Decl := { d with name := d.name.rename ν on }

mutual

/-- An expression in renamed code. -/
def Expr.rename : Expr → Expr
  | .integer n span => .integer n span
  | .boolean b span => .boolean b span
  | .ident id => .ident (id.rename ν on)
  | .binary op left right span => .binary op left.rename right.rename span
  | .call func args span => .call (func.rename ν on) (renameExprs args) span

/-- Expressions in renamed code. -/
def renameExprs : List Expr → List Expr
  | [] => []
  | e :: es => e.rename :: renameExprs es

end

@[simp] theorem Ident.rename_false (id : Ident) : id.rename ν false = id := by
  simp [rename]

@[simp] theorem Decl.rename_false : Decl.rename ν false = id := by
  funext d
  simp [rename]

mutual

@[simp] theorem Expr.rename_false : (e : Expr) → e.rename ν false = e
  | .integer n span => by rw [Expr.rename]
  | .boolean b span => by rw [Expr.rename]
  | .ident id => by rw [Expr.rename, Ident.rename_false]
  | .binary op left right span => by
    rw [Expr.rename, left.rename_false, right.rename_false]
  | .call func args span => by
    rw [Expr.rename, Ident.rename_false, renameExprs_false args]

theorem renameExprs_false : (es : List Expr) → renameExprs ν false es = es
  | [] => by rw [renameExprs]
  | e :: es => by rw [renameExprs, e.rename_false, renameExprs_false es]

end

@[simp] theorem Expr.span_rename (e : Expr) : (e.rename ν on).span = e.span := by
  cases e <;> rw [Expr.rename] <;> rfl

@[simp] theorem length_renameExprs (es : List Expr) :
    (renameExprs ν on es).length = es.length := by
  induction es with
  | nil => rw [renameExprs]
  | cons e es ih => rw [renameExprs, List.length_cons, List.length_cons, ih]

/-! ### Renamed code -/

mutual

/-- A statement becomes another one by renaming.  `on` tells whether it is in a
renamed block, as far as the old name goes. -/
def Stmt.Renames (ν : Renaming) (safe : Prop) (on : Bool) : Stmt → Stmt → Prop
  | .block ds ss span, s' => ∃ on' ss', s' = .block (ds.map (Decl.rename ν on')) ss' span ∧
    (on' = true → ν.old ∈ declaredNames ds ∧ (stmtsHaveCall ss → safe)) ∧
    StmtsRename ν safe (if ν.old ∈ declaredNames ds then on' else on) ss ss'
  | .cond condition thenBranch none span, s' => ∃ thenBranch',
    s' = .cond (condition.rename ν on) thenBranch' none span ∧
    thenBranch.Renames ν safe on thenBranch'
  | .cond condition thenBranch (some elseBranch) span, s' => ∃ thenBranch' elseBranch',
    s' = .cond (condition.rename ν on) thenBranch' (some elseBranch') span ∧
    thenBranch.Renames ν safe on thenBranch' ∧ elseBranch.Renames ν safe on elseBranch'
  | .loop condition body span, s' => ∃ body',
    s' = .loop (condition.rename ν on) body' span ∧ body.Renames ν safe on body'
  | .assign target value span, s' =>
    s' = .assign (target.rename ν on) (value.rename ν on) span
  | .ret value span, s' => s' = .ret (value.rename ν on) span

/-- Statements become others by renaming. -/
def StmtsRename (ν : Renaming) (safe : Prop) (on : Bool) : List Stmt → List Stmt → Prop
  | [], ss' => ss' = []
  | s :: ss, r => ∃ s' ss', r = s' :: ss' ∧ s.Renames ν safe on s' ∧ StmtsRename ν safe on ss ss'

end

/-- A function becomes another one by renaming variables of blocks inside its body. -/
def FunDef.Renames (safe : Prop) (f f' : FunDef) : Prop :=
  ∃ ss', f' = { f with body := { f.body with statements := ss' } } ∧
    StmtsRename ν safe false f.body.statements ss'

/-- An entry becomes another one by renaming variables of blocks inside its
functions. -/
def Entry.Renames (safe : FunDef → Prop) : Entry → Entry → Prop
  | .program p, e' => ∃ fs', e' = .program { p with functions := fs' } ∧
    List.Forall₂ (fun f f' => f.Renames ν (safe f) f') p.functions fs'
  | .function f, e' => ∃ f', e' = .function f' ∧ f.Renames ν (safe f) f'
  | .declaration d, e' => e' = .declaration d
  | .statement s, e' => e' = .statement s
  | .expression e, e' => e' = .expression e

variable {ν on} {safe : Prop}

mutual

/-- No block has to be renamed. -/
theorem Stmt.Renames.refl : (s : Stmt) → s.Renames ν safe false s
  | .block ds ss span => by
    refine ⟨false, ss, by rw [Decl.rename_false, List.map_id], Bool.noConfusion, ?_⟩
    rw [ite_self]
    exact StmtsRename.refl ss
  | .cond condition thenBranch none span =>
    ⟨thenBranch, by rw [Expr.rename_false], Stmt.Renames.refl thenBranch⟩
  | .cond condition thenBranch (some elseBranch) span =>
    ⟨thenBranch, elseBranch, by rw [Expr.rename_false], Stmt.Renames.refl thenBranch,
      Stmt.Renames.refl elseBranch⟩
  | .loop condition body span => ⟨body, by rw [Expr.rename_false], Stmt.Renames.refl body⟩
  | .assign target value span => by
    rw [Stmt.Renames, Ident.rename_false, Expr.rename_false]
  | .ret value span => by
    rw [Stmt.Renames, Expr.rename_false]

theorem StmtsRename.refl : (ss : List Stmt) → StmtsRename ν safe false ss ss
  | [] => rfl
  | s :: ss => ⟨s, ss, rfl, Stmt.Renames.refl s, StmtsRename.refl ss⟩

end

/-- All that can differ are the statements. -/
theorem FunDef.Renames.fields {f f' : FunDef} (h : f.Renames ν safe f') :
    f'.name = f.name ∧ f'.params = f.params ∧ f'.body.declarations = f.body.declarations ∧
      f'.span = f.span ∧ StmtsRename ν safe false f.body.statements f'.body.statements := by
  obtain ⟨ss', rfl, hss⟩ := h
  exact ⟨rfl, rfl, rfl, rfl, hss⟩

theorem FunDef.Renames.refl (f : FunDef) : f.Renames ν safe f :=
  ⟨f.body.statements, rfl, StmtsRename.refl _⟩

theorem Entry.Renames.refl {safe : FunDef → Prop} (e : Entry) : e.Renames ν safe e := by
  cases e with
  | program p =>
    exact ⟨p.functions, rfl, List.forall₂_same.mpr fun f _ => FunDef.Renames.refl f⟩
  | function f => exact ⟨f, rfl, FunDef.Renames.refl f⟩
  | declaration d => exact rfl
  | statement s => exact rfl
  | expression e => exact rfl

/-! ### All names -/

mutual

/-- The names in an expression. -/
def Expr.names : Expr → List String
  | .integer _ _ | .boolean _ _ => []
  | .ident id => [id.name]
  | .binary _ left right _ => left.names ++ right.names
  | .call func args _ => func.name :: exprsNames args

/-- The names in some expressions. -/
def exprsNames : List Expr → List String
  | [] => []
  | e :: es => e.names ++ exprsNames es

end

mutual

/-- The names in a statement, declared or used. -/
def Stmt.names : Stmt → List String
  | .block declarations statements _ => declaredNames declarations ++ stmtsNames statements
  | .cond condition thenBranch none _ => condition.names ++ thenBranch.names
  | .cond condition thenBranch (some elseBranch) _ =>
    condition.names ++ thenBranch.names ++ elseBranch.names
  | .loop condition body _ => condition.names ++ body.names
  | .assign target value _ => target.name :: value.names
  | .ret value _ => value.names

/-- The names in some statements, declared or used. -/
def stmtsNames : List Stmt → List String
  | [] => []
  | s :: ss => s.names ++ stmtsNames ss

end

/-- The names in a function, its own included. -/
def FunDef.names (f : FunDef) : List String :=
  f.name.name :: (declaredNames f.params ++ declaredNames f.body.declarations ++
    stmtsNames f.body.statements)

/-- The names in an entry, declared or used. -/
def Entry.names : Entry → List String
  | .program p => p.functions.flatMap FunDef.names ++ declaredNames p.globals ++ stmtsNames p.main
  | .function f => f.names
  | .declaration d => [d.name.name]
  | .statement s => s.names
  | .expression e => e.names

end Implet
