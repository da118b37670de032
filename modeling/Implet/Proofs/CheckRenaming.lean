/-
Implet/Proofs/CheckRenaming.lean

Checking renamed code.  The check of some code and the check of the code with
renamed variables go the same way step by step: both fail, with the same error
up to the renamed name, or both succeed, with the same types
(`Checker.same_checkEntry`).  The check opens and closes frames as the text
does, so it always finds the layer that the text means, and it does not matter
which calls there are.
-/
import Implet.Proofs.CheckPairs
import Implet.Proofs.Layers

namespace Implet

/-- Two texts are the same up to the renamed name. -/
inductive Renaming.Text (ν : Renaming) : String → String → Prop
  | same (text : String) : Text ν text text
  | renamed (before after : String) : Text ν (before ++ ν.old ++ after) (before ++ ν.new ++ after)

theorem Renaming.text_name (ν : Renaming) (on : Bool) (before x after : String) :
    ν.Text (before ++ x ++ after) (before ++ ν.name on x ++ after) := by
  rw [name]
  split
  · next h =>
    rw [h.2]
    exact .renamed before after
  · exact .same _

/-- Two type errors are the same up to the renamed name. -/
inductive TypeError.Renamed (ν : Renaming) : TypeError → TypeError → Prop
  | same (e : TypeError) : Renamed ν e e
  | undeclared (on : Bool) (x : String) (span : Span) :
    Renamed ν (.undeclared x span) (.undeclared (ν.name on x) span)
  | duplicate (on : Bool) (x : String) (span : Span) :
    Renamed ν (.duplicate x span) (.duplicate (ν.name on x) span)
  | mismatch {note note' : String} (expected found : Ty) (span : Span) : ν.Text note note' →
    Renamed ν (.mismatch expected found (some note) span)
      (.mismatch expected found (some note') span)
  | arity (on : Bool) (x : String) (expected found : Nat) (span : Span) :
    Renamed ν (.arity x expected found span) (.arity (ν.name on x) expected found span)
  | notAFunction (on : Bool) (x : String) (type : Ty) (span : Span) :
    Renamed ν (.notAFunction x type span) (.notAFunction (ν.name on x) type span)

theorem TypeError.renamed_withNote {ν : Renaming} {note note' : String}
    (h : ν.Text note note')
    (e : TypeError) : (e.withNote note).Renamed ν (e.withNote note') := by
  cases e with
  | mismatch expected found _ span => exact .mismatch expected found span h
  | undeclared | duplicate | arity | notAFunction | occursCheck | returnOutsideFunction
  | internal => exact .same _

namespace Checker

variable {ν : Renaming} {α β : Type} {ls : List Layer} {on : Bool}

/-! ### Steps that go the same way -/

/-- Two checkers know the same of types, and have scopes that are related layer
by layer. -/
structure Renamed (ν : Renaming) (ls : List Layer) (c c' : Checker) : Prop where
  env : Scope.Renamed ν Eq ls c.env c'.env
  subst : c.subst = c'.subst

variable {E : TypeError → TypeError → Prop} {J : Checker → Checker → Prop}

/-- What is done to the substitution is the same. -/
theorem same_onSubst (action : StateM Subst α) :
    Same E (Renamed ν ls) (Renamed ν ls) (onSubst action) (onSubst action) := by
  intro c c' h
  show (action c.subst).1 = (action c'.subst).1 ∧
    Renamed ν ls ⟨c.env, (action c.subst).2⟩ ⟨c'.env, (action c'.subst).2⟩
  rw [h.subst]
  exact ⟨rfl, h.env, rfl⟩

theorem same_onSubstAt (hE : ∀ e, E e e) (span : Span) (action : Subst.UnifyM α) :
    Same E (Renamed ν ls) (Renamed ν ls) (onSubstAt span action) (onSubstAt span action) := by
  refine (same_onSubst _).bind fun r => ?_
  cases r with
  | ok a => exact same_pure a
  | error e => exact same_throw (hE _)

theorem same_unifyAt (span : Span) {note note' : String} (hnote : ν.Text note note')
    (expected found : Ty) : Same (TypeError.Renamed ν) (Renamed ν ls) (Renamed ν ls)
      (unifyAt span note expected found) (unifyAt span note' expected found) :=
  (same_onSubstAt Eq.refl span _).catch (TypeError.renamed_withNote hnote)

/-- A name has the same type in both, where code is renamed as its layer is. -/
theorem same_typeOfName {id : Ident} (hnew : id.name ≠ ν.new) (hon : ν.isOn ls = on) :
    Same (TypeError.Renamed ν) (Renamed ν ls) (Renamed ν ls) (typeOfName id)
      (typeOfName (id.rename ν on)) := by
  intro c c' h
  unfold typeOfName
  rw [get_bind, get_bind]
  rcases h.env.get? hnew (fun _ => hon) with ⟨hn, hn'⟩ | ⟨t, _, ht, ht', rfl⟩
  · rw [Scope.lookup_of_not_get? hn, Ident.rename, Scope.lookup_of_not_get? hn']
    exact .undeclared on id.name id.span
  · rw [Scope.lookup_of_get? ht, Ident.rename, Scope.lookup_of_get? ht']
    exact ⟨rfl, h⟩

/-- Declaring a name in the innermost frame. -/
theorem same_declareAt {l : Layer} (span : Span) {x : String} (hnew : x ≠ ν.new)
    (t : Ty) :
    Same (TypeError.Renamed ν) (Renamed ν (l :: ls)) (Renamed ν (l.declare x :: ls))
      (declareAt span x t) (declareAt span (ν.name l.renamed x) t) := by
  intro c c' h
  unfold declareAt onScopeAt
  rw [get_bind, get_bind]
  dsimp only
  rcases h.env.declare hnew (rfl : t = t) with ⟨hd, hd'⟩ | ⟨s, s', hd, hd', hs⟩
  · rw [hd, hd']
    exact .duplicate _ x span
  · rw [hd, hd']
    exact ⟨rfl, hs, h.subst⟩

/-- A check in a frame of its own. -/
theorem same_inFrame (on : Bool) {p p' : CheckM Unit} (hp : Same (TypeError.Renamed ν)
      (Renamed ν (⟨[], on⟩ :: ls)) (fun c c' => ∃ l, Renamed ν (l :: ls) c c') p p') :
    Same (TypeError.Renamed ν) (Renamed ν ls) (Renamed ν ls) (inFrame p) (inFrame p') := by
  have henter : Same (TypeError.Renamed ν) (Renamed ν ls) (Renamed ν (⟨[], on⟩ :: ls))
      (modify fun c => { c with env := c.env.enter } : CheckM Unit)
      (modify fun c => { c with env := c.env.enter }) :=
    fun c c' h => ⟨rfl, h.env.enter on, h.subst⟩
  refine henter.bind fun _ => hp.bind fun _ => ?_
  rintro c c' ⟨l, h⟩
  obtain ⟨⟨fs⟩, s⟩ := c
  obtain ⟨⟨fs'⟩, s'⟩ := c'
  cases h.env with
  | cons hf hfs => exact ⟨rfl, hfs, h.subst⟩

theorem same_within (on : Bool) {l : Layer} {p p' : CheckM Unit}
    (hp : Same (TypeError.Renamed ν) (Renamed ν (⟨[], on⟩ :: ls)) (Renamed ν (l :: ls)) p p') :
    Same (TypeError.Renamed ν) (Renamed ν ls) (Renamed ν ls) (inFrame p) (inFrame p') :=
  same_inFrame on (hp.mono fun _ _ h => ⟨l, h⟩)

/-! ### Expressions -/

mutual

theorem same_infer (hon : ν.isOn ls = on) : (e : Expr) → ν.new ∉ e.names →
    Same (TypeError.Renamed ν) (Renamed ν ls) (Renamed ν ls) (infer e) (infer (e.rename ν on))
  | .integer n span, _ => by
    rw [Expr.rename, infer]
    exact same_pure _
  | .boolean b span, _ => by
    rw [Expr.rename, infer]
    exact same_pure _
  | .ident id, hnew => by
    rw [Expr.rename, infer, infer]
    refine same_typeOfName (fun h => hnew ?_) hon
    rw [Expr.names, h]
    exact List.mem_singleton_self _
  | .binary op left right span, hnew => by
    rw [Expr.names, List.mem_append, not_or] at hnew
    rw [Expr.rename, infer, infer, Expr.span_rename, Expr.span_rename]
    refine (same_infer hon left hnew.1).bind fun t => ?_
    refine (same_infer hon right hnew.2).bind fun t' => ?_
    cases operatorTypes op with
    | some types =>
      exact (same_unifyAt _ (.same _) _ _).bind fun _ =>
        (same_unifyAt _ (.same _) _ _).bind fun _ => same_pure _
    | none =>
      exact (same_unifyAt _ (.same _) _ _).bind fun _ =>
        (same_onSubstAt .same _ _).bind fun _ => same_pure _
  | .call func args span, hnew => by
    rw [Expr.names, List.mem_cons, not_or] at hnew
    rw [Expr.rename, infer, infer, length_renameExprs]
    refine (same_typeOfName (Ne.symm hnew.1) hon).bind fun callee =>
      (same_onSubst _).bind fun t => ?_
    cases t with
    | func params ret =>
      dsimp only
      by_cases hlen : params.length = args.length
      · rw [if_pos hlen, if_pos hlen]
        exact (same_checkArguments hon func.name 1 params args hnew.2).bind fun _ => same_pure _
      · rw [if_neg hlen, if_neg hlen]
        exact same_throw (.arity on func.name _ _ span)
    | int | bool | var =>
      exact (same_onSubst _).bind fun t => same_throw (.notAFunction on func.name t func.span)

theorem same_checkArguments (hon : ν.isOn ls = on) (name : String) (index : Nat)
    (params : List Ty) : (args : List Expr) → ν.new ∉ exprsNames args →
    Same (TypeError.Renamed ν) (Renamed ν ls) (Renamed ν ls)
      (checkArguments name index params args)
      (checkArguments (ν.name on name) index params (renameExprs ν on args))
  | [], _ => by
    rw [renameExprs]
    cases params <;> exact same_pure _
  | arg :: args, hnew => by
    rw [exprsNames, List.mem_append, not_or] at hnew
    rw [renameExprs]
    cases params with
    | nil => exact same_pure _
    | cons param params =>
      rw [checkArguments, checkArguments, Expr.span_rename]
      exact (same_infer hon arg hnew.1).bind fun t =>
        (same_unifyAt _ (ν.text_name on _ name _) _ _).bind fun _ =>
          same_checkArguments hon name (index + 1) params args hnew.2

end

theorem same_checkCondition (hon : ν.isOn ls = on) {condition : Expr}
    (hnew : ν.new ∉ condition.names) :
    Same (TypeError.Renamed ν) (Renamed ν ls) (Renamed ν ls) (checkCondition condition)
      (checkCondition (condition.rename ν on)) := by
  rw [checkCondition, checkCondition, Expr.span_rename]
  exact (same_infer hon condition hnew).bind fun t => same_unifyAt _ (.same _) _ _

/-! ### Statements -/

theorem same_declaredType (d : Decl) :
    Same E (Renamed ν ls) (Renamed ν ls) (declaredType d) (declaredType d) := by
  rw [declaredType]
  cases d.type with
  | some type => exact same_pure _
  | none => exact (same_onSubst _).bind fun n => same_pure _

theorem same_declareVars {l : Layer} {ds : List Decl} (hnew : ν.new ∉ declaredNames ds) :
    Same (TypeError.Renamed ν) (Renamed ν (l :: ls)) (Renamed ν (l.declared ds :: ls))
      (ds.forM declareVar) ((ds.map (Decl.rename ν l.renamed)).forM declareVar) := by
  induction ds generalizing l with
  | nil => exact same_pure _
  | cons d ds ih =>
    obtain ⟨hd, hds⟩ := not_or.mp fun h => hnew (List.mem_cons.mpr h)
    rw [Layer.declared_cons, List.map_cons]
    refine Same.bind ?_ fun _ => ih (l := l.declare d.name.name) hds
    exact (same_declaredType d).bind fun t => same_declareAt d.span (Ne.symm hd) t

mutual

theorem same_checkStmt {safe : Prop} (result : Option Ty) :
    (s : Stmt) → (s' : Stmt) → (ls : List Layer) → (on : Bool) → ν.isOn ls = on →
    s.Renames ν safe on s' → ν.new ∉ s.names →
    Same (TypeError.Renamed ν) (Renamed ν ls) (Renamed ν ls) (checkStmt result s)
      (checkStmt result s')
  | .block ds ss span, _, ls, on, hon, ⟨on', ss', hs', _, hss⟩, hnew => by
    subst hs'
    rw [Stmt.names, List.mem_append, not_or] at hnew
    rw [checkStmt, checkStmt]
    exact same_within on' ((same_declareVars (l := ⟨[], on'⟩) hnew.1).bind fun _ =>
      same_checkStmts result ss ss' _ _ (Renaming.isOn_block hon) hss hnew.2)
  | .cond condition thenBranch none span, _, ls, on, hon, ⟨thenBranch', hs', hthen⟩, hnew => by
    subst hs'
    rw [Stmt.names, List.mem_append, not_or] at hnew
    rw [checkStmt, checkStmt]
    refine (same_checkCondition hon hnew.1).bind fun _ => ?_
    exact same_within false (same_checkStmt result thenBranch thenBranch' _ on
      (by rwa [Renaming.isOn_enter]) hthen hnew.2)
  | .cond condition thenBranch (some elseBranch) span, _, ls, on, hon,
      ⟨thenBranch', elseBranch', hs', hthen, helse⟩, hnew => by
    subst hs'
    rw [Stmt.names, List.mem_append, List.mem_append, not_or, not_or] at hnew
    rw [checkStmt, checkStmt]
    refine (same_checkCondition hon hnew.1.1).bind fun _ => ?_
    refine Same.bind (J := Renamed ν ls) ?_ fun _ => ?_
    · exact same_within false (same_checkStmt result thenBranch thenBranch' _ on
        (by rwa [Renaming.isOn_enter]) hthen hnew.1.2)
    · exact same_within false (same_checkStmt result elseBranch elseBranch' _ on
        (by rwa [Renaming.isOn_enter]) helse hnew.2)
  | .loop condition body span, _, ls, on, hon, ⟨body', hs', hbody⟩, hnew => by
    subst hs'
    rw [Stmt.names, List.mem_append, not_or] at hnew
    rw [checkStmt, checkStmt]
    refine (same_checkCondition hon hnew.1).bind fun _ => ?_
    exact same_within false (same_checkStmt result body body' _ on
      (by rwa [Renaming.isOn_enter]) hbody hnew.2)
  | .assign target value span, _, ls, on, hon, hs', hnew => by
    rw [Stmt.Renames] at hs'
    subst hs'
    rw [Stmt.names, List.mem_cons, not_or] at hnew
    rw [checkStmt, checkStmt]
    exact (same_typeOfName (Ne.symm hnew.1) hon).bind fun t =>
      (same_infer hon value hnew.2).bind fun t' => same_unifyAt _ (ν.text_name on _ _ _) _ _
  | .ret value span, _, ls, on, hon, hs', hnew => by
    rw [Stmt.Renames] at hs'
    subst hs'
    rw [Stmt.names] at hnew
    cases result with
    | some expected =>
      rw [checkStmt, checkStmt]
      exact (same_infer hon value hnew).bind fun t => same_unifyAt _ (.same _) _ _
    | none =>
      rw [checkStmt, checkStmt]
      exact same_throw (.same _)

theorem same_checkStmts {safe : Prop} (result : Option Ty) :
    (ss : List Stmt) → (ss' : List Stmt) → (ls : List Layer) → (on : Bool) → ν.isOn ls = on →
    StmtsRename ν safe on ss ss' → ν.new ∉ stmtsNames ss →
    Same (TypeError.Renamed ν) (Renamed ν ls) (Renamed ν ls) (checkStmts result ss)
      (checkStmts result ss')
  | [], _, ls, on, hon, hss, hnew => by
    rw [StmtsRename] at hss
    subst hss
    exact same_pure _
  | s :: ss, _, ls, on, hon, ⟨s', ss', hr, hs, hss⟩, hnew => by
    subst hr
    rw [stmtsNames, List.mem_append, not_or] at hnew
    rw [checkStmts, checkStmts]
    exact (same_checkStmt result s s' ls on hon hs hnew.1).bind fun _ =>
      same_checkStmts result ss ss' ls on hon hss hnew.2

end

/-! ### Entries -/

/-- Two checkers are related, and their innermost frame is not renamed. -/
def Plain (ν : Renaming) (ls : List Layer) (c c' : Checker) : Prop :=
  ∃ l : Layer, l.renamed = false ∧ Renamed ν (l :: ls) c c'

theorem same_plain {p p' : CheckM α}
    (h : ∀ l : Layer, l.renamed = false → Same E (Renamed ν (l :: ls)) J p p') :
    Same E (Plain ν ls) J p p' := fun _ _ ⟨l, hl, hc⟩ => h l hl hc

theorem Plain.eq {c c' : Checker} (h : Plain ν [] c c') : c = c' := by
  obtain ⟨l, hl, h⟩ := h
  have henv := h.env.eq fun l' hl' => List.mem_singleton.mp hl' ▸ hl
  obtain ⟨env, subst⟩ := c
  obtain ⟨env', subst'⟩ := c'
  rw [Checker.mk.injEq]
  exact ⟨henv, h.subst⟩

/-- What keeps every layer keeps the innermost one plain. -/
theorem same_plain_of_renamed {p p' : CheckM α}
    (h : ∀ ls, Same E (Renamed ν ls) (Renamed ν ls) p p') :
    Same E (Plain ν ls) (Plain ν ls) p p' :=
  same_plain fun l hl => (h _).mono fun _ _ hc => ⟨l, hl, hc⟩

theorem same_declareAt_plain (span : Span) {x : String} (hnew : x ≠ ν.new) (t : Ty) :
    Same (TypeError.Renamed ν) (Plain ν ls) (Plain ν ls) (declareAt span x t)
      (declareAt span x t) := by
  refine same_plain fun l hl => ?_
  have hd : Same (TypeError.Renamed ν) (Renamed ν (l :: ls)) (Renamed ν (l.declare x :: ls))
      (declareAt span x t) (declareAt span (ν.name l.renamed x) t) := same_declareAt span hnew t
  rw [hl, Renaming.name_false] at hd
  exact hd.mono fun _ _ hc => ⟨l.declare x, hl, hc⟩

theorem same_declareVars_plain {ds : List Decl} (hnew : ν.new ∉ declaredNames ds) :
    Same (TypeError.Renamed ν) (Plain ν ls) (Plain ν ls) (ds.forM declareVar)
      (ds.forM declareVar) := by
  refine same_plain fun l hl => ?_
  have hd : Same (TypeError.Renamed ν) (Renamed ν (l :: ls)) (Renamed ν (l.declared ds :: ls))
      (ds.forM declareVar) ((ds.map (Decl.rename ν l.renamed)).forM declareVar) :=
    same_declareVars hnew
  rw [hl, Decl.rename_false, List.map_id] at hd
  exact hd.mono fun _ _ hc => ⟨l.declared ds, hl, hc⟩

theorem same_declareParams {ds : List Decl} (hnew : ν.new ∉ declaredNames ds)
    (ts : List Ty) :
    Same (TypeError.Renamed ν) (Plain ν ls) (Plain ν ls) (declareParams ds ts)
      (declareParams ds ts) := by
  induction ds generalizing ts with
  | nil => exact same_pure _
  | cons d ds ih =>
    cases ts with
    | nil => exact same_pure _
    | cons t ts =>
      obtain ⟨hd, hds⟩ := not_or.mp fun h => hnew (List.mem_cons.mpr h)
      exact (same_declareAt_plain d.span (Ne.symm hd) t).bind fun _ => ih hds ts

theorem same_checkFunction {safe : Prop} {f f' : FunDef} (h : f.Renames ν safe f')
    (hnew : ν.new ∉ f.names) :
    Same (TypeError.Renamed ν) (Plain ν []) (Plain ν []) (checkFunction f) (checkFunction f') := by
  obtain ⟨ss', rfl, hss⟩ := h
  simp only [FunDef.names, List.mem_cons, List.mem_append, not_or] at hnew
  obtain ⟨hname, ⟨hparams, hdecls⟩, hstmts⟩ := hnew
  refine (same_plain_of_renamed fun _ => same_mapM same_declaredType f.params).bind fun params => ?_
  refine (same_plain_of_renamed fun _ => same_onSubst _).bind fun n => ?_
  refine (same_declareAt_plain f.name.span (Ne.symm hname) _).bind fun _ => ?_
  refine Same.bind (J := Plain ν []) ?_ fun _ => same_plain_of_renamed fun _ => same_onSubst _
  refine same_plain fun l hl => Same.mono (same_inFrame false ?_) fun _ _ hc => ⟨l, hl, hc⟩
  have hbody : Same (TypeError.Renamed ν) (Plain ν [l])
      (fun c c' => ∃ l', Renamed ν (l' :: [l]) c c')
      (checkStmts (some (.var n)) f.body.statements) (checkStmts (some (.var n)) ss') := by
    refine same_plain fun l' hl' => ?_
    have hon : ν.isOn [l', l] = false :=
      Renaming.isOn_plain hl' (Renaming.isOn_plain hl rfl)
    exact (same_checkStmts _ _ _ _ _ hon hss hstmts).mono fun _ _ hc => ⟨l', hc⟩
  have hall := (same_declareParams hparams params).bind fun _ =>
    (same_declareVars_plain hdecls).bind fun _ => hbody
  exact fun c c' hc => hall ⟨⟨[], false⟩, rfl, hc⟩

theorem same_checkFunctions {safe : FunDef → Prop} {fs fs' : List FunDef}
    (h : List.Forall₂ (fun f f' => f.Renames ν (safe f) f') fs fs')
    (hnew : ν.new ∉ fs.flatMap FunDef.names) :
    Same (TypeError.Renamed ν) (Plain ν []) (Plain ν [])
      (fs.forM fun f => do let _ ← checkFunction f)
      (fs'.forM fun f => do let _ ← checkFunction f) := by
  induction h with
  | nil => exact same_pure _
  | cons hf _ ih =>
    rw [List.flatMap_cons, List.mem_append, not_or] at hnew
    exact ((same_checkFunction hf hnew.1).bind fun _ => same_pure _).bind fun _ => ih hnew.2

/-- An entry and the entry with renamed variables are accepted with the same
type, or rejected for the same reason. -/
theorem same_checkEntry {safe : FunDef → Prop} {e e' : Entry} (h : e.Renames ν safe e')
    (hnew : ν.new ∉ e.names) :
    Same (TypeError.Renamed ν) (Plain ν []) (Plain ν []) (checkEntry e) (checkEntry e') := by
  cases e with
  | program p =>
    obtain ⟨fs', rfl, hfs⟩ := h
    simp only [Entry.names, List.mem_append, not_or] at hnew
    refine (same_checkFunctions hfs hnew.1.1).bind fun _ =>
      (same_declareVars_plain hnew.1.2).bind fun _ => Same.bind (J := Plain ν []) ?_
        fun _ => same_pure _
    refine same_plain fun l hl => ?_
    have hmain : StmtsRename ν True false p.main p.main := StmtsRename.refl _
    exact (same_checkStmts none _ _ _ _ (Renaming.isOn_plain hl rfl) hmain hnew.2).mono
      fun _ _ hc => ⟨l, hl, hc⟩
  | function f =>
    obtain ⟨f', rfl, hf⟩ := h
    exact (same_checkFunction hf hnew).bind fun t => same_pure _
  | declaration d =>
    obtain rfl := h
    have hd : d.name.name ≠ ν.new := fun he => hnew (he ▸ List.mem_singleton_self _)
    refine Same.bind (J := Plain ν []) ?_ fun _ => same_pure _
    exact (same_plain_of_renamed fun _ => same_declaredType d).bind fun t =>
      same_declareAt_plain d.span hd t
  | statement s =>
    obtain rfl := h
    refine Same.bind (J := Plain ν []) ?_ fun _ => same_pure _
    refine same_plain fun l hl => ?_
    have hs : s.Renames ν True false s := Stmt.Renames.refl s
    exact (same_checkStmt none s s _ _ (Renaming.isOn_plain hl rfl) hs hnew).mono
      fun _ _ hc => ⟨l, hl, hc⟩
  | expression e =>
    obtain rfl := h
    refine Same.bind (J := Plain ν []) ?_ fun t => same_pure _
    refine same_plain fun l hl => ?_
    have hinfer := same_infer (Renaming.isOn_plain hl rfl : ν.isOn [l] = false) e hnew
    rw [Expr.rename_false] at hinfer
    exact hinfer.mono fun _ _ hc => ⟨l, hl, hc⟩

/-- An entry and the entry with renamed variables are accepted or rejected
alike, and the checkers that they lead to are the same. -/
theorem run_renamed {safe : FunDef → Prop} {e e' : Entry} (h : e.Renames ν safe e')
    (hnew : ν.new ∉ e.names) {c : Checker} (hc : Plain ν [] c c) :
    (∃ type d, run c e = (.ok type, d) ∧ run c e' = (.ok type, d) ∧ Plain ν [] d d) ∨
      ∃ err err', run c e = (.error err, c) ∧ run c e' = (.error err', c) ∧
        err.Renamed ν err' := by
  have hcheck : Same (TypeError.Renamed ν) (Plain ν []) (Plain ν []) (checkResolved e)
      (checkResolved e') := by
    refine (same_checkEntry h hnew).bind fun t => ?_
    cases t with
    | none => exact same_pure _
    | some t => exact (same_plain_of_renamed fun _ => same_onSubst _).bind fun t => same_pure _
  rw [run_eq, run_eq]
  rcases hcheck.cases hc with ⟨err, err', h, h', herr⟩ | ⟨type, d, d', h, h', hd⟩
  · rw [h, h']
    exact Or.inr ⟨err, err', rfl, rfl, herr⟩
  · obtain rfl := hd.eq
    rw [h, h']
    exact Or.inl ⟨type, d, rfl, rfl, hd⟩

end Checker

end Implet
