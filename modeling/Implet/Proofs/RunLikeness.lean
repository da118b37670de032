/-
Implet/Proofs/RunLikeness.lean

Running code that is alike.  A run looks at spans only to say where something
went wrong.  So from stores that are the same but for the spans in their
closures (`Store.Like`), the runs of two entries that are alike go side by side:
with the same fuel both have an outcome or neither has one, the values are
alike, and so are the errors, which have the same message (`Entry.agree_run`).

In a session the closures of earlier entries are called by later ones, so spans
that were read long ago can turn up in an error.  That sessions are alike
(`Session.Like`) is kept from entry to entry (`Session.runEntry_of_like`).
-/
import Implet.Session
import Implet.Proofs.CheckLikeness
import Implet.Proofs.Frames
import Implet.Proofs.Pairs

namespace Implet

variable {V : Type} {A : V → V → Prop}

/-! ### Operations on related scopes -/

namespace Frame.Related

variable {f g : Frame V}

theorem has_eq (h : Related A f g) (name : String) : g.has name = f.has name := by
  rw [Bool.eq_iff_iff, has_iff, has_iff, h.names_eq]

/-- A name gets related values in both frames. -/
theorem set_both (h : Related A f g) (name : String) {v w : V} (hv : A v w) :
    Related A (f.set name v) (g.set name w) := by
  refine ⟨by rw [names_set]; exact h.nodup, List.rel_map ?_ h.bindings⟩
  rintro ⟨x, v'⟩ ⟨y, w'⟩ ⟨hy, hb⟩
  obtain rfl : y = x := hy
  by_cases hx : y = name
  · simpa [hx] using hv
  · simpa [hx] using hb

end Frame.Related

/-- Two operations on scopes fail for the same cause, or lead to related scopes. -/
inductive Scope.Ends (A : V → V → Prop) :
    Except ScopeError (Scope V) → Except ScopeError (Scope V) → Prop
  | error (e : ScopeError) : Ends A (.error e) (.error e)
  | ok {s t : Scope V} : Related A s t → Ends A (.ok s) (.ok t)

namespace Scope.Related

variable {s t : Scope V}

theorem declare_both (h : Related A s t) (name : String) {v w : V} (hv : A v w) :
    Ends A (s.declare name v) (t.declare name w) := by
  obtain ⟨fs⟩ := s
  obtain ⟨gs⟩ := t
  cases h with
  | nil => exact .error _
  | @cons f g fs gs hf hfs =>
    by_cases hn : name ∈ f.names
    · rw [declare_of_mem v hn, declare_of_mem w (hf.names_eq ▸ hn)]
      exact .error _
    · rw [declare_of_not_mem v hn, declare_of_not_mem w (hf.names_eq ▸ hn)]
      exact .ok (.cons (hf.cons hn hv) hfs)

theorem assign_both (h : Related A s t) (name : String) {v w : V} (hv : A v w) :
    Ends A (s.assign name v) (t.assign name w) := by
  obtain ⟨fs⟩ := s
  obtain ⟨gs⟩ := t
  have hin : Option.Rel (List.Forall₂ (Frame.Related A)) (assignIn name v fs)
      (assignIn name w gs) := by
    change List.Forall₂ (Frame.Related A) fs gs at h
    induction h with
    | nil => exact .none
    | @cons f g fs gs hf hfs ih =>
      rw [assignIn, assignIn, hf.has_eq]
      split
      · exact .some (.cons (hf.set_both name hv) hfs)
      · generalize assignIn name v fs = x, assignIn name w gs = y at ih
        cases ih with
        | none => exact .none
        | some hfs' => exact .some (.cons hf hfs')
  rw [Scope.assign, Scope.assign]
  dsimp only
  generalize assignIn name v fs = x, assignIn name w gs = y at hin
  cases hin with
  | none => exact .error _
  | some hfs => exact .ok hfs

theorem exit_both (h : Related A s t) : Ends A s.exit t.exit := by
  obtain ⟨fs⟩ := s
  obtain ⟨gs⟩ := t
  cases h with
  | nil => exact .error _
  | cons _ hfs => exact .ok hfs

theorem isDeclaredLocally_eq (h : Related A s t) (name : String) :
    t.isDeclaredLocally name = s.isDeclaredLocally name := by
  obtain ⟨fs⟩ := s
  obtain ⟨gs⟩ := t
  cases h with
  | nil => rfl
  | cons hf _ => exact hf.has_eq name

theorem lookup_both (h : Related A s t) (name : String) :
    (∃ e, s.lookup name = .error e ∧ t.lookup name = .error e) ∨
      ∃ v w, s.lookup name = .ok v ∧ t.lookup name = .ok w ∧ A v w := by
  rcases h.get? name with ⟨hs, ht⟩ | ⟨v, w, hs, ht, hv⟩
  · exact .inl ⟨_, lookup_of_not_get? hs, lookup_of_not_get? ht⟩
  · exact .inr ⟨v, w, lookup_of_get? hs, lookup_of_get? ht, hv⟩

end Scope.Related

/-! ### Values and stores -/

variable {R : Span → Span → Prop}

/-- The same value: closures own the same environment, and their functions are alike. -/
inductive Value.Like (R : Span → Span → Prop) : Value → Value → Prop
  | integer (n : Int64) : Like R (.integer n) (.integer n)
  | boolean (b : Bool) : Like R (.boolean b) (.boolean b)
  | uninitialized : Like R .uninitialized .uninitialized
  | closure {f f' : FunDef} (r : EnvRef) : f.Like R f' → Like R (.closure f r) (.closure f' r)

theorem Value.like_default (t : Option BaseType) :
    Value.Like R (.default t) (.default t) := by
  rcases t with - | _ | _
  · exact .uninitialized
  · exact .integer 0
  · exact .boolean false

theorem Value.Like.text {v v' : Value} (h : v.Like R v') : v'.text = v.text := by
  cases h with
  | closure r hf => rw [Value.text, Value.text, hf.name.name]
  | integer | boolean | uninitialized => rfl

/-- Two runtime errors have the same message, and their spans are related. -/
structure RuntimeError.Like (R : Span → Span → Prop) (e e' : RuntimeError) : Prop where
  message : e'.message = e.message
  span : R e.span e'.span

theorem RuntimeError.like_ofScope {s s' : Span} (h : R s s') (e : ScopeError) :
    (ofScope s e).Like R (ofScope s' e) := by
  cases e <;> exact ⟨rfl, h⟩

/-- The same environments, with values that are alike. -/
structure Store.Like (R : Span → Span → Prop) (s s' : Store) : Prop where
  size : s'.envs.size = s.envs.size
  env : ∀ r, Scope.Related (Value.Like R) (s.env r) (s'.env r)

namespace Store.Like

variable {s s' : Store}

theorem initial : Store.Like R .initial .initial := by
  refine ⟨rfl, fun r => ?_⟩
  have henv : Store.initial.env r = .initial := by
    cases r <;> rfl
  rw [henv]
  exact .cons .nil .nil

theorem setEnv (h : s.Like R s') (r : EnvRef) {e e' : Environment}
    (he : Scope.Related (Value.Like R) e e') : (s.setEnv r e).Like R (s'.setEnv r e') := by
  rcases Nat.lt_or_ge r s.envs.size with hr | hr
  · refine ⟨by rw [size_setEnv, size_setEnv, h.size], fun q => ?_⟩
    rw [s.env_setEnv hr, s'.env_setEnv (h.size ▸ hr)]
    split
    · exact he
    · exact h.env q
  · rwa [setEnv_of_le hr, setEnv_of_le (h.size ▸ hr)]

theorem allocate (h : s.Like R s') {e e' : Environment}
    (he : Scope.Related (Value.Like R) e e') : (s'.allocate e').1 = (s.allocate e).1 ∧
      (s.allocate e).2.Like R (s'.allocate e').2 := by
  refine ⟨h.size, by simp [Store.allocate, h.size], fun r => ?_⟩
  rw [env_allocate, env_allocate, h.size]
  split
  · exact he
  · exact h.env r

end Store.Like

/-! ### Steps -/

namespace Run

variable {α β : Type} {B : α → α → Prop} {C : β → β → Prop} {r : EnvRef}

/-- From stores that are alike, two runs end with stores that are alike, and
with values that `B` relates or with errors that are alike, unless the fuel does
not suffice for either. -/
def Agree (R : Span → Span → Prop) (p p' : Run α) (B : α → α → Prop) : Prop :=
  Alike (Store.Like R) p p' (fun a a' s s' => B a a' ∧ s.Like R s')
    fun e e' s s' => e.Like R e' ∧ s.Like R s'

theorem agree_pure {a a' : α} (h : B a a') : Agree R (pure a) (pure a') B :=
  alike_pure fun _ _ hs => ⟨h, hs⟩

theorem agree_fail {e e' : RuntimeError} (h : e.Like R e') :
    Agree R (fail e : Run α) (fail e') B := alike_fail fun _ _ hs => ⟨h, hs⟩

theorem agree_outOfFuel : Agree R (outOfFuel : Run α) outOfFuel B := alike_outOfFuel

theorem Agree.bind {p p' : Run α} {f f' : α → Run β} (hp : Agree R p p' B)
    (hf : ∀ a a', B a a' → Agree R (f a) (f' a') C) : Agree R (p >>= f) (p' >>= f') C :=
  Alike.bind hp fun a a' => .of_pre (fun _ _ h => h.1) fun ha => Alike.mono (hf a a' ha)
    (fun _ _ h => h.2) (fun _ _ _ _ h => h) fun _ _ _ _ h => h

theorem agree_env : Agree R (env r) (env r) (Scope.Related (Value.Like R)) :=
  fun _ _ hs => ⟨hs.env r, hs⟩

theorem agree_onEnvAt {s s' : Span} (hs : R s s')
    {action action' : Environment → Except ScopeError Environment}
    (h : ∀ e e', Scope.Related (Value.Like R) e e' →
      Scope.Ends (Value.Like R) (action e) (action' e')) :
    Agree R (onEnvAt r s action) (onEnvAt r s' action') fun _ _ => True := by
  intro t t' ht
  have hends := h _ _ (ht.env r)
  rw [onEnvAt, onEnvAt]
  generalize action (t.env r) = x, action' (t'.env r) = x' at hends
  cases hends with
  | error e => exact ⟨RuntimeError.like_ofScope hs e, ht⟩
  | ok he => exact ⟨trivial, ht.setEnv r he⟩

theorem agree_declare {s s' : Span} (hs : R s s') (name : String) {v v' : Value}
    (hv : v.Like R v') : Agree R (onEnvAt r s (·.declare name v))
      (onEnvAt r s' (·.declare name v')) fun _ _ => True :=
  agree_onEnvAt hs fun _ _ he => he.declare_both name hv

theorem agree_inFrame (hempty : R .empty .empty) {p p' : Run α} (h : Agree R p p' B) :
    Agree R (inFrame r p) (inFrame r p') B := by
  intro s s' hs
  rw [inFrame, inFrame]
  rcases h.cases (hs.setEnv r (hs.env r).enter) with ⟨h, h'⟩ | ⟨a, a', t, t', h, h', ha, ht⟩ |
    ⟨e, e', t, t', h, h', he, ht⟩
  all_goals rw [h, h']
  · trivial
  all_goals
    have hexit := (ht.env r).exit_both
    dsimp only
    generalize (t.env r).exit = x, (t'.env r).exit = x' at hexit
    cases hexit with
    | ok henv => first | exact ⟨ha, ht.setEnv r henv⟩ | exact ⟨he, ht.setEnv r henv⟩
    | error err => first | exact ⟨RuntimeError.like_ofScope hempty err, ht⟩ | exact ⟨he, ht⟩

end Run

open Run

section

variable {a a' b b' : Value} {span span' ls ls' rs rs' : Span}

theorem agree_expectInt (h : a.Like R a') (hspan : R span span') :
    Agree R (a.expectInt span) (a'.expectInt span') Eq := by
  cases h with
  | integer n => exact agree_pure rfl
  | boolean | uninitialized | closure => exact agree_fail ⟨rfl, hspan⟩

theorem agree_expectBool (h : a.Like R a') (hspan : R span span') :
    Agree R (a.expectBool span) (a'.expectBool span') Eq := by
  cases h with
  | boolean b => exact agree_pure rfl
  | integer | uninitialized | closure => exact agree_fail ⟨rfl, hspan⟩

theorem agree_arithmetic {op : Int64 → Int64 → Value}
    (hop : ∀ m n, (op m n).Like R (op m n))
    (ha : a.Like R a') (hb : b.Like R b') (hls : R ls ls') (hrs : R rs rs') :
    Agree R (arithmetic ls rs op a b) (arithmetic ls' rs' op a' b') (Value.Like R) := by
  refine (agree_expectInt ha hls).bind ?_
  rintro m _ rfl
  refine (agree_expectInt hb hrs).bind ?_
  rintro n _ rfl
  exact agree_pure (hop m n)

theorem agree_logical {op : Bool → Bool → Bool} (ha : a.Like R a') (hb : b.Like R b')
    (hls : R ls ls') (hrs : R rs rs') :
    Agree R (logical ls rs op a b) (logical ls' rs' op a' b') (Value.Like R) := by
  refine (agree_expectBool ha hls).bind ?_
  rintro x _ rfl
  refine (agree_expectBool hb hrs).bind ?_
  rintro y _ rfl
  exact agree_pure (.boolean _)

theorem agree_apply {op : BinOp} (ha : a.Like R a') (hb : b.Like R b')
    (hspan : R span span') (hls : R ls ls') (hrs : R rs rs') :
    Agree R (op.apply span ls rs a b) (op.apply span' ls' rs' a' b') (Value.Like R) := by
  cases op with
  | add | sub | mul => exact agree_arithmetic (fun _ _ => .integer _) ha hb hls hrs
  | lt | gt => exact agree_arithmetic (fun _ _ => .boolean _) ha hb hls hrs
  | and | or => exact agree_logical ha hb hls hrs
  | div =>
    refine (agree_expectInt ha hls).bind ?_
    rintro m _ rfl
    refine (agree_expectInt hb hrs).bind ?_
    rintro n _ rfl
    by_cases hn : n = 0
    · rw [if_pos hn, if_pos hn]
      exact agree_fail ⟨rfl, hspan⟩
    · rw [if_neg hn, if_neg hn]
      exact agree_pure (.integer _)
  | eq =>
    -- an operand that cannot be compared is reported where it stands
    cases ha <;> cases hb <;>
      first
      | exact agree_pure (.boolean _)
      | exact agree_fail ⟨rfl, hrs⟩
      | exact agree_fail ⟨rfl, hls⟩

end

section

variable {r : EnvRef}

theorem agree_read {id id' : Ident} (h : id.Like R id') :
    Agree R (id.read r) (id'.read r) (Value.Like R) := by
  refine agree_env.bind fun e e' he => ?_
  rw [h.name]
  rcases he.lookup_both id.name with ⟨err, herr, herr'⟩ | ⟨v, v', hv, hv', hlike⟩
  · rw [herr, herr']
    exact agree_fail (RuntimeError.like_ofScope h.span err)
  · rw [hv, hv']
    cases hlike with
    | uninitialized => exact agree_fail ⟨rfl, h.span⟩
    | integer n => exact agree_pure (.integer n)
    | boolean b => exact agree_pure (.boolean b)
    | closure owned hf => exact agree_pure (.closure owned hf)

theorem agree_readFunction {id id' : Ident} (h : id.Like R id') :
    Agree R (id.readFunction r) (id'.readFunction r) fun p p' => p.1.Like R p'.1 ∧ p.2 = p'.2 := by
  refine agree_env.bind fun e e' he => ?_
  rw [h.name]
  rcases he.lookup_both id.name with ⟨err, herr, herr'⟩ | ⟨v, v', hv, hv', hlike⟩
  · rw [herr, herr']
    exact agree_fail (RuntimeError.like_ofScope h.span err)
  · rw [hv, hv']
    cases hlike with
    | closure owned hf => exact agree_pure ⟨hf, rfl⟩
    | uninitialized | integer | boolean => exact agree_fail ⟨rfl, h.span⟩

theorem agree_declRun {d d' : Decl} (h : d.Like R d') :
    Agree R (d.run r) (d'.run r) fun _ _ => True := by
  rw [Decl.run, Decl.run, h.name.name, h.type]
  exact agree_declare h.span _ (Value.like_default _)

theorem agree_runDecls {ds ds' : List Decl} (h : List.Forall₂ (Decl.Like R) ds ds') :
    Agree R (runDecls r ds) (runDecls r ds') fun _ _ => True := by
  induction h with
  | nil => exact agree_pure trivial
  | cons hd _ ih => exact (agree_declRun hd).bind fun _ _ _ => ih

theorem agree_bindParams {ds ds' : List Decl} {vs vs' : List Value}
    (h : List.Forall₂ (Decl.Like R) ds ds') (hvs : List.Forall₂ (Value.Like R) vs vs') :
    Agree R (bindParams r ds vs) (bindParams r ds' vs') fun _ _ => True := by
  induction h generalizing vs vs' with
  | nil => exact agree_pure trivial
  | cons hd _ ih =>
    cases hvs with
    | nil => exact agree_pure trivial
    | cons hv hvs =>
      rw [bindParams, bindParams, hd.name.name]
      exact (agree_declare hd.span _ hv).bind fun _ _ _ => ih hvs

theorem agree_bindSelf (hempty : R .empty .empty) {f f' : FunDef} (h : f.Like R f') :
    Agree R (f.bindSelf r) (f'.bindSelf r) fun _ _ => True := by
  rw [FunDef.bindSelf, FunDef.bindSelf, h.name.name]
  refine agree_env.bind fun e e' he => ?_
  rw [he.isDeclaredLocally_eq]
  split
  · exact agree_pure trivial
  · exact agree_declare hempty _ (.closure r h)

theorem agree_define {f f' : FunDef} (h : f.Like R f') :
    Agree R (f.define r) (f'.define r) (Value.Like R) := by
  intro s s' hs
  obtain ⟨howned, hs₁⟩ := hs.allocate (hs.env r)
  rw [FunDef.define, FunDef.define, h.name.name]
  simp only [howned]
  have hclosure : Value.Like R (.closure f (s.allocate (s.env r)).1)
      (.closure f' (s.allocate (s.env r)).1) := .closure _ h
  have hends := (hs.env r).declare_both f.name.name hclosure
  generalize (s.env r).declare f.name.name _ = x, (s'.env r).declare f.name.name _ = x' at hends
  cases hends with
  | error e => exact ⟨RuntimeError.like_ofScope h.name.span e, hs⟩
  | ok he => exact ⟨hclosure, hs₁.setEnv r he⟩

end

/-! ### All code at once -/

/-- Statements that finish in the same way. -/
inductive Flow.Like (R : Span → Span → Prop) : Flow → Flow → Prop
  | completed : Like R .completed .completed
  | returning {v v' : Value} : v.Like R v' → Like R (.returning v) (.returning v')

/-- What holds of all code that is run on a given fuel. -/
structure AgreeAt (R : Span → Span → Prop) (fuel : Nat) : Prop where
  eval : ∀ {e e' : Expr} r, e.Like R e' → Agree R (e.eval fuel r) (e'.eval fuel r) (Value.Like R)
  evalAll : ∀ {es es' : List Expr} r, List.Forall₂ (Expr.Like R) es es' →
    Agree R (evalAll fuel r es) (evalAll fuel r es') (List.Forall₂ (Value.Like R))
  invoke : ∀ {f f' : FunDef} {vs vs' : List Value} r, f.Like R f' →
    List.Forall₂ (Value.Like R) vs vs' →
    Agree R (f.invoke fuel r vs) (f'.invoke fuel r vs') (Value.Like R)
  exec : ∀ {s s' : Stmt} r, s.Like R s' → Agree R (s.exec fuel r) (s'.exec fuel r) (Flow.Like R)
  execAll : ∀ {ss ss' : List Stmt} r, List.Forall₂ (Stmt.Like R) ss ss' →
    Agree R (execAll fuel r ss) (execAll fuel r ss') (Flow.Like R)

theorem agreeAt_zero : AgreeAt R 0 where
  eval _ _ := by rw [Expr.eval, Expr.eval]; exact agree_outOfFuel
  evalAll _ _ := by rw [evalAll, evalAll]; exact agree_outOfFuel
  invoke _ _ _ := by rw [FunDef.invoke, FunDef.invoke]; exact agree_outOfFuel
  exec _ _ := by rw [Stmt.exec, Stmt.exec]; exact agree_outOfFuel
  execAll _ _ := by rw [execAll, execAll]; exact agree_outOfFuel

namespace AgreeAt

variable {fuel : Nat} (r : EnvRef)

theorem eval_succ (ih : AgreeAt R fuel) {e e' : Expr} (h : e.Like R e') :
    Agree R (e.eval (fuel + 1) r) (e'.eval (fuel + 1) r) (Value.Like R) := by
  cases h with
  | integer n _ =>
    rw [Expr.eval, Expr.eval]
    exact agree_pure (.integer n)
  | boolean b _ =>
    rw [Expr.eval, Expr.eval]
    exact agree_pure (.boolean b)
  | ident hid =>
    rw [Expr.eval, Expr.eval]
    exact agree_read hid
  | binary op hl hr hs =>
    rw [Expr.eval, Expr.eval]
    exact (ih.eval r hl).bind fun a a' ha => (ih.eval r hr).bind fun b b' hb =>
      agree_apply ha hb hs hl.span hr.span
  | call hf hargs hs =>
    rw [Expr.eval, Expr.eval, hf.name]
    refine (agree_readFunction hf).bind ?_
    rintro ⟨f, owned⟩ ⟨f', _⟩ ⟨hlike, rfl⟩
    dsimp only at hlike ⊢
    rw [← hlike.params.length_eq, ← hargs.length_eq]
    split
    · exact (ih.evalAll r hargs).bind fun vs vs' hvs => ih.invoke owned hlike hvs
    · exact agree_fail ⟨rfl, hs⟩

theorem evalAll_succ (ih : AgreeAt R fuel) {es es' : List Expr}
    (h : List.Forall₂ (Expr.Like R) es es') : Agree R (Implet.evalAll (fuel + 1) r es)
      (Implet.evalAll (fuel + 1) r es') (List.Forall₂ (Value.Like R)) := by
  cases h with
  | nil =>
    rw [Implet.evalAll]
    exact agree_pure .nil
  | cons he hes =>
    rw [Implet.evalAll, Implet.evalAll]
    exact (ih.eval r he).bind fun v v' hv => (ih.evalAll r hes).bind fun vs vs' hvs =>
      agree_pure (.cons hv hvs)

theorem invoke_succ (hempty : R .empty .empty) (ih : AgreeAt R fuel) {f f' : FunDef}
    {vs vs' : List Value} (h : f.Like R f') (hvs : List.Forall₂ (Value.Like R) vs vs') :
    Agree R (f.invoke (fuel + 1) r vs) (f'.invoke (fuel + 1) r vs') (Value.Like R) := by
  rw [FunDef.invoke, FunDef.invoke, h.name.name]
  refine (agree_inFrame (B := Flow.Like R) hempty ?_).bind fun flow flow' hflow => ?_
  · exact (agree_bindParams h.params hvs).bind fun _ _ _ =>
      (agree_bindSelf hempty h).bind fun _ _ _ =>
        (agree_runDecls h.body.declarations).bind fun _ _ _ => ih.execAll r h.body.statements
  · cases hflow with
    | returning hv => exact agree_pure hv
    | completed => exact agree_fail ⟨rfl, h.span⟩

theorem agree_condition (ih : AgreeAt R fuel) {e e' : Expr} (h : e.Like R e') {α : Type}
    {f f' : Bool → Run α} {B : α → α → Prop} (hf : ∀ b, Agree R (f b) (f' b) B) :
    Agree R
      (do
        let value ← e.eval fuel r
        f (← value.expectBool e.span))
      (do
        let value ← e'.eval fuel r
        f' (← value.expectBool e'.span)) B := by
  refine (ih.eval r h).bind fun v v' hv => (agree_expectBool hv h.span).bind ?_
  rintro b _ rfl
  exact hf b

theorem exec_succ (hempty : R .empty .empty) (ih : AgreeAt R fuel) {s s' : Stmt}
    (h : s.Like R s') :
    Agree R (s.exec (fuel + 1) r) (s'.exec (fuel + 1) r) (Flow.Like R) := by
  cases id h with
  | block hds hss _ =>
    rw [Stmt.exec, Stmt.exec]
    exact agree_inFrame hempty ((agree_runDecls hds).bind fun _ _ _ => ih.execAll r hss)
  | cond hc ht _ =>
    rw [Stmt.exec, Stmt.exec]
    refine ih.agree_condition r hc fun b => ?_
    cases b with
    | true => exact agree_inFrame hempty (ih.exec r ht)
    | false => exact agree_pure .completed
  | condElse hc ht he _ =>
    rw [Stmt.exec, Stmt.exec]
    refine ih.agree_condition r hc fun b => ?_
    cases b with
    | true => exact agree_inFrame hempty (ih.exec r ht)
    | false => exact agree_inFrame hempty (ih.exec r he)
  | loop hc hb _ =>
    rw [Stmt.exec, Stmt.exec]
    refine ih.agree_condition r hc fun b => ?_
    cases b with
    | true =>
      refine (agree_inFrame hempty (ih.exec r hb)).bind fun flow flow' hflow => ?_
      cases hflow with
      | returning hv => exact agree_pure (.returning hv)
      | completed => exact ih.exec r h
    | false => exact agree_pure .completed
  | assign ht hv _ =>
    rw [Stmt.exec, Stmt.exec, ht.name]
    exact (ih.eval r hv).bind fun v v' hv => (agree_onEnvAt ht.span fun e e' he =>
      he.assign_both _ hv).bind fun _ _ _ => agree_pure .completed
  | ret hv _ =>
    rw [Stmt.exec, Stmt.exec]
    exact (ih.eval r hv).bind fun v v' hv => agree_pure (.returning hv)

theorem execAll_succ (ih : AgreeAt R fuel) {ss ss' : List Stmt}
    (h : List.Forall₂ (Stmt.Like R) ss ss') : Agree R (Implet.execAll (fuel + 1) r ss)
      (Implet.execAll (fuel + 1) r ss') (Flow.Like R) := by
  cases h with
  | nil =>
    rw [Implet.execAll]
    exact agree_pure .completed
  | cons hs hss =>
    rw [Implet.execAll, Implet.execAll]
    refine (ih.exec r hs).bind fun flow flow' hflow => ?_
    cases hflow with
    | returning hv => exact agree_pure (.returning hv)
    | completed => exact ih.execAll r hss

end AgreeAt

theorem agreeAt (hempty : R .empty .empty) (fuel : Nat) : AgreeAt R fuel := by
  induction fuel with
  | zero => exact agreeAt_zero
  | succ fuel ih =>
    exact ⟨ih.eval_succ, ih.evalAll_succ, fun r => ih.invoke_succ r hempty,
      fun r => ih.exec_succ r hempty, ih.execAll_succ⟩

/-! ### Entries and sessions -/

theorem agree_defineAll {r : EnvRef} {fs fs' : List FunDef}
    (h : List.Forall₂ (FunDef.Like R) fs fs') :
    Agree R (defineAll r fs) (defineAll r fs') fun _ _ => True := by
  induction h with
  | nil => exact agree_pure trivial
  | cons hf _ ih => exact (agree_define hf).bind fun _ _ _ => ih

/-- The same checker, and stores that are alike. -/
structure Session.Like (R : Span → Span → Prop) (s s' : Session) : Prop where
  checker : s'.checker = s.checker
  store : s.store.Like R s'.store

/-- The same outcome: the same type, and values that are alike. -/
structure Outcome.Like (R : Span → Span → Prop) (o o' : Outcome) : Prop where
  type : o'.type = o.type
  value : Option.Rel (Value.Like R) o.value o'.value

/-- What a session says of an entry once that has been read: outcomes that are
alike, or errors that are. -/
inductive Session.Says (R : Span → Span → Prop) :
    Except SessionError Outcome → Except SessionError Outcome → Prop
  | outcome {o o' : Outcome} : o.Like R o' → Says R (.ok o) (.ok o')
  | type {e e' : TypeError} : e.Like R e' → Says R (.error (.type e)) (.error (.type e'))
  | runtime {e e' : RuntimeError} : e.Like R e' →
    Says R (.error (.runtime e)) (.error (.runtime e'))

theorem Session.Like.initial : Session.Like R .initial .initial := ⟨rfl, .initial⟩

variable (hempty : R .empty .empty)
include hempty

theorem agree_execOutside (fuel : Nat) {r : EnvRef} {s s' : Stmt} (h : s.Like R s') :
    Agree R (s.execOutside fuel r) (s'.execOutside fuel r) fun _ _ => True := by
  refine ((agreeAt hempty fuel).exec r h).bind fun flow flow' hflow => ?_
  cases hflow with
  | completed => exact agree_pure trivial
  | returning _ => exact agree_fail ⟨rfl, h.span⟩

theorem agree_execAllOutside (fuel : Nat) {r : EnvRef} {ss ss' : List Stmt}
    (h : List.Forall₂ (Stmt.Like R) ss ss') :
    Agree R (execAllOutside fuel r ss) (execAllOutside fuel r ss') fun _ _ => True := by
  induction h with
  | nil => exact agree_pure trivial
  | cons hs _ ih => exact (agree_execOutside hempty fuel hs).bind fun _ _ _ => ih

/-- The runs of entries that are alike have outcomes that are alike. -/
theorem Entry.agree_run {e e' : Entry} (h : e.Like R e') (fuel : Nat) (r : EnvRef) :
    Agree R (e.run fuel r) (e'.run fuel r) (Option.Rel (Value.Like R)) := by
  cases h with
  | program hp =>
    exact (agree_defineAll hp.functions).bind fun _ _ _ =>
      (agree_runDecls hp.globals).bind fun _ _ _ =>
        (agree_execAllOutside hempty fuel hp.main).bind fun _ _ _ => agree_pure .none
  | function hf => exact (agree_define hf).bind fun _ _ _ => agree_pure .none
  | declaration hd => exact (agree_declRun hd).bind fun _ _ _ => agree_pure .none
  | statement hs => exact (agree_execOutside hempty fuel hs).bind fun _ _ _ => agree_pure .none
  | expression he =>
    exact ((agreeAt hempty fuel).eval r he).bind fun v v' hv => agree_pure (.some hv)

/-- Sessions that are alike say the same of entries that are alike, and are
alike afterwards. -/
theorem Session.runEntry_of_like {s s' : Session} (hs : s.Like R s') {e e' : Entry}
    (h : e.Like R e') (fuel : Nat) :
    (s.runEntry fuel e = none ∧ s'.runEntry fuel e' = none) ∨
      ∃ res res' t t', s.runEntry fuel e = some (res, t) ∧ s'.runEntry fuel e' = some (res', t') ∧
        Says R res res' ∧ t.Like R t' := by
  rw [runEntry, runEntry, hs.checker]
  rcases Checker.run_of_like hempty h s.checker with
    ⟨type, c, hok, hok'⟩ | ⟨err, err', herr, herr', hlike⟩
  · simp only [hok, hok']
    rcases (Entry.agree_run hempty h fuel Store.base).cases hs.store with ⟨h, h'⟩ |
      ⟨v, v', t, t', h, h', hv, ht⟩ | ⟨err, err', t, t', h, h', herr, ht⟩
    · exact .inl ⟨by rw [h], by rw [h']⟩
    · rw [h, h']
      exact .inr ⟨_, _, _, _, rfl, rfl, .outcome ⟨rfl, hv⟩, rfl, ht⟩
    · rw [h, h']
      exact .inr ⟨_, _, _, _, rfl, rfl, .runtime herr, rfl, ht⟩
  · simp only [herr, herr']
    exact .inr ⟨_, _, _, _, rfl, rfl, .type hlike, rfl, hs.store⟩

end Implet
