/-
Implet/Proofs/Values.lean

The types of values.  The type of a closure is that of its function, which was
known when the function was defined; a `Signature` keeps it, and signatures are
filed under the environments that the closures own.

A variable that has not been assigned yet can be of any type (`Value.Fits`); a
value that an expression has is of the type of the expression (`Value.Agrees`).
Operators take values of the types they ask for to a value of the type they
promise, or divide by zero.

All this is said at two levels at once.  If `strict` holds, values have the
types that they are said to have.  If it does not, they can be of any type, and
only names are accounted for: closures are known, and operators may find a value
of the wrong kind.
-/
import Implet.Proofs.Runs

namespace Implet

open Run

/-- What was known about a function when it was defined: the number of the first
variable that was made for it, and the globals. -/
structure Signature where
  function : FunDef
  first : Nat
  globals : Frame Ground

/-- The signatures of the closures that own environments. -/
abbrev Signatures := EnvRef → Option Signature

variable (strict : Prop) (ρ : Valuation) (Φ : Signatures)

/-! ### Values -/

/-- A value is of a type. -/
def Value.HasType : Value → Ground → Prop
  | .integer _, g => g = .int
  | .boolean _, g => g = .bool
  | .uninitialized, _ => False
  | .closure f r, g => ∃ sig, Φ r = some sig ∧ sig.function = f ∧ g = f.ground ρ sig.first

/-- A value is of some type, and of the given one if `strict` holds. -/
def Value.Agrees (v : Value) (g : Ground) : Prop :=
  ∃ g', v.HasType ρ Φ g' ∧ (strict → g' = g)

/-- A value can be held by a variable of a type. -/
def Value.Fits (v : Value) (g : Ground) : Prop :=
  v = .uninitialized ∨ v.Agrees strict ρ Φ g

variable {strict ρ Φ} {v : Value}

theorem Value.HasType.agrees {g : Ground} (h : v.HasType ρ Φ g) : v.Agrees strict ρ Φ g :=
  ⟨g, h, fun _ => rfl⟩

theorem Value.Agrees.hasType {g : Ground} (h : v.Agrees strict ρ Φ g) (hst : strict) :
    v.HasType ρ Φ g := by
  obtain ⟨g', h, hg⟩ := h
  exact hg hst ▸ h

/-- If nothing is said about types, one is as good as another. -/
theorem Value.Agrees.congr {g g' : Ground} (h : v.Agrees strict ρ Φ g)
    (hg : strict → g = g') :
    v.Agrees strict ρ Φ g' := by
  obtain ⟨g₀, h, hg₀⟩ := h
  exact ⟨g₀, h, fun hst => (hg₀ hst).trans (hg hst)⟩

theorem Value.Agrees.fits {g : Ground} (h : v.Agrees strict ρ Φ g) :
    v.Fits strict ρ Φ g := Or.inr h

theorem Value.Fits.congr {g g' : Ground} (h : v.Fits strict ρ Φ g)
    (hg : strict → g = g') :
    v.Fits strict ρ Φ g' := h.imp id fun h => h.congr hg

theorem Value.HasType.eq_integer (h : v.HasType ρ Φ .int) : ∃ n, v = .integer n := by
  cases v with
  | integer n => exact ⟨n, rfl⟩
  | boolean b => cases h
  | uninitialized => cases h
  | closure f r =>
    obtain ⟨sig, -, -, h⟩ := h
    cases h

theorem Value.HasType.eq_boolean (h : v.HasType ρ Φ .bool) : ∃ b, v = .boolean b := by
  cases v with
  | integer n => cases h
  | boolean b => exact ⟨b, rfl⟩
  | uninitialized => cases h
  | closure f r =>
    obtain ⟨sig, -, -, h⟩ := h
    cases h

/-- What is of a function type is a closure of a function of that type. -/
theorem Value.HasType.eq_closure {params : List Ground} {result : Ground}
    (h : v.HasType ρ Φ (.func params result)) :
    ∃ r sig, v = .closure sig.function r ∧ Φ r = some sig ∧
      params = groundDecls ρ sig.first sig.function.params ∧
      result = sig.function.result ρ sig.first := by
  cases v with
  | integer n => cases h
  | boolean b => cases h
  | uninitialized => cases h
  | closure f r =>
    obtain ⟨sig, hr, rfl, hg⟩ := h
    obtain ⟨rfl, rfl⟩ := Ground.func.inj hg
    exact ⟨r, sig, rfl, hr, rfl, rfl⟩

theorem Value.Fits.mono {Φ' : Signatures} (hΦ : ∀ r sig, Φ r = some sig → Φ' r = some sig)
    {g : Ground} (h : v.Fits strict ρ Φ g) : v.Fits strict ρ Φ' g := by
  refine h.imp id fun ⟨g', h, hg⟩ => ⟨g', ?_, hg⟩
  cases v with
  | integer | boolean | uninitialized => exact h
  | closure f r =>
    obtain ⟨sig, hr, hf⟩ := h
    exact ⟨sig, hΦ r sig hr, hf⟩

/-- What a variable holds at first fits the type that it is declared with. -/
theorem fits_default (n : Nat) (d : Decl) :
    (Value.default d.type).Fits strict ρ Φ (d.ground ρ n) := by
  rw [Decl.ground]
  rcases d.type with - | _ | _
  · exact Or.inl rfl
  · exact (show Value.HasType ρ Φ (.integer 0) .int from rfl).agrees.fits
  · exact (show Value.HasType ρ Φ (.boolean false) .bool from rfl).agrees.fits

theorem fits_defaults (n : Nat) (ds : List Decl) :
    List.Forall₂ (fun d g => (Value.default d.type).Fits strict ρ Φ g) ds (groundDecls ρ n ds) := by
  induction ds generalizing n with
  | nil => exact .nil
  | cons d ds ih => exact .cons (fits_default n d) (ih _)

/-! ### Errors -/

/-- The errors that a program of the language can meet: dividing by zero,
reading or calling a variable that has not been assigned, and the end of a body
without a `return`. -/
def RuntimeError.Expected : RuntimeError → Prop
  | .divisionByZero _ | .uninitialized _ _ | .missingReturn _ _ => True
  | .notAFunction _ kind _ => kind = Value.uninitialized.kind
  | .undeclared _ _ | .duplicate _ _ | .arity _ _ _ _ | .wrongKind _ _ _
  | .returnOutsideFunction _ | .internal _ _ => False

/-- The errors that a run can end with.  Names are never at fault, but for those
of functions of which `Q` holds and whose bodies declare them again; types are
not at fault either if `strict` holds. -/
def RuntimeError.Arises (strict : Prop) (Q : FunDef → Prop) : RuntimeError → Prop
  | .divisionByZero _ | .uninitialized _ _ | .missingReturn _ _ => True
  | .notAFunction _ kind _ => strict → kind = Value.uninitialized.kind
  | .arity _ _ _ _ | .wrongKind _ _ _ => ¬ strict
  | .duplicate name _ => ∃ f, Q f ∧ f.RedeclaresSelf ∧ name = f.name.name
  | .undeclared _ _ | .returnOutsideFunction _ | .internal _ _ => False

/-! ### Operators -/

variable {I : Store → Prop} {Q : FunDef → Prop} {a b : Value}

theorem RuntimeError.Arises.mono {Q' : FunDef → Prop} (hQ : ∀ f, Q f → Q' f)
    {e : RuntimeError} (h : e.Arises strict Q) : e.Arises strict Q' := by
  cases e with
  | duplicate name span =>
    obtain ⟨f, hf, h⟩ := h
    exact ⟨f, hQ f hf, h⟩
  | undeclared | notAFunction | arity | missingReturn | wrongKind | uninitialized
  | divisionByZero | returnOutsideFunction | internal => exact h

theorem RuntimeError.Arises.expected {e : RuntimeError}
    (h : e.Arises True (¬ ·.RedeclaresSelf)) :
    e.Expected := by
  cases e with
  | duplicate name span =>
    obtain ⟨f, hf, hd, -⟩ := h
    exact hf hd
  | notAFunction name kind span => exact h trivial
  | arity | wrongKind => exact h trivial
  | undeclared | missingReturn | uninitialized | divisionByZero | returnOutsideFunction
  | internal => exact h

theorem keeps_expectInt {span : Span} (h : v.Agrees strict ρ Φ .int) :
    Keeps I (v.expectInt span) (fun _ => True) (·.Arises strict Q) := by
  by_cases hst : strict
  · obtain ⟨n, rfl⟩ := (h.hasType hst).eq_integer
    exact keeps_pure trivial
  · cases v with
    | integer n => exact keeps_pure trivial
    | boolean | uninitialized | closure => exact keeps_fail hst

theorem keeps_expectBool {span : Span} (h : v.Agrees strict ρ Φ .bool) :
    Keeps I (v.expectBool span) (fun _ => True) (·.Arises strict Q) := by
  by_cases hst : strict
  · obtain ⟨b, rfl⟩ := (h.hasType hst).eq_boolean
    exact keeps_pure trivial
  · cases v with
    | boolean n => exact keeps_pure trivial
    | integer | uninitialized | closure => exact keeps_fail hst

theorem keeps_arithmetic {ls rs : Span} {op : Int64 → Int64 → Value} {g : Ground}
    (hop : ∀ m n, (op m n).HasType ρ Φ g) (ha : a.Agrees strict ρ Φ .int)
    (hb : b.Agrees strict ρ Φ .int) :
    Keeps I (arithmetic ls rs op a b) (·.Agrees strict ρ Φ g) (·.Arises strict Q) :=
  (keeps_expectInt ha).bind fun m _ => (keeps_expectInt hb).bind fun n _ =>
    keeps_pure (hop m n).agrees

theorem keeps_logical {ls rs : Span} {op : Bool → Bool → Bool}
    (ha : a.Agrees strict ρ Φ .bool) (hb : b.Agrees strict ρ Φ .bool) :
    Keeps I (logical ls rs op a b) (·.Agrees strict ρ Φ .bool) (·.Arises strict Q) :=
  (keeps_expectBool ha).bind fun x _ => (keeps_expectBool hb).bind fun y _ =>
    keeps_pure (show Value.HasType ρ Φ (.boolean (op x y)) .bool from rfl).agrees

/-- Whatever is compared, the outcome is a truth value, and the values are of
the right kinds if they are of the same base type. -/
theorem keeps_eq {operand : Ground} {span ls rs : Span} (hbase : operand.IsBase)
    (ha : a.Agrees strict ρ Φ operand) (hb : b.Agrees strict ρ Φ operand) :
    Keeps I (BinOp.eq.apply span ls rs a b) (·.Agrees strict ρ Φ .bool) (·.Arises strict Q) := by
  have hbool : ∀ x, (Value.boolean x).Agrees strict ρ Φ .bool :=
    fun x => (show Value.HasType ρ Φ (.boolean x) .bool from rfl).agrees
  by_cases hst : strict
  · cases operand with
    | int =>
      obtain ⟨m, rfl⟩ := (ha.hasType hst).eq_integer
      obtain ⟨n, rfl⟩ := (hb.hasType hst).eq_integer
      exact keeps_pure (hbool _)
    | bool =>
      obtain ⟨x, rfl⟩ := (ha.hasType hst).eq_boolean
      obtain ⟨y, rfl⟩ := (hb.hasType hst).eq_boolean
      exact keeps_pure (hbool _)
    | func => cases hbase
  · -- whatever the two values are, they are compared or one of them is refused
    cases a <;> cases b <;> first | exact keeps_pure (hbool _) | exact keeps_fail hst

/-- Operators keep to their types. -/
theorem keeps_apply {op : BinOp} {operand g : Ground} {span ls rs : Span}
    (hop : op.HasTypes operand g) (ha : a.Agrees strict ρ Φ operand)
    (hb : b.Agrees strict ρ Φ operand) :
    Keeps I (op.apply span ls rs a b) (·.Agrees strict ρ Φ g) (·.Arises strict Q) := by
  cases op with
  | add | sub | mul | lt | gt =>
    obtain ⟨rfl, rfl⟩ := hop
    exact keeps_arithmetic (fun _ _ => rfl) ha hb
  | and | or =>
    obtain ⟨rfl, rfl⟩ := hop
    exact keeps_logical ha hb
  | div =>
    obtain ⟨rfl, rfl⟩ := hop
    refine (keeps_expectInt ha).bind fun m _ => (keeps_expectInt hb).bind fun n _ => ?_
    split
    · exact keeps_fail trivial
    · exact keeps_pure (show Value.HasType ρ Φ (.integer (m / n)) .int from rfl).agrees
  | eq =>
    obtain ⟨hbase, rfl⟩ := hop
    exact keeps_eq hbase ha hb

end Implet
