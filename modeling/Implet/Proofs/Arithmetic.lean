/-
Implet/Proofs/Arithmetic.lean

Arithmetic wraps around at 64 bits.  An expression of `+`, `-` and `*` has the
one number of 64 bits that is congruent to its exact value, however often the
values of its parts wrapped around.  With `/` there is no such exact value: what
a division comes to depends on what is left of its operands in 64 bits, and so
does whether it can be done at all (`Expr.eval_wrapping`).

Values are computed on `Int` here (`Expr.number?`), once exactly and once with
each result wrapped to 64 bits.  The divisions of an expression are taken in the
order in which a run gets to them, so that a run fails at the first of them
whose divisor is zero (`Expr.Arithmetic.settles`).
-/
import Mathlib.Data.Int.ModEq
import Implet.Proofs.Fuel

namespace Implet

/-! ### Numbers of 64 bits -/

/-- What is left of a number in 64 bits, one of which is for the sign. -/
def wrap (z : Int) : Int := z.bmod (2 ^ 64)

theorem wrap_toInt (n : Int64) : wrap n.toInt = n.toInt := n.toInt_bmod

theorem toInt_eq_wrap_iff {n : Int64} {z : Int} :
    n.toInt = wrap z ↔ n.toInt ≡ z [ZMOD 2 ^ 64] := by
  constructor
  · intro h
    rw [Int.ModEq, h]
    exact Int.bmod_emod
  · intro h
    have hmod : n.toInt % ((2 ^ 64 : Nat) : Int) = z % ((2 ^ 64 : Nat) : Int) := h
    rw [wrap, ← Int.emod_bmod, ← hmod, Int.emod_bmod]
    exact (wrap_toInt n).symm

namespace BinOp

/-- The exact result of an operator that has one for all numbers. -/
def integral? : BinOp → Int → Int → Option Int
  | add, x, y => some (x + y)
  | sub, x, y => some (x - y)
  | mul, x, y => some (x * y)
  | _, _, _ => none

/-- The result of an arithmetic operator in 64 bits.  Division goes toward zero,
and there is none by zero. -/
def wrapped? : BinOp → Int → Int → Option Int
  | div, x, y => if y = 0 then none else some (wrap (x.tdiv y))
  | op, x, y => (op.integral? x y).map wrap

/-- The results of the other operators are the same for operands that were
wrapped before. -/
theorem wrapped?_of_integral? {op : BinOp} {x y z : Int} (h : op.integral? x y = some z) :
    op.wrapped? (wrap x) (wrap y) = some (wrap z) := by
  cases op with
  | add =>
    cases h
    exact congrArg some (Int.add_bmod x y _).symm
  | sub =>
    cases h
    refine congrArg some ?_
    rw [wrap, wrap, wrap, wrap, Int.bmod_sub_bmod, Int.sub_bmod_bmod]
  | mul =>
    cases h
    refine congrArg some ?_
    rw [wrap, wrap, wrap, wrap, Int.bmod_mul_bmod, Int.mul_bmod_bmod]
  | div | eq | lt | gt | and | or => cases h

/-- Applied to numbers, an arithmetic operator gives its result in 64 bits; only
a division by zero fails. -/
theorem apply_integer {op : BinOp} (h : op ∈ [add, sub, mul, div])
    (span leftSpan rightSpan : Span) (m n : Int64) (s : Store) :
    (op = div ∧ n.toInt = 0 ∧ op.apply span leftSpan rightSpan (.integer m) (.integer n) s =
      some (.error (.divisionByZero span), s)) ∨
    (¬(op = div ∧ n.toInt = 0) ∧ ∃ k : Int64, op.wrapped? m.toInt n.toInt = some k.toInt ∧
      op.apply span leftSpan rightSpan (.integer m) (.integer n) s =
        some (.ok (.integer k), s)) := by
  cases op with
  | add => exact .inr ⟨nofun, m + n, congrArg some (m.toInt_add n).symm, rfl⟩
  | sub => exact .inr ⟨nofun, m - n, congrArg some (m.toInt_sub n).symm, rfl⟩
  | mul => exact .inr ⟨nofun, m * n, congrArg some (m.toInt_mul n).symm, rfl⟩
  | div =>
    have hzero : n.toInt = 0 ↔ n = 0 := by rw [← Int64.toInt_inj, Int64.toInt_zero]
    by_cases hn : n = 0
    · refine .inl ⟨rfl, hzero.mpr hn, ?_⟩
      rw [hn]
      rfl
    · have hn' : ¬n.toInt = 0 := fun h => hn (hzero.mp h)
      refine .inr ⟨fun h => hn' h.2, m / n, ?_, ?_⟩
      · rw [wrapped?, if_neg hn', m.toInt_div n, wrap]
      · show (if n = 0 then _ else _ : Run Value) s = _
        rw [if_neg hn]
        rfl
  | eq | lt | gt | and | or => simp at h

end BinOp

/-! ### Values of expressions -/

namespace Expr

/-- An expression of integer literals, variables that hold integers, and the
operators `ops`. -/
def Arithmetic (ops : List BinOp) (env : Environment) : Expr → Prop
  | integer _ _ => True
  | ident id => ∃ n, env.lookup id.name = .ok (.integer n)
  | binary op left right _ => op ∈ ops ∧ left.Arithmetic ops env ∧ right.Arithmetic ops env
  | boolean _ _ | call _ _ _ => False

/-- The number that an expression stands for, when `result?` tells the results
of its operators. -/
def number? (result? : BinOp → Int → Int → Option Int) (env : Environment) :
    Expr → Option Int
  | integer n _ => some n.toInt
  | ident id =>
    match env.lookup id.name with
    | .ok (.integer n) => some n.toInt
    | _ => none
  | binary op left right _ =>
    (left.number? result? env).bind fun x => (right.number? result? env).bind (result? op x)
  | boolean _ _ | call _ _ _ => none

/-- The divisors of an expression, each with the span of the division, in the
order in which the divisions are done. -/
def divisions : Expr → List (Expr × Span)
  | binary op left right span =>
    left.divisions ++ (right.divisions ++ if op = .div then [(right, span)] else [])
  | _ => []

/-- The first division by something that comes to zero. -/
def zeroDivision? (env : Environment) (e : Expr) : Option (Expr × Span) :=
  e.divisions.find? fun d => d.1.number? BinOp.wrapped? env == some 0

variable {env : Environment} {ops : List BinOp} {op : BinOp} {left right : Expr} {span : Span}

theorem number?_ident {result? : BinOp → Int → Int → Option Int} {id : Ident} {n : Int64}
    (h : env.lookup id.name = .ok (.integer n)) :
    (ident id).number? result? env = some n.toInt := by
  rw [number?, h]

theorem number?_binary {result? : BinOp → Int → Int → Option Int} {x y : Int}
    (hleft : left.number? result? env = some x) (hright : right.number? result? env = some y) :
    (binary op left right span).number? result? env = result? op x y := by
  rw [number?, hleft, hright]
  rfl

theorem zeroDivision?_binary : (binary op left right span).zeroDivision? env =
    (left.zeroDivision? env).or ((right.zeroDivision? env).or
      (if op = .div ∧ right.number? BinOp.wrapped? env = some 0 then some (right, span)
        else none)) := by
  rw [zeroDivision?, divisions, List.find?_append, List.find?_append]
  congr 2
  by_cases hop : op = .div
  · by_cases hzero : right.number? BinOp.wrapped? env = some 0 <;> simp [hop, hzero]
  · simp [hop]

theorem zeroDivision?_isSome_iff {e : Expr} : (e.zeroDivision? env).isSome = true ↔
    ∃ d ∈ e.divisions, d.1.number? BinOp.wrapped? env = some 0 := by
  rw [zeroDivision?, List.find?_isSome]
  exact exists_congr fun d => and_congr_right fun _ => beq_iff_eq

theorem Arithmetic.mono {ops' : List BinOp} (hops : ops ⊆ ops') {e : Expr}
    (h : e.Arithmetic ops env) : e.Arithmetic ops' env := by
  induction e using Expr.divisions.induct with
  | case1 op left right span ihl ihr => exact ⟨hops h.1, ihl h.2.1, ihr h.2.2⟩
  | case2 e hne =>
    cases e with
    | integer => trivial
    | ident id => exact h
    | binary op left right span => exact absurd rfl (hne op left right span)
    | boolean | call => exact h.elim

/-- An expression without divisions has an exact value, and wrapping it once at
the end is the same as wrapping it at each operator. -/
theorem Arithmetic.exact {e : Expr} (h : e.Arithmetic [.add, .sub, .mul] env) :
    ∃ z, e.number? BinOp.integral? env = some z ∧ e.number? BinOp.wrapped? env = some (wrap z) := by
  induction e using Expr.divisions.induct with
  | case1 op left right span ihl ihr =>
    obtain ⟨hop, hleft, hright⟩ := h
    obtain ⟨x, hx, hx'⟩ := ihl hleft
    obtain ⟨y, hy, hy'⟩ := ihr hright
    obtain ⟨z, hz⟩ : ∃ z, op.integral? x y = some z := by
      simp only [List.mem_cons, List.not_mem_nil, or_false] at hop
      rcases hop with rfl | rfl | rfl <;> exact ⟨_, rfl⟩
    exact ⟨z, (number?_binary hx hy).trans hz,
      (number?_binary hx' hy').trans (BinOp.wrapped?_of_integral? hz)⟩
  | case2 e hne =>
    cases e with
    | integer n span => exact ⟨n.toInt, rfl, by rw [wrap_toInt]; rfl⟩
    | ident id =>
      obtain ⟨n, hn⟩ := h
      exact ⟨n.toInt, number?_ident hn, by rw [wrap_toInt, number?_ident hn]⟩
    | binary op left right span => exact absurd rfl (hne op left right span)
    | boolean | call => exact h.elim

theorem Arithmetic.divisions_eq_nil {e : Expr} (h : e.Arithmetic ops env)
    (hops : .div ∉ ops) :
    e.divisions = [] := by
  induction e using Expr.divisions.induct with
  | case1 op left right span ihl ihr =>
    have hop : op ≠ .div := fun heq => hops (heq ▸ h.1)
    rw [divisions, ihl h.2.1, ihr h.2.2, if_neg hop]
    rfl
  | case2 e hne =>
    rw [divisions]
    exact hne

/-! ### Runs -/

/-- On enough fuel, the expression is run to this result, and the store stays as
it is. -/
def Evaluates (r : EnvRef) (s : Store) (e : Expr) (result : Except RuntimeError Value) :
    Prop :=
  ∃ fuel, ∀ more, fuel ≤ more → e.eval more r s = some (result, s)

variable {r : EnvRef} {s : Store}

theorem Evaluates.unique {e : Expr} {result result' : Except RuntimeError Value}
    (h : e.Evaluates r s result) (h' : e.Evaluates r s result') : result = result' := by
  obtain ⟨fuel, h⟩ := h
  obtain ⟨fuel', h'⟩ := h'
  have heq := (h _ (Nat.le_max_left fuel fuel')).symm.trans (h' _ (Nat.le_max_right fuel fuel'))
  exact (Prod.mk.inj (Option.some.inj heq)).1

theorem evaluates_integer (n : Int64) :
    (integer n span).Evaluates r s (.ok (.integer n)) := by
  refine ⟨1, fun more hle => ?_⟩
  obtain ⟨fuel, rfl⟩ := Nat.exists_eq_add_of_le' hle
  rw [eval]
  rfl

theorem evaluates_ident {id : Ident} {n : Int64}
    (h : (s.env r).lookup id.name = .ok (.integer n)) :
    (ident id).Evaluates r s (.ok (.integer n)) := by
  refine ⟨1, fun more hle => ?_⟩
  obtain ⟨fuel, rfl⟩ := Nat.exists_eq_add_of_le' hle
  rw [eval, Ident.read]
  show Run.bind (Run.env r) _ s = _
  rw [Run.bind, Run.env]
  dsimp only
  rw [h]
  rfl

/-- Both operands are run before the operator is applied. -/
theorem eval_binary (fuel : Nat) : (binary op left right span).eval (fuel + 1) r =
    (left.eval fuel r).bind fun a => (right.eval fuel r).bind fun b =>
      op.apply span left.span right.span a b := by
  rw [eval]
  rfl

theorem evaluates_binary_of_left {e : RuntimeError} (h : left.Evaluates r s (.error e)) :
    (binary op left right span).Evaluates r s (.error e) := by
  obtain ⟨fuel, h⟩ := h
  refine ⟨fuel + 1, fun more hle => ?_⟩
  obtain ⟨k, rfl⟩ := Nat.exists_eq_add_of_le' (Nat.le_trans (Nat.le_add_left 1 fuel) hle)
  rw [eval_binary, Run.bind, h k (by omega)]

theorem evaluates_binary_of_right {a : Value} {e : RuntimeError}
    (ha : left.Evaluates r s (.ok a)) (h : right.Evaluates r s (.error e)) :
    (binary op left right span).Evaluates r s (.error e) := by
  obtain ⟨fuel, ha⟩ := ha
  obtain ⟨fuel', h⟩ := h
  refine ⟨max fuel fuel' + 1, fun more hle => ?_⟩
  obtain ⟨k, rfl⟩ := Nat.exists_eq_add_of_le' (Nat.le_trans (Nat.le_add_left 1 _) hle)
  rw [eval_binary, Run.bind, ha k (by omega)]
  dsimp only
  rw [Run.bind, h k (by omega)]

theorem evaluates_binary {a b : Value} {result : Except RuntimeError Value}
    (ha : left.Evaluates r s (.ok a)) (hb : right.Evaluates r s (.ok b))
    (h : op.apply span left.span right.span a b s = some (result, s)) :
    (binary op left right span).Evaluates r s result := by
  obtain ⟨fuel, ha⟩ := ha
  obtain ⟨fuel', hb⟩ := hb
  refine ⟨max fuel fuel' + 1, fun more hle => ?_⟩
  obtain ⟨k, rfl⟩ := Nat.exists_eq_add_of_le' (Nat.le_trans (Nat.le_add_left 1 _) hle)
  rw [eval_binary, Run.bind, ha k (by omega)]
  dsimp only
  rw [Run.bind, hb k (by omega)]
  exact h

/-! ### Arithmetic -/

/-- An expression without a division by zero has its value in 64 bits, and
otherwise it fails at the first one. -/
def Settles (r : EnvRef) (s : Store) (e : Expr) : Prop :=
  match e.zeroDivision? (s.env r) with
  | none => ∃ n, e.number? BinOp.wrapped? (s.env r) = some n.toInt ∧
      e.Evaluates r s (.ok (.integer n))
  | some d => e.Evaluates r s (.error (.divisionByZero d.2))

theorem settles_binary (hop : op ∈ [.add, .sub, .mul, .div]) (hleft : left.Settles r s)
    (hright : right.Settles r s) : (binary op left right span).Settles r s := by
  unfold Settles at hleft hright ⊢
  rw [zeroDivision?_binary]
  cases hl : left.zeroDivision? (s.env r) with
  | some d =>
    rw [hl] at hleft
    exact evaluates_binary_of_left hleft
  | none =>
    rw [hl] at hleft
    obtain ⟨m, hm, hleft⟩ := hleft
    -- the divisions of the left operand are done, and those of the right one
    -- come before this one
    cases hr : right.zeroDivision? (s.env r) with
    | some d =>
      rw [hr] at hright
      exact evaluates_binary_of_right hleft hright
    | none =>
      rw [hr] at hright
      obtain ⟨n, hn, hright⟩ := hright
      rw [Option.none_or, Option.none_or, hn]
      rcases BinOp.apply_integer hop span left.span right.span m n s with
        ⟨hdiv, hzero, happly⟩ | ⟨hne, k, hk, happly⟩
      · rw [if_pos ⟨hdiv, congrArg some hzero⟩]
        exact evaluates_binary hleft hright happly
      · rw [if_neg fun h => hne ⟨h.1, Option.some.inj h.2⟩]
        exact ⟨k, (number?_binary hm hn).trans hk, evaluates_binary hleft hright happly⟩

theorem Arithmetic.settles {e : Expr}
    (h : e.Arithmetic [.add, .sub, .mul, .div] (s.env r)) :
    e.Settles r s := by
  induction e using Expr.divisions.induct with
  | case1 op left right span ihl ihr => exact settles_binary h.1 (ihl h.2.1) (ihr h.2.2)
  | case2 e hne =>
    cases e with
    | integer n span => exact ⟨n, rfl, evaluates_integer n⟩
    | ident id =>
      obtain ⟨n, hn⟩ := h
      exact ⟨n, number?_ident hn, evaluates_ident hn⟩
    | binary op left right span => exact absurd rfl (hne op left right span)
    | boolean | call => exact h.elim

theorem Arithmetic.evaluates_divisionByZero_iff {e : Expr}
    (h : e.Arithmetic [.add, .sub, .mul, .div] (s.env r)) {span : Span} :
    e.Evaluates r s (.error (.divisionByZero span)) ↔
      ∃ d, e.zeroDivision? (s.env r) = some (d, span) := by
  have hsettles := h.settles
  unfold Settles at hsettles
  cases hz : e.zeroDivision? (s.env r) with
  | none =>
    rw [hz] at hsettles
    obtain ⟨n, -, hn⟩ := hsettles
    constructor
    · intro herror
      exact nomatch hn.unique herror
    · rintro ⟨d, ⟨⟩⟩
  | some d =>
    rw [hz] at hsettles
    constructor
    · intro herror
      cases hsettles.unique herror
      exact ⟨d.1, rfl⟩
    · rintro ⟨_, ⟨⟩⟩
      exact hsettles

/-- Without divisions, an expression has the one number of 64 bits that is
congruent to its exact value.  With divisions, it has its value in 64 bits or
fails with a division by zero, and it fails exactly when one of its divisors
comes to zero. -/
theorem eval_wrapping (r : EnvRef) (s : Store) (e : Expr) :
    (e.Arithmetic [.add, .sub, .mul] (s.env r) →
      ∃ z n, e.number? BinOp.integral? (s.env r) = some z ∧
        (∀ m : Int64, m.toInt ≡ z [ZMOD 2 ^ 64] ↔ m = n) ∧ e.Evaluates r s (.ok (.integer n))) ∧
    (e.Arithmetic [.add, .sub, .mul, .div] (s.env r) →
      ((∃ n : Int64, e.number? BinOp.wrapped? (s.env r) = some n.toInt ∧
          e.Evaluates r s (.ok (.integer n))) ∨
        ∃ span, e.Evaluates r s (.error (.divisionByZero span))) ∧
      ((∃ span, e.Evaluates r s (.error (.divisionByZero span))) ↔
        ∃ d ∈ e.divisions, d.1.number? BinOp.wrapped? (s.env r) = some 0)) := by
  constructor
  · intro h
    obtain ⟨z, hz, hwrapped⟩ := h.exact
    have hops : [BinOp.add, .sub, .mul] ⊆ [.add, .sub, .mul, .div] := by decide
    have hsettles := (h.mono hops).settles
    rw [Settles, zeroDivision?, h.divisions_eq_nil (by decide)] at hsettles
    obtain ⟨n, hn, heval⟩ := hsettles
    have hvalue : n.toInt = wrap z := Option.some.inj (hn.symm.trans hwrapped)
    refine ⟨z, n, hz, fun m => ?_, heval⟩
    rw [← toInt_eq_wrap_iff, ← hvalue, Int64.toInt_inj]
  · intro h
    constructor
    · have hsettles := h.settles
      unfold Settles at hsettles
      cases hz : e.zeroDivision? (s.env r) with
      | none =>
        rw [hz] at hsettles
        exact .inl hsettles
      | some d =>
        rw [hz] at hsettles
        exact .inr ⟨d.2, hsettles⟩
    · rw [← zeroDivision?_isSome_iff, Option.isSome_iff_exists]
      simp only [h.evaluates_divisionByZero_iff]
      exact ⟨fun ⟨span, d, hd⟩ => ⟨(d, span), hd⟩, fun ⟨d, hd⟩ => ⟨d.2, d.1, hd⟩⟩

/-- A square that is congruent to zero is zero, and nothing can be divided by it. -/
theorem eval_square : ∃ (x : Expr) (s : Store),
    x.number? BinOp.integral? (s.env Store.base) = some (2 ^ 32) ∧
    (binary .mul x x .empty).Evaluates Store.base s (.ok (.integer 0)) ∧
    ∃ span, (binary .div x (binary .mul x x .empty) .empty).Evaluates Store.base s
      (.error (.divisionByZero span)) := by
  let x : Expr := ident ⟨"x", .empty⟩
  let s : Store := ⟨#[⟨[[("x", .integer 4294967296)]]⟩]⟩
  have hx (ops : List BinOp) : x.Arithmetic ops (s.env Store.base) := ⟨4294967296, rfl⟩
  have hvalue :
      (binary .mul x x .empty).number? BinOp.integral? (s.env Store.base) = some (2 ^ 64) := by
    decide
  have hwrapped : (binary .mul x x .empty).number? BinOp.wrapped? (s.env Store.base) = some 0 := by
    decide
  refine ⟨x, s, by decide, ?_, ?_⟩
  · obtain ⟨z, n, hz, hunique, heval⟩ := (eval_wrapping Store.base s (binary .mul x x .empty)).1
      ⟨by decide, hx _, hx _⟩
    obtain rfl := Option.some.inj (hvalue.symm.trans hz)
    rw [(hunique 0).mp (by decide)]
    exact heval
  · exact ((eval_wrapping Store.base s (binary .div x (binary .mul x x .empty) .empty)).2
      ⟨by decide, hx _, by decide, hx _, hx _⟩).2.mpr ⟨_, List.mem_singleton_self _, hwrapped⟩

-- the one quotient that does not fit in 64 bits
example : BinOp.wrapped? .div Int64.minValue.toInt (-1) = some Int64.minValue.toInt := by decide

end Expr

end Implet
