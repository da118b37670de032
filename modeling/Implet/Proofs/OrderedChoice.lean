/-
Implet/Proofs/OrderedChoice.lean

Parsers by ordered choice mean what parsing expressions mean.  `Rule` are the
parsers that are put together from tokens, and `Rule.Parses` says for each of
them how it ends on some tokens: with a tree and the tokens that are left, or
with a failure, and which errors are raised on the way, in which order.  There
is no cursor in it that is moved back, no memory and no bound on the rounds of a
repetition.

A parser that repeats only what takes tokens does what its rule says
(`Rule.parser_obeys`).  The proof has one lemma for each way of putting parsers
together.  All that goes on between a parser and its parts is in the judgement
`Parser.Obeys`: what has been remembered at the start is the memory of the
errors raised so far, and the part adds its own ones to it.
-/
import Implet.Proofs.Following

namespace Implet

/-! ### Meanings -/

/-- An error and the tokens that were left where it was raised. -/
structure Complaint where
  rest : List Token
  error : ParseError

/-- How parsing some tokens ends, with a tree and what is left or with a
failure, and the errors that it raises. -/
abbrev Meaning (α : Type) := List Token → Option (α × List Token) → List Complaint → Prop

namespace Meaning

variable {α β γ : Type}

/-- A token that is accepted, or a complaint. -/
inductive token (accepts : Token → Bool) (x : Expectation) : Meaning Token
  | taken {t : Token} (ts : List Token) (h : accepts t) :
    token accepts x (t :: ts) (some (t, ts)) []
  | missed {ts : List Token} (h : ∀ t ∈ ts.head?, ¬accepts t) :
    token accepts x ts none [⟨ts, (Cursor.ofTokens ts).complaint x⟩]

/-- Both, one after the other. -/
inductive andThen (P : Meaning α) (Q : Meaning β) (f : α → β → γ) : Meaning γ
  | both {ts us vs : List Token} {a : α} {b : β} {es es' : List Complaint} :
    P ts (some (a, us)) es → Q us (some (b, vs)) es' →
      andThen P Q f ts (some (f a b, vs)) (es ++ es')
  | first_fails {ts : List Token} {es : List Complaint} :
    P ts none es → andThen P Q f ts none es
  | second_fails {ts us : List Token} {a : α} {es es' : List Complaint} :
    P ts (some (a, us)) es → Q us none es' → andThen P Q f ts none (es ++ es')

/-- The first, and only if it fails the second, from where the first began. -/
inductive orElse (P Q : Meaning α) : Meaning α
  | first {ts us : List Token} {a : α} {es : List Complaint} :
    P ts (some (a, us)) es → orElse P Q ts (some (a, us)) es
  | second {ts : List Token} {o : Option (α × List Token)} {es es' : List Complaint} :
    P ts none es → Q ts o es' → orElse P Q ts o (es ++ es')

/-- A failure is complained about once more, where it was. -/
inductive labelled (P : Meaning α) (x : Expectation) : Meaning α
  | success {ts us : List Token} {a : α} {es : List Complaint} :
    P ts (some (a, us)) es → labelled P x ts (some (a, us)) es
  | failure {ts us : List Token} {e : ParseError} {es : List Complaint} :
    P ts none (es ++ [⟨us, e⟩]) →
      labelled P x ts none (es ++ [⟨us, e⟩] ++ [⟨us, { e with expected := [x] }⟩])

/-- One, or nothing where it fails. -/
inductive optional (P : Meaning α) : Meaning (Option α)
  | present {ts us : List Token} {a : α} {es : List Complaint} :
    P ts (some (a, us)) es → optional P ts (some (some a, us)) es
  | absent {ts : List Token} {es : List Complaint} :
    P ts none es → optional P ts (some (none, ts)) es

/-- One after the other up to where it fails. -/
inductive many (P : Meaning α) : Meaning (List α)
  | stop {ts : List Token} {es : List Complaint} : P ts none es → many P ts (some ([], ts)) es
  | more {ts us vs : List Token} {a : α} {as : List α} {es es' : List Complaint} :
    P ts (some (a, us)) es → many P us (some (as, vs)) es' →
      many P ts (some (a :: as, vs)) (es ++ es')

/-- Separators with an item each, up to where there is no separator.  After a
separator there must be an item. -/
inductive following (P : Meaning α) (S : Meaning β) : Meaning (List α)
  | stop {ts : List Token} {es : List Complaint} :
    S ts none es → following P S ts (some ([], ts)) es
  | item_fails {ts us : List Token} {b : β} {es es' : List Complaint} :
    S ts (some (b, us)) es → P us none es' → following P S ts none (es ++ es')
  | more {ts us vs : List Token} {b : β} {a : α} {o : Option (List α × List Token)}
    {es es' es'' : List Complaint} :
    S ts (some (b, us)) es → P us (some (a, vs)) es' → following P S vs o es'' →
      following P S ts (o.map (Prod.map (a :: ·) id)) (es ++ es' ++ es'')

/-- Items with separators between them, or nothing where the first item fails. -/
inductive separated (P : Meaning α) (S : Meaning β) : Meaning (List α)
  | empty {ts : List Token} {es : List Complaint} :
    P ts none es → separated P S ts (some ([], ts)) es
  | items {ts us : List Token} {a : α} {o : Option (List α × List Token)}
    {es es' : List Complaint} :
    P ts (some (a, us)) es → following P S us o es' →
      separated P S ts (o.map (Prod.map (a :: ·) id)) (es ++ es')

end Meaning

/-! ### Rules -/

/-- The shapes of trees. -/
inductive Shape where
  | token
  | pair (a b : Shape)
  | option (a : Shape)
  | list (a : Shape)

/-- The trees of a shape. -/
def Shape.Tree : Shape → Type
  | token => Token
  | pair a b => a.Tree × b.Tree
  | option a => Option a.Tree
  | list a => List a.Tree

/-- Parsers that are put together from tokens. -/
inductive Rule : Shape → Type
  | token (accepts : Token → Bool) (x : Expectation) : Rule .token
  | seq {a b : Shape} (p : Rule a) (q : Rule b) : Rule (.pair a b)
  | skip {a b : Shape} (p : Rule a) (q : Rule b) : Rule a
  | skipLeft {a b : Shape} (p : Rule a) (q : Rule b) : Rule b
  | or {a : Shape} (p q : Rule a) : Rule a
  | label {a : Shape} (p : Rule a) (x : Expectation) : Rule a
  | many {a : Shape} (p : Rule a) : Rule (.list a)
  | optional {a : Shape} (p : Rule a) : Rule (.option a)
  | separated {a : Shape} (p : Rule a) (separator : Rule .token) : Rule (.list a)

namespace Rule

/-- The parser of a rule. -/
def parser {a : Shape} : Rule a → Parser a.Tree
  | token accepts x =>
    .single (α := Token) (fun t => if accepts t then some t else none) (.expected x)
  | seq p q => p.parser.seq q.parser
  | skip p q => p.parser.skip q.parser
  | skipLeft p q => p.parser.skipLeft q.parser
  | or p q => p.parser.or q.parser
  | label p x => p.parser.label x
  | many p => p.parser.many
  | optional p => p.parser.optional
  | separated p separator => p.parser.separated separator.parser

/-- What a rule means. -/
def Parses {a : Shape} : Rule a → Meaning a.Tree
  | token accepts x => .token accepts x
  | seq p q => .andThen p.Parses q.Parses Prod.mk
  | skip p q => .andThen p.Parses q.Parses fun a _ => a
  | skipLeft p q => .andThen p.Parses q.Parses fun _ b => b
  | or p q => .orElse p.Parses q.Parses
  | label p x => .labelled p.Parses x
  | many p => .many p.Parses
  | optional p => .optional p.Parses
  | separated p separator => .separated p.Parses separator.Parses

/-- Nothing is repeated that can succeed without taking a token. -/
def Progressive {a : Shape} : Rule a → Prop
  | token _ _ => True
  | seq p q | skip p q | skipLeft p q | or p q => p.Progressive ∧ q.Progressive
  | label p _ | optional p => p.Progressive
  | many p => p.Progressive ∧ ∀ ts a es, ¬p.Parses ts (some (a, ts)) es
  | separated p separator => p.Progressive ∧ separator.Progressive

/-- A token with a given spelling. -/
def terminal (t : Terminal) : Rule .token :=
  token (fun token => token.lexeme = .fixed t) (.terminal t)

end Rule

/-! ### Meanings are functions, and stay within the tokens -/

/-- There is at most one way to end, and all that is left on the way is an end
of the tokens. -/
structure Meaning.Orderly {α : Type} (P : Meaning α) : Prop where
  unique {ts : List Token} {o o' : Option (α × List Token)} {es es' : List Complaint} :
    P ts o es → P ts o' es' → o' = o ∧ es' = es
  suffix {ts : List Token} {o : Option (α × List Token)} {es : List Complaint} :
    P ts o es → ∀ p ∈ o, p.2 <:+ ts
  complaints {ts : List Token} {o : Option (α × List Token)} {es : List Complaint} :
    P ts o es → ∀ m ∈ es, m.rest <:+ ts

namespace Meaning

variable {α β γ : Type} {P Q : Meaning α} {S : Meaning β}

/-- No success is a failure as well. -/
theorem Orderly.not_both (hP : Orderly P) {ts : List Token} {x : α × List Token}
    {es es' : List Complaint} (h : P ts (some x) es) (h' : P ts none es') : False :=
  Option.some_ne_none x (hP.unique h' h).1

theorem orderly_token (accepts : Token → Bool) (x : Expectation) :
    Orderly (.token accepts x) where
  unique h h' := by
    cases h with
    | taken ts ht =>
      cases h' with
      | taken => exact ⟨rfl, rfl⟩
      | missed h => exact absurd ht (h _ rfl)
    | missed h =>
      cases h' with
      | taken ts ht => exact absurd ht (h _ rfl)
      | missed => exact ⟨rfl, rfl⟩
  suffix h := by
    cases h with
    | taken ts ht => simp
    | missed => nofun
  complaints h := by
    cases h with
    | taken => simp
    | missed => simp

/-- What one part complains about before the next, which goes on after it. -/
theorem complaints_append {ts us : List Token} {es es' : List Complaint}
    (h : ∀ m ∈ es, m.rest <:+ ts) (hus : us <:+ ts) (h' : ∀ m ∈ es', m.rest <:+ us) :
    ∀ m ∈ es ++ es', m.rest <:+ ts :=
  fun m hm => (List.mem_append.mp hm).elim (h m) fun hm => (h' m hm).trans hus

theorem Orderly.andThen (hP : Orderly P) (hS : Orderly S) (f : α → β → γ) :
    Orderly (P.andThen S f) where
  unique h h' := by
    cases h with
    | both h₁ h₂ =>
      cases h' with
      | both h₁' h₂' =>
        obtain ⟨⟨⟩, rfl⟩ := hP.unique h₁ h₁'
        obtain ⟨⟨⟩, rfl⟩ := hS.unique h₂ h₂'
        exact ⟨rfl, rfl⟩
      | first_fails h₁' => exact (hP.not_both h₁ h₁').elim
      | second_fails h₁' h₂' =>
        obtain ⟨⟨⟩, rfl⟩ := hP.unique h₁ h₁'
        exact (hS.not_both h₂ h₂').elim
    | first_fails h₁ =>
      cases h' with
      | both h₁' h₂' => exact (hP.not_both h₁' h₁).elim
      | first_fails h₁' => exact ⟨rfl, (hP.unique h₁ h₁').2⟩
      | second_fails h₁' h₂' => exact (hP.not_both h₁' h₁).elim
    | second_fails h₁ h₂ =>
      cases h' with
      | both h₁' h₂' =>
        obtain ⟨⟨⟩, rfl⟩ := hP.unique h₁ h₁'
        exact (hS.not_both h₂' h₂).elim
      | first_fails h₁' => exact (hP.not_both h₁ h₁').elim
      | second_fails h₁' h₂' =>
        obtain ⟨⟨⟩, rfl⟩ := hP.unique h₁ h₁'
        obtain ⟨-, rfl⟩ := hS.unique h₂ h₂'
        exact ⟨rfl, rfl⟩
  suffix h := by
    cases h with
    | both h₁ h₂ =>
      rintro _ ⟨⟩
      exact (hS.suffix h₂ _ rfl).trans (hP.suffix h₁ _ rfl)
    | first_fails | second_fails => nofun
  complaints h := by
    cases h with
    | both h₁ h₂ =>
      exact complaints_append (hP.complaints h₁) (hP.suffix h₁ _ rfl) (hS.complaints h₂)
    | first_fails h₁ => exact hP.complaints h₁
    | second_fails h₁ h₂ =>
      exact complaints_append (hP.complaints h₁) (hP.suffix h₁ _ rfl) (hS.complaints h₂)

theorem Orderly.orElse (hP : Orderly P) (hQ : Orderly Q) : Orderly (P.orElse Q) where
  unique h h' := by
    cases h with
    | first h₁ =>
      cases h' with
      | first h₁' => exact hP.unique h₁ h₁'
      | second h₁' => exact (hP.not_both h₁ h₁').elim
    | second h₁ h₂ =>
      cases h' with
      | first h₁' => exact (hP.not_both h₁' h₁).elim
      | second h₁' h₂' =>
        obtain ⟨-, rfl⟩ := hP.unique h₁ h₁'
        obtain ⟨rfl, rfl⟩ := hQ.unique h₂ h₂'
        exact ⟨rfl, rfl⟩
  suffix h := by
    cases h with
    | first h₁ => exact hP.suffix h₁
    | second _ h₂ => exact hQ.suffix h₂
  complaints h := by
    cases h with
    | first h₁ => exact hP.complaints h₁
    | second h₁ h₂ =>
      exact complaints_append (hP.complaints h₁) (List.suffix_refl _) (hQ.complaints h₂)

theorem Orderly.labelled (hP : Orderly P) (x : Expectation) : Orderly (P.labelled x) where
  unique h h' := by
    cases h with
    | success h₁ =>
      cases h' with
      | success h₁' => exact hP.unique h₁ h₁'
      | failure h₁' => exact (hP.not_both h₁ h₁').elim
    | failure h₁ =>
      cases h' with
      | success h₁' => exact (hP.not_both h₁' h₁).elim
      | failure h₁' =>
        obtain ⟨-, hes⟩ := hP.unique h₁ h₁'
        obtain ⟨rfl, hlast⟩ := List.append_inj' hes rfl
        cases hlast
        exact ⟨rfl, rfl⟩
  suffix h := by
    cases h with
    | success h₁ => exact hP.suffix h₁
    | failure => nofun
  complaints h := by
    cases h with
    | success h₁ => exact hP.complaints h₁
    | failure h₁ =>
      have hes := hP.complaints h₁
      refine complaints_append hes (List.suffix_refl _) fun m hm => ?_
      rw [List.mem_singleton.mp hm]
      have hlast := hes _ (List.mem_append_right _ (List.mem_singleton_self _))
      exact hlast

theorem Orderly.optional (hP : Orderly P) : Orderly P.optional where
  unique h h' := by
    cases h with
    | present h₁ =>
      cases h' with
      | present h₁' =>
        obtain ⟨⟨⟩, rfl⟩ := hP.unique h₁ h₁'
        exact ⟨rfl, rfl⟩
      | absent h₁' => exact (hP.not_both h₁ h₁').elim
    | absent h₁ =>
      cases h' with
      | present h₁' => exact (hP.not_both h₁' h₁).elim
      | absent h₁' => exact ⟨rfl, (hP.unique h₁ h₁').2⟩
  suffix h := by
    cases h with
    | present h₁ =>
      rintro _ ⟨⟩
      exact hP.suffix h₁ _ rfl
    | absent =>
      rintro _ ⟨⟩
      exact List.suffix_refl _
  complaints h := by
    cases h with
    | present h₁ | absent h₁ => exact hP.complaints h₁

/-- Repetition never fails. -/
theorem many.eq_some {ts : List Token} {o : Option (List α × List Token)}
    {es : List Complaint} (h : P.many ts o es) : ∃ as us, o = some (as, us) := by
  cases h <;> exact ⟨_, _, rfl⟩

theorem Orderly.many (hP : Orderly P) : Orderly P.many where
  unique {_ _ o' _ es'} h h' := by
    induction h generalizing o' es' with
    | stop h₁ =>
      cases h' with
      | stop h₁' => exact ⟨rfl, (hP.unique h₁ h₁').2⟩
      | more h₁' => exact (hP.not_both h₁' h₁).elim
    | more h₁ _ ih =>
      cases h' with
      | stop h₁' => exact (hP.not_both h₁ h₁').elim
      | more h₁' h₂' =>
        obtain ⟨⟨⟩, rfl⟩ := hP.unique h₁ h₁'
        obtain ⟨⟨⟩, rfl⟩ := ih h₂'
        exact ⟨rfl, rfl⟩
  suffix h := by
    induction h with
    | stop =>
      rintro _ ⟨⟩
      exact List.suffix_refl _
    | more h₁ _ ih =>
      rintro _ ⟨⟩
      exact (ih _ rfl).trans (hP.suffix h₁ _ rfl)
  complaints h := by
    induction h with
    | stop h₁ => exact hP.complaints h₁
    | more h₁ _ ih => exact complaints_append (hP.complaints h₁) (hP.suffix h₁ _ rfl) ih

/-- An item more in front does not change where a list ends. -/
theorem suffix_of_map_cons {ts us : List Token} {a : α} {o : Option (List α × List Token)}
    (h : ∀ p ∈ o, p.2 <:+ us) (hus : us <:+ ts) :
    ∀ p ∈ o.map (Prod.map (a :: ·) id), p.2 <:+ ts := by
  intro p hp
  obtain ⟨p', hp', rfl⟩ := Option.map_eq_some_iff.mp hp
  exact (h p' hp').trans hus

theorem Orderly.following (hP : Orderly P) (hS : Orderly S) :
    Orderly (P.following S) where
  unique {_ _ o' _ es'} h h' := by
    induction h generalizing o' es' with
    | stop h₁ =>
      cases h' with
      | stop h₁' => exact ⟨rfl, (hS.unique h₁ h₁').2⟩
      | item_fails h₁' | more h₁' => exact (hS.not_both h₁' h₁).elim
    | item_fails h₁ h₂ =>
      cases h' with
      | stop h₁' => exact (hS.not_both h₁ h₁').elim
      | item_fails h₁' h₂' =>
        obtain ⟨⟨⟩, rfl⟩ := hS.unique h₁ h₁'
        exact ⟨rfl, by rw [(hP.unique h₂ h₂').2]⟩
      | more h₁' h₂' =>
        obtain ⟨⟨⟩, rfl⟩ := hS.unique h₁ h₁'
        exact (hP.not_both h₂' h₂).elim
    | more h₁ h₂ _ ih =>
      cases h' with
      | stop h₁' => exact (hS.not_both h₁ h₁').elim
      | item_fails h₁' h₂' =>
        obtain ⟨⟨⟩, rfl⟩ := hS.unique h₁ h₁'
        exact (hP.not_both h₂ h₂').elim
      | more h₁' h₂' h₃' =>
        obtain ⟨⟨⟩, rfl⟩ := hS.unique h₁ h₁'
        obtain ⟨⟨⟩, rfl⟩ := hP.unique h₂ h₂'
        obtain ⟨rfl, rfl⟩ := ih h₃'
        exact ⟨rfl, rfl⟩
  suffix h := by
    induction h with
    | stop =>
      rintro _ ⟨⟩
      exact List.suffix_refl _
    | item_fails => nofun
    | more h₁ h₂ _ ih =>
      exact suffix_of_map_cons ih ((hP.suffix h₂ _ rfl).trans (hS.suffix h₁ _ rfl))
  complaints h := by
    induction h with
    | stop h₁ => exact hS.complaints h₁
    | item_fails h₁ h₂ =>
      exact complaints_append (hS.complaints h₁) (hS.suffix h₁ _ rfl) (hP.complaints h₂)
    | more h₁ h₂ _ ih =>
      rw [List.append_assoc]
      exact complaints_append (hS.complaints h₁) (hS.suffix h₁ _ rfl)
        (complaints_append (hP.complaints h₂) (hP.suffix h₂ _ rfl) ih)

theorem Orderly.separated (hP : Orderly P) (hS : Orderly S) :
    Orderly (P.separated S) where
  unique h h' := by
    cases h with
    | empty h₁ =>
      cases h' with
      | empty h₁' => exact ⟨rfl, (hP.unique h₁ h₁').2⟩
      | items h₁' => exact (hP.not_both h₁' h₁).elim
    | items h₁ h₂ =>
      cases h' with
      | empty h₁' => exact (hP.not_both h₁ h₁').elim
      | items h₁' h₂' =>
        obtain ⟨⟨⟩, rfl⟩ := hP.unique h₁ h₁'
        obtain ⟨rfl, rfl⟩ := (hP.following hS).unique h₂ h₂'
        exact ⟨rfl, rfl⟩
  suffix h := by
    cases h with
    | empty =>
      rintro _ ⟨⟩
      exact List.suffix_refl _
    | items h₁ h₂ =>
      exact suffix_of_map_cons ((hP.following hS).suffix h₂) (hP.suffix h₁ _ rfl)
  complaints h := by
    cases h with
    | empty h₁ => exact hP.complaints h₁
    | items h₁ h₂ =>
      exact complaints_append (hP.complaints h₁) (hP.suffix h₁ _ rfl)
        ((hP.following hS).complaints h₂)

end Meaning

theorem Rule.orderly {a : Shape} (p : Rule a) : p.Parses.Orderly := by
  induction p with
  | token accepts x => exact Meaning.orderly_token accepts x
  | seq p q hp hq | skip p q hp hq | skipLeft p q hp hq => exact hp.andThen hq _
  | or p q hp hq => exact hp.orElse hq
  | label p x hp => exact hp.labelled x
  | many p hp => exact hp.many
  | optional p hp => exact hp.optional
  | separated p separator hp hs => exact hp.separated hs

/-- What yields a single token takes one. -/
theorem Rule.length_of_token (p : Rule .token) {ts us : List Token} {t : Token}
    {es : List Complaint} (h : p.Parses ts (some (t, us)) es) : us.length < ts.length := by
  suffices ∀ {a : Shape} (p : Rule a), a = .token → ∀ {ts us t es},
      p.Parses ts (some (t, us)) es → us.length < ts.length from this p rfl h
  -- the parts of a rule may be of other shapes, so the induction is on rules of
  -- all shapes
  intro a p
  induction p with
  | token accepts x =>
    rintro - ts us t es ⟨⟩
    exact Nat.lt_succ_self _
  | seq | many | optional | separated => nofun
  | skip p q hp _ =>
    rintro rfl ts us t es (⟨h₁, h₂⟩ | _ | _)
    exact Nat.lt_of_le_of_lt (q.orderly.suffix h₂ _ rfl).length_le (hp rfl h₁)
  | skipLeft p q _ hq =>
    rintro rfl ts us t es (⟨h₁, h₂⟩ | _ | _)
    exact Nat.lt_of_lt_of_le (hq rfl h₂) (p.orderly.suffix h₁ _ rfl).length_le
  | or p q hp hq =>
    rintro rfl ts us t es (h₁ | ⟨_, h₂⟩)
    · exact hp rfl h₁
    · exact hq rfl h₂
  | label p x hp =>
    rintro rfl ts us t es (h₁ | _)
    exact hp rfl h₁

/-! ### Memories -/

/-- What is remembered after some errors: the furthest, and of two at the same
place the later. -/
def remember (f : Option (Nat × ParseError)) (es : List Complaint) :
    Option (Nat × ParseError) :=
  es.foldl (fun f m => ((⟨m.rest, f⟩ : Cursor).record m.error).furthest) f

@[simp] theorem remember_nil (f : Option (Nat × ParseError)) : remember f [] = f := rfl

@[simp] theorem remember_append (f : Option (Nat × ParseError))
    (es es' : List Complaint) :
    remember f (es ++ es') = remember (remember f es) es' := List.foldl_append

theorem record_eq_remember (ts : List Token) (f : Option (Nat × ParseError))
    (e : ParseError) : (⟨ts, f⟩ : Cursor).record e = ⟨ts, remember f [⟨ts, e⟩]⟩ := by
  change _ = (⟨ts, ((⟨ts, f⟩ : Cursor).record e).furthest⟩ : Cursor)
  unfold Cursor.record
  split
  · split <;> rfl
  · rfl

/-- Of errors with the number of tokens that were left where they were raised,
the last one with the fewest tokens left. -/
inductive Furthest : List (Nat × ParseError) → Option (Nat × ParseError) → Prop
  | none : Furthest [] none
  | some {before after : List (Nat × ParseError)} {m : Nat × ParseError}
    (hbefore : ∀ m' ∈ before, m.1 ≤ m'.1) (hafter : ∀ m' ∈ after, m.1 < m'.1) :
    Furthest (before ++ m :: after) (some m)

/-- The number of tokens that were left, and the error. -/
def Complaint.entry (m : Complaint) : Nat × ParseError := (m.rest.length, m.error)

theorem Furthest.initial (f : Option (Nat × ParseError)) : Furthest f.toList f := by
  cases f with
  | none => exact .none
  | some m => exact @Furthest.some [] [] m nofun nofun

theorem Furthest.record {l : List (Nat × ParseError)} {f : Option (Nat × ParseError)}
    (h : Furthest l f) (m : Complaint) :
    Furthest (l ++ [m.entry]) (remember f [m]) := by
  change Furthest _ ((⟨m.rest, f⟩ : Cursor).record m.error).furthest
  unfold Cursor.record
  cases h with
  | none => exact @Furthest.some [] [] m.entry nofun nofun
  | @some before after m₀ hbefore hafter =>
    obtain ⟨left, e⟩ := m₀
    dsimp only
    split
    -- the error that was remembered had got further
    · next hleft =>
      rw [List.append_assoc, List.cons_append]
      refine .some hbefore fun m' hm' => ?_
      rcases List.mem_append.mp hm' with hm' | hm'
      · exact hafter m' hm'
      · rw [List.mem_singleton.mp hm']
        exact hleft
    · next hleft =>
      refine .some (fun m' hm' => ?_) nofun
      have hle := Nat.le_of_not_lt hleft
      rcases List.mem_append.mp hm' with hm' | hm'
      · exact Nat.le_trans hle (hbefore m' hm')
      · rcases List.mem_cons.mp hm' with rfl | hm'
        · exact hle
        · exact Nat.le_trans hle (Nat.le_of_lt (hafter m' hm'))

theorem Furthest.remember {l : List (Nat × ParseError)} {f : Option (Nat × ParseError)}
    (h : Furthest l f) (es : List Complaint) :
    Furthest (l ++ es.map Complaint.entry) (remember f es) := by
  induction es generalizing l f with
  | nil => rwa [List.map_nil, List.append_nil]
  | cons m es ih =>
    have := ih (h.record m)
    rwa [List.append_assoc] at this

/-! ### Parsers that do what is meant -/

namespace Parser

variable {α β γ : Type} {p q : Parser α} {r : Parser β} {P Q : Meaning α} {S : Meaning β}
  {c : Cursor}

/-- How a run ends, that began with `f` remembered. -/
inductive Concludes (f : Option (Nat × ParseError)) :
    Option (α × List Token) → List Complaint → Except ParseError α × Cursor → Prop
  | success (a : α) (us : List Token) (es : List Complaint) :
    Concludes f (some (a, us)) es (.ok a, ⟨us, remember f es⟩)
  | failure {us : List Token} {e : ParseError} (he : e.RaisedAt us 0) (es : List Complaint) :
    Concludes f none (es ++ [⟨us, e⟩]) (.error e, ⟨us, remember f (es ++ [⟨us, e⟩])⟩)

/-- From everywhere, the parser ends as is meant.  If it fails, the cursor is at
the last complaint, which is the error that it fails with, and is about the
token there. -/
def Obeys (p : Parser α) (P : Meaning α) : Prop :=
  ∀ ts f, ∃ o es, P ts o es ∧ Concludes f o es (p ⟨ts, f⟩)

theorem Obeys.cases (h : Obeys p P) (ts : List Token) (f : Option (Nat × ParseError)) :
    (∃ a us es, P ts (some (a, us)) es ∧ p ⟨ts, f⟩ = (.ok a, ⟨us, remember f es⟩)) ∨
    ∃ e us es, P ts none (es ++ [⟨us, e⟩]) ∧ e.RaisedAt us 0 ∧
      p ⟨ts, f⟩ = (.error e, ⟨us, remember f (es ++ [⟨us, e⟩])⟩) := by
  obtain ⟨o, es, hP, hends⟩ := h ts f
  generalize p ⟨ts, f⟩ = res at hends
  cases hends with
  | success a us es => exact .inl ⟨a, us, es, hP, rfl⟩
  | @failure us e he es => exact .inr ⟨e, us, es, hP, he, rfl⟩

/-- A part that begins with what has been remembered of the complaints so far. -/
theorem Concludes.after {f : Option (Nat × ParseError)} {es es' : List Complaint}
    {o : Option (α × List Token)} {res : Except ParseError α × Cursor}
    (h : Concludes (remember f es) o es' res) : Concludes f o (es ++ es') res := by
  cases h with
  | success a us =>
    rw [← remember_append]
    exact .success ..
  | failure he es' =>
    rw [← remember_append, ← List.append_assoc]
    exact .failure he _

/-- The value of the last part, with something done to it. -/
theorem Concludes.map {f : Option (Nat × ParseError)} {es : List Complaint}
    {o : Option (α × List Token)} (h : Concludes f o es (p c)) (g : α → β) :
    Concludes f (o.map (Prod.map g id)) es ((do let a ← p; return g a) c) := by
  generalize hp : p c = res at h
  cases h with
  | success a us =>
    rw [bind_of_ok hp]
    exact .success ..
  | failure he =>
    rw [bind_of_error hp]
    exact .failure he _

theorem obeys_token (accepts : Token → Bool) (x : Expectation) :
    Obeys (single (fun t => if accepts t then some t else none) (expected x))
      (Meaning.token accepts x) := by
  intro ts f
  -- what is found here is not accepted
  have hmissed : (∀ t ∈ ts.head?, ¬accepts t) → ∃ o es, Meaning.token accepts x ts o es ∧
      Concludes f o es (expected x ⟨ts, f⟩) := by
    intro h
    refine ⟨none, [⟨ts, (Cursor.ofTokens ts).complaint x⟩], .missed h, ?_⟩
    have hends := Concludes.failure (α := Token) (f := f)
      (Cursor.raisedAt_complaint (Cursor.ofTokens ts) x) []
    rw [List.nil_append, ← record_eq_remember] at hends
    exact hends
  cases ts with
  | nil => exact hmissed nofun
  | cons t ts =>
    by_cases ht : accepts t
    · refine ⟨_, _, .taken ts ht, ?_⟩
      have hends := Concludes.success (f := f) t ts []
      simpa [single, ht] using hends
    · have := hmissed (by rintro _ ⟨⟩; exact ht)
      simpa [single, ht] using this

theorem Obeys.andThen (hp : Obeys p P) (hr : Obeys r S) (g : α → β → γ) :
    Obeys (do let a ← p; let b ← r; return g a b) (P.andThen S g) := by
  intro ts f
  rcases hp.cases ts f with ⟨a, us, es, hP, hrun⟩ | ⟨e, us, es, hP, he, hrun⟩
  · rw [bind_of_ok hrun]
    obtain ⟨o, es', hS, hends⟩ := hr us (remember f es)
    refine ⟨_, _, ?_, (hends.map (g a)).after⟩
    rcases o with - | ⟨b, vs⟩
    · exact .second_fails hP hS
    · exact .both hP hS
  · rw [bind_of_error hrun]
    exact ⟨_, _, .first_fails hP, .failure he _⟩

theorem Obeys.skipLeft (hp : Obeys p P) (hr : Obeys r S) :
    Obeys (p.skipLeft r) (P.andThen S fun _ b => b) := by
  have h := hp.andThen hr fun _ b => b
  rwa [bind_return r] at h

theorem Obeys.orElse (hp : Obeys p P) (hq : Obeys q Q) : Obeys (p.or q) (P.orElse Q) := by
  intro ts f
  unfold Parser.or
  rcases hp.cases ts f with ⟨a, us, es, hP, hrun⟩ | ⟨e, us, es, hP, he, hrun⟩
  · rw [hrun]
    exact ⟨_, _, .first hP, .success _ _ _⟩
  · rw [hrun]
    obtain ⟨o, es', hQ, hends⟩ := hq ts (remember f (es ++ [⟨us, e⟩]))
    exact ⟨_, _, .second hP hQ, hends.after⟩

theorem Obeys.label (hp : Obeys p P) (x : Expectation) :
    Obeys (p.label x) (P.labelled x) := by
  intro ts f
  unfold Parser.label
  rcases hp.cases ts f with ⟨a, us, es, hP, hrun⟩ | ⟨e, us, es, hP, he, hrun⟩
  · rw [hrun]
    exact ⟨_, _, .success hP, .success _ _ _⟩
  · rw [hrun]
    dsimp only
    rw [record_eq_remember, ← remember_append]
    have he' : ParseError.RaisedAt { e with expected := [x] } us 0 := he
    exact ⟨_, _, .failure hP, .failure he' _⟩

theorem Obeys.optional (hp : Obeys p P) : Obeys p.optional P.optional := by
  intro ts f
  rcases hp.cases ts f with ⟨a, us, es, hP, hrun⟩ | ⟨e, us, es, hP, he, hrun⟩
  · rw [optional_of_ok hrun]
    exact ⟨_, _, .present hP, .success _ _ _⟩
  · rw [optional_of_error hrun]
    exact ⟨_, _, .absent hP, .success _ _ _⟩

/-- As many rounds as there are tokens left are enough, since each one that
succeeds takes one. -/
theorem Obeys.manyWithin (hp : Obeys p P)
    (hprog : ∀ {ts us a es}, P ts (some (a, us)) es → us.length < ts.length) (rounds : Nat)
    (ts : List Token) (hts : ts.length ≤ rounds) (f : Option (Nat × ParseError)) :
    ∃ o es, P.many ts o es ∧ Concludes f o es (manyWithin rounds p ⟨ts, f⟩) := by
  induction rounds generalizing ts f with
  | zero =>
    unfold Parser.manyWithin
    rcases hp.cases ts f with ⟨a, us, es, h, -⟩ | ⟨e, us, es, h, he, hrun⟩
    · -- no token is left that could be taken
      have := hprog h
      omega
    · rw [bind_of_ok (optional_of_error hrun)]
      exact ⟨_, _, .stop h, .success _ _ _⟩
  | succ rounds ih =>
    unfold Parser.manyWithin
    rcases hp.cases ts f with ⟨a, us, es, h, hrun⟩ | ⟨e, us, es, h, he, hrun⟩
    · rw [bind_of_ok (optional_of_ok hrun)]
      have := hprog h
      obtain ⟨o, es', hmany, hends⟩ := ih us (by omega) (remember f es)
      obtain ⟨as, vs, rfl⟩ := hmany.eq_some
      exact ⟨_, _, .more h hmany, (hends.map (a :: ·)).after⟩
    · rw [bind_of_ok (optional_of_error hrun)]
      exact ⟨_, _, .stop h, .success _ _ _⟩

theorem Obeys.many (hp : Obeys p P)
    (hprog : ∀ {ts us a es}, P ts (some (a, us)) es → us.length < ts.length) :
    Obeys p.many P.many :=
  fun ts f => hp.manyWithin hprog ts.length ts (Nat.le_refl _) f

/-- Here it is the separators that take a token each. -/
theorem Obeys.separatedWithin (hp : Obeys p P) (hP : P.Orderly) (hr : Obeys r S)
    (hprog : ∀ {ts us b es}, S ts (some (b, us)) es → us.length < ts.length) (rounds : Nat)
    (ts : List Token) (hts : ts.length ≤ rounds) (f : Option (Nat × ParseError)) :
    ∃ o es, P.following S ts o es ∧ Concludes f o es (separatedWithin rounds p r ⟨ts, f⟩) := by
  induction rounds generalizing ts f with
  | zero =>
    unfold Parser.separatedWithin
    rcases hr.cases ts f with ⟨b, us, es, h, -⟩ | ⟨e, us, es, h, he, hrun⟩
    · have := hprog h
      omega
    · rw [bind_of_ok (optional_of_error hrun)]
      exact ⟨_, _, .stop h, .success _ _ _⟩
  | succ rounds ih =>
    unfold Parser.separatedWithin
    rcases hr.cases ts f with ⟨b, us, es, h, hrun⟩ | ⟨e, us, es, h, he, hrun⟩
    · rw [bind_of_ok (optional_of_ok hrun)]
      dsimp only
      rcases hp.cases us (remember f es) with
        ⟨a, vs, es', h', hrun'⟩ | ⟨e, vs, es', h', he, hrun'⟩
      · rw [bind_of_ok hrun', ← remember_append]
        have := hprog h
        have := (hP.suffix h' _ rfl).length_le
        obtain ⟨o, es'', hrest, hends⟩ := ih vs (by simp at this; omega) (remember f (es ++ es'))
        exact ⟨_, _, .more h h' hrest, (hends.map (a :: ·)).after⟩
      · rw [bind_of_error hrun']
        exact ⟨_, _, .item_fails h h', (Concludes.failure he es').after⟩
    · rw [bind_of_ok (optional_of_error hrun)]
      exact ⟨_, _, .stop h, .success _ _ _⟩

theorem Obeys.separated (hp : Obeys p P) (hP : P.Orderly) (hr : Obeys r S)
    (hprog : ∀ {ts us b es}, S ts (some (b, us)) es → us.length < ts.length) :
    Obeys (p.separated r) (P.separated S) := by
  intro ts f
  unfold Parser.separated
  rcases hp.cases ts f with ⟨a, us, es, h, hrun⟩ | ⟨e, us, es, h, he, hrun⟩
  · rw [bind_of_ok (optional_of_ok hrun)]
    obtain ⟨o, es', hrest, hends⟩ :=
      hp.separatedWithin hP hr hprog us.length us (Nat.le_refl _) (remember f es)
    exact ⟨_, _, .items h hrest, (hends.map (a :: ·)).after⟩
  · rw [bind_of_ok (optional_of_error hrun)]
    exact ⟨_, _, .empty h, .success _ _ _⟩

end Parser

/-! ### Rules and their parsers -/

namespace Rule

open Implet.Parser (Obeys)

variable {a : Shape}

theorem obeys (p : Rule a) (hp : p.Progressive) : Obeys p.parser p.Parses := by
  induction p with
  | token accepts x => exact Parser.obeys_token accepts x
  | seq p q ihp ihq => exact (ihp hp.1).andThen (ihq hp.2) Prod.mk
  | skip p q ihp ihq => exact (ihp hp.1).andThen (ihq hp.2) fun a _ => a
  | skipLeft p q ihp ihq => exact (ihp hp.1).skipLeft (ihq hp.2)
  | or p q ihp ihq => exact (ihp hp.1).orElse (ihq hp.2)
  | label p x ih => exact (ih hp).label x
  | many p ih =>
    refine (ih hp.1).many fun {ts us a es} h => ?_
    have hsuffix := p.orderly.suffix h _ rfl
    rcases Nat.lt_or_ge us.length ts.length with hlt | hge
    · exact hlt
    · cases hsuffix.eq_of_length_le hge
      exact absurd h (hp.2 _ _ _)
  | optional p ih => exact (ih hp).optional
  | separated p separator ihp ihs =>
    exact (ihp hp.1).separated p.orderly (ihs hp.2) separator.length_of_token

/-- A parser that repeats only what takes tokens does what its rule means.  On
any tokens there is exactly one way to end, and the parser ends so: with the
tree and at the token that are meant, or with an error that is about the token
where the cursor is left.  Of what was remembered before and of all errors
raised on the way, it remembers the last of those that were raised furthest
on. -/
theorem parser_obeys (p : Rule a) (hp : p.Progressive) (c : Cursor) :
    ∃ o es, (∀ o' es', p.Parses c.rest o' es' ↔ o' = o ∧ es' = es) ∧
      (∀ tree rest, o = some (tree, rest) ↔
        (p.parser c).1 = .ok tree ∧ (p.parser c).2.rest = rest) ∧
      (∀ e, (p.parser c).1 = .error e →
        es.getLast? = some ⟨(p.parser c).2.rest, e⟩ ∧ e.RaisedAt (p.parser c).2.rest 0) ∧
      (p.parser c).2.rest <:+ c.rest ∧
      Furthest (c.furthest.toList ++ es.map Complaint.entry) (p.parser c).2.furthest := by
  obtain ⟨o, es, hparses, hends⟩ := p.obeys hp c.rest c.furthest
  have hmemory : Furthest (c.furthest.toList ++ es.map Complaint.entry)
      (remember c.furthest es) := (Furthest.initial c.furthest).remember es
  have hleft := p.orderly.suffix hparses
  have hraised := p.orderly.complaints hparses
  have hunique : ∀ o' es', p.Parses c.rest o' es' ↔ o' = o ∧ es' = es :=
    fun o' es' => ⟨p.orderly.unique hparses, by rintro ⟨rfl, rfl⟩; exact hparses⟩
  refine ⟨o, es, hunique, ?_⟩
  generalize p.parser c = res at hends
  cases hends with
  | success tree us =>
    refine ⟨fun tree' rest => ?_, nofun, hleft _ rfl, hmemory⟩
    constructor
    · rintro ⟨⟩
      exact ⟨rfl, rfl⟩
    · rintro ⟨⟨⟩, rfl⟩
      rfl
  | @failure us e he es =>
    refine ⟨fun _ _ => ⟨nofun, nofun⟩, ?_, hraised ⟨us, e⟩ (by simp), hmemory⟩
    rintro _ ⟨⟩
    exact ⟨by simp, he⟩

/-- Declarations of some names each. -/
def names : Rule (.list (.list .token)) :=
  many (skipLeft (terminal .kwVar) (skip
    (separated (token (fun t => t.lexeme matches .ident _) .identifier) (terminal .comma))
    (terminal .semicolon)))

theorem progressive_names : names.Progressive := by
  refine ⟨by simp [Progressive, terminal], fun ts a es h => ?_⟩
  cases h with
  | both h₁ h₂ =>
    have hlt := (terminal .kwVar).length_of_token h₁
    have hle := ((skip _ _).orderly.suffix h₂ _ rfl).length_le
    exact absurd hlt (Nat.not_lt.mpr hle)

/-- The second declaration breaks off, so it is given back, but the error in it
is remembered. -/
theorem parser_obeys_names :
    ∃ (ts : List Token) (tree : List (List Token)) (es : List Complaint),
    names.Parses ts (some (tree, ts.drop 5)) es ∧
      Furthest (es.map Complaint.entry) (some (0, ⟨.endOfInput, [.identifier]⟩)) := by
  let ts : List Token := [.fixed .kwVar, .ident "x", .fixed .comma, .ident "y", .fixed .semicolon,
    .fixed .kwVar, .ident "z", .fixed .comma].map (⟨·, .empty⟩)
  have hend : (names.parser ⟨ts, none⟩).2 =
      ⟨ts.drop 5, some (0, ⟨.endOfInput, [.identifier]⟩)⟩ := by
    decide +kernel
  have hbool : (names.parser ⟨ts, none⟩).1.toBool = true := by decide +kernel
  obtain ⟨o, es, hunique, hok, -, -, hfurthest⟩ := parser_obeys names progressive_names ⟨ts, none⟩
  rw [hend] at hok hfurthest
  cases htree : (names.parser ⟨ts, none⟩).1 with
  | error e => cases htree ▸ hbool
  | ok tree =>
    have ho := (hok tree (ts.drop 5)).mpr ⟨htree, rfl⟩
    exact ⟨ts, tree, es, (hunique _ _).mpr ⟨ho.symm, rfl⟩, hfurthest⟩

end Rule

end Implet
