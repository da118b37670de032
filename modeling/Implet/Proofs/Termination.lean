/-
Implet/Proofs/Termination.lean

Reading ends.  All readers of the grammar end on all tokens although nothing
bounds them, and they end as their bounded counterparts do (`reading_ends`).

What makes them end is in the judgement `Reader.Settles`: a reader that is run
where fewer than `n` tokens are left ends if those that it calls in turn end
where fewer are left, and it calls expressions, statements and further rounds
only after it has taken a token.  A reader that fails may have gone on or back,
but no reader is called again at the same place because of that.
-/
import Implet.Proofs.Readers
import Implet.Proofs.Reporting

namespace Implet

/-! ### The end of the tokens -/

namespace Parser

variable {α β : Type} {p q : Parser α} {g : α → Parser β} {xs ys : List Expectation}

/-- At the end of the tokens the parser finds nothing, looking for `xs`, and
remembers that. -/
def Starves (p : Parser α) (xs : List Expectation) : Prop :=
  ∀ mem, p ⟨[], mem⟩ = (.error ⟨.endOfInput, xs⟩, ⟨[], some (0, ⟨.endOfInput, xs⟩)⟩)

theorem record_end (mem : Option (Nat × ParseError)) (e : ParseError) :
    (⟨[], mem⟩ : Cursor).record e = ⟨[], some (0, e)⟩ := by
  cases mem with
  | none => rfl
  | some m => simp [Cursor.record]

theorem starves_expected (x : Expectation) : Starves (expected x : Parser α) [x] :=
  fun mem => by rw [expected, record_end]; rfl

theorem Starves.bind (h : Starves p xs) :
    Starves (p >>= g) xs := fun mem => bind_of_error (h mem)

theorem Starves.or (h : Starves p xs) (h' : Starves q ys) : Starves (p.or q) ys :=
  fun mem => by rw [Parser.or, h mem]; exact h' _

theorem Starves.label (h : Starves p xs) (x : Expectation) : Starves (p.label x) [x] :=
  fun mem => by rw [Parser.label, h mem]; dsimp only; rw [record_end]

theorem starves_primary (inner : Parser Expr) :
    Starves (Expr.primary inner) [.expression] := by
  have hident : Starves Ident.parser [.identifier] := starves_expected .identifier
  have hopen : Starves (Parser.terminal .leftParen) [.terminal .leftParen] :=
    starves_expected (.terminal .leftParen)
  have hint : Starves Expr.integerLiteral [.integer] := starves_expected .integer
  have hbool : Starves Expr.booleanLiteral [.boolean] := starves_expected .boolean
  have hcall : Starves (Expr.callParser inner) [.identifier] := hident.bind
  have hname : Starves (Expr.ident <$> Ident.parser) [.identifier] := hident.bind
  have hparen : Starves (Expr.parenthesized inner) [.terminal .leftParen] :=
    hopen.bind.bind
  exact ((((hint.or hbool).or hcall).or hname).or hparen).label .expression

theorem starves_operators (inner : Parser Expr) :
    Starves (Expr.operators (Expr.primary inner)) [.expression] := by
  have hlevels : ∀ levels : List (List BinOp),
      Starves (levels.foldr Expr.chain (Expr.primary inner)) [.expression] := by
    intro levels
    induction levels with
    | nil => exact starves_primary inner
    | cons ops levels ih => exact ih.bind
  exact hlevels BinOp.levels

end Parser

/-! ### Readers that end as parsers do -/

namespace Reader

open Implet.Parser (bind_of_ok bind_of_error bind_return optional_of_ok optional_of_error)

variable {α β : Type} {n k j : Nat} {m m' : Reader α} {p q : Parser α} {f : α → Reader β}
  {g : α → Parser β} {c : Cursor}

/-- At a cursor, the reader ends as the parser does, which does not leave the
tokens, and takes at least `k` of them if it succeeds. -/
inductive SettlesAt (k : Nat) (m : Reader α) (p : Parser α) (c : Cursor) : Prop
  | ok {a : α} {c' : Cursor} (hp : p c = (.ok a, c')) (hm : m.Ends c (.ok a, c'))
    (hs : c'.rest <:+ c.rest) (hk : c'.rest.length + k ≤ c.rest.length)
  | error {e : ParseError} {c' : Cursor} (hp : p c = (.error e, c'))
    (hm : m.Ends c (.error e, c')) (hs : c'.rest <:+ c.rest)

/-- The reader ends as the parser does wherever fewer than `n` tokens are left. -/
def Settles (n k : Nat) (m : Reader α) (p : Parser α) : Prop :=
  ∀ c : Cursor, c.rest.length < n → SettlesAt k m p c

theorem SettlesAt.ends (h : SettlesAt k m p c) : m.Ends c (p c) := by
  cases h with
  | ok hp hm => rwa [hp]
  | error hp hm => rwa [hp]

theorem SettlesAt.suffix (h : SettlesAt k m p c) : (p c).2.rest <:+ c.rest := by
  cases h with
  | ok hp _ hs => rwa [hp]
  | error hp _ hs => rwa [hp]

theorem SettlesAt.takes (h : SettlesAt k m p c) {a : α} {c' : Cursor}
    (hp : p c = (.ok a, c')) :
    c'.rest.length + k ≤ c.rest.length := by
  cases h with
  | ok hp' _ _ hk =>
    cases hp.symm.trans hp'
    exact hk
  | error hp' => cases hp.symm.trans hp'

/-- What goes on at another cursor. -/
theorem SettlesAt.after {c' : Cursor} (h : SettlesAt k m' q c') (hp : p c = q c')
    (hm : ∀ {r}, m'.Ends c' r → m.Ends c r) (hs : c'.rest <:+ c.rest) : SettlesAt k m p c := by
  have hle := hs.length_le
  cases h with
  | ok hp' hm' hs' hk => exact .ok (hp.trans hp') (hm hm') (hs'.trans hs) (by omega)
  | error hp' hm' hs' => exact .error (hp.trans hp') (hm hm') (hs'.trans hs)

theorem SettlesAt.bind (h : SettlesAt k m p c)
    (hf : ∀ a c', p c = (.ok a, c') → SettlesAt j (f a) (g a) c') :
    SettlesAt (k + j) (m >>= f) (p >>= g) c := by
  cases h with
  | ok hp hm hs hk =>
    cases hf _ _ hp with
    | ok hp' hm' hs' hk' =>
      exact .ok ((bind_of_ok hp).trans hp') (hm.bind hm') (hs'.trans hs) (by omega)
    | error hp' hm' hs' => exact .error ((bind_of_ok hp).trans hp') (hm.bind hm') (hs'.trans hs)
  | error hp hm hs => exact .error (bind_of_error hp) hm.bind_error hs

theorem Settles.mono (h : Settles n k m p) {n' k' : Nat} (hn : n' ≤ n) (hk : k' ≤ k) :
    Settles n' k' m p := by
  intro c hc
  cases h c (Nat.lt_of_lt_of_le hc hn) with
  | ok hp hm hs hk' => exact .ok hp hm hs (by omega)
  | error hp hm hs => exact .error hp hm hs

/-- What takes a token may take none. -/
theorem Settles.weak (h : Settles n k m p) : Settles n 0 m p :=
  h.mono (Nat.le_refl n) (Nat.zero_le k)

/-- What comes first takes a token, so what comes after it has fewer left. -/
theorem Settles.first (h : Settles (n + 1) 1 m p) (hf : ∀ a, Settles n 0 (f a) (g a)) :
    Settles (n + 1) 1 (m >>= f) (p >>= g) := by
  intro c hc
  refine (h c hc).bind fun a c' hp => hf a c' ?_
  have := (h c hc).takes hp
  omega

theorem Settles.next (h : Settles n 0 m p) (hf : ∀ a, Settles n 0 (f a) (g a)) :
    Settles n 0 (m >>= f) (p >>= g) := by
  intro c hc
  refine (h c hc).bind fun a c' hp => hf a c' ?_
  have := (h c hc).takes hp
  omega

/-- What looks at the token under the cursor first. -/
theorem SettlesAt.peek {f : Option Token → Reader α} {g : Option Token → Parser α}
    (h : SettlesAt k (f c.rest.head?) (g c.rest.head?) c) :
    SettlesAt k (Reader.peek >>= f) (Parser.peek >>= g) c :=
  h.after rfl .peek (List.suffix_refl _)

theorem settles_pure (n : Nat) (a : α) : Settles n 0 (pure a) (pure a) :=
  fun c _ => .ok rfl (ends_pure a c) (List.suffix_refl _) (Nat.le_refl _)

theorem Settles.map (h : Settles n k m p) (f : α → β) : Settles n k (f <$> m) (f <$> p) :=
  fun c hc => (h c hc).bind fun _ _ _ => settles_pure _ _ _ (Nat.lt_succ_self _)

/-- What goes with a phrase of the grammar stays within the tokens. -/
theorem settles_glance {γ : Glance α} {e : Grammar.Ebnf} (h : Parser.Explains γ.parser e)
    (hk : ∀ ts, Grammar.Yields e ts → k ≤ ts.length) (n : Nat) :
    Settles n k (.glance γ) γ.parser := by
  intro c _
  have hends := ends_glance γ c
  rcases hp : γ.parser c with ⟨e | a, c'⟩
  · obtain ⟨us, hus, -⟩ := h.error hp
    exact .error hp (hp ▸ hends) ⟨us, hus.symm⟩
  · obtain ⟨us, hus, hy⟩ := h.ok hp
    refine .ok hp (hp ▸ hends) ⟨us, hus.symm⟩ ?_
    have := hk us hy
    rw [hus, List.length_append]
    omega

theorem Settles.or (h : Settles n k m p) (h' : Settles n k m' q) :
    Settles n k (m.or m') (p.or q) := by
  intro c hc
  cases h c hc with
  | ok hp hm hs hk => exact .ok (by rw [Parser.or, hp]) hm.or hs hk
  | @error e c' hp hm hs =>
    exact (h' { c' with rest := c.rest } hc).after (by rw [Parser.or, hp]) hm.or_error
      (List.suffix_refl _)

theorem Settles.label (h : Settles n k m p) (x : Expectation) :
    Settles n k (m.label x) (p.label x) := by
  intro c hc
  cases h c hc with
  | ok hp hm hs hk => exact .ok (by rw [Parser.label, hp]) (hm.label x) hs hk
  | error hp hm hs =>
    exact .error (by rw [Parser.label, hp]) (hm.label_error x) (by rwa [Parser.rest_record])

theorem Settles.optional (h : Settles n k m p) : Settles n 0 m.optional p.optional := by
  intro c hc
  cases h c hc with
  | ok hp hm hs => exact .ok (optional_of_ok hp) hm.optional hs hs.length_le
  | error hp hm =>
    exact .ok (optional_of_error hp) hm.optional_error (List.suffix_refl _) (Nat.le_refl _)

/-! ### Loops -/

/-- A round of a loop: the last one, one that fails, or one that takes a token
and after which the parser goes on in the same way with a round less to go. -/
inductive Round {σ : Type} (body : σ → Reader (σ ⊕ α)) (G : Nat → σ → Parser α) (rounds : Nat)
    (s : σ) (c : Cursor) : Prop
  | last {a : α} {c' : Cursor} (hG : G rounds s c = (.ok a, c'))
    (hm : (body s).Ends c (.ok (.inr a), c')) (hs : c'.rest <:+ c.rest)
  | failed {e : ParseError} {c' : Cursor} (hG : G rounds s c = (.error e, c'))
    (hm : (body s).Ends c (.error e, c')) (hs : c'.rest <:+ c.rest)
  | more {s' : σ} {c' : Cursor} {rounds' : Nat} (hr : rounds = rounds' + 1)
    (hG : G rounds s c = G rounds' s' c') (hm : (body s).Ends c (.ok (.inl s'), c'))
    (hs : c'.rest <:+ c.rest) (hk : c'.rest.length < c.rest.length)

/-- As many rounds as there are tokens left are enough. -/
theorem settles_loop {σ : Type} {body : σ → Reader (σ ⊕ α)} {G : Nat → σ → Parser α}
    (h : ∀ rounds s c, c.rest.length < n → c.rest.length ≤ rounds → Round body G rounds s c)
    (s : σ) : Settles n 0 (.loop s body) fun c => G c.rest.length s c := by
  -- each round takes a token, whatever the state and the number of rounds to go
  have hloop : ∀ (c : Cursor) (rounds : Nat) (s : σ), c.rest.length < n →
      c.rest.length ≤ rounds → SettlesAt 0 (.loop s body) (G rounds s) c := by
    intro c
    induction hlen : c.rest.length using Nat.strongRecOn generalizing c with
    | _ len ih =>
      subst hlen
      intro rounds s hc hrounds
      cases h rounds s c hc hrounds with
      | last hG hm hs => exact .ok hG hm.loop_done hs hs.length_le
      | failed hG hm hs => exact .error hG hm.loop_error hs
      | more hr hG hm hs hk =>
        exact (ih _ hk _ rfl _ _ (by omega) (by omega)).after hG hm.loop_again hs
  exact fun c hc => (hloop c c.rest.length s hc (Nat.le_refl _)).after rfl id (List.suffix_refl _)

/-- A round of a loop that makes a list: it adds no element, fails or adds an
element. -/
inductive Addition (step : Reader (Option α)) (F : Nat → Parser (List α)) (rounds : Nat)
    (c : Cursor) : Prop
  | last {c' : Cursor} (hF : F rounds c = (.ok [], c')) (hm : step.Ends c (.ok none, c'))
    (hs : c'.rest <:+ c.rest)
  | failed {e : ParseError} {c' : Cursor} (hF : F rounds c = (.error e, c'))
    (hm : step.Ends c (.error e, c')) (hs : c'.rest <:+ c.rest)
  | more {a : α} {c' : Cursor} {rounds' : Nat} (hr : rounds = rounds' + 1)
    (hF : F rounds c = (F rounds' >>= fun as => pure (a :: as)) c')
    (hm : step.Ends c (.ok (some a), c')) (hs : c'.rest <:+ c.rest)
    (hk : c'.rest.length < c.rest.length)

/-- The list is made from the front by the loop and from the back by the parser. -/
theorem settles_collect {step : Reader (Option α)} {F : Nat → Parser (List α)}
    (h : ∀ rounds c, c.rest.length < n → c.rest.length ≤ rounds → Addition step F rounds c) :
    Settles n 0 (collect step) fun c => F c.rest.length c := by
  have hround : ∀ rounds as c, c.rest.length < n → c.rest.length ≤ rounds →
      Round (gather step) (fun rounds as => F rounds >>= fun bs => pure (as ++ bs))
        rounds as c := by
    intro rounds as c hc hrounds
    cases h rounds c hc hrounds with
    | @last c' hF hm hs =>
      refine .last (bind_of_ok hF) ?_ hs
      rw [List.append_nil]
      exact hm.bind (ends_pure (Sum.inr as) c')
    | failed hF hm hs => exact .failed (bind_of_error hF) hm.bind_error hs
    | @more a c' rounds' hr hF hm hs hk =>
      refine .more hr ?_ (hm.bind (ends_pure (Sum.inl (as ++ [a])) c')) hs hk
      rcases hF' : F rounds' c' with ⟨e | bs, c''⟩
      · exact (bind_of_error (hF.trans (bind_of_error hF'))).trans (bind_of_error hF').symm
      · rw [bind_of_ok (hF.trans (bind_of_ok hF')), bind_of_ok hF', List.append_assoc,
          List.singleton_append]
  intro c hc
  have hF : (F c.rest.length >>= fun bs => pure ([] ++ bs)) = F c.rest.length :=
    bind_return _
  exact (settles_loop hround [] c hc).after (congrFun hF c).symm id (List.suffix_refl _)

theorem Settles.many (h : Settles n 1 m p) : Settles n 0 (many m) p.many := by
  refine settles_collect (F := fun rounds => p.manyWithin rounds) fun rounds c hc hrounds => ?_
  cases h c hc with
  | ok hp hm hs hk =>
    obtain ⟨rounds, rfl⟩ : ∃ r, rounds = r + 1 := ⟨rounds - 1, by omega⟩
    refine .more rfl ?_ hm.optional hs hk
    rw [Parser.manyWithin, bind_of_ok (optional_of_ok hp)]
  | error hp hm =>
    refine .last ?_ hm.optional_error (List.suffix_refl _)
    unfold Parser.manyWithin
    rw [bind_of_ok (optional_of_error hp)]
    rfl

/-- Elements up to the end of the tokens or a stop. -/
theorem Settles.elements (h : Settles n 1 m p) {stop : Token → Bool}
    {F : Nat → Parser (List α)}
    (hnil : ∀ rounds mem, F rounds ⟨[], mem⟩ = (.ok [], ⟨[], mem⟩))
    (hcons : ∀ rounds token ts mem, F (rounds + 1) ⟨token :: ts, mem⟩ =
      (if stop token then pure [] else do return (← p) :: (← F rounds)) ⟨token :: ts, mem⟩) :
    Settles n 0 (collect (element stop m)) fun c => F c.rest.length c := by
  refine settles_collect (F := F) fun rounds c hc hrounds => ?_
  obtain ⟨ts, mem⟩ := c
  cases ts with
  | nil => exact .last (hnil rounds mem) (.peek (ends_pure _ _)) (List.suffix_refl _)
  | cons token ts =>
    obtain ⟨rounds, rfl⟩ : ∃ k, rounds = k + 1 := ⟨rounds - 1, by simp at hrounds; omega⟩
    have hF := hcons rounds token ts mem
    -- what comes after the look at the token
    have hstep : ∀ {r}, (if stop token then pure none
        else m >>= fun a => pure (some a) : Reader (Option α)).Ends ⟨token :: ts, mem⟩ r →
          (element stop m).Ends ⟨token :: ts, mem⟩ r := fun hm => .peek hm
    by_cases hstop : stop token
    · rw [if_pos hstop] at hF hstep
      exact .last hF (hstep (ends_pure _ _)) (List.suffix_refl _)
    · rw [if_neg hstop] at hF hstep
      cases h _ hc with
      | ok hp hm hs hk =>
        exact .more rfl (hF.trans (bind_of_ok hp)) (hstep (hm.bind (ends_pure _ _))) hs hk
      | error hp hm hs => exact .failed (hF.trans (bind_of_error hp)) (hstep hm.bind_error) hs

theorem Settles.separated {r : Reader β} {q : Parser β} (h : Settles n 0 m p)
    (hr : Settles n 1 r q) : Settles n 0 (separated m r) (p.separated q) := by
  refine h.optional.next fun o => ?_
  cases o with
  | none => exact settles_pure n _
  | some first =>
    have hitems : Settles n 0 (collect (following m r)) fun c =>
        p.separatedWithin c.rest.length q c := by
      refine settles_collect (F := fun rounds => p.separatedWithin rounds q)
        fun rounds c hc hrounds => ?_
      cases hr c hc with
      | @ok b c' hp hm hs hk =>
        obtain ⟨rounds, rfl⟩ : ∃ k, rounds = k + 1 := ⟨rounds - 1, by omega⟩
        cases h c' (by omega) with
        | @ok a c'' hp' hm' hs' hk' =>
          have hitem : (m >>= fun a => pure (some a)).Ends c' (.ok (some a), c'') :=
            hm'.bind (ends_pure _ _)
          refine .more rfl ?_ (hm.optional.bind hitem) (hs'.trans hs) (by omega)
          rw [Parser.separatedWithin, bind_of_ok (optional_of_ok hp)]
          exact bind_of_ok hp'
        | @error e c'' hp' hm' hs' =>
          have hitem : (m >>= fun a => pure (some a)).Ends c' (.error e, c'') :=
            hm'.bind_error
          refine .failed ?_ (hm.optional.bind hitem) (hs'.trans hs)
          rw [Parser.separatedWithin, bind_of_ok (optional_of_ok hp)]
          exact bind_of_error hp'
      | error hp hm =>
        refine .last ?_ (hm.optional_error.bind (ends_pure _ _)) (List.suffix_refl _)
        unfold Parser.separatedWithin
        rw [bind_of_ok (optional_of_error hp)]
        rfl
    exact hitems.next fun as => settles_pure n _

/-- An operator is a token, so each operand has fewer tokens left than the one
before. -/
theorem Settles.chain (ops : List BinOp) {m : Reader Expr} {p : Parser Expr}
    (h : Settles (n + 1) 1 m p) : Settles (n + 1) 1 (chain ops m) (Expr.chain ops p) := by
  refine h.first fun first => settles_loop (G := fun rounds => Expr.chainWithin rounds ops p)
    (fun rounds left c hc hrounds => ?_) first
  cases hop : c.rest.head?.bind (BinOp.ofToken? ops) with
  | none =>
    refine .last (a := left) ?_ (.peek ?_) (List.suffix_refl _)
    · cases rounds with
      | zero => rfl
      | succ rounds =>
        rw [Expr.chainWithin, bind_of_ok (p := Parser.peek) rfl, hop]
        rfl
    · rw [hop]
      exact ends_pure _ _
  | some op =>
    obtain ⟨ts, mem⟩ := c
    obtain ⟨t, us, rfl, -, -⟩ := BinOp.head_of_bind_ofToken? hop
    obtain ⟨rounds, rfl⟩ : ∃ k, rounds = k + 1 := ⟨rounds - 1, by simp at hrounds; omega⟩
    -- what comes after the operator
    have hround : ∀ {r}, (m >>= fun right => pure (Sum.inl (Expr.binary op left right
        (left.span.merge right.span)))).Ends ⟨us, mem⟩ r →
        (operation ops m left).Ends ⟨t :: us, mem⟩ r := by
      intro r hr
      refine .peek ?_
      rw [hop]
      exact (ends_glance .advance _).bind hr
    have hchain : Expr.chainWithin (rounds + 1) ops p left ⟨t :: us, mem⟩ =
        (p >>= fun right => Expr.chainWithin rounds ops p
          (.binary op left right (left.span.merge right.span))) ⟨us, mem⟩ := by
      rw [Expr.chainWithin, bind_of_ok (p := Parser.peek) rfl, hop]
      rfl
    have hus : us <:+ t :: us := List.suffix_cons t us
    cases h ⟨us, mem⟩ (Nat.lt_succ_of_lt (Nat.lt_of_succ_lt hc)) with
    | ok hp hm hs hk =>
      exact .more rfl (hchain.trans (bind_of_ok hp)) (hround (hm.bind (ends_pure _ _)))
        (hs.trans hus) (Nat.lt_succ_of_lt hk)
    | error hp hm hs =>
      exact .failed (hchain.trans (bind_of_error hp)) (hround hm.bind_error) (hs.trans hus)

/-! ### Expressions -/

theorem settles_terminal (n : Nat) (t : Terminal) :
    Settles n 1 (terminal t) (Parser.terminal t) :=
  settles_glance (γ := .terminal t) (Parser.Reports.terminal (k := 0)).explains
    (fun _ h => Parser.length_of_yields_terminal h) n

theorem settles_ident (n : Nat) : Settles n 1 ident Ident.parser :=
  settles_glance (γ := .ident) (Ident.parser_reports (k := 0)).explains
    (fun _ h => Parser.length_of_yields_ident h) n

theorem settles_expected (n : Nat) (x : Expectation) :
    Settles n 1 (.glance (.expected x) : Reader α) (Parser.expected x) :=
  settles_glance (γ := (.expected x : Glance α))
    (Parser.Reports.expected (k := 0) Grammar.productive_ident).explains
    (fun _ h => Parser.length_of_yields_ident h) n

theorem settles_integer (n : Nat) :
    Settles n 1 (.glance .integer) Expr.integerLiteral := by
  refine settles_glance (γ := .integer) (Expr.integerLiteral_tracks (k := 0)).explains ?_ n
  rintro ts ⟨ps, h⟩
  obtain ⟨_, _, rfl, -⟩ := Grammar.Derives.integer_iff.mp h
  exact Nat.le_refl 1

theorem settles_boolean (n : Nat) :
    Settles n 1 (.glance .boolean) Expr.booleanLiteral := by
  refine settles_glance (γ := .boolean) (Expr.booleanLiteral_reports (k := 0)).explains ?_ n
  rintro ts ⟨ps, h⟩
  obtain ⟨e, he, h⟩ := Grammar.Derives.alt_iff.mp h
  rw [List.mem_cons, List.mem_singleton] at he
  rcases he with rfl | rfl <;> exact Parser.length_of_yields_terminal ⟨_, h⟩

section

variable {inner : Parser Expr}

theorem settles_call (h : Settles n 1 .expression inner) :
    Settles (n + 1) 1 call (Expr.callParser inner) := by
  refine (settles_ident _).first fun func => ?_
  refine (settles_terminal n _).weak.next fun _ => ?_
  refine (h.weak.separated (settles_terminal n .comma)).next fun args => ?_
  exact (settles_terminal n _).weak.next fun close => settles_pure n _

theorem settles_parenthesized (h : Settles n 1 .expression inner) :
    Settles (n + 1) 1 parenthesized (Expr.parenthesized inner) := by
  have hopen : Settles (n + 1) 1 (skipLeft (terminal .leftParen) .expression)
      (Parser.skipLeft (Parser.terminal .leftParen) inner) :=
    (settles_terminal _ _).first fun _ => h.weak
  exact hopen.first fun e => (settles_terminal n _).weak.next fun _ => settles_pure n _

theorem settles_primary (h : Settles n 1 .expression inner) :
    Settles (n + 1) 1 primary (Expr.primary inner) := by
  refine Settles.label (.or (.or (.or (.or ?_ ?_) ?_) ?_) ?_) _
  · exact settles_integer _
  · exact settles_boolean _
  · exact settles_call h
  · exact (settles_ident _).map _
  · exact settles_parenthesized h

theorem settles_levels (h : Settles n 1 .expression inner) (levels : List (List BinOp)) :
    Settles (n + 1) 1 (levels.foldr chain primary)
      (levels.foldr Expr.chain (Expr.primary inner)) := by
  induction levels with
  | nil => exact settles_primary h
  | cons ops levels ih => exact ih.chain ops

/-- An expression ends if expressions end that have fewer tokens left. -/
theorem settles_operators (h : Settles n 1 .expression inner) :
    Settles (n + 1) 1 .expression (Expr.operators (Expr.primary inner)) :=
  fun c hc => (settles_levels h BinOp.levels c hc).after rfl .expression (List.suffix_refl _)

end

theorem settles_parserWithin (depth : Nat) :
    Settles (depth + 1) 1 .expression (Expr.parserWithin depth) := by
  induction depth with
  | zero =>
    -- on no tokens the parser gives up at once and the reader looks for them,
    -- with the same error
    have h : Settles 0 1 .expression (Parser.expected .expression) := nofun
    rintro ⟨ts, mem⟩ hc
    obtain rfl : ts = [] := List.eq_nil_of_length_eq_zero (Nat.lt_one_iff.mp hc)
    have heq : Expr.parserWithin 0 ⟨[], mem⟩ =
        Expr.operators (Expr.primary (.expected .expression)) ⟨[], mem⟩ :=
      (Parser.starves_expected .expression mem).trans (Parser.starves_operators _ mem).symm
    exact (settles_operators h ⟨[], mem⟩ hc).after heq id (List.suffix_refl _)
  | succ depth ih => exact settles_operators ih

theorem settles_expression (n : Nat) : Settles n 1 .expression Expr.parser :=
  fun c _ => (settles_parserWithin c.rest.length c (Nat.lt_succ_self _)).after rfl id
    (List.suffix_refl _)

/-! ### Declarations and statements -/

theorem settles_typeWord (n : Nat) (t : Terminal) (type : Option BaseType) :
    Settles (n + 1) 1 (typeWord t type) (Decl.typeWord t type) :=
  (settles_terminal _ t).first fun _ => settles_pure n _

theorem settles_typeName (n : Nat) : Settles (n + 1) 1 typeName Decl.typeParser :=
  .label (.or (.or (settles_typeWord n _ _) (settles_typeWord n _ _)) (settles_typeWord n _ _)) _

theorem settles_parameter (n : Nat) : Settles (n + 1) 1 parameter Decl.parameterParser :=
  (settles_typeName n).first fun _ => (settles_ident n).weak.next fun _ => settles_pure n _

theorem settles_declaration (n : Nat) : Settles (n + 1) 1 declaration Decl.parser :=
  (settles_parameter n).first fun _ => (settles_terminal n _).weak.next fun _ => settles_pure n _

section

variable {inner : Parser Stmt}

theorem settles_statements (h : Settles n 1 .statement inner) :
    Settles n 0 (collect nextStatement) fun c => Block.statementsWithin c.rest.length inner c := by
  refine h.elements (F := fun rounds => Block.statementsWithin rounds inner) ?_ ?_
  · intro rounds mem
    cases rounds <;> rfl
  · intro rounds token ts mem
    rw [Block.statementsWithin, bind_of_ok (p := Parser.peek) rfl]
    simp only [List.head?_cons, decide_eq_true_eq]

theorem settles_block (h : Settles n 1 .statement inner) :
    Settles (n + 1) 1 block (Block.parserOf inner) := by
  refine (settles_terminal _ _).first fun brace => ?_
  refine ((settles_declaration n).mono (Nat.le_succ n) (Nat.le_refl 1)).many.next fun ds => ?_
  refine (settles_statements h).next fun ss => ?_
  exact (settles_terminal n _).weak.next fun close => settles_pure n _

theorem settles_cond (h : Settles n 1 .statement inner) :
    Settles (n + 1) 1 cond (Stmt.condParser inner) := by
  have helse : Settles n 0 (skipLeft (terminal .kwElse) .statement)
      (Parser.skipLeft (Parser.terminal .kwElse) inner) :=
    (settles_terminal n _).weak.next fun _ => h.weak
  refine (settles_terminal _ _).first fun word => ?_
  refine (settles_expression n).weak.next fun condition => ?_
  refine h.weak.next fun thenBranch => ?_
  exact helse.optional.next fun elseBranch => settles_pure n _

theorem settles_loopStmt (h : Settles n 1 .statement inner) :
    Settles (n + 1) 1 loopStmt (Stmt.loopParser inner) := by
  refine (settles_terminal _ _).first fun word => ?_
  refine (settles_expression n).weak.next fun condition => ?_
  exact h.weak.next fun body => settles_pure n _

theorem settles_ret (n : Nat) : Settles (n + 1) 1 ret Stmt.returnParser := by
  refine (settles_terminal _ _).first fun word => ?_
  refine (settles_expression n).weak.next fun value => ?_
  exact (settles_terminal n _).weak.next fun semicolon => settles_pure n _

theorem settles_assign (n : Nat) : Settles (n + 1) 1 assign Stmt.assignParser := by
  refine (settles_ident _).first fun target => ?_
  refine (settles_terminal n _).weak.next fun _ => ?_
  refine (settles_expression n).weak.next fun value => ?_
  exact (settles_terminal n _).weak.next fun semicolon => settles_pure n _

/-- A statement ends if statements end that have fewer tokens left. -/
theorem settles_parserOf (h : Settles n 1 .statement inner) :
    Settles (n + 1) 1 .statement (Stmt.parserOf inner) := by
  have hbody : Settles (n + 1) 1 statementBody (Stmt.parserOf inner) := by
    intro c hc
    have hother : SettlesAt 1 (.glance (.expected .statement) : Reader Stmt)
        (Parser.expected .statement) c := settles_expected (n + 1) _ c hc
    refine .peek ?_
    cases c.rest.head?.map Token.lexeme with
    | none => exact hother
    | some l =>
      cases l with
      | fixed t =>
        cases t with
        | leftBrace => exact (settles_block h).map _ c hc
        | kwIf => exact settles_cond h c hc
        | kwWhile => exact settles_loopStmt h c hc
        | kwReturn => exact settles_ret n c hc
        | _ => exact hother
      | ident => exact settles_assign n c hc
      | integer => exact hother
  exact fun c hc => (hbody c hc).after rfl .statement (List.suffix_refl _)

end

theorem settles_stmtWithin (depth : Nat) :
    Settles (depth + 1) 1 .statement (Stmt.parserWithin depth) := by
  induction depth with
  | zero =>
    have h : Settles 0 1 .statement (Parser.expected .statement) := nofun
    rintro ⟨ts, mem⟩ hc
    obtain rfl : ts = [] := List.eq_nil_of_length_eq_zero (Nat.lt_one_iff.mp hc)
    exact (settles_parserOf h ⟨[], mem⟩ hc).after rfl id (List.suffix_refl _)
  | succ depth ih => exact settles_parserOf ih

theorem settles_statement (n : Nat) : Settles n 1 .statement Stmt.parser :=
  fun c _ => (settles_stmtWithin c.rest.length c (Nat.lt_succ_self _)).after rfl id
    (List.suffix_refl _)

/-! ### Entries -/

theorem settles_function (n : Nat) : Settles (n + 1) 1 function FunDef.parser := by
  refine (settles_terminal _ _).first fun word => ?_
  refine ((settles_ident n).label _).weak.next fun name => ?_
  refine (settles_terminal n _).weak.next fun _ => ?_
  have hparam : Settles n 1 parameter Decl.parameterParser :=
    (settles_parameter n).mono (Nat.le_succ n) (Nat.le_refl 1)
  refine (hparam.weak.separated (settles_terminal n .comma)).next fun params => ?_
  refine (settles_terminal n _).weak.next fun _ => ?_
  have hblock : Settles n 1 block Block.parser :=
    (settles_block (settles_statement n)).mono (Nat.le_succ n) (Nat.le_refl 1)
  exact hblock.weak.next fun body => settles_pure n _

theorem settles_item (n : Nat) : Settles (n + 1) 1 item Item.parser := by
  intro c hc
  have hdeclaration : SettlesAt 1 (Item.declaration <$> declaration)
      (Item.declaration <$> Decl.parser) c := (settles_declaration n).map _ c hc
  have hstatement : SettlesAt 1 (Item.statement <$> Reader.statement)
      (Item.statement <$> Stmt.parser) c := (settles_statement (n + 1)).map _ c hc
  refine .peek ?_
  cases c.rest.head?.map Token.lexeme with
  | none => exact hstatement
  | some l =>
    cases l with
    | fixed t =>
      cases t with
      | kwFunction => exact (settles_function n).map _ c hc
      | kwInt | kwBool | kwVar => exact hdeclaration
      | _ => exact hstatement
    | ident | integer => exact hstatement

theorem settles_items (n : Nat) :
    Settles n 0 (collect nextItem) fun c => Item.listWithin c.rest.length c := by
  refine Settles.elements (F := Item.listWithin)
    ((settles_item n).mono (Nat.le_succ n) (Nat.le_refl 1)) ?_ ?_
  · intro rounds mem
    cases rounds <;> rfl
  · intro rounds token ts mem
    rw [Item.listWithin, bind_of_ok (p := Parser.peek) rfl]
    rfl

theorem settles_bareExpression (n : Nat) :
    Settles n 0 bareExpression Entry.bareExpression := by
  intro c hc
  have hskip : Settles n 0 (skip .expression (terminal .semicolon).optional)
      (Parser.skip Expr.parser (Parser.terminal .semicolon).optional) :=
    (settles_expression n).weak.next fun e => (settles_terminal n _).optional.next
      fun _ => settles_pure n _
  cases hskip c hc with
  | @ok e c' hp hm hs hk =>
    obtain ⟨ts, mem⟩ := c'
    cases ts with
    | nil =>
      have hlast : (complete e).Ends ⟨[], mem⟩ (.ok e, ⟨[], mem⟩) := .peek (ends_pure e _)
      refine .ok ?_ (hm.bind (f := complete) hlast).optional hs hk
      rw [Entry.bareExpression, hp]
      rfl
    | cons token ts =>
      have hlast : (complete e).Ends ⟨token :: ts, mem⟩
          (.error ⟨.unexpected token, []⟩, ⟨token :: ts, mem⟩) := .peek (ends_glance (.fail _) _)
      refine .ok ?_ (hm.bind (f := complete) hlast).optional_error (List.suffix_refl _)
        (Nat.le_refl _)
      rw [Entry.bareExpression, hp]
      rfl
  | error hp hm hs =>
    refine .ok (a := none) ?_ hm.bind_error.optional_error (List.suffix_refl _) (Nat.le_refl _)
    rw [Entry.bareExpression, hp]

theorem settles_unit (n : Nat) : Settles n 0 unit Entry.parser := by
  refine (settles_bareExpression n).next fun o => ?_
  cases o with
  | some e => exact settles_pure n _
  | none => exact (settles_items n).next fun items => settles_pure n _

/-! ### Reading ends -/

/-- At a cursor, the reader ends as the parser does and in no other way.  The
cursor does not leave the tokens, and has gone on by at least `k` of them if the
parser succeeds. -/
structure Terminates (k : Nat) (m : Reader α) (p : Parser α) (c : Cursor) : Prop where
  ends (r : Except ParseError α × Cursor) : m.Ends c r ↔ r = p c
  suffix : (p c).2.rest <:+ c.rest
  takes (a : α) : (p c).1 = .ok a → (p c).2.rest.length + k ≤ c.rest.length

theorem Settles.terminates (h : ∀ n, Settles (n + 1) k m p) (c : Cursor) :
    Terminates k m p c := by
  have hc := h c.rest.length c (Nat.lt_succ_self _)
  refine ⟨fun r => ⟨fun hr => hr.unique hc.ends, fun hr => hr ▸ hc.ends⟩, hc.suffix, ?_⟩
  intro a ha
  rcases hp : p c with ⟨res, c'⟩
  rw [hp] at ha
  cases ha
  exact hc.takes hp

/-- Every reader of the grammar ends on all tokens, as its bounded counterpart
does.  Those of expressions, declarations, blocks, statements and functions go
on by a token at least if they succeed, and no reader leaves the tokens.  So all
loops end: those of declarations, of statements in a block, of operators in each
level, of arguments, of parameters and of items. -/
theorem reading_ends (c : Cursor) :
    Terminates 1 .expression Expr.parser c ∧ Terminates 1 declaration Decl.parser c ∧
    Terminates 1 block Block.parser c ∧ Terminates 1 .statement Stmt.parser c ∧
    Terminates 1 function FunDef.parser c ∧ Terminates 0 unit Entry.parser c ∧
    Terminates 0 (many declaration) Decl.parser.many c ∧
    Terminates 0 (collect nextStatement)
      (do Block.statementsWithin (← Parser.remaining) Stmt.parser) c ∧
    (∀ i, Terminates 1 ((BinOp.levels.drop i).foldr chain primary)
      ((BinOp.levels.drop i).foldr Expr.chain (Expr.primary Expr.parser)) c) ∧
    Terminates 0 (separated .expression (terminal .comma))
      (Expr.parser.separated (Parser.terminal .comma)) c ∧
    Terminates 0 (separated parameter (terminal .comma))
      (Decl.parameterParser.separated (Parser.terminal .comma)) c ∧
    Terminates 0 (collect nextItem) (do Item.listWithin (← Parser.remaining)) c := by
  have hblock : ∀ n, Settles (n + 1) 1 block Block.parser :=
    fun n => settles_block (settles_statement n)
  refine ⟨?_, ?_, ?_, ?_, ?_, ?_, ?_, ?_, fun i => ?_, ?_, ?_, ?_⟩
  · exact Settles.terminates (fun n => settles_expression _) c
  · exact Settles.terminates settles_declaration c
  · exact Settles.terminates hblock c
  · exact Settles.terminates (fun n => settles_statement _) c
  · exact Settles.terminates settles_function c
  · exact Settles.terminates (fun n => settles_unit _) c
  · exact Settles.terminates (fun n => (settles_declaration n).many) c
  · exact Settles.terminates (fun n => settles_statements (settles_statement _)) c
  · exact Settles.terminates (fun n => settles_levels (settles_expression n) _) c
  · exact Settles.terminates
      (fun n => (settles_expression _).weak.separated (settles_terminal _ .comma)) c
  · exact Settles.terminates
      (fun n => (settles_parameter n).weak.separated (settles_terminal _ .comma)) c
  · exact Settles.terminates (fun n => settles_items _) c

end Reader

end Implet
