import Revue.Proofs.LexerRuns
import Revue.Syntax.Module

/-!
# Where statements end

A statement may end before a line break without a semicolon. Whether it does is up to the token
behind the break: an expression goes on with it if it can. Here is what a line break is to the
reader, and which tokens let no expression go on.
-/

namespace Revue.Syntax
open Text Source

variable {n pos start : Nat} {noCall : Bool} {m : Mark} {t' : Tree} {s' : State} {before l : Lexeme}
  {t : Trivia} {cs rest text : List Char} {p : Tree × Bool → Parser (Option (Tree × Bool))}

/-! ### Line breaks between tokens -/

theorem Trivia.breaks_add (t : Trivia) (isOwned : Bool) (comment : Span) :
    (t.add isOwned comment).breaks = t.breaks := by
  cases isOwned <;> rfl

/-- A line break that was met is not forgotten. -/
theorem skipTrivia_breaks (before : Lexeme) (gap : Gap) (t : Trivia) (pos : Nat) (cs : List Char)
    (h : t.breaks = true) : (skipTrivia before gap t pos cs).breaks = true := by
  fun_induction skipTrivia before gap t pos cs with
  | case1 | case3 | case12 => exact h
  | case2 => exact (Trivia.breaks_add _ _ _).trans h
  | case4 _ _ _ _ _ _ _ ih | case10 _ _ _ _ _ _ _ ih => exact ih rfl
  | case5 _ _ _ _ _ _ ih | case7 _ _ _ _ _ _ _ ih | case8 _ _ _ ih | case9 _ _ _ ih
  | case11 _ _ _ _ _ _ _ _ ih => exact ih h
  | case6 _ _ _ _ _ _ _ ih =>
    apply ih
    rw [Trivia.breaks_add, h, Bool.true_or]

def isGap (gap : List Char) : Bool :=
  let t := triviaAfter .start 0 (gap ++ ['\n'])
  t.rest.isEmpty && !t.isOpen

/-- Between comments only a slash is more than itself. -/
theorem skipTrivia_blank {c : Char} (hslash : c ≠ '/') :
    skipTrivia before .blank t pos (c :: cs) =
      if isLineBreak c then
        skipTrivia before .blank { t with breaks := true } (pos + c.utf8Size) cs
      else if isGapBlank c then skipTrivia before .blank t (pos + c.utf8Size) cs
      else { t with pos := pos, rest := c :: cs } := by
  rw [skipTrivia]
  · rintro _ rfl
    exact absurd rfl hslash
  · rintro _ rfl
    exact absurd rfl hslash

theorem Gap.eq_blank_of_mode {gap : Gap} (h : gap.mode = Gap.blank.mode) : gap = .blank := by
  cases gap with
  | blank => rfl
  | line | block => cases h

theorem Gap.eq_line_of_mode {gap : Gap} {start : Nat} (h : gap.mode = (Gap.line start).mode) :
    ∃ start, gap = .line start := by
  cases gap with
  | line start => exact ⟨start, rfl⟩
  | blank | block => cases h

theorem Gap.eq_block_of_mode {gap : Gap} {start : Nat} {breaks : Bool}
    (h : gap.mode = (Gap.block start breaks).mode) : ∃ start breaks, gap = .block start breaks := by
  cases gap with
  | block start breaks => exact ⟨start, breaks, rfl⟩
  | blank | line => cases h

/-- Of a text that ends with a line break, two characters that are none come before it. -/
theorem exists_of_pair {a b : Char} (h : a :: b :: cs = text ++ ['\n']) (hb : b ≠ '\n') :
    ∃ text', text = a :: b :: text' ∧ cs = text' ++ ['\n'] := by
  rcases List.cons_eq_append_iff.1 h with ⟨-, hpair⟩ | ⟨text₁, rfl, hcs⟩
  · simp at hpair
  · rcases List.cons_eq_append_iff.1 hcs with ⟨-, hlast⟩ | ⟨text₂, rfl, hcs'⟩
    · exact absurd (List.cons.inj hlast).1.symm hb
    · exact ⟨text₂, rfl, hcs'⟩

/-- Blanks and comments go on to the line break behind them, whatever follows. -/
theorem skipTrivia_breaks_of_gap {before' : Lexeme} {gap gap' : Gap} {t' : Trivia} {pos' : Nat}
    (hcs : cs = text ++ ['\n']) (hmode : gap'.mode = gap.mode)
    (hrest : (skipTrivia before gap t pos cs).rest = [])
    (hopen : (skipTrivia before gap t pos cs).isOpen = false) :
    (skipTrivia before' gap' t' pos' (text ++ '\n' :: rest)).breaks = true := by
  -- Step by step both runs do the same; the second is done with the first line break it meets.
  fun_induction skipTrivia before gap t pos cs generalizing text gap' t' pos' with
  | case1 | case2 | case3 => simp at hcs
  | case4 _ _ c _ _ hbreak =>
    obtain ⟨start, rfl⟩ := Gap.eq_line_of_mode hmode
    rcases List.cons_eq_append_iff.1 hcs with ⟨rfl, -⟩ | ⟨text, rfl, -⟩
    · rw [List.nil_append, skipTrivia, if_pos (by decide)]
      exact skipTrivia_breaks _ _ _ _ _ rfl
    · rw [List.cons_append, skipTrivia, if_pos hbreak]
      exact skipTrivia_breaks _ _ _ _ _ rfl
  | case5 _ _ c _ _ hbreak ih =>
    obtain ⟨start, rfl⟩ := Gap.eq_line_of_mode hmode
    rcases List.cons_eq_append_iff.1 hcs with ⟨rfl, h⟩ | ⟨text, rfl, htext⟩
    · obtain ⟨rfl, -⟩ := List.cons.inj h
      exact absurd (by decide) hbreak
    · rw [List.cons_append, skipTrivia, if_neg hbreak]
      exact ih htext rfl hrest hopen
  | case6 =>
    rename_i ih
    obtain ⟨start, breaks, rfl⟩ := Gap.eq_block_of_mode hmode
    obtain ⟨text, rfl, htext⟩ := exists_of_pair hcs (by decide)
    rw [List.cons_append, List.cons_append, skipTrivia]
    exact ih htext rfl hrest hopen
  | case7 _ _ _ _ c cs hend ih =>
    obtain ⟨start, breaks, rfl⟩ := Gap.eq_block_of_mode hmode
    rcases List.cons_eq_append_iff.1 hcs with ⟨rfl, h⟩ | ⟨text, rfl, htext⟩
    · obtain ⟨rfl, rfl⟩ := List.cons.inj h
      cases hopen
    · rw [List.cons_append, skipTrivia]
      · exact ih htext rfl hrest hopen
      · rintro cs' rfl hslash
        rcases List.append_eq_cons_iff.1 hslash with ⟨-, h⟩ | ⟨text', rfl, -⟩
        · exact absurd (List.cons.inj h).1 (by decide)
        · exact hend _ rfl htext
  | case8 _ _ _ ih =>
    obtain rfl := Gap.eq_blank_of_mode hmode
    obtain ⟨text, rfl, htext⟩ := exists_of_pair hcs (by decide)
    rw [List.cons_append, List.cons_append, skipTrivia]
    exact ih htext rfl hrest hopen
  | case9 _ _ _ ih =>
    obtain rfl := Gap.eq_blank_of_mode hmode
    obtain ⟨text, rfl, htext⟩ := exists_of_pair hcs (by decide)
    rw [List.cons_append, List.cons_append, skipTrivia]
    exact ih htext rfl hrest hopen
  | case10 _ _ c _ _ _ hbreak =>
    obtain rfl := Gap.eq_blank_of_mode hmode
    have hslash : c ≠ '/' := by rintro rfl; exact absurd hbreak (by decide)
    rcases List.cons_eq_append_iff.1 hcs with ⟨rfl, -⟩ | ⟨text, rfl, -⟩
    · rw [List.nil_append, skipTrivia_blank (by decide), if_pos (by decide)]
      exact skipTrivia_breaks _ _ _ _ _ rfl
    · rw [List.cons_append, skipTrivia_blank hslash, if_pos hbreak]
      exact skipTrivia_breaks _ _ _ _ _ rfl
  | case11 _ _ c _ _ _ hbreak hblank ih =>
    obtain rfl := Gap.eq_blank_of_mode hmode
    have hslash : c ≠ '/' := by rintro rfl; exact absurd hblank (by decide)
    rcases List.cons_eq_append_iff.1 hcs with ⟨rfl, h⟩ | ⟨text, rfl, htext⟩
    · obtain ⟨rfl, -⟩ := List.cons.inj h
      exact absurd (by decide) hbreak
    · rw [List.cons_append, skipTrivia_blank hslash, if_neg hbreak, if_pos hblank]
      exact ih htext rfl hrest hopen
  | case12 => cases hrest

/-- Behind blanks and comments a line break stands before the token that follows. -/
theorem State.breakBefore_advance {s : State} {gap : List Char} (hgap : isGap gap = true)
    (hrest : s.rest = gap ++ '\n' :: rest) (style : Style) :
    (s.advance style).token.breakBefore = true := by
  change (triviaAfter s.token.lexeme s.token.span.stop s.rest).breaks = true
  obtain ⟨hend, hopen⟩ := Bool.and_eq_true_iff.1 hgap
  rw [hrest]
  rw [Bool.not_eq_true'] at hopen
  exact skipTrivia_breaks_of_gap rfl rfl (List.isEmpty_iff.1 hend) hopen

/-! ### Tokens that no expression goes on with -/

def Lexeme.endsExpression : Lexeme → Bool
  | .word _ (some .kIn) | .word _ (some .kInstanceof) | .word _ (some .kInterface) => false
  | .word _ _ | .privateName _ | .string _ | .number _ | .bigInteger | .eof => true
  | .mark .lbrace | .mark .rbrace | .mark .tilde | .mark .bang | .mark .plusPlus
  | .mark .minusMinus | .mark .atSign => true
  | _ => false

/-- Where an expression ends: at a semicolon, or behind a line break at a token that it does not go
on with. What follows the token must not make reading break down, as it is looked at. -/
structure State.Stops (s : State) : Prop where
  stops : s.token.lexeme = .mark .semi ∨
    s.token.breakBefore = true ∧ s.token.lexeme.endsExpression = true
  isBroken_next : (s.advance .script).isBroken = false

def Lexeme.goesOn : Lexeme → Bool
  | .mark .semi => false
  | l => !l.endsExpression

/-- Tokens that go on with an operand in front of them. -/
def Lexeme.joins : Lexeme → Bool
  | .mark .lbracket | .mark .lparen | .mark .dot | .mark .question | .template _ _ => true
  | .word _ (some .kIn) | .word _ (some .kInstanceof) => true
  | .mark m => m.isBinary
  | _ => false

/-- Tokens that go on with an operand on the same line. -/
def Lexeme.joinsOnLine : Lexeme → Bool
  | .mark .bang | .mark .plusPlus | .mark .minusMinus => true
  | .word _ (some .kAs) | .word _ (some .kSatisfies) => true
  | _ => false

/-- Where an operand ends, if not the expression: an equals sign or a comma may follow. -/
structure State.Ends (s : State) : Prop where
  joins : s.token.lexeme.joins = false
  onLine : s.token.lexeme.joinsOnLine = true → s.token.breakBefore = true
  isBroken_next : (s.advance .script).isBroken = false

theorem Mark.joins_of_isBinary (h : m.isBinary = true) : (Lexeme.mark m).joins = true := by
  revert h
  cases m <;> decide

theorem Mark.goesOn_of_isAssignment (h : m.isAssignment = true) :
    (Lexeme.mark m).goesOn = true := by
  revert h
  cases m <;> decide

theorem Lexeme.joins_of_endsExpression (h : l.endsExpression = true) : l.joins = false := by
  cases l with
  | mark m => cases m <;> first | rfl | cases h
  | word text keyword =>
    rcases keyword with _ | keyword
    · rfl
    · cases keyword <;> first | rfl | cases h
  | template => cases h
  | _ => rfl

theorem Lexeme.eq_word_of_isKeyword {keyword : Keyword} (h : l.isKeyword keyword = true) :
    ∃ text, l = .word text (some keyword) := by
  unfold Lexeme.isKeyword at h
  split at h
  · obtain rfl := of_decide_eq_true h
    exact ⟨_, rfl⟩
  · cases h

section
variable {α β : Type} {s s' : State} {a : α}

theorem run_bind {p : Parser α} {f : α → Parser β} (h : p s = .ok (a, s')) :
    (p >>= f) s = f a s' := by
  change (p s >>= fun x => f x.1 x.2) = _
  rw [h]
  rfl

theorem many_of_none {p : Parser (Option α)} (h : p s = .ok (none, s')) :
    many p s = .ok ([], s') := by
  change (p >>= _) s = _
  rw [run_bind h]
  rfl

theorem iterate_of_some {p : α → Parser (Option α)} {a' : α} {s'' : State}
    (h : p a s = .ok (some a', s')) (hdone : p a' s' = .ok (none, s'')) :
    iterate p a s = .ok (a', s'') := by
  change (p a >>= _) s = _
  rw [run_bind h]
  change (p a' >>= _) s' = _
  rw [run_bind hdone]
  rfl

theorem run_recover {p : Parser α} (h : p s = .ok (a, s')) :
    recover p s = .ok (some a, s') := by
  rw [recover, h]

theorem run_lexeme : lexeme s = .ok (s.token.lexeme, s) := rfl

theorem run_position : position s = .ok (s.token.span.start, s) := rfl

theorem run_afterBreak : afterBreak s = .ok (s.token.breakBefore, s) := rfl

theorem run_atKeyword (k : Keyword) : atKeyword k s = .ok (s.token.lexeme.isKeyword k, s) := rfl

theorem run_modify (f : State → State) : (modify f : Parser PUnit) s = .ok ((), f s) := rfl

theorem run_atMark (m : Mark) : atMark m s = .ok (s.token.lexeme.isMark m, s) := rfl

theorem run_eat_of_not (hm : s.token.lexeme.isMark m = false) : eat m s = .ok (false, s) := by
  rw [eat, run_bind (run_atMark m), hm]
  rfl

theorem run_eat_of_mark (hm : s.token.lexeme = .mark m) (hskip : skip s = .ok ((), s')) :
    eat m s = .ok (true, s') := by
  have his : s.token.lexeme.isMark m = true := by
    rw [hm]
    exact decide_eq_true rfl
  rw [eat, run_bind (run_atMark m), his]
  exact run_bind hskip

namespace State.Stops
variable (h : s.Stops)
include h

theorem ne (hl : l.goesOn = true) : s.token.lexeme ≠ l := by
  rintro rfl
  rcases h.stops with hsemi | ⟨-, hends⟩
  · rw [hsemi] at hl
    exact absurd hl (by decide)
  · unfold Lexeme.goesOn at hl
    split at hl
    · exact absurd hl (by decide)
    · rw [hends] at hl
      exact absurd hl (by decide)

theorem isMark (hm : (Lexeme.mark m).goesOn = true) : s.token.lexeme.isMark m = false :=
  Bool.eq_false_iff.2 fun hmark => h.ne hm (eq_mark_of_isMark hmark)

theorem isKeyword {keyword : Keyword}
    (hkeyword : ∀ word, (Lexeme.word word (some keyword)).goesOn = true) :
    s.token.lexeme.isKeyword keyword = false := by
  refine Bool.eq_false_iff.2 fun his => ?_
  obtain ⟨word, hl⟩ := Lexeme.eq_word_of_isKeyword his
  exact h.ne (hkeyword word) hl

theorem run_eat (hm : (Lexeme.mark m).goesOn = true) : eat m s = .ok (false, s) :=
  run_eat_of_not (h.isMark hm)

theorem isAssignment (m : Mark) (hm : s.token.lexeme = .mark m) : m.isAssignment = false :=
  Bool.eq_false_iff.2 fun hassign => h.ne (Mark.goesOn_of_isAssignment hassign) hm

theorem ends : s.Ends := by
  rcases h.stops with hsemi | ⟨hbreak, hends⟩
  · exact ⟨by rw [hsemi]; rfl, fun hline => (by rw [hsemi] at hline; cases hline), h.isBroken_next⟩
  · exact ⟨Lexeme.joins_of_endsExpression hends, fun _ => hbreak, h.isBroken_next⟩

end State.Stops

section
variable (h : (s.advance .script).isBroken = false)
include h

theorem run_skip : skip s = .ok ((), s.advance .script) := by
  simp [skip, goOn, h]

theorem run_peek : peek s = .ok ((s.advance .script).token, s) := by
  simp [peek, h]

theorem run_peekMark (m : Mark) :
    peekMark m s = .ok ((s.advance .script).token.lexeme.isMark m, s) := by
  rw [peekMark, run_bind (run_peek h)]
  rfl

theorem run_leaf (kind : Kind) :
    leaf kind s = .ok (.node .item kind ⟨s.token.span.start, (s.advance .script).prevEnd⟩ [],
      s.advance .script) := by
  rw [leaf, run_bind run_position, run_bind (run_skip h)]
  rfl

end

namespace State.Ends
variable (h : s.Ends)
include h

theorem ne (hl : l.joins = true) : s.token.lexeme ≠ l := by
  rintro rfl
  rw [h.joins] at hl
  cases hl

theorem isMark (hm : (Lexeme.mark m).joins = true) : s.token.lexeme.isMark m = false :=
  Bool.eq_false_iff.2 fun hmark => h.ne hm (eq_mark_of_isMark hmark)

theorem and_on_line {b : Bool} (hb : b = true → s.token.lexeme.joinsOnLine = true) :
    (b && !s.token.breakBefore) = false := by
  cases b with
  | false => rfl
  | true => rw [h.onLine (hb rfl)]; rfl

end State.Ends

variable (g : Grammar) (c : Context) (start : Nat) {t : Tree}

theorem run_instantiated (t : Tree) (hlt : s.token.lexeme.isMark .lt = false) :
    instantiated g c start t s = .ok (t, s) := by
  have hnone : instantiation? g c s = .ok (none, s) := by
    rw [instantiation?, run_bind (run_atMark _), hlt]
    rfl
  rw [instantiated, run_bind hnone]
  rfl

section
variable (h : s.Ends)
include h

/-- Nothing that stands behind an operand goes on with it. -/
theorem subscript_stops (ht : isBareCallee t = false) (noCall noIndex : Bool) :
    subscript g c noCall noIndex start t s = .ok (none, s) := by
  have hbang : (s.token.lexeme.isMark .bang && !s.token.breakBefore) = false :=
    h.and_on_line fun hmark => by rw [eq_mark_of_isMark hmark]; rfl
  rw [subscript, run_bind run_lexeme, run_bind run_afterBreak, hbang, h.isMark (m := .lt) rfl,
    h.isMark (m := .question) rfl]
  simp only [Bool.false_eq_true, if_false, Bool.and_false, ht, Bool.false_and, pure_bind]
  rw [run_bind (run_peekMark h.isBroken_next .dot)]
  cases hl : s.token.lexeme with
  | mark m =>
    cases m with
    | lbracket | lparen | dot => exact absurd hl (h.ne rfl)
    | _ => rfl
  | template => exact absurd hl (h.ne rfl)
  | _ => rfl

theorem callTypes_stops : callTypes g c s = .ok ([], s) := by
  have hnone : atAnyMark [.lt, .shl] s = .ok (false, s) := by
    rw [atAnyMark, run_bind run_lexeme]
    simp only [List.any_cons, List.any_nil, h.isMark (m := .lt) rfl, h.isMark (m := .shl) rfl]
    rfl
  rw [callTypes, run_bind hnone]
  rfl

theorem binaryOperator_stops : binaryOperator? c s = .ok (none, s) := by
  rw [binaryOperator?, run_bind (run_atMark _), h.isMark rfl]
  simp only [Bool.false_eq_true, if_false]
  rw [run_bind run_lexeme]
  cases hl : s.token.lexeme with
  | mark m =>
    have hm : m.isBinary = false :=
      Bool.eq_false_iff.2 fun hm => h.ne (Mark.joins_of_isBinary hm) hl
    simp only [hm, Bool.false_eq_true, if_false]
    rfl
  | word text keyword =>
    rcases keyword with _ | keyword
    · rfl
    · cases keyword with
      | kIn | kInstanceof => exact absurd hl (h.ne rfl)
      | _ => rfl
  | _ => rfl

/-- No binary operator goes on with an operand. -/
theorem binaryRest_stops (least : Nat) : binaryRest g c least t s = .ok (t, s) := by
  have hcast : (!s.token.breakBefore &&
      (s.token.lexeme.isKeyword .kSatisfies || s.token.lexeme.isKeyword .kAs)) = false := by
    rw [Bool.and_comm]
    refine h.and_on_line fun hword => ?_
    rcases Bool.or_eq_true_iff.1 hword with hword | hword <;>
    · obtain ⟨text, hl⟩ := Lexeme.eq_word_of_isKeyword hword
      rw [hl]
      rfl
  rw [binaryRest, run_bind run_lexeme, run_bind run_afterBreak]
  simp only [Bool.and_assoc, hcast, Bool.and_false, Bool.false_eq_true, if_false]
  rw [run_bind (binaryOperator_stops c h)]
  rfl

end

/-- Nothing is assigned to an expression. -/
theorem run_assignmentRest_of_not
    (h : ∀ m, s.token.lexeme = .mark m → m.isAssignment = false) :
    assignmentRest g c start t s = .ok (t, s) := by
  rw [assignmentRest, run_bind run_lexeme]
  cases hl : s.token.lexeme with
  | mark m =>
    simp only [h m hl, Bool.not_false, if_true]
    rfl
  | _ => rfl

end

/-! ### Operands that are read to their end -/

section
variable (g : Grammar) (c : Context)

inductive Accesses (noCall : Bool) (start : Nat) : Nat → Tree → State → Tree → State → Prop
  | refl (t : Tree) (s : State) : Accesses noCall start 0 t s t s
  | step {n : Nat} {t t' t'' : Tree} {s s' s'' : State}
      (hread : subscript g c noCall false start t s = .ok (some (t', true), s'))
      (hmore : Accesses noCall start n t' s' t'' s'') :
      Accesses noCall start (n + 1) t s t'' s''

/-- An operand that is read to its last token, whatever follows it: `t` stands between the tokens at
hand in `s₀` and in `s`. -/
inductive ReadsOperand (s₀ : State) (t : Tree) (s : State) : Prop
  /-- A name, a literal, something in brackets or an arrow function. -/
  | plain (hread : primary g c s₀ = .ok (t, s))
  | accessed {first first' : Tree} {s₁ s₂ : State} {n : Nat}
      (hread : primary g c s₀ = .ok (first, s₁)) (harrow : isArrow first = false)
      (htypes : instantiated g c s₀.token.span.start first s₁ = .ok (first', s₂))
      (hmore : Accesses g c true s₀.token.span.start n first' s₂ t s)
      (hcount : n ≤ s₂.here.length)
  | called {callee call : Tree} {types : List Tree} {s₁ s₂ s₃ : State} {n : Nat}
      (hread : constructExpr g c s₀ = .ok (callee, s₁)) (harrow : isArrow callee = false)
      (htypes : callTypes g c s₁ = .ok (types, s₂)) (hparen : s₂.token.lexeme = .mark .lparen)
      (hcall : callRest g c s₀.token.span.start callee false types s₂ = .ok (call, s₃))
      (hmore : Accesses g c false s₀.token.span.start n call s₃ t s)
      (hcount : n ≤ s₃.here.length)

def Lexeme.startsOperand : Lexeme → Bool
  | .word _ none | .word _ (some .kThis) | .word _ (some .kNull) | .word _ (some .kTrue)
  | .word _ (some .kFalse) => true
  | .privateName _ | .string _ | .number _ | .bigInteger | .template _ _ => true
  | .mark .lparen | .mark .lbracket | .mark .lbrace => true
  | _ => false

end

section
variable {g : Grammar} {c : Context} {s₀ s : State} {t : Tree}

theorem Lexeme.plain_of_startsOperand (h : l.startsOperand = true) :
    unaryOperator? l = none ∧ l.isMark .plusPlus = false ∧ l.isMark .minusMinus = false ∧
      l.isKeyword .kAwait = false ∧ l.isMark .lt = false ∧ l.isKeyword .kYield = false := by
  unfold Lexeme.startsOperand at h
  split at h
  all_goals first | exact ⟨rfl, rfl, rfl, rfl, rfl, rfl⟩ | cases h

section
variable (h : Accesses g c noCall start n t s t' s') (hstop : s'.Ends)
  (ht' : isBareCallee t' = false)
include h hstop ht'

theorem Accesses.run_iterateAtMost (hp : ∀ t, p (t, true) = subscript g c noCall false start t)
    {bound : Nat} (hn : n < bound) :
    iterateAtMost p bound (t, true) s = .ok ((t', true), s') := by
  induction h generalizing bound with
  | refl t s =>
    obtain ⟨bound, rfl⟩ := Nat.exists_eq_succ_of_ne_zero (Nat.ne_of_gt hn)
    rw [iterateAtMost, hp, run_bind (subscript_stops g c start hstop ht' noCall false)]
    rfl
  | step hread _ ih =>
    obtain ⟨bound, rfl⟩ := Nat.exists_eq_succ_of_ne_zero (Nat.ne_of_gt (Nat.zero_lt_of_lt hn))
    rw [iterateAtMost, hp, run_bind hread]
    exact ih hstop ht' (Nat.lt_of_succ_lt_succ hn)

theorem Accesses.run_iterate (hp : ∀ t, p (t, true) = subscript g c noCall false start t)
    (hn : n ≤ s.here.length) : iterate p (t, true) s = .ok ((t', true), s') :=
  h.run_iterateAtMost hstop ht' hp (by omega)

/-- Accesses go on to where the expression ends. -/
theorem Accesses.run_subscripts (hn : n ≤ s.here.length) :
    subscripts g c noCall false start t s = .ok (t', s') := by
  refine (run_bind (h.run_iterate hstop ht' ?_ hn)).trans rfl
  intro t
  rfl

end

theorem constructExpr_of_operand (hstart : s₀.token.lexeme.startsOperand = true) :
    constructExpr g c s₀ = (do
      let object ← primary g c
      if isArrow object then return object
      let object ← instantiated g c s₀.token.span.start object
      subscripts g c true false s₀.token.span.start object : Parser Tree) s₀ := by
  rw [constructExpr, run_bind run_position, run_bind run_lexeme]
  cases hl : s₀.token.lexeme with
  | word text keyword =>
    rw [hl] at hstart
    rcases keyword with _ | keyword
    · rfl
    · cases keyword with
      | kNew | kSuper | kImport => cases hstart
      | _ => rfl
  | _ => rfl

theorem leftHandSide_of_operand (hstart : s₀.token.lexeme.startsOperand = true) :
    leftHandSide g c s₀ = (do
      let callee ← constructExpr g c
      if isArrow callee then return callee
      let types ← callTypes g c
      if ← atMark .lparen then
        let call ← callRest g c s₀.token.span.start callee false types
        subscripts g c false false s₀.token.span.start call
      else return callee : Parser Tree) s₀ := by
  rw [leftHandSide, run_bind run_position, run_bind run_lexeme]
  cases hl : s₀.token.lexeme with
  | word text keyword =>
    rw [hl] at hstart
    rcases keyword with _ | keyword
    · rfl
    · cases keyword with
      | kSuper | kImport => cases hstart
      | _ => rfl
  | _ => rfl

section
variable (hstop : s.Ends)
include hstop

theorem run_leftHandSide_of_construct (hstart : s₀.token.lexeme.startsOperand = true)
    (hread : constructExpr g c s₀ = .ok (t, s)) : leftHandSide g c s₀ = .ok (t, s) := by
  rw [leftHandSide_of_operand hstart, run_bind hread]
  by_cases harrow : isArrow t = true
  · rw [if_pos harrow]
    rfl
  · rw [if_neg harrow, run_bind (callTypes_stops g c hstop), run_bind (run_atMark _),
      hstop.isMark rfl]
    rfl

/-- No operator stands in front of an operand that starts so, and none stands behind it. -/
theorem run_unaryExpr_of_leftHandSide (hstart : s₀.token.lexeme.startsOperand = true)
    (hread : leftHandSide g c s₀ = .ok (t, s)) : unaryExpr g c s₀ = .ok (t, s) := by
  have hpost : postfixed g c s₀ = .ok (t, s) := by
    rw [postfixed, run_bind hread, run_bind run_afterBreak]
    by_cases hdone : (isArrow t || s.token.breakBefore) = true
    · rw [if_pos hdone]
      rfl
    · rw [if_neg hdone, run_bind run_lexeme]
      have hline : s.token.lexeme.joinsOnLine = false :=
        Bool.eq_false_iff.2 fun hline => hdone (by rw [hstop.onLine hline, Bool.or_true])
      cases hl : s.token.lexeme with
      | mark m =>
        rw [hl] at hline
        cases m with
        | plusPlus | minusMinus => cases hline
        | _ => rfl
      | _ => rfl
  obtain ⟨hunary, hup, hdown, hawait, hlt, -⟩ := Lexeme.plain_of_startsOperand hstart
  rw [unaryExpr, run_bind run_position, run_bind run_lexeme, hunary]
  simp only [hup, hdown, hawait, hlt, Bool.or_false, Bool.false_eq_true, if_false]
  exact hpost

theorem run_conditionalExpr_of_unary (hread : unaryExpr g c s₀ = .ok (t, s)) :
    conditionalExpr g.step c s₀ = .ok (t, s) := by
  have hunary : recover (g.step.unary c) s₀ = .ok (some t, s) := run_recover hread
  have hbinary : binaryExpr g.step c s₀ = .ok (t, s) := by
    rw [binaryExpr, run_bind run_position, run_bind hunary]
    by_cases harrow : isArrow t = true
    · simp only [harrow, if_true]
      rfl
    · simp only [harrow]
      exact binaryRest_stops g c hstop 0
  rw [conditionalExpr, run_bind run_position, run_bind hbinary]
  by_cases harrow : isArrow t = true
  · simp only [harrow, if_true]
    rfl
  · simp only [harrow]
    exact run_bind (run_eat_of_not (hstop.isMark rfl))

/-- An operand without a call at its end is read to its end. -/
theorem ReadsOperand.run_leftHandSide (h : ReadsOperand g c s₀ t s)
    (hstart : s₀.token.lexeme.startsOperand = true) (ht : isBareCallee t = false) :
    leftHandSide g c s₀ = .ok (t, s) := by
  cases h with
  | plain hread =>
    refine run_leftHandSide_of_construct hstop hstart ?_
    rw [constructExpr_of_operand hstart, run_bind hread]
    by_cases harrow : isArrow t = true
    · rw [if_pos harrow]
      rfl
    · rw [if_neg harrow, run_bind (run_instantiated g c _ t (hstop.isMark rfl))]
      exact (Accesses.refl t s).run_subscripts hstop ht (Nat.zero_le _)
  | accessed hread harrow htypes hmore hcount =>
    refine run_leftHandSide_of_construct hstop hstart ?_
    rw [constructExpr_of_operand hstart, run_bind hread, if_neg (by simp [harrow]), run_bind htypes]
    exact hmore.run_subscripts hstop ht hcount
  | called hread harrow htypes hparen hcall hmore hcount =>
    rw [leftHandSide_of_operand hstart, run_bind hread, if_neg (by simp [harrow]), run_bind htypes,
      run_bind (run_atMark _), hparen,
      if_pos (show (Lexeme.mark .lparen).isMark .lparen = true from rfl), run_bind hcall]
    exact hmore.run_subscripts hstop ht hcount

end

/-- The state in which an expression is read: what starts it may turn out to be parameters. -/
def State.atExpression (s : State) : State :=
  { s with
    arrowAt := if s.token.lexeme.startsParameters then some s.token.span.start else none }

def Kind.isComposed : Kind → Bool
  | .arrow _ | .conditional | .binary _ | .unary _ | .updated _ => true
  | _ => false

/-- An expression from its first operand on: what is assigned to it, if anything is. -/
theorem run_assignmentExpr {left : Tree} {s₁ : State}
    (hstart : s₀.token.lexeme.startsOperand = true)
    (hleft : conditionalExpr g c s₀.atExpression = .ok (left, s₁))
    (hrest : assignmentRest g c s₀.token.span.start left s₁ = .ok (t, s))
    (hsame : left.kind.isComposed = true → t = left ∧ s = s₁) :
    assignmentExpr g c s₀ = .ok (t, s) := by
  obtain ⟨-, -, -, -, hlt, hyield⟩ := Lexeme.plain_of_startsOperand hstart
  have hplain : plainAssignment g c s₀ = .ok (t, s) := by
    rw [plainAssignment, run_bind (run_atKeyword _), hyield, Bool.and_false,
      if_neg Bool.false_ne_true, run_bind run_position, run_bind run_lexeme,
      run_bind (run_modify _)]
    change (conditionalExpr g c >>= _) s₀.atExpression = _
    rw [run_bind hleft]
    cases hkind : left.kind with
    | arrow | conditional | binary | unary | updated =>
      obtain ⟨rfl, rfl⟩ := hsame (by rw [hkind]; rfl)
      rfl
    | _ => exact hrest
  rw [assignmentExpr, run_bind (run_atMark _), hlt]
  exact hplain

/-- An operand is a whole expression where it ends and nothing is assigned to it. -/
theorem ReadsOperand.run_assign (h : ReadsOperand g c s₀.atExpression t s) (hstop : s.Ends)
    (hassign : ∀ m, s.token.lexeme = .mark m → m.isAssignment = false)
    (hstart : s₀.token.lexeme.startsOperand = true) (ht : isBareCallee t = false) :
    g.step.step.assign c s₀ = .ok (t, s) :=
  run_assignmentExpr hstart
    (run_conditionalExpr_of_unary hstop
      (run_unaryExpr_of_leftHandSide hstop hstart (h.run_leftHandSide hstop hstart ht)))
    (run_assignmentRest_of_not _ c _ hassign) fun _ => ⟨rfl, rfl⟩

end

end Revue.Syntax
