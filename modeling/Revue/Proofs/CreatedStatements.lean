import Revue.Proofs.ClassSteps
import Revue.Proofs.StatementEnds
import Revue.Proofs.PreservedFragments
import Revue.Proofs.PropsScope

/-!
# The statements of the `created` hook

The statements that a constructor leaves are written below each other, as they were. One that ended
with its line, or before a statement that is left out, ends at the line break if the next one does
not start with a token that goes on with it; so the hook is read as one statement for each.
-/

namespace Revue.Syntax
open Text Source

variable {kind : Kind} {s₁ s₂ : State} {word : String} {keyword : Keyword} {parts : List Tree}

/-! ### Statements that are read to their end -/

section
variable (k : Grammar) (c : Context)

/-- An expression that is read to its last token, whatever follows it: an operand, or one that is
assigned to a name or a member. -/
inductive ReadsExpression (s₀ : State) : Tree → State → Prop
  | operand {t : Tree} {s : State} (hstart : s₀.token.lexeme.startsOperand = true)
      (hread : ReadsOperand k.step c s₀.atExpression t s) (ht : isBareCallee t = false) :
      ReadsExpression s₀ t s
  | assignment {left right : Tree} {s₁ s₂ s : State}
      (hstart : s₀.token.lexeme.startsOperand = true)
      (hleft : conditionalExpr k.step.step c s₀.atExpression = .ok (left, s₁))
      (hkind : left.kind = .member ∨ ∃ name, left.kind = .name name)
      (heq : s₁.token.lexeme = .mark .eq) (hskip : skip s₁ = .ok ((), s₂))
      (hright : s₂.token.lexeme.startsOperand = true)
      (hread : ReadsOperand k c s₂.atExpression right s) (ht : isBareCallee right = false) :
      ReadsExpression s₀ (.node .item (.assign "=") ⟨s₀.token.span.start, s.prevEnd⟩
        [left.as .left, right.as .right]) s

/-- Whether the word at hand declares variables. -/
def State.declares (s : State) : Bool :=
  let next := (s.advance .script).token.lexeme
  match s.token.lexeme with
  | .word _ (some .kVar) => true
  | .word _ (some .kConst) => !next.isKeyword .kEnum
  | .word _ (some .kLet) => next.isIdentifier || next.isMark .lbrace || next.isMark .lbracket
  | _ => false

/-- A statement that is read to its last token, whatever follows it, with its kind and its parts: an
expression, or the declaration of a variable with its value. -/
inductive ReadsStatement (s₀ : State) : Kind → List Tree → State → Prop
  | expression {t : Tree} {s : State} (hbrace : s₀.token.lexeme ≠ .mark .lbrace)
      (hread : ReadsExpression k c.inStatement.bracketed s₀ t s) :
      ReadsStatement s₀ .expressionStatement [t.as .operand] s
  | declaration {word : String} {keyword : Keyword} {target target' value : Tree}
      {s₁ s₂ s₃ s₄ s : State} (hdeclares : s₀.declares = true)
      (hword : s₀.token.lexeme = .word word (some keyword)) (hskip : skip s₀ = .ok ((), s₁))
      (hname : (s₁.token.lexeme.isMark .semi || s₁.token.lexeme == .eof) = false)
      (htarget : k.step.step.step.pattern c.inStatement.bracketed s₁ = .ok (target, s₂))
      (hbang : s₂.token.lexeme.isMark .bang = false)
      (htype : annotated k.step.step.step c.inStatement.bracketed s₁.token.span.start target s₂ =
        .ok (target', s₃))
      (heq : s₃.token.lexeme = .mark .eq) (hskip' : skip s₃ = .ok ((), s₄))
      (hvalue : ReadsExpression k c.inStatement.bracketed s₄ value s) :
      ReadsStatement s₀ (.variables word)
        [.node .declarator .declarator ⟨s₁.token.span.start, s.prevEnd⟩
          [target'.as .name, value.as .initializer]] s

end

/-- How a statement ends whose last expression leaves off at `s`: with the semicolon there, or at
the line break behind its last token, if the expression does not go on with the token that follows.
The next statement starts at `s'`. -/
inductive EndsStatement (rest : List Char) : State → State → Prop
  | semicolon {s : State} (hsemi : s.token.lexeme = .mark .semi)
      (hnext : (s.advance .script).isBroken = false) : EndsStatement rest s (s.advance .script)
  | lineBreak {s last : State} {gap : List Char} (hgap : isGap gap = true)
      (hrest : last.rest = gap ++ '\n' :: rest)
      (htoken : s.token = (last.advance .script).token)
      (hends : s.token.lexeme.endsExpression = true)
      (hnext : (s.advance .script).isBroken = false) : EndsStatement rest s s

section
variable {k g : Grammar} {c : Context} {s₀ s s' : State} {t : Tree} {rest : List Char}

theorem EndsStatement.stops (h : EndsStatement rest s s') : s.Stops := by
  cases h with
  | semicolon hsemi hnext => exact ⟨.inl hsemi, hnext⟩
  | lineBreak hgap hrest htoken hends hnext =>
    have hbreak := State.breakBefore_advance hgap hrest .script
    exact ⟨.inr ⟨htoken ▸ hbreak, hends⟩, hnext⟩

/-- A statement may end behind a line break. -/
theorem run_eatEnding_of_break (hbreak : s.token.breakBefore = true)
    (hsemi : s.token.lexeme.isMark .semi = false) : eatEnding s = .ok (true, s) := by
  have hending : atEnding s = .ok (true, s) := by
    rw [atEnding, run_bind run_lexeme, run_bind run_afterBreak, hbreak, Bool.or_true]
    rfl
  exact (run_bind (run_eat_of_not hsemi)).trans hending

theorem EndsStatement.run_eatEnding (h : EndsStatement rest s s') :
    eatEnding s = .ok (true, s') := by
  cases h with
  | semicolon hsemi hnext =>
    exact run_bind (run_eat_of_mark hsemi (run_skip hnext))
  | lineBreak hgap hrest htoken hends hnext =>
    have hbreak := State.breakBefore_advance hgap hrest .script
    refine run_eatEnding_of_break (htoken ▸ hbreak) ?_
    refine Bool.eq_false_iff.2 fun hsemi => ?_
    rw [eq_mark_of_isMark hsemi] at hends
    cases hends

/-- The value that is assigned is read behind the equals sign. -/
theorem run_assignmentRest {left right : Tree} (start : Nat)
    (hkind : left.kind = .member ∨ ∃ name, left.kind = .name name)
    (heq : s₁.token.lexeme = .mark .eq) (hskip : skip s₁ = .ok ((), s₂))
    (hright : g.assign c s₂ = .ok (right, s)) :
    assignmentRest g c start left s₁ = .ok (.node .item (.assign "=") ⟨start, s.prevEnd⟩
      [left.as .left, right.as .right], s) := by
  have htarget : asPattern .target left = pure left := by
    obtain ⟨role, kind, span, parts⟩ := left
    rcases hkind with rfl | ⟨name, rfl⟩ <;> rfl
  have hsimple : left.kind.isTarget = true := by
    rcases hkind with hkind | ⟨name, hkind⟩ <;> rw [hkind] <;> rfl
  rw [assignmentRest, run_bind run_lexeme, heq]
  change (asPattern .target left >>= _) s₁ = _
  rw [htarget, pure_bind]
  simp only [beq_self_eq_true, Bool.not_true, Bool.false_and, Bool.false_eq_true, if_false, if_true,
    hsimple]
  rw [run_bind hskip, run_bind hright]
  rfl

/-- An expression that is read to its last token is read as a whole where it ends. -/
theorem ReadsExpression.run_assign (h : ReadsExpression k c s₀ t s) (hstop : s.Stops) :
    k.step.step.step.assign c s₀ = .ok (t, s) := by
  cases h with
  | operand hstart hread ht => exact hread.run_assign hstop.ends hstop.isAssignment hstart ht
  | @assignment left right s₁ s₂ _ hstart hleft hkind heq hskip hright hread ht =>
    have hvalue : k.step.step.assign c s₂ = .ok (right, s) :=
      hread.run_assign hstop.ends hstop.isAssignment hright ht
    refine run_assignmentExpr hstart hleft
      (run_assignmentRest s₀.token.span.start hkind heq hskip hvalue) fun hcomposed => ?_
    rcases hkind with hkind | ⟨name, hkind⟩ <;> rw [hkind] at hcomposed <;> cases hcomposed

/-- An expression with no comma behind it. -/
theorem run_expression (hread : g.assign c s₀ = .ok (t, s)) (hstop : s.Stops) :
    expression g c s₀ = .ok (t, s) := by
  rw [expression, run_bind run_position, run_bind hread, run_bind (run_atMark _), hstop.isMark rfl]
  rfl

theorem run_expressionStatement (start : Nat) (hread : g.assign c.bracketed s₀ = .ok (t, s))
    (hstop : s.Stops) (hend : eatEnding s = .ok (true, s')) :
    expressionStatement g c start s₀ =
      .ok (.node .item .expressionStatement ⟨start, s'.prevEnd⟩ [t.as .operand], s') := by
  have hlabel (isName : Bool) : guarded isName (eat .colon) s = .ok (false, s) := by
    cases isName with
    | false => rfl
    | true => exact hstop.run_eat rfl
  have hinterface (isName : Bool) :
      guarded isName (eatKeyword .kInterface) s = .ok (false, s) := by
    cases isName with
    | false => rfl
    | true =>
      have hkeyword : s.token.lexeme.isKeyword .kInterface = false :=
        hstop.isKeyword fun _ => rfl
      change eatKeyword .kInterface s = _
      rw [eatKeyword, run_bind (run_atKeyword _), hkeyword]
      rfl
  rw [expressionStatement, run_bind (run_expression hread hstop), run_bind (hlabel _)]
  simp only [Bool.false_eq_true, if_false]
  rw [run_bind (hinterface _)]
  simp only [Bool.false_eq_true, if_false]
  rw [run_bind hend]
  rfl

theorem run_declarator (word : String) {target target' value : Tree} {s₃ s₄ : State}
    (htarget : g.pattern c s₀ = .ok (target, s₂)) (hbang : s₂.token.lexeme.isMark .bang = false)
    (htype : annotated g c s₀.token.span.start target s₂ = .ok (target', s₃))
    (heq : s₃.token.lexeme = .mark .eq) (hskip : skip s₃ = .ok ((), s₄))
    (hvalue : g.assign c s₄ = .ok (value, s)) :
    declarator g c false word s₀ = .ok (.node .item .declarator
      ⟨s₀.token.span.start, s.prevEnd⟩ [target'.as .name, value.as .initializer], s) := by
  rw [declarator, run_bind run_position, run_bind htarget]
  generalize target.name?.isSome = isName
  -- A name may have an exclamation mark behind it, which is not there.
  cases isName
  case' true =>
    change (eat .bang >>= _) s₂ = _
    rw [run_bind (run_eat_of_not hbang)]
  all_goals
    change (annotated g c s₀.token.span.start target >>= _) s₂ = _
    rw [run_bind htype, run_bind (run_atKeyword _), run_bind (run_atKeyword _)]
    change (eat .eq >>= _) s₃ = _
    rw [run_bind (run_eat_of_mark heq hskip)]
    simp only [if_true]
    rw [run_bind hvalue]
    rfl

theorem run_variablesDef {keyword : Option Keyword} {name : Tree} (start : Nat)
    (hword : s₀.token.lexeme = .word word keyword) (hskip : skip s₀ = .ok ((), s₁))
    (hname : (s₁.token.lexeme.isMark .semi || s₁.token.lexeme == .eof) = false)
    (hread : declarator g c false word s₁ = .ok (name, s)) (hstop : s.Stops)
    (hend : eatEnding s = .ok (true, s')) :
    variablesDef g c start false s₀ =
      .ok (.node .item (.variables word) ⟨start, s'.prevEnd⟩ [name.as .declarator], s') := by
  have hnames : declarators g c false word s₁ = .ok ([name.as .declarator], s) := by
    refine (run_bind (iterate_of_some
      (show _ = Except.ok (some ([name.as .declarator], false), s) from ?_) ?_)).trans rfl
    · change (lexeme >>= _) s₁ = _
      rw [run_bind run_lexeme]
      simp only [Bool.not_true, Bool.false_or, hname, Bool.false_eq_true, if_false]
      rw [run_bind hread, run_bind (hstop.run_eat rfl)]
      rfl
    · rfl
  rw [variablesDef, run_bind run_lexeme, hword]
  change (skip >>= _) s₀ = _
  have hloop : guarded false (lacksVariable g c) s₁ = .ok (false, s₁) := rfl
  rw [run_bind hskip, run_bind hloop]
  simp only [Bool.false_eq_true, if_false]
  rw [run_bind hnames, run_bind hend]
  rfl

theorem ReadsExpression.startsOperand (h : ReadsExpression k c s₀ t s) :
    s₀.token.lexeme.startsOperand = true := by
  cases h with
  | operand hstart => exact hstart
  | assignment hstart => exact hstart

theorem run_peek_of_skip {u : Unit} (h : skip s = .ok (u, s')) :
    peek s = .ok ((s.advance .script).token, s) := by
  have hnext : (s.advance .script).isBroken = false := by
    refine Bool.eq_false_iff.2 fun hbroken => ?_
    rw [skip, goOn, if_pos hbroken] at h
    cases h
  simp [peek, hnext]

theorem run_decorators {p : Parser Tree} (hmark : s.token.lexeme.isMark .atSign = false) :
    decorators p s = .ok ([], s) := by
  refine many_of_none ?_
  rw [run_bind (run_atMark _), hmark]
  rfl

theorem run_statementOf_of_word (hword : s.token.lexeme = .word word (some keyword))
    (mayDeclare : Bool) :
    statementOf g c mayDeclare s =
      keywordStatement g c.inStatement keyword s.token.span.start [] mayDeclare s := by
  have hmark : s.token.lexeme.isMark .atSign = false := by
    rw [hword]
    rfl
  rw [statementOf, run_bind run_position, run_bind (run_decorators hmark), run_bind run_lexeme,
    hword]

/-- What starts with an operand is an expression, unless it is a block. -/
theorem run_statementOf_of_startsOperand (hstart : s.token.lexeme.startsOperand = true)
    (hbrace : s.token.lexeme ≠ .mark .lbrace) (mayDeclare : Bool) :
    statementOf g c mayDeclare s =
      expressionStatement g c.inStatement s.token.span.start s := by
  have hmark : s.token.lexeme.isMark .atSign = false := by
    refine Bool.eq_false_iff.2 fun hmark => ?_
    rw [eq_mark_of_isMark hmark] at hstart
    cases hstart
  rw [statementOf, run_bind run_position, run_bind (run_decorators hmark), run_bind run_lexeme]
  cases hl : s.token.lexeme with
  | word word keyword =>
    rw [hl] at hstart
    rcases keyword with _ | keyword
    · rfl
    · cases keyword with
      | kThis | kNull | kTrue | kFalse => rfl
      | _ => cases hstart
  | mark m =>
    rw [hl] at hstart
    cases m with
    | lbrace => exact absurd hl hbrace
    | lparen | lbracket => rfl
    | _ => cases hstart
  | _ => rfl

theorem run_keywordStatement_of_declares (start : Nat) (hdeclares : s₀.declares = true)
    (hword : s₀.token.lexeme = .word word (some keyword)) (hskip : skip s₀ = .ok ((), s₁)) :
    keywordStatement g c keyword start [] true s₀ = variablesDef g c.bracketed start false s₀ := by
  have hpeek := run_peek_of_skip hskip
  unfold State.declares at hdeclares
  rw [hword] at hdeclares
  cases keyword with
  | kVar => rfl
  | kConst =>
    have henum : peekKeyword .kEnum s₀ = .ok (false, s₀) := by
      have hkeyword : (s₀.advance .script).token.lexeme.isKeyword .kEnum = false := by
        simpa using hdeclares
      rw [peekKeyword, run_bind hpeek, hkeyword]
      rfl
    exact run_bind henum
  | kLet =>
    have hlet : atLetDeclaration s₀ = .ok (true, s₀) := by
      rw [atLetDeclaration, run_bind (run_atKeyword _), hword]
      change (peek >>= _) s₀ = _
      rw [run_bind hpeek]
      exact congrArg (fun b => Except.ok (b, s₀)) hdeclares
    exact run_bind hlet
  | _ => cases hdeclares

/-- A statement that is read to its last token is read as a whole where a statement ends. -/
theorem ReadsStatement.run_statement (h : ReadsStatement k c s₀ kind parts s) (hstop : s.Stops)
    (hend : eatEnding s = .ok (true, s')) :
    (Grammar.stack 4 k).statement c true s₀ =
      .ok (.node .item kind ⟨s₀.token.span.start, s'.prevEnd⟩ parts, s') := by
  change statementOf k.step.step.step c true s₀ = _
  cases h with
  | expression hbrace hread =>
    exact (run_statementOf_of_startsOperand hread.startsOperand hbrace true).trans
      (run_expressionStatement _ (hread.run_assign hstop) hstop hend)
  | declaration hdeclares hword hskip hname htarget hbang htype heq hskip' hvalue =>
    have hread := fun word =>
      run_declarator word htarget hbang htype heq hskip' (hvalue.run_assign hstop)
    rw [run_statementOf_of_word hword, run_keywordStatement_of_declares _ hdeclares hword hskip]
    exact run_variablesDef _ hword hskip hname (hread _) hstop hend

/-- A statement does not start with the brace that closes a block. -/
theorem ReadsStatement.not_rbrace (h : ReadsStatement k c s₀ kind parts s) :
    s₀.token.lexeme.isMark .rbrace = false := by
  refine Bool.eq_false_iff.2 fun hmark => ?_
  have hl := eq_mark_of_isMark hmark
  cases h with
  | expression hbrace hread =>
    have hstart := hread.startsOperand
    rw [hl] at hstart
    cases hstart
  | declaration hdeclares hword =>
    rw [hl] at hword
    cases hword

end

/-! ### Statements below each other -/

def stacked (texts : List (List Char)) (tail : List Char) : List Char :=
  texts.foldr (fun text rest => text ++ '\n' :: rest) tail

theorem stacked_cons (text : List Char) (texts : List (List Char)) (tail : List Char) :
    stacked (text :: texts) tail = text ++ '\n' :: stacked texts tail := rfl

theorem stacked_eq {texts : List (List Char)} (h : texts ≠ []) (tail : List Char) :
    stacked texts tail = joinWith ['\n'] texts ++ '\n' :: tail := by
  induction texts with
  | nil => exact absurd rfl h
  | cons text texts ih =>
    cases texts with
    | nil => rfl
    | cons next texts =>
      rw [stacked_cons, ih (List.cons_ne_nil _ _), Vue.joinWith_cons_cons]
      simp

theorem length_le_stacked (texts : List (List Char)) (tail : List Char) :
    texts.length ≤ (stacked texts tail).length := by
  induction texts with
  | nil => exact Nat.zero_le _
  | cons text texts ih =>
    rw [stacked_cons, List.length_append, List.length_cons, List.length_cons]
    omega

/-- Texts below each other, up to the brace that closes their block, that are read one statement
each: every text starts with the first token of its statement, and every statement ends. -/
inductive ReadsTexts (k : Grammar) (c : Context) (tail : List Char) :
    List (List Char) → State → List Tree → State → Prop
  | nil {s : State} (hclose : s.token.lexeme = .mark .rbrace) : ReadsTexts k c tail [] s [] s
  | cons {text : List Char} {texts : List (List Char)} {kind : Kind} {parts ts : List Tree}
      {s s₁ s' s'' : State} (hhere : s.here = text ++ '\n' :: stacked texts tail)
      (hread : ReadsStatement k c s kind parts s₁)
      (hend : EndsStatement (stacked texts tail) s₁ s')
      (hmore : ReadsTexts k c tail texts s' ts s'') :
      ReadsTexts k c tail (text :: texts) s
        (.node .item kind ⟨s.token.span.start, s'.prevEnd⟩ parts :: ts) s''

namespace ReadsTexts
variable {k : Grammar} {c : Context} {tail : List Char} {texts : List (List Char)} {s s' : State}
  {ts : List Tree}

theorem length_eq (h : ReadsTexts k c tail texts s ts s') : ts.length = texts.length := by
  induction h with
  | nil => rfl
  | cons _ _ _ _ ih => exact congrArg Nat.succ ih

theorem here_eq (h : ReadsTexts k c tail texts s ts s') (hne : texts ≠ []) :
    s.here = joinWith ['\n'] texts ++ '\n' :: tail := by
  rw [← stacked_eq hne]
  cases h with
  | nil => exact absurd rfl hne
  | cons hhere => exact hhere

/-- Each text is read as one statement, as long as no more are asked for than the text is long. -/
theorem run_repeatAtMost (h : ReadsTexts k c tail texts s ts s') {p : Parser (Option Tree)}
    (hdone : ∀ s, s.token.lexeme.isMark .rbrace = true → p s = .ok (none, s))
    (hstep : ∀ s t s', s.token.lexeme.isMark .rbrace = false →
      (Grammar.stack 4 k).statement c true s = .ok (t, s') →
      p s = .ok (some (t.as .statement), s'))
    {bound : Nat} (hbound : texts.length < bound) :
    repeatAtMost p bound s = .ok (ts.map (·.as .statement), s') := by
  obtain ⟨bound, rfl⟩ := Nat.exists_eq_succ_of_ne_zero (Nat.ne_of_gt (Nat.zero_lt_of_lt hbound))
  induction h generalizing bound with
  | nil hclose =>
    have hmark : (Lexeme.mark .rbrace).isMark .rbrace = true := rfl
    rw [repeatAtMost, run_bind (hdone _ (hclose ▸ hmark))]
    rfl
  | @cons text texts kind parts ts s s₁ s' s'' hhere hread hend hmore ih =>
    have hone := hstep _ _ _ hread.not_rbrace (hread.run_statement hend.stops hend.run_eatEnding)
    obtain ⟨bound, rfl⟩ : ∃ b, bound = b + 1 :=
      Nat.exists_eq_succ_of_ne_zero fun hzero => by simp [hzero] at hbound
    rw [repeatAtMost, run_bind hone]
    change (repeatAtMost p (bound + 1) >>= _) s' = _
    rw [run_bind (ih bound (Nat.lt_of_succ_lt_succ hbound))]
    rfl

/-- Texts below each other are read as one statement each. -/
theorem run_statements (h : ReadsTexts k c tail texts s ts s') :
    statements (Grammar.stack 4 k) c s = .ok (ts.map (·.as .statement), s') := by
  have hbound : texts.length < s.here.length + 2 := by
    cases h with
    | nil => exact Nat.succ_pos _
    | @cons text texts kind parts ts s s₁ s' s'' hhere =>
      have hle := length_le_stacked (text :: texts) tail
      rw [hhere, ← stacked_cons]
      omega
  refine h.run_repeatAtMost (fun s hmark => ?_) (fun s t s' hmark hread => ?_) hbound
  · rw [run_bind (run_atMark _), hmark]
    rfl
  · rw [run_bind (run_atMark _), hmark]
    exact run_bind hread

end ReadsTexts

end Revue.Syntax

namespace Revue.Analysis
open Text Component Syntax

variable {t : Tree} {d' : ClassDraft}

/-! ### What is kept -/

def fieldAssignment? (r : Reading) (t : Tree) : Option Fragment := do
  let name ← (t.get? .key).bind keyName?
  let value ← t.get? .value
  if name = "state" then none
  else some ((fragmentOf r (.classMember none) value).wrapped ("this." ++ name ++ " = ") ";")

/-- What a member of a class leaves to run when an instance is made. -/
def keptOfMember (r : Reading) (t : Tree) : List Fragment :=
  match t.kind with
  | .constructorDef _ =>
    (createdAmong (constructorStatements t)).map
      (keptStatement r (.classMember (constructorProps? t)))
  | .field flags =>
    if flags.isStatic || (privateKey? t).isSome then [] else (fieldAssignment? r t).toList
  | _ => []

section
variable (r : Reading) (d : ClassDraft)

theorem keptOfMember_of_isDropped (h : isDropped t = true) : keptOfMember r t = [] := by
  unfold isDropped at h
  unfold keptOfMember
  split at h
  · cases h
  · rename_i hkind
    rw [hkind]
  · rename_i flags hkind
    simp only [Bool.or_eq_true, Bool.and_eq_true, Option.isNone_iff_eq_none] at h
    rcases h with (hkey | hvalue) | ⟨hstatic, -⟩
    · simp [hkind, fieldAssignment?, hkey]
    · simp [hkind, fieldAssignment?, hvalue]
    · simp [hkind, hstatic]
  · rename_i hconstructor _ hfield
    split
    · rename_i hkind
      exact absurd hkind (hconstructor _)
    · rename_i hkind
      exact absurd hkind (hfield _)
    · rfl

theorem Noted.created {d : ClassDraft} (h : Noted d d') : d'.created = d.created := by
  cases h <;> rfl

theorem MemberStep.created {r : Reading} {component : String} {d : ClassDraft}
    (h : MemberStep r component d t d') : d'.created = d.created ++ keptOfMember r t := by
  cases h with
  | constructorDef hkind =>
    rw [keptOfMember, hkind]
    exact (adds_addConstructor r d t).created
  | dropped hdropped hnoted =>
    rw [keptOfMember_of_isDropped r hdropped, List.append_nil, hnoted.created]
  | method hkind _ hnoted =>
    rw [keptOfMember, hkind, List.append_nil]
    exact hnoted.created
  | static hkind hstatic => simp [keptOfMember, hkind, hstatic]
  | @field _ name value hkind hstatic hkey hvalue =>
    have hpublic : privateKey? t = none := by
      refine Option.eq_none_iff_forall_ne_some.2 fun other hother => ?_
      rw [keyName?_of_privateKey? hother] at hkey
      cases hkey
    unfold addInstanceField
    by_cases hstate : name = "state" <;>
      simp [keptOfMember, fieldAssignment?, hkind, hstatic, hpublic, hkey, hvalue, hstate,
        ClassDraft.addUpdaters]

/-- A class leaves what its constructor and its fields do to each instance, in their order. -/
theorem created_addClass (m : Model) (name : String) (t : Tree) (isNested : Bool) :
    (addClass r m name t isNested).classComponent.map (·.created) =
      some ((t.all .member).flatMap (keptOfMember r)) := by
  have hmembers : ∀ (members : List Tree) (d : ClassDraft),
      (members.foldl (addClassMember r name) d).created =
        d.created ++ members.flatMap (keptOfMember r) := by
    intro members
    induction members with
    | nil => simp
    | cons t members ih =>
      intro d
      rw [List.foldl_cons, ih, (addClassMember_step r name d t).created, List.flatMap_cons,
        List.append_assoc]
  rw [addClass_eq]
  exact congrArg some (hmembers _ _)

end

end Revue.Analysis

namespace Revue.Vue
open Text Component Syntax Analysis

variable {α : Type} {s : State}

theorem length_of_mapM {β : Type} {f : α → Option β} {as : List α} {bs : List β}
    (h : as.mapM f = some bs) : bs.length = as.length :=
  (forall₂_of_mapM h).length_eq.symm

/-- The hook holds what the constructor and the fields of a class leave, and is read as one
statement for each of them if every statement ends: with a semicolon of its own, or at the line
break behind it if the next one does not start with a token that goes on with it. -/
theorem createdSection_statements (r : Reading) (m : Model) (name : String) (t : Tree)
    (isNested : Bool) {component : ClassComponent} {texts : List (List Char)}
    (hcomponent : (addClass r m name t isNested).classComponent = some component)
    (htexts : (component.created.mapM fun f => (replaceSites f).map dedentTail) = some texts)
    (hne : texts ≠ []) :
    component.created = (t.all .member).flatMap (keptOfMember r) ∧
    createdSection component = some [braced "created()".toList (joinWith ['\n'] texts)] ∧
    ∀ (k : Grammar) (c : Context) (tail : List Char) (s s' : State) (ts : List Tree),
      ReadsTexts k c tail texts s ts s' →
        s.here = joinWith ['\n'] texts ++ '\n' :: tail ∧
        statements (Grammar.stack 4 k) c s = .ok (ts.map (·.as .statement), s') ∧
        ts.length = component.created.length := by
  have hcreated := created_addClass r m name t isNested
  rw [hcomponent] at hcreated
  have hlength := length_of_mapM htexts
  refine ⟨Option.some.inj hcreated, ?_, fun k c tail s s' ts hread =>
    ⟨hread.here_eq hne, hread.run_statements, hread.length_eq.trans hlength⟩⟩
  rw [createdSection, htexts]
  cases texts with
  | nil => exact absurd rfl hne
  | cons => rfl

/-! ### Readings that can be computed -/

deriving instance DecidableEq for Token

def answers {α : Type} (p : Parser α) (s : State) (P : α → State → Bool) : Bool :=
  match p s with
  | .ok (a, s') => P a s'
  | .error _ => false

def endsAtBreak (rest : List Char) (last s : State) : Bool :=
  last.rest == '\n' :: rest && s.token == (last.advance .script).token &&
    s.token.lexeme.endsExpression && !(s.advance .script).isBroken

section
variable (k : Grammar) (c : Context) (rest : List Char) (s₀ : State) (P : State → Bool)

def readsAssignment : Bool :=
  s₀.token.lexeme.startsOperand && s₀.token.lexeme != .mark .lbrace &&
    answers (conditionalExpr k.step.step c) s₀.atExpression fun left s₁ =>
      left.kind == .member && s₁.token.lexeme == .mark .eq && answers skip s₁ fun _ s₂ =>
        s₂.token.lexeme.startsOperand && answers (primary k c) s₂.atExpression fun right s =>
          !isBareCallee right && endsAtBreak rest s₂.atExpression s && P s

def readsDeclaration : Bool :=
  s₀.declares && answers skip s₀ fun _ s₁ =>
    !(s₁.token.lexeme.isMark .semi || s₁.token.lexeme == .eof) &&
      answers (k.step.step.step.pattern c) s₁ fun target s₂ =>
        !s₂.token.lexeme.isMark .bang &&
          answers (annotated k.step.step.step c s₁.token.span.start target) s₂ fun _ s₃ =>
            s₃.token.lexeme == .mark .eq && answers skip s₃ fun _ s₄ =>
              s₄.token.lexeme.startsOperand &&
                answers (primary k.step c) s₄.atExpression fun value s =>
                  !isBareCallee value && endsAtBreak rest s₄.atExpression s && P s

end

section
variable {k : Grammar} {c : Context} {rest : List Char} {s₀ : State} {P : State → Bool}

theorem exists_of_answers {p : Parser α} {P : α → State → Bool} (h : answers p s P = true) :
    ∃ a s', p s = .ok (a, s') ∧ P a s' = true := by
  unfold answers at h
  split at h
  · rename_i a s' hrun
    exact ⟨a, s', hrun, h⟩
  · cases h

theorem endsStatement_of_endsAtBreak {last : State} (h : endsAtBreak rest last s = true) :
    EndsStatement rest s s := by
  simp only [endsAtBreak, Bool.and_eq_true, beq_iff_eq, Bool.not_eq_true'] at h
  obtain ⟨⟨⟨hrest, htoken⟩, hends⟩, hnext⟩ := h
  have hgap : isGap [] = true := by decide
  exact .lineBreak hgap hrest htoken hends hnext

theorem exists_of_readsAssignment
    (h : readsAssignment k c.inStatement.bracketed rest s₀ P = true) :
    ∃ kind parts s, ReadsStatement k c s₀ kind parts s ∧ EndsStatement rest s s ∧ P s = true := by
  simp only [readsAssignment, Bool.and_eq_true, bne_iff_ne] at h
  obtain ⟨⟨hstart, hbrace⟩, h⟩ := h
  obtain ⟨left, s₁, hleft, h⟩ := exists_of_answers h
  simp only [Bool.and_eq_true, beq_iff_eq] at h
  obtain ⟨⟨hkind, heq⟩, h⟩ := h
  obtain ⟨_, s₂, hskip, h⟩ := exists_of_answers h
  obtain ⟨hright, h⟩ := Bool.and_eq_true_iff.1 h
  obtain ⟨right, s, hread, h⟩ := exists_of_answers h
  simp only [Bool.and_eq_true, Bool.not_eq_true'] at h
  obtain ⟨⟨hbare, hends⟩, hP⟩ := h
  have hexpression : ReadsExpression k c.inStatement.bracketed s₀ _ s :=
    .assignment hstart hleft (.inl hkind) heq hskip hright (.plain hread) hbare
  exact ⟨_, _, s, .expression hbrace hexpression, endsStatement_of_endsAtBreak hends, hP⟩

theorem exists_word_of_declares (h : s₀.declares = true) :
    ∃ word keyword, s₀.token.lexeme = .word word (some keyword) := by
  unfold State.declares at h
  split at h
  · exact ⟨_, _, ‹_›⟩
  · exact ⟨_, _, ‹_›⟩
  · exact ⟨_, _, ‹_›⟩
  · cases h

theorem exists_of_readsDeclaration
    (h : readsDeclaration k c.inStatement.bracketed rest s₀ P = true) :
    ∃ kind parts s, ReadsStatement k c s₀ kind parts s ∧ EndsStatement rest s s ∧ P s = true := by
  obtain ⟨hdeclares, h⟩ := Bool.and_eq_true_iff.1 h
  obtain ⟨word, keyword, hword⟩ := exists_word_of_declares hdeclares
  obtain ⟨_, s₁, hskip, h⟩ := exists_of_answers h
  simp only [Bool.and_eq_true, Bool.not_eq_true'] at h
  obtain ⟨hname, h⟩ := h
  obtain ⟨target, s₂, htarget, h⟩ := exists_of_answers h
  simp only [Bool.and_eq_true, Bool.not_eq_true'] at h
  obtain ⟨hbang, h⟩ := h
  obtain ⟨target', s₃, htype, h⟩ := exists_of_answers h
  simp only [Bool.and_eq_true, beq_iff_eq] at h
  obtain ⟨heq, h⟩ := h
  obtain ⟨_, s₄, hskip', h⟩ := exists_of_answers h
  obtain ⟨hstart, h⟩ := Bool.and_eq_true_iff.1 h
  obtain ⟨value, s, hread, h⟩ := exists_of_answers h
  simp only [Bool.and_eq_true, Bool.not_eq_true'] at h
  obtain ⟨⟨hbare, hends⟩, hP⟩ := h
  exact ⟨_, _, s, .declaration hdeclares hword hskip hname htarget hbang htype heq hskip'
    (.operand hstart (.plain hread) hbare), endsStatement_of_endsAtBreak hends, hP⟩

end

def unterminated : String :=
  "class A \x7b constructor() \x7b const a = b\n this.f = this.f.bind(this)\n this.c = a\n " ++
    "\x7d \x7d"

def unterminatedBody : State :=
  (State.ofText "\x7bconst a = b\nthis.c = a\n\x7d".toList).advance .script

set_option maxRecDepth 100000 in
/-- Both statements are read to their ends. -/
theorem readsTexts_unterminated :
    ∃ ts s', ReadsTexts (Grammar.stack 12 .none) {} "\x7d".toList
      ["const a = b".toList, "this.c = a".toList] unterminatedBody ts s' := by
  have hreads : readsDeclaration (Grammar.stack 12 .none)
      (Context.bracketed (Context.inStatement {}))
      "this.c = a\n\x7d".toList unterminatedBody (fun s => s.here == "this.c = a\n\x7d".toList &&
        readsAssignment (Grammar.stack 12 .none) (Context.bracketed (Context.inStatement {}))
          "\x7d".toList s fun s' => s'.token.lexeme == .mark .rbrace) = true := by decide +kernel
  obtain ⟨kind, parts, s, hread, hends, h⟩ := exists_of_readsDeclaration hreads
  simp only [Bool.and_eq_true, beq_iff_eq] at h
  obtain ⟨hhere, h⟩ := h
  obtain ⟨kind', parts', s', hread', hends', h⟩ := exists_of_readsAssignment h
  obtain ⟨ts, hsecond⟩ : ∃ ts, ReadsTexts (Grammar.stack 12 .none) {} "\x7d".toList
      ["this.c = a".toList] s ts s' :=
    ⟨_, .cons hhere hread' hends' (.nil (beq_iff_eq.1 h))⟩
  exact ⟨_, s', .cons (by decide +kernel) hread hends hsecond⟩

def keptTexts? (s : Setup) : Option (List (List Char)) := do
  let t ← s.reading.module.tree.subtrees.find? (·.kind = .classDef)
  let component ← (addClass s.reading {} "A" t false).classComponent
  component.created.mapM fun f => (replaceSites f).map dedentTail

set_option maxRecDepth 100000 in
/-- Two statements without semicolons stay two, although the one between them is left out. -/
theorem createdSection_statements_unterminated :
    ∃ s m t component, ∃ (ts : List Tree) (s' : State),
      setupOf? {} unterminated = some s ∧ modelOf s = .ok m ∧
      s.reading.module.tree.subtrees.find? (·.kind = .classDef) = some t ∧
      (addClass s.reading {} "A" t false).classComponent = some component ∧
      createdSection component =
        some [braced "created()".toList "const a = b\nthis.c = a".toList] ∧
      statements (Grammar.stack 16 .none) {} unterminatedBody =
        .ok (ts.map (·.as .statement), s') ∧ ts.length = 2 := by
  obtain ⟨s, m, hsetup, hmodel, htexts⟩ := exists_of_analysis? {} unterminated
    (fun s _ => keptTexts? s = some ["const a = b".toList, "this.c = a".toList]) (by decide +kernel)
  obtain ⟨t, ht, htexts⟩ := Option.bind_eq_some_iff.1 htexts
  obtain ⟨component, hcomponent, htexts⟩ := Option.bind_eq_some_iff.1 htexts
  obtain ⟨ts, s', hread⟩ := readsTexts_unterminated
  obtain ⟨-, hsection, hstatements⟩ :=
    createdSection_statements s.reading {} "A" t false hcomponent htexts (by simp)
  obtain ⟨-, hrun, hlength⟩ := hstatements _ {} _ unterminatedBody s' ts hread
  refine ⟨s, m, t, component, ts, s', hsetup, hmodel, ht, hcomponent, hsection, hrun, ?_⟩
  rw [hlength, ← length_of_mapM htexts]
  rfl

/-- A constructor of which the statement is left out whose semicolon kept two others apart. -/
def severed : String :=
  "class A \x7b constructor(props) \x7b const a = b\n this.x = this.x.bind(this);\n " ++
    "[1, 2].forEach(f); \x7d \x7d"

set_option maxRecDepth 100000 in
/-- Where the next statement starts with a bracket, two statements become one. -/
theorem createdSection_statements_severed :
    (∃ s m, setupOf? {} severed = some s ∧ modelOf s = .ok m ∧
      (m.classComponent.bind fun c => c.created.mapM fun f => (replaceSites f).map dedentTail) =
        some ["const a = b".toList, "[1, 2].forEach(f);".toList] ∧
      m.classComponent.bind createdSection =
        some [braced "created()".toList "const a = b\n[1, 2].forEach(f);".toList]) ∧
    ((parse "const a = b".toList).toOption.map (·.items.length)) = some 1 ∧
    ((parse "[1, 2].forEach(f);".toList).toOption.map (·.items.length)) = some 1 ∧
    ((parse "const a = b\n[1, 2].forEach(f);".toList).toOption.map (·.items.length)) = some 1 := by
  refine ⟨exists_of_analysis? {} severed (fun _ m => _ ∧ _) (by decide +kernel), ?_⟩
  decide +kernel

end Revue.Vue
