import Revue.Syntax.Scan
import Revue.Syntax.Tree

/-!
# Parsers

A parser is a function of the state of reading: the token at hand and the text after it. Tokens are
read one at a time, so a parser that stands where a mark has another meaning reads the same text
again in its own way. A failure keeps the state in which it arose, for the few places where reading
goes on behind a mistake.

A mistake that is only noted makes the source invalid in the end, unless it was met in a trial.
Where reading breaks down, no trial and no repair helps.
-/

namespace Revue.Syntax
open Text

/-- Where reading stands. -/
structure State where
  token : Token
  /-- The text from the start of the token. -/
  here : List Char
  rest : List Char
  /-- Where the token before stops. -/
  prevEnd : Nat
  /-- The comments so far, last first. -/
  comments : Comments
  /-- Where a token stands that may start the parameters of an arrow function. -/
  arrowAt : Option Nat
  /-- Inside of a trial, in which slips are let pass. -/
  isTrial : Bool := false
  /-- Whether a slip was noted. -/
  isFlawed : Bool := false
  /-- Whether reading broke down. -/
  isBroken : Bool := false

abbrev Parser := StateT State (Except State)

namespace State

/-- Attaches the comments of some trivia, given the end of the token before and the start of the
token after; what waits at the end of the text belongs to the token before. -/
def attach (comments : Comments) (t : Trivia) (before : Nat) (atEnd : Bool) : Comments :=
  let owned := t.owned.map fun c => (before, c)
  let held := t.held.map fun c => (if atEnd then before else t.pos, c)
  if atEnd then { comments with trailing := (owned ++ held).reverse ++ comments.trailing }
  else
    { leading := held.reverse ++ comments.leading
      trailing := owned.reverse ++ comments.trailing }

def note (fault : Fault) (s : State) : State :=
  match fault with
  | .none => s
  | .slip => { s with isFlawed := s.isFlawed || !s.isTrial }
  | .breakdown => { s with isBroken := true }

/-- The state at the next token. A string in a tag has no escapes if nothing stands before it. -/
def advance (style : Style) (s : State) : State :=
  let before := s.token.span.stop
  let t := triviaAfter s.token.lexeme before s.rest
  let isBad := t.isOpen || (t.breaks && closesLegacyComment t.rest)
  let style := if t.pos = before then style else .script
  let scanned : Scanned := if isBad then { lexeme := .bad, stop := t.pos, rest := t.rest }
    else scanToken style t.pos t.rest
  { s.note scanned.fault with
    token := ⟨scanned.lexeme, ⟨t.pos, scanned.stop⟩, t.breaks⟩
    here := t.rest
    rest := scanned.rest
    prevEnd := before
    comments := attach s.comments t before (scanned.lexeme == .eof) }

def ofText (text : List Char) : State :=
  let blank : State :=
    { token := ⟨.start, ⟨0, 0⟩, false⟩, here := text, rest := text, prevEnd := 0, comments := {},
      arrowAt := none }
  match text with
  | '#' :: '!' :: rest =>
    let (line, rest) := rest.span fun c => !isLineBreak c
    let stop := 2 + byteLength line
    { blank with token := ⟨.start, ⟨0, stop⟩, false⟩, rest := rest }.advance .script
  | _ => blank.advance .script

/-- The state in which the token at hand is read in another way. -/
def reread (s : State) (scanned : Scanned) : State :=
  { s.note scanned.fault with
    token := { s.token with lexeme := scanned.lexeme, span := ⟨s.token.span.start, scanned.stop⟩ }
    rest := scanned.rest }

end State

def fail {α : Type} : Parser α :=
  fun s => .error s

def breakDown {α : Type} : Parser α :=
  fun s => .error (s.note .breakdown)

def goOn (s : State) : Except State (Unit × State) :=
  if s.isBroken then .error s else .ok ((), s)

def slip : Parser Unit :=
  fun s => .ok ((), s.note .slip)

/-- Runs a parser as a trial: if it fails, stays where it was. -/
def attempt {α : Type} (p : Parser α) : Parser (Option α) := fun s =>
  match p { s with isTrial := true } with
  | .ok (a, s') => .ok (some a, { s' with isTrial := s.isTrial })
  | .error e => if e.isBroken then .error e else .ok (none, s)

/-- Runs a trial that may also refuse what it read. -/
def attempt? {α : Type} (p : Parser (Option α)) : Parser (Option α) := fun s =>
  match p { s with isTrial := true } with
  | .ok (some a, s') => .ok (some a, { s' with isTrial := s.isTrial })
  | .ok (none, _) => .ok (none, s)
  | .error e => if e.isBroken then .error e else .ok (none, s)

/-- Whether a parser of truth values answers yes; nothing is read. -/
def looksLike (p : Parser Bool) : Parser Bool := fun s =>
  match p { s with isTrial := true } with
  | .ok (b, _) => .ok (b, s)
  | .error e => if e.isBroken then .error e else .ok (false, s)

/-- Runs a parser and, if it fails, goes on from where it failed. -/
def recover {α : Type} (p : Parser α) : Parser (Option α) := fun s =>
  match p s with
  | .ok (a, s') => .ok (some a, s')
  | .error e => if e.isBroken then .error e else .ok (none, e)

def lexeme : Parser Lexeme := fun s => .ok (s.token.lexeme, s)

def position : Parser Nat := fun s => .ok (s.token.span.start, s)

def lastStop : Parser Nat := fun s => .ok (s.prevEnd, s)

def afterBreak : Parser Bool := fun s => .ok (s.token.breakBefore, s)

def skip : Parser Unit := fun s => goOn (s.advance .script)

def skipInTag : Parser Unit := fun s => goOn (s.advance .markup)

def peek : Parser Token := fun s =>
  let next := s.advance .script
  if next.isBroken then .error next else .ok (next.token, s)

def Lexeme.isMark (l : Lexeme) (m : Mark) : Bool :=
  match l with
  | .mark m' => m' = m
  | _ => false

def Lexeme.isKeyword (l : Lexeme) (k : Keyword) : Bool :=
  match l with
  | .word _ (some k') => k' = k
  | _ => false

def Lexeme.isWord : Lexeme → Bool
  | .word _ _ => true
  | _ => false

def Lexeme.isIdentifier : Lexeme → Bool
  | .word _ (some k) => !k.isReserved
  | .word _ none => true
  | _ => false

def Lexeme.isReference : Lexeme → Bool
  | .word _ (some k) => !k.isReserved && !k.isReservedInModules
  | .word _ none => true
  | _ => false

def Lexeme.isLiteral : Lexeme → Bool
  | .string _ | .number _ | .bigInteger => true
  | _ => false

def atMark (m : Mark) : Parser Bool := return (← lexeme).isMark m

def atKeyword (k : Keyword) : Parser Bool := return (← lexeme).isKeyword k

def atAnyMark (ms : List Mark) : Parser Bool := do
  let l ← lexeme
  return ms.any l.isMark

def atWord : Parser Bool := return (← lexeme).isWord

def atReference : Parser Bool := return (← lexeme).isReference

def eat (m : Mark) : Parser Bool := do
  if ← atMark m then
    skip
    return true
  else return false

def guarded (condition : Bool) (p : Parser Bool) : Parser Bool :=
  if condition then p else return false

def eatKeyword (k : Keyword) : Parser Bool := do
  if ← atKeyword k then
    skip
    return true
  else return false

def expect (m : Mark) : Parser Unit := do
  if ← atMark m then skip else fail

def expectKeyword (k : Keyword) : Parser Unit := do
  if ← atKeyword k then skip else fail

def peekMark (m : Mark) : Parser Bool := return (← peek).lexeme.isMark m

def peekKeyword (k : Keyword) : Parser Bool := return (← peek).lexeme.isKeyword k

def peekKeywordOnLine (k : Keyword) : Parser Bool := do
  let t ← peek
  return t.lexeme.isKeyword k && !t.breakBefore

/-- Whether a statement may end here: at a semicolon, a closing brace, the end of the text or a line
break. -/
def atEnding : Parser Bool := do
  let l ← lexeme
  return l.isMark .semi || l.isMark .rbrace || l == .eof || (← afterBreak)

def eatEnding : Parser Bool := do
  if ← eat .semi then return true else atEnding

def expectEnding : Parser Unit := do
  if ← eatEnding then return () else fail

/-- Repeats a parser until it answers nothing, at most a given number of times. -/
def repeatAtMost {α : Type} (p : Parser (Option α)) : Nat → Parser (List α)
  | 0 => fail
  | n + 1 => do
    match ← p with
    | none => return []
    | some a =>
      let rest ← repeatAtMost p n
      return a :: rest

/-- Repeats a parser until it answers nothing. Each round reads some text, so the text that is left
bounds their number. -/
def many {α : Type} (p : Parser (Option α)) : Parser (List α) := fun s =>
  repeatAtMost p (s.here.length + 2) s

/-- Applies a parser to its own result until it answers nothing, at most a given number of times. -/
def iterateAtMost {α : Type} (p : α → Parser (Option α)) : Nat → α → Parser α
  | 0, _ => fail
  | n + 1, a => do
    match ← p a with
    | none => return a
    | some a' => iterateAtMost p n a'

/-- Applies a parser to its own result until it answers nothing. -/
def iterate {α : Type} (p : α → Parser (Option α)) (a : α) : Parser α := fun s =>
  iterateAtMost p (s.here.length + 2) a s

/-- Items with commas between them up to a closing mark, which is not read; a comma may follow the
last. -/
def commaList {α : Type} (close : Parser Bool) (item : Parser α) : Parser (List α) :=
  many do
    if ← close then return none
    let a ← item
    if ← close then return some a
    expect .comma
    return some a

def close (kind : Kind) (start : Nat) (parts : List Tree) : Parser Tree := fun s =>
  .ok (.node .item kind ⟨start, s.prevEnd⟩ parts, s)

def leaf (kind : Kind) : Parser Tree := do
  let start ← position
  skip
  close kind start []

def anyName : Parser Tree := do
  match ← lexeme with
  | .word name _ => leaf (.name name)
  | _ => fail

def rereadGreater : Parser Unit := fun s =>
  match scanGreater s.token.span.start s.here with
  | some scanned => goOn (s.reread scanned)
  | none => .ok ((), s)

def rereadRegex : Parser Unit := fun s =>
  match scanRegexFrom (s.token.span.start + 1) (s.here.drop 1) with
  | some scanned => goOn (s.reread scanned)
  | none => .error s

def rereadTemplate : Parser Unit := fun s =>
  match scanTemplatePiece (s.token.span.start + 1) (s.here.drop 1) with
  | some scanned => goOn (s.reread scanned)
  | none => .error s

def rereadLess : Parser Unit := fun s =>
  goOn (s.reread { lexeme := .mark .lt, stop := s.token.span.start + 1, rest := s.here.drop 1 })

def rereadMarkupName : Parser Unit := fun s =>
  goOn (s.reread (scanMarkupName s.token.span.start s.here))

def skipToChild : Parser Unit := fun s =>
  let start := s.token.span.stop
  let scanned := scanMarkupChild start s.rest
  goOn { s.note scanned.fault with
    token := ⟨scanned.lexeme, ⟨start, scanned.stop⟩, false⟩
    here := s.rest
    rest := scanned.rest
    prevEnd := start }

end Revue.Syntax
