import Revue.Syntax.Literal
import Revue.Syntax.Token

/-!
# Blanks and comments between tokens

Every comment belongs to one token. A comment on the line of the token before it may be a trailing
comment of that token; all others are leading comments of the token that follows. Which of the two
holds depends on the token before, on a line break in between, and, for a block comment, on a
semicolon right after it.
-/

namespace Revue.Syntax
open Text

/-- The comments of a source, each with the offset at which it is attached. -/
structure Comments where
  leading : List (Nat × Span) := []
  trailing : List (Nat × Span) := []
deriving Repr, Inhabited

namespace Comments

def leadingAt (cs : Comments) (pos : Nat) : List Span :=
  (cs.leading.filter (·.1 = pos)).map (·.2)

def trailingAt (cs : Comments) (pos : Nat) : List Span :=
  (cs.trailing.filter (·.1 = pos)).map (·.2)

end Comments

def isGapBlank (c : Char) : Bool :=
  isBlank c || c == '\ufeff' || c == '\u200b'

/-- What stands between two tokens. -/
structure Trivia where
  /-- Whether there is a line break. -/
  breaks : Bool
  /-- The comments that belong to the token before. -/
  owned : List Span
  /-- The comments that wait for the token after. -/
  held : List Span
  /-- Whether a block comment is left open. -/
  isOpen : Bool
  /-- Where the next token starts, and the text from there. -/
  pos : Nat
  rest : List Char

/-- Where a reader of trivia stands: between comments or in one that started at an offset. -/
inductive Gap where
  | blank
  | line (start : Nat)
  | block (start : Nat) (breaks : Bool)

def Trivia.add (t : Trivia) (isOwned : Bool) (comment : Span) : Trivia :=
  if isOwned then { t with owned := t.owned ++ [comment] }
  else { t with held := t.held ++ [comment] }

def skipTrivia (before : Lexeme) (gap : Gap) (t : Trivia) (pos : Nat) : List Char → Trivia
  | [] =>
    match gap with
    | .blank => { t with pos := pos, rest := [] }
    | .line start =>
      { t.add (!t.breaks && before.ownsLineComment) ⟨start, pos⟩ with pos := pos, rest := [] }
    | .block _ _ => { t with isOpen := true, pos := pos, rest := [] }
  | c :: cs =>
    match gap with
    | .line start =>
      if isLineBreak c then
        let t := t.add (!t.breaks && before.ownsLineComment) ⟨start, pos⟩
        skipTrivia before .blank { t with breaks := true } (pos + c.utf8Size) cs
      else skipTrivia before gap t (pos + c.utf8Size) cs
    | .block start breaks =>
      match c, cs with
      | '*', '/' :: cs =>
        let isOwned := !t.breaks && (before.ownsBlockComment || cs.head? == some ';')
        let t := t.add isOwned ⟨start, pos + 2⟩
        skipTrivia before .blank { t with breaks := t.breaks || breaks } (pos + 2) cs
      | c, cs => skipTrivia before (.block start (breaks || isLineBreak c)) t (pos + c.utf8Size) cs
    | .blank =>
      match c, cs with
      | '/', '/' :: cs => skipTrivia before (.line pos) t (pos + 2) cs
      | '/', '*' :: cs => skipTrivia before (.block pos false) t (pos + 2) cs
      | c, cs =>
        if isLineBreak c then
          skipTrivia before .blank { t with breaks := true } (pos + c.utf8Size) cs
        else if isGapBlank c then skipTrivia before .blank t (pos + c.utf8Size) cs
        else { t with pos := pos, rest := c :: cs }

def triviaAfter (before : Lexeme) (pos : Nat) (cs : List Char) : Trivia :=
  skipTrivia before .blank ⟨false, [], [], false, pos, cs⟩ pos cs

end Revue.Syntax
