import Revue.Syntax.Scan
import Revue.Text.Blank

/-!
# Type tokens

The bare word that a member of a type declares as its type, read off the member's text:
`name?: token;`. A type that is not one word without blanks has no token.
-/

namespace Revue.Analysis
open Text Syntax

/-- Reads the token of a member from the member's name and text. -/
abbrev TokenReader := String → String → Option String

/-- The ways to go on after a character that may be left out, the one that takes it first. -/
def optionalChar (p : Char → Bool) : List Char → List (List Char)
  | [] => [[]]
  | c :: cs => if p c then [cs, c :: cs] else [c :: cs]

def isQuote (c : Char) : Bool :=
  c == '\x22' || c == '\x27'

/-- The ways to go on after one or more blanks, the one that takes the most first. -/
def afterBlanks : List Char → List (List Char)
  | [] => []
  | c :: cs => if isBlank c then afterBlanks cs ++ [cs] else []

/-- The ways to go on after a word that marks a member as constant, which may be left out. -/
def afterReadonly (cs : List Char) : List (List Char) :=
  match stripStart? "readonly".toList cs with
  | some rest => afterBlanks rest ++ [cs]
  | none => [cs]

def isSeparator (cs : List Char) : Bool :=
  match cs.dropWhile isBlank with
  | [] => true
  | [c] => c == ';' || c == ','
  | _ => false

/-- The shortest beginning without blanks behind which only a separator is left; `read` is what was
read of it, last first. -/
def shortestToken (read : List Char) : List Char → Option (List Char)
  | [] => none
  | c :: cs =>
    if isBlank c then none
    else if isSeparator cs then some (c :: read).reverse
    else shortestToken (c :: read) cs

def tokenAfterColon (cs : List Char) : Option (List Char) :=
  match cs.dropWhile isBlank with
  | ':' :: rest => shortestToken [] (rest.dropWhile isBlank)
  | _ => none

def typeToken : TokenReader := fun name text =>
  let token := (afterReadonly (trim text.toList)).findSome? fun cs =>
    (optionalChar isQuote cs).findSome? fun cs =>
      (stripStart? name.toList cs).bind fun cs =>
        (optionalChar isQuote cs).findSome? fun cs =>
          (optionalChar (· == '?') cs).findSome? tokenAfterColon
  token.map String.ofList

end Revue.Analysis
