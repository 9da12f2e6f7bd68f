import Revue.Source.Cleaning

/-!
# Flow annotations

Erasing Flow annotations overwrites what TypeScript does not share with spaces and leaves every
other offset in place: pragma lines, the bars of exact object types, maybe marks, variance signs,
check predicates and imports of types by value. Only code is looked at, except for pragma lines,
which are told by their text alone.
-/

namespace Revue.Source
open Text

/-- Spaces in place of a character, as many as it has bytes; a line feed stays. -/
def blanked (c : Char) : List Char :=
  if c = '\n' then [c] else List.replicate c.utf8Size ' '

def isPragmaLine (line : List Char) : Bool :=
  let body := trim line
  contains "@flow".toList body &&
    ("//".toList.isPrefixOf body ||
      ("/*".toList.isPrefixOf body && "*/".toList.isSuffixOf body))

/-- Whether each character of a text stands on a pragma line, line feeds included. -/
def pragmaMarks (cs : List Char) : List Bool :=
  ((splitFeeds cs).flatMap fun line =>
    List.replicate (line.length + 1) (isPragmaLine line)).take cs.length

/-- Whether the text after a variance sign is a name and a colon, with an optional mark between. -/
def isVarianceTarget (rest : List Char) : Bool :=
  let tail := rest.dropWhile isAsciiWord
  let tail := if tail.head? = some '?' then tail.tail else tail
  let tail := tail.dropWhile (· == ' ')
  rest.head?.any (fun c => isAsciiWord c && !c.isDigit) && tail.head? == some ':'

def startsType (c : Char) : Bool :=
  isAsciiWord c || c == '(' || c == '\x7b' || c == '['

/-- The number of characters of a one-line statement: up to its semicolon, or else its line. -/
def statementLength (cs : List Char) : Nat :=
  let line := cs.takeWhile (· != '\n')
  let body := line.takeWhile (· != ';')
  if body.length < line.length then body.length + 1 else body.length

/-- What is overwritten at a character of code. -/
inductive Erasure where
  /-- Nothing. -/
  | keep
  /-- The next `n` characters from an offset of `skip`, each of which is still looked at. -/
  | mark (skip n : Nat)
  /-- The next `n` characters, which are not looked at. -/
  | statement (n : Nat)
deriving DecidableEq, Repr

namespace Erasure

def statementLength? : Erasure → Option Nat
  | .statement n => some n
  | _ => none

/-- Which of the characters from this one on are overwritten and still looked at. -/
def due : Erasure → List Bool
  | .mark skip n => List.replicate skip false ++ List.replicate n true
  | _ => []

end Erasure

/-- What is overwritten at `c`, a character of code with `rest` after it. `prev` is the last
character of code before it that is left, and `lineStart` holds if only white space stands before
it on its line. -/
def erasureAt (prev : Option Char) (lineStart : Bool) (c : Char) (rest : List Char) : Erasure :=
  if c = '\x7b' ∧ rest.head? = some '|' then .mark 1 1
  else if c = '|' ∧ rest.head? = some '\x7d' then .mark 0 1
  else if c = '%' ∧ "checks".toList.isPrefixOf rest then .mark 0 7
  else if c = '?' ∧ (prev = some ':' ∨ prev = some '<') ∧ rest.head?.any startsType then .mark 0 1
  else if (c = '+' ∨ c = '-') ∧ (prev = some '\x7b' ∨ prev = some ',' ∨ prev = some ';') ∧
      isVarianceTarget rest then .mark 0 1
  else if lineStart ∧ "import typeof ".toList.isPrefixOf (c :: rest) then
    .statement (statementLength (c :: rest))
  else .keep

/-- Which of the next characters are to be overwritten, when both of two lists ask for some. -/
def mergeDue : List Bool → List Bool → List Bool
  | [], bs => bs
  | as, [] => as
  | a :: as, b :: bs => (a || b) :: mergeDue as bs

/-- The erasure pass over a text and, for each character, its region and whether it stands on a
pragma line. `due` says of the next characters whether they are to be overwritten, and `skip` is
the number of characters left of a statement that is being overwritten. -/
def erase (prev : Option Char) (lineStart : Bool) (due : List Bool) (skip : Nat) :
    List Char → List (Region × Bool) → List Char
  | c :: cs, (region, pragma) :: marks =>
    let lineStart' := c == '\n' || (lineStart && isAsciiBlank c)
    if skip > 0 then blanked c ++ erase prev lineStart' [] (skip - 1) cs marks
    else
      let erasure := if region = .code then erasureAt prev lineStart c cs else .keep
      match erasure.statementLength? with
      | some n => blanked c ++ erase prev lineStart' [] (n - 1) cs marks
      | none =>
        let due' := mergeDue due erasure.due
        if pragma || due'.headD false then blanked c ++ erase prev lineStart' due'.tail 0 cs marks
        else c :: erase (noteCode prev c region) lineStart' due'.tail 0 cs marks
  | _, _ => []

def eraseFlow (text : String) : String :=
  let cs := text.toList
  String.ofList (erase none true [] 0 cs ((classify cs).zip (pragmaMarks cs)))

def preprocess (text : String) (flow : Bool) : String :=
  if flow then eraseFlow (clean text) else clean text

end Revue.Source
