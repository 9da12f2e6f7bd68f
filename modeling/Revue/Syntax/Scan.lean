import Revue.Syntax.Trivia

/-!
# From text to tokens

`scanToken` reads the token at the start of a text. The reading of a few marks depends on where
the grammar stands; `scanGreater`, `scanRegexFrom`, `scanMarkupName` and `scanMarkupChild` read
the same text again in another way.
-/

namespace Revue.Syntax
open Text

/-- A token that was read, where it stops, the text after it, and what is wrong with it. -/
structure Scanned where
  lexeme : Lexeme
  stop : Nat
  rest : List Char
  fault : Fault := .none

/-- How a string is read: as in a script, or as in the tags of markup, where it has no escapes. -/
inductive Style where
  | script
  | markup
deriving DecidableEq

def stripStart? : List Char → List Char → Option (List Char)
  | [], cs => some cs
  | _ :: _, [] => none
  | p :: ps, c :: cs => if p = c then stripStart? ps cs else none

def scanMark (table : List (String × Mark)) (pos : Nat) (cs : List Char) : Option Scanned :=
  table.findSome? fun (text, m) =>
    (stripStart? text.toList cs).map fun rest =>
      { lexeme := .mark m, stop := pos + text.length, rest }

def scanGreater (pos : Nat) (cs : List Char) : Option Scanned :=
  scanMark Mark.greaterTable pos cs

/-- The word that a name spells, given its text. A word that starts with an escape is no keyword. A
keyword with an escape further on keeps it in its name, and a reserved word has none. -/
def wordOf (name text : String) : Lexeme :=
  match Keyword.ofName? name with
  | none => .word name none
  | some k =>
    if text.toList.head? = some '\\' then .word name none
    else if name != text && (k.isReserved || k.isReservedInModules) then .bad
    else .word text (some k)

def scanWord (pos : Nat) (cs : List Char) : Option Scanned :=
  (scanName false [] .none 0 pos cs).map fun n =>
    let text := cs.take (cs.length - n.rest.length)
    { lexeme := wordOf (String.ofList n.name) (String.ofList text), stop := n.stop, rest := n.rest,
      fault := n.fault }

def scanPrivateName (pos : Nat) (cs : List Char) : Option Scanned :=
  if cs.head?.any fun c => isNameStart c || c == '\\' then
    match scanWord (pos + 1) cs with
    | some s =>
      match s.lexeme with
      | .word name _ => some { s with lexeme := .privateName name }
      | _ => none
    | none => none
  else none

/-- Whether the text after an ampersand in markup names a character by a number that is none. Up to
nine characters may stand before the semicolon. -/
def isBrokenEntity (cs : List Char) : Bool :=
  let name := (cs.take 10).takeWhile (· != ';')
  let isBroken (base : Nat) (digits : List Char) : Bool :=
    let n := natOfDigits base digits
    digits.isEmpty || n > 0x10FFFF || isHighSurrogate n || isLowSurrogate n
  name.length < 10 && (cs.drop name.length).head? == some ';' &&
    match name with
    | '#' :: 'x' :: digits => digits.all isHexDigit && isBroken 16 digits
    | '#' :: digits => digits.all Char.isDigit && isBroken 10 digits
    | _ => false

/-- Whether reading breaks down on a text in markup, of which the first `length` characters
count. -/
def breaksDown : Nat → List Char → Bool
  | 0, _ | _, [] => false
  | length + 1, c :: cs => (c == '&' && isBrokenEntity cs) || breaksDown length cs

/-- Reads a string in markup, which ends at the next quote of its kind. -/
def scanRawString (quote : Char) (pos : Nat) (cs : List Char) : Option Scanned :=
  let (value, rest) := cs.span (· != quote)
  let fault : Fault := if breaksDown value.length cs then .breakdown else .none
  match rest with
  | [] => none
  | _ :: rest =>
    some ⟨.string (String.ofList value), pos + 2 + byteLength value, rest, fault⟩

def scanQuoted (style : Style) (quote : Char) (pos : Nat) (cs : List Char) : Option Scanned :=
  match style with
  | .markup => scanRawString quote pos cs
  | .script =>
    (scanString quote [] .none 0 (pos + 1) cs).map fun s =>
      ⟨.string (String.ofList (textOfCodes s.codes)), s.stop, s.rest, s.fault⟩

def scanTemplatePiece (pos : Nat) (cs : List Char) : Option Scanned :=
  (scanTemplate true .none pos cs).map fun t => ⟨.template t.more t.valid, t.stop, t.rest, t.fault⟩

def scanRegexFrom (pos : Nat) (cs : List Char) : Option Scanned :=
  match scanRegex false pos cs with
  | none => none
  | some (stop, rest) =>
    let (flags, rest) :=
      if rest.head?.any isNameStart then rest.span isNamePart else ([], rest)
    some { lexeme := .regex, stop := stop + byteLength flags, rest }

def scanNumeric (pos : Nat) (cs : List Char) : Option Scanned :=
  (scanNumber cs).map fun n =>
    ⟨if n.isBig then .bigInteger else .number (String.ofList n.spelling), pos + n.width, n.rest,
      n.fault⟩

/-- A comment in the form of a markup comment, which no module has. -/
def opensLegacyComment (cs : List Char) : Bool :=
  (stripStart? "<!--".toList cs).isSome

/-- The end of such a comment, which has this meaning at the start of a line. -/
def closesLegacyComment (cs : List Char) : Bool :=
  (stripStart? "-->".toList cs).isSome

def scanToken? (style : Style) (pos : Nat) (cs : List Char) : Option Scanned :=
  match cs with
  | [] => some { lexeme := .eof, stop := pos, rest := [] }
  | c :: rest =>
    if isNameStart c || c == '\\' then scanWord pos cs
    else if c.isDigit || c == '.' && rest.head?.any Char.isDigit then scanNumeric pos cs
    else if c == '\x22' || c == '\x27' then scanQuoted style c pos rest
    else if c == '\x60' then scanTemplatePiece (pos + 1) rest
    else if c == '#' then scanPrivateName pos rest
    else if opensLegacyComment cs then none
    else scanMark Mark.table pos cs

def scanToken (style : Style) (pos : Nat) (cs : List Char) : Scanned :=
  (scanToken? style pos cs).getD { lexeme := .bad, stop := pos, rest := cs }

def scanMarkupName (pos : Nat) (cs : List Char) : Scanned :=
  match scanName true [] .none 0 pos cs with
  | some n => ⟨.markupName (String.ofList n.name), n.stop, n.rest, n.fault⟩
  | none => { lexeme := .bad, stop := pos, rest := cs }

/-- Reads what a child of an element starts with: a brace, a tag, or text up to one of the two.
A closing brace or a greater-than sign in the text is a slip. -/
def scanMarkupChild (pos : Nat) (cs : List Char) : Scanned :=
  match cs with
  | [] => { lexeme := .eof, stop := pos, rest := [] }
  | '\x7b' :: rest => { lexeme := .mark .lbrace, stop := pos + 1, rest }
  | '<' :: rest => { lexeme := .mark .lt, stop := pos + 1, rest }
  | cs =>
    let (text, rest) := cs.span fun c => c != '\x7b' && c != '<'
    let fault : Fault := if breaksDown text.length cs then .breakdown
      else .unless (!text.contains '\x7d' && !text.contains '>')
    ⟨.markupText, pos + byteLength text, rest, fault⟩

end Revue.Syntax
