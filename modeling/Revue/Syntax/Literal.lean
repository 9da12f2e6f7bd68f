import Revue.Syntax.NameChars
import Revue.Text.Decimal
import Revue.Text.Span

/-!
# Spelling of literals and names

Scanners for the tokens that have a value or escapes inside: strings, templates, regular
expressions, numbers and names. Each takes the offset and the text at which it starts, and gives
what it read with the offset and the text right after it, or nothing if the spelling is wrong.
A value is collected as code points, in which two halves of a surrogate pair are joined and a half
that stands alone becomes the replacement character.

Some mistakes do not stop a scanner: a separator that no digit follows, a number or an escape in
the old octal style, a string that the line cuts off. Such a token carries a `Fault`.
-/

namespace Revue.Syntax
open Text

/-- What is wrong with a token that was read. -/
inductive Fault where
  | none
  /-- A mistake that is let pass in a trial. -/
  | slip
  /-- A spelling on which all reading breaks down. -/
  | breakdown
deriving DecidableEq, Repr

def Fault.unless (isWell : Bool) : Fault :=
  if isWell then .none else .slip

def Fault.worse : Fault → Fault → Fault
  | .breakdown, _ | _, .breakdown => .breakdown
  | .slip, _ | _, .slip => .slip
  | .none, .none => .none

/-- The line feed, the carriage return, and the line and paragraph separators. -/
def isLineBreak (c : Char) : Bool :=
  c == '\n' || c == '\r' || c == '\u2028' || c == '\u2029'

def isHighSurrogate (n : Nat) : Bool :=
  0xD800 ≤ n && n < 0xDC00

def isLowSurrogate (n : Nat) : Bool :=
  0xDC00 ≤ n && n < 0xE000

def joinSurrogates (hi lo : Nat) : Nat :=
  0x10000 + (hi - 0xD800) * 0x400 + (lo - 0xDC00)

/-- The text of a sequence of code points, in which surrogates are told from characters. -/
def textOfCodes : List Nat → List Char
  | [] => []
  | hi :: codes =>
    if isHighSurrogate hi then
      match codes with
      | lo :: rest =>
        if isLowSurrogate lo then Char.ofNat (joinSurrogates hi lo) :: textOfCodes rest
        else '\ufffd' :: textOfCodes (lo :: rest)
      | [] => ['\ufffd']
    else if isLowSurrogate hi then '\ufffd' :: textOfCodes codes
    else Char.ofNat hi :: textOfCodes codes

/-- Digits of a base and the separators among them. -/
structure Digits where
  /-- The digits without the separators. -/
  text : List Char
  /-- The number of characters, separators included. -/
  width : Nat
  isNeat : Bool
  rest : List Char

def readDigits (isDigit : Char → Bool) (left : Nat) : List Char → Digits
  | [] => ⟨[], 0, true, []⟩
  | c :: cs =>
    if left = 0 then ⟨[], 0, true, c :: cs⟩
    else if c = '_' then
      let d := readDigits isDigit left cs
      { d with width := d.width + 1, isNeat := d.isNeat && cs.head?.any isDigit }
    else if isDigit c then
      let d := readDigits isDigit (left - 1) cs
      { d with text := c :: d.text, width := d.width + 1 }
    else ⟨[], 0, true, c :: cs⟩

def isHexDigit (c : Char) : Bool :=
  (hexDigit? c).isSome

def isOctalDigit (c : Char) : Bool :=
  '0' ≤ c && c ≤ '7'

/-- What an escape stands for, how many characters it takes after its backslash, and what is wrong
with it. -/
structure Escape where
  codes : List Nat
  width : Nat
  isNeat : Bool := true
  /-- Whether it is spelled in the old octal style. -/
  isOctal : Bool := false

def readHex (count : Nat) (cs : List Char) : Option (Nat × Digits) :=
  let d := readDigits isHexDigit count cs
  if d.text.length = count then (hexValue? d.text).map fun n => (n, d) else none

def readLowSurrogate (cs : List Char) : Option (Nat × Digits) :=
  match cs with
  | '\\' :: 'u' :: cs => (readHex 4 cs).filter fun (n, _) => isLowSurrogate n
  | _ => none

/-- Reads an escape in braces after the opening one. Inside the braces the second half of a
surrogate pair may follow the first. -/
def readBraced (cs : List Char) : Option Escape :=
  let d := readDigits isHexDigit cs.length cs
  match hexValue? d.text with
  | none => none
  | some n =>
    let second := if isHighSurrogate n then readLowSurrogate d.rest else none
    let (codes, width, isNeat, rest) := match second with
      | some (lo, d') => ([n, lo], d.width + 2 + d'.width, d.isNeat && d'.isNeat, d'.rest)
      | none => ([n], d.width, d.isNeat, d.rest)
    if d.text.isEmpty || n > 0x10FFFF || rest.head? != some '\x7d' then none
    else some { codes := codes, width := width + 3, isNeat := isNeat }

def readUnicode : List Char → Option Escape
  | 'u' :: '\x7b' :: cs => readBraced cs
  | 'u' :: cs =>
    (readHex 4 cs).map fun (n, d) => { codes := [n], width := d.width + 1, isNeat := d.isNeat }
  | _ => none

def simpleEscape (c : Char) : Nat :=
  match c with
  | 'n' => 10
  | 't' => 9
  | 'r' => 13
  | 'b' => 8
  | 'v' => 11
  | 'f' => 12
  | c => c.toNat

/-- The value of up to three octal digits, which fits into a byte. -/
def readOctal (cs : List Char) : Escape :=
  let digits := (cs.take 3).takeWhile isOctalDigit
  let value (ds : List Char) : Nat := ds.foldl (fun n c => 8 * n + (c.toNat - 48)) 0
  let digits := if value digits < 256 then digits else digits.take 2
  { codes := [value digits], width := digits.length, isOctal := true }

def readEscape (cs : List Char) : Option Escape :=
  match cs with
  | [] => none
  | '\r' :: '\n' :: _ => some { codes := [], width := 2 }
  | 'x' :: rest =>
    (readHex 2 rest).map fun (n, d) => { codes := [n], width := d.width + 1, isNeat := d.isNeat }
  | 'u' :: _ => readUnicode cs
  | '0' :: rest =>
    if rest.head?.any isOctalDigit then some (readOctal cs) else some { codes := [0], width := 1 }
  | c :: _ =>
    if isLineBreak c then some { codes := [], width := 1 }
    else if isOctalDigit c then some (readOctal cs)
    else some { codes := [simpleEscape c], width := 1 }

/-- A string that was read: its code points, what is wrong with it, and where it stops. -/
structure StringScan where
  codes : List Nat
  fault : Fault
  stop : Nat
  rest : List Char

/-- Reads a string up to its closing quote. `codes` are the code points read so far, last first, and
`skip` is the number of characters that belong to an escape read ahead. A string that its line
cuts off ends there. -/
def scanString (quote : Char) (codes : List Nat) (fault : Fault) (skip pos : Nat) :
    List Char → Option StringScan
  | [] => some ⟨codes.reverse, fault.worse .slip, pos, []⟩
  | c :: cs =>
    if skip > 0 then scanString quote codes fault (skip - 1) (pos + c.utf8Size) cs
    else if c = quote then some ⟨codes.reverse, fault, pos + 1, cs⟩
    else if c = '\n' ∨ c = '\r' then some ⟨codes.reverse, fault.worse .slip, pos, c :: cs⟩
    else if c ≠ '\\' then scanString quote (c.toNat :: codes) fault 0 (pos + c.utf8Size) cs
    else match readEscape cs with
      | none => none
      | some e =>
        let fault := fault.worse (.unless (e.isNeat && !e.isOctal))
        scanString quote (e.codes.reverse ++ codes) fault e.width (pos + 1) cs

/-- A piece of a template: whether a substitution follows it, whether its escapes are valid, what
is wrong with it, and where it stops. -/
structure TemplateScan where
  more : Bool
  valid : Bool
  fault : Fault
  stop : Nat
  rest : List Char

def scanTemplate (valid : Bool) (fault : Fault) (pos : Nat) : List Char → Option TemplateScan
  | [] => none
  | c :: cs =>
    if c = '\x60' then some ⟨false, valid, fault, pos + 1, cs⟩
    else if c = '\\' then
      match cs with
      | [] => none
      | e :: cs =>
        let escape := readEscape (e :: cs)
        let isValid := escape.any fun e => !e.isOctal
        let fault := fault.worse (.unless (escape.all (·.isNeat)))
        scanTemplate (valid && isValid) fault (pos + 1 + e.utf8Size) cs
    else if c = '$' then
      match cs with
      | '\x7b' :: cs => some ⟨true, valid, fault, pos + 2, cs⟩
      | cs => scanTemplate valid fault (pos + 1) cs
    else scanTemplate valid fault (pos + c.utf8Size) cs

/-- Reads the body of a regular expression up to its closing slash; `inClass` holds between square
brackets, where a slash is a character like others. -/
def scanRegex (inClass : Bool) (pos : Nat) : List Char → Option (Nat × List Char)
  | [] => none
  | c :: cs =>
    if isLineBreak c then none
    else if c = '\\' then
      match cs with
      | [] => none
      | e :: cs => if isLineBreak e then none else scanRegex inClass (pos + 1 + e.utf8Size) cs
    else if c = '/' ∧ !inClass then some (pos + 1, cs)
    else if c = '[' then scanRegex true (pos + 1) cs
    else if c = ']' then scanRegex false (pos + 1) cs
    else scanRegex inClass (pos + c.utf8Size) cs

/-- A name that was read: its characters, what is wrong with it, and where it stops. -/
structure NameScan where
  name : List Char
  fault : Fault
  stop : Nat
  rest : List Char

/-- Reads a name in which escapes may stand, and hyphens if `hyphens` holds. `read` are the
characters so far, last first, and `skip` is the number of characters that belong to an escape
read ahead. -/
def scanName (hyphens : Bool) (read : List Char) (fault : Fault) (skip pos : Nat) :
    List Char → Option NameScan
  | [] => some ⟨read.reverse, fault, pos, []⟩
  | c :: cs =>
    if skip > 0 then scanName hyphens read fault (skip - 1) (pos + c.utf8Size) cs
    else if isNamePart c || (hyphens && c == '-') then
      scanName hyphens (c :: read) fault 0 (pos + c.utf8Size) cs
    else if c = '\\' then
      match readUnicode cs with
      | none => none
      | some e =>
        let chars := textOfCodes e.codes
        let fault := fault.worse (.unless (e.isNeat && chars.all isNamePart))
        scanName hyphens (chars.reverse ++ read) fault e.width (pos + 1) cs
    else some ⟨read.reverse, fault, pos, c :: cs⟩

/-- A number that was read: its spelling without separators, the number of its characters, whether
it is a big integer, what is wrong with it, and the text after it. -/
structure Numeral where
  spelling : List Char
  width : Nat
  isBig : Bool := false
  fault : Fault := .none
  rest : List Char

/-- A number, unless a name starts right after it. -/
def Numeral.alone (n : Numeral) : Option Numeral :=
  if n.rest.head?.any isNameStart then none else some n

def radixDigit (letter : Char) : Char → Bool :=
  if letter.toLower = 'x' then isHexDigit
  else if letter.toLower = 'o' then isOctalDigit
  else fun c => c == '0' || c == '1'

/-- Reads a number in the base that its second letter names. A big integer starts with a digit. -/
def scanRadix (letter : Char) (cs : List Char) : Option Numeral :=
  let d := readDigits (radixDigit letter) cs.length cs
  let fault := Fault.unless d.isNeat
  if d.text.isEmpty then none
  else match d.rest with
    | 'n' :: rest =>
      let fault := if cs.head? = some '_' then .breakdown else fault
      some { spelling := [], width := d.width + 3, isBig := true, fault := fault, rest := rest }
    | rest =>
      Numeral.alone
        { spelling := '0' :: letter :: d.text, width := d.width + 2, fault := fault, rest := rest }

def scanExponent (n : Numeral) : Option Numeral :=
  match n.rest with
  | e :: rest =>
    if e = 'e' ∨ e = 'E' then
      let sign := (rest.take 1).filter fun c => c == '+' || c == '-'
      let digits := rest.drop sign.length
      let d := readDigits Char.isDigit digits.length digits
      if d.text.isEmpty then none
      else some { n with
        spelling := n.spelling ++ 'e' :: (sign ++ d.text)
        width := n.width + 1 + sign.length + d.width
        fault := n.fault.worse (.unless d.isNeat)
        rest := d.rest }
    else some n
  | [] => some n

def scanFraction (n : Numeral) : Numeral :=
  match n.rest with
  | '.' :: rest =>
    let d := readDigits Char.isDigit rest.length rest
    { n with
      spelling := n.spelling ++ '.' :: d.text
      width := n.width + 1 + d.width
      fault := n.fault.worse (.unless d.isNeat)
      rest := d.rest }
  | _ => n

/-- Reads a decimal number. A whole part of several digits that starts with zero is in the old octal
style, or a mistake if it has other digits. -/
def scanDecimal (cs : List Char) : Option Numeral :=
  let d := readDigits Char.isDigit cs.length cs
  let isOld := cs.head? = some '0' && d.width > 1
  let whole : Numeral :=
    { spelling := d.text, width := d.width, fault := .unless (d.isNeat && !isOld), rest := d.rest }
  match isOld, d.rest with
  | false, 'n' :: rest =>
    if d.text.isEmpty then none
    else some { whole with width := d.width + 1, isBig := true, rest := rest }
  | true, _ =>
    if d.text.all isOctalDigit then
      Numeral.alone { whole with spelling := '0' :: 'o' :: d.text }
    else (scanExponent (scanFraction whole)).bind Numeral.alone
  | _, _ => (scanExponent (scanFraction whole)).bind Numeral.alone

def scanNumber (cs : List Char) : Option Numeral :=
  match cs with
  | '0' :: letter :: rest =>
    if "xXoObB".toList.contains letter then scanRadix letter rest else scanDecimal cs
  | _ => scanDecimal cs

end Revue.Syntax
