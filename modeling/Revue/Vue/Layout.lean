import Revue.Source.Region

/-!
# Layout of source pieces

A piece of source keeps the indentation that it had in its file. Its first line starts at column
zero and later lines carry their old indentation, which the functions here take away or change. A
line that starts inside a string or template literal is part of its value and keeps its text.
-/

namespace Revue.Vue
open Text

/-- A line of a piece of source. -/
structure Line where
  text : List Char
  /-- The line starts inside of a literal. -/
  inLiteral : Bool
  /-- The line break at its end belongs to a literal. -/
  continuesLiteral : Bool
deriving DecidableEq, Repr

namespace Line

def trimmed (l : Line) : List Char :=
  if l.continuesLiteral then l.text else trimEnd l.text

def isBlank (l : Line) : Bool :=
  !l.inLiteral && isBlankLine l.text

def margin (l : Line) : Nat :=
  (l.text.takeWhile fun c => c == ' ' || c == '\t').length

def outdent (common : Nat) (l : Line) : List Char :=
  if l.inLiteral then l.trimmed
  else if l.isBlank then []
  else l.trimmed.drop common

def indent (width : Nat) (l : Line) : List Char :=
  if l.inLiteral then l.text
  else if isBlankLine l.text then []
  else List.replicate width ' ' ++ l.text

end Line

/-- Lines with what is known about the literals at their starts. -/
def markLines : List (List Char) → List Bool → List Line
  | [], _ => []
  | text :: rest, marks =>
    ⟨text, marks.headD false, (marks.drop 1).headD false⟩ :: markLines rest (marks.drop 1)

def splitLines (text : List Char) : List Line :=
  markLines (lines text) (Source.literalLineStarts text)

def commonMargin (ls : List Line) : Nat :=
  ((ls.filter fun l => !l.isBlank && !l.inLiteral).map Line.margin).min?.getD 0

/-- Takes the common margin from every line after the first. -/
def dedentTail (text : List Char) : List Char :=
  match splitLines text with
  | [] => []
  | first :: rest =>
    joinWith ['\n'] (first.trimmed :: rest.map (Line.outdent (commonMargin rest)))

def indent (width : Nat) (text : List Char) : List Char :=
  joinWith ['\n'] ((splitLines text).map (Line.indent width))

def dropBlankEnds (ls : List Line) : List Line :=
  ((ls.dropWhile Line.isBlank).reverse.dropWhile Line.isBlank).reverse

def insideBraces? (text : List Char) : Option (List Char) :=
  match trim text with
  | '\x7b' :: rest => if rest.getLast? = some '\x7d' then some rest.dropLast else none
  | _ => none

def blockLines? (text : List Char) : Option (List (List Char)) :=
  (insideBraces? text).map fun inner =>
    let body := dropBlankEnds (splitLines inner)
    body.map (Line.outdent (commonMargin body))

/-- A header and a body in braces, each on lines of its own. -/
def braced (header body : List Char) : List Char :=
  header ++ " \x7b\n".toList ++ indent 2 body ++ "\n\x7d".toList

/-- A function: its header, some lines in front, and the lines of its body. -/
def functionBlock (header : List Char) (before : List (List Char)) (body : List Char) :
    List Char :=
  match blockLines? body with
  | none => header ++ ' ' :: dedentTail body
  | some ls =>
    match before ++ ls with
    | [] => header ++ " \x7b\x7d".toList
    | all => braced header (joinWith ['\n'] all)

def objectSection (name : List Char) (entries : List (List Char)) : List Char :=
  braced (name ++ [':']) (joinWith ",\n".toList entries)

end Revue.Vue
