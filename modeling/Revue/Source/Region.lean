import Revue.Text.Span

/-!
# Code, comments and literals

A scanner that tells, for each character of a text, whether it is code, part of a comment, or part
of a string or template literal. It knows strings, templates with nested substitutions, and both
kinds of comment; it does not know regular expressions or markup text. A string that is not closed
ends at its line, so that an apostrophe in running text does no lasting harm.
-/

namespace Revue.Source

inductive Region where
  | code
  | comment
  | literal
deriving DecidableEq, Repr, Inhabited

/-- What the scanner is inside of. The modes that end in `Pair` hold for the second character of a
two-character mark whose first has just been read. -/
inductive Mode where
  | code
  | linePair
  | lineComment
  | blockPair
  | blockComment
  | blockEndPair
  | quote (delimiter : Char)
  | quotePair (delimiter : Char)
  | template
  | templatePair
  | substitutionPair
deriving DecidableEq, Repr

/-- The state of the scanner: its mode, the brace depth in code, and the depths at which the open
template substitutions began, innermost first. -/
structure Scan where
  mode : Mode := .code
  depth : Nat := 0
  substitutions : List Nat := []
deriving DecidableEq, Repr

namespace Scan

def stepCode (s : Scan) (c : Char) (next : Option Char) : Region × Scan :=
  if c = '/' ∧ next = some '/' then (.comment, { s with mode := .linePair })
  else if c = '/' ∧ next = some '*' then (.comment, { s with mode := .blockPair })
  else if c = '\x27' ∨ c = '\x22' then (.literal, { s with mode := .quote c })
  else if c = '\x60' then (.literal, { s with mode := .template })
  else if c = '\x7d' ∧ s.substitutions.head? = some s.depth then
    (.literal, { s with mode := .template, substitutions := s.substitutions.tail })
  else if c = '\x7b' then (.code, { s with depth := s.depth + 1 })
  else if c = '\x7d' then (.code, { s with depth := s.depth - 1 })
  else (.code, s)

def stepQuote (s : Scan) (delimiter c : Char) : Region × Scan :=
  if c = '\\' then (.literal, { s with mode := .quotePair delimiter })
  else if c = '\n' then (.code, { s with mode := .code })
  else if c = delimiter then (.literal, { s with mode := .code })
  else (.literal, s)

def stepTemplate (s : Scan) (c : Char) (next : Option Char) : Region × Scan :=
  if c = '\\' then (.literal, { s with mode := .templatePair })
  else if c = '$' ∧ next = some '\x7b' then
    (.literal, { s with mode := .substitutionPair, substitutions := s.depth :: s.substitutions })
  else if c = '\x60' then (.literal, { s with mode := .code })
  else (.literal, s)

/-- Reads one character, with a look at the one after it. -/
def step (s : Scan) (c : Char) (next : Option Char) : Region × Scan :=
  match s.mode with
  | .code => s.stepCode c next
  | .linePair => (.comment, { s with mode := .lineComment })
  | .lineComment => if c = '\n' then (.code, { s with mode := .code }) else (.comment, s)
  | .blockPair => (.comment, { s with mode := .blockComment })
  | .blockComment =>
    if c = '*' ∧ next = some '/' then (.comment, { s with mode := .blockEndPair })
    else (.comment, s)
  | .blockEndPair => (.comment, { s with mode := .code })
  | .quote delimiter => s.stepQuote delimiter c
  | .quotePair delimiter => (.literal, { s with mode := .quote delimiter })
  | .template => s.stepTemplate c next
  | .templatePair => (.literal, { s with mode := .template })
  | .substitutionPair => (.literal, { s with mode := .code })

def regions (s : Scan) : List Char → List Region
  | [] => []
  | c :: cs =>
    let (region, s') := s.step c cs.head?
    region :: regions s' cs

end Scan

def classify (cs : List Char) : List Region :=
  Scan.regions {} cs

def classifyBytes (cs : List Char) : List Region :=
  (cs.zip (classify cs)).flatMap fun (c, r) => List.replicate c.utf8Size r

/-- For each line of a text, whether it starts inside a string or template literal. Such a line is
part of the literal's value. -/
def literalLineStarts (cs : List Char) : List Bool :=
  false :: ((cs.zip (classify cs)).filter fun (c, _) => c == '\n').map fun (_, r) => r == .literal

end Revue.Source
