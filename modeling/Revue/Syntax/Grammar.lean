import Revue.Syntax.Parser

/-!
# The knots of the grammar

The parts of the grammar refer to each other without end: an expression holds statements, which
hold patterns, which hold types and expressions. `Grammar` names the parsers through which this
happens. Every area of the grammar is written for a given `Grammar` and is not recursive by itself;
the levels are stacked as often as the text is long.
-/

namespace Revue.Syntax
open Text

/-- What the surroundings allow. -/
structure Context where
  /-- Whether `in` is an operator. -/
  allowIn : Bool := true
  isAsync : Bool := false
  isGenerator : Bool := false
  /-- Inside of a branch of a conditional expression. -/
  inConditional : Bool := false
  /-- Inside of a first branch, which a colon follows. -/
  expectsColon : Bool := false
  allowsSuper : Bool := false
  /-- Inside of the bound of a conditional type. -/
  noConditionalTypes : Bool := false
  /-- Inside of a declaration without a meaning at run time. -/
  isAmbient : Bool := false
  /-- Inside of the parameters of a function, outside of its body. -/
  inParameters : Bool := false
  inLoopHead : Bool := false

namespace Context

def bracketed (c : Context) : Context :=
  { c with allowIn := true, expectsColon := false }

def inFunction (c : Context) (flags : FunctionFlags) : Context :=
  { c with
    allowIn := true
    isAsync := flags.isAsync
    isGenerator := flags.isGenerator
    expectsColon := false
    noConditionalTypes := false
    inParameters := false }

def inSignature (c : Context) (flags : FunctionFlags) : Context :=
  { c.inFunction flags with inParameters := true }

def inStatement (c : Context) : Context :=
  { c with allowIn := true, expectsColon := false }

def inType (c : Context) : Context :=
  { c with noConditionalTypes := false }

end Context

structure Grammar where
  /-- An expression without commas outside of brackets. -/
  assign : Context → Parser Tree
  /-- An operand of a binary operator. -/
  unary : Context → Parser Tree
  /-- Binary operators above a precedence, and their right operands, after a first operand. -/
  binaryTail : Context → Nat → Tree → Parser Tree
  /-- An expression without calls, or one with `new`. -/
  construct : Context → Parser Tree
  /-- An expression without operators around it, calls included. -/
  leftHand : Context → Parser Tree
  path : Context → Tree → Parser Tree
  object : Context → Parser Tree
  decorator : Context → Parser Tree
  /-- A statement; the flag says whether a declaration may stand there. -/
  statement : Context → Bool → Parser Tree
  moduleItem : Context → Parser Tree
  type : Context → Parser Tree
  /-- A type without operators between types. -/
  typeOperand : Context → Parser Tree
  pattern : Context → Parser Tree
  /-- An element of markup; the flag says whether it is a child of another. -/
  element : Context → Bool → Parser Tree

def identifier (c : Context) : Parser Tree := do
  match ← lexeme with
  | .word name none => leaf (.name name)
  | .word name (some k) =>
    if k.isMisused then slip
    if k == .kAwait && !c.isAmbient || k.isReserved && k != .kThis then fail else leaf (.name name)
  | _ => fail

def isUndeclarable (name : String) : Bool :=
  name == "eval" || name == "arguments"

def bindingName (c : Context) : Parser Tree := do
  let name ← identifier c
  if name.name?.any isUndeclarable then slip
  return name

def bindingName? (c : Context) : Parser (List Tree) := do
  if (← atReference) || (← atKeyword .kThis) then return [(← bindingName c).as .name] else return []

def privateName : Parser Tree := do
  match ← lexeme with
  | .privateName name => leaf (.privateName name)
  | _ => fail

def expression (g : Grammar) (c : Context) : Parser Tree := do
  let start ← position
  let first ← g.assign c
  if ← atMark .comma then
    let rest ← many do
      if ← eat .comma then return some ((← g.assign c).as .operand) else return none
    close .sequence start (first.as .operand :: rest)
  else return first

def computedKey (g : Grammar) (c : Context) : Parser Tree := do
  let start ← position
  expect .lbracket
  let inner ← expression g { c with allowIn := true }
  expect .rbracket
  close .computed start [inner.as .operand]

def propertyKey (g : Grammar) (c : Context) : Parser Tree := do
  match ← lexeme with
  | .string value => leaf (.string value)
  | .number spelling => leaf (.number spelling)
  | .bigInteger => leaf .bigInteger
  | .word name _ => leaf (.name name)
  | .mark .lbracket => computedKey g c
  | _ => fail

/-- An expression, or one that dots spread. -/
def spreadable (g : Grammar) (c : Context) : Parser Tree := do
  let start ← position
  if ← eat .dots then
    let inner ← g.assign c
    close .spread start [inner.as .operand]
  else g.assign c

def colonType? (g : Grammar) (c : Context) : Parser (List Tree) := do
  let start ← position
  if ← eat .colon then
    let type ← g.type c.inType
    return [(← close .colonType start [type.as .operand]).as .type]
  else return []

/-- Whether a word that sets the access of a parameter stands before its name. -/
def atAccessWord : Parser Bool := do
  match ← lexeme with
  | .word _ (some k) =>
    if k == .kPublic || k == .kProtected || k == .kPrivate || k == .kReadonly then
      let next := (← peek).lexeme
      return next.isWord || next.isMark .lbrace || next.isMark .lbracket
    else return false
  | _ => return false

def eatAccessWord : Parser Bool := do
  if ← atAccessWord then
    skip
    return true
  else return false

/-- Whether a word that changes what follows may stand in front of a token: a name, a literal, or on
the same line another start of a member. -/
def Token.canBeModified (t : Token) : Bool :=
  let l := t.lexeme
  l.isWord || l.isLiteral ||
    !t.breakBefore && (l.isMark .lbracket || l.isMark .lbrace || l.isMark .star || l.isMark .dots ||
      (match l with | .privateName _ => true | _ => false))

/-- Reads one of some words that change what follows, if something that they can change follows. -/
def modifier? (ks : List Keyword) : Parser (Option Keyword) := do
  match ← lexeme with
  | .word _ (some k) =>
    if ks.contains k && (← peek).canBeModified then
      skip
      return some k
    else return none
  | _ => return none

end Revue.Syntax
