import Revue.Syntax.Grammar

/-!
# Patterns and parameters

What stands where names are declared: a name, an array or object pattern, with types and fallback
values. Where a pattern cannot be told from an expression at first, the expression is read and
turned into a pattern by `toPattern?`. An expression that spells no pattern leaves a gap, unless it
is something to assign to.
-/

namespace Revue.Syntax
open Text

variable (g : Grammar) (c : Context)

def bindingElement : Parser Tree := do
  let start ← position
  let left ← g.pattern c
  if ← eat .eq then
    let right ← g.assign c.bracketed
    close .defaultPattern start [left.as .left, right.as .right]
  else return left

def restElement : Parser Tree := do
  let start ← position
  expect .dots
  let inner ← g.pattern c
  close .restPattern start [inner.as .operand]

def arrayPattern : Parser Tree := do
  let start ← position
  expect .lbracket
  let elements ← many do
    if ← atMark .rbracket then return none
    if ← eat .comma then return some []
    let element ← if ← atMark .dots then restElement g c else bindingElement g c
    if ← atMark .rbracket then return some [element.as .item]
    expect .comma
    return some [element.as .item]
  expect .rbracket
  close .arrayPattern start elements.flatten

def patternProperty : Parser Tree := do
  if ← atMark .dots then restElement g c
  else
    let start ← position
    let key ← propertyKey g c
    if ← eat .colon then
      let value ← bindingElement g c
      close .patternProperty start [key.as .key, value.as .value]
    else match key.kind with
      | .name _ =>
        if ← eat .eq then
          let value ← g.assign c.bracketed
          close .patternShorthand start [key.as .key, value.as .value]
        else close .patternShorthand start [key.as .key]
      | _ => fail

def objectPattern : Parser Tree := do
  let start ← position
  expect .lbrace
  let properties ← commaList (atMark .rbrace) (patternProperty g c)
  expect .rbrace
  close .objectPattern start (properties.map (·.as .item))

/-- Reads the question mark that may follow a pattern in a declaration without a body. -/
def ambientMark : Parser Unit := do
  let _ ← guarded c.isAmbient (eat .question)
  return ()

def bindingTarget : Parser Tree := do
  match ← lexeme with
  | .mark .lbracket =>
    let t ← arrayPattern g c
    ambientMark c
    return t
  | .mark .lbrace =>
    let t ← objectPattern g c
    ambientMark c
    return t
  | _ => bindingName c

def annotated (start : Nat) (target : Tree) : Parser Tree := do
  match ← colonType? g c with
  | [] => return target
  | types => close target.kind start (target.parts ++ types)

/-- A type behind a pattern with a fallback value, which then covers it. -/
def annotatedDefault (start : Nat) (target : Tree) : Parser Tree := do
  match ← colonType? g c with
  | [] => return target
  | _ => close target.kind start target.parts

def parameterPattern : Parser Tree := do
  let start ← position
  let _ ← eatAccessWord
  let patternStart ← position
  let target ← bindingElement g c
  let hasDefault := target.kind == .defaultPattern
  if ← eat .question then
    if hasDefault && !c.isAmbient then fail
  let target ← if hasDefault then annotatedDefault g c patternStart target
    else annotated g c patternStart target
  if ← eat .eq then
    let right ← g.assign c.bracketed
    close .defaultPattern start [target.as .left, right.as .right]
  else return target

/-- The pattern of a parameter that takes the rest. Only outside of constructors a fallback value
may follow it. -/
def restParameter (inConstructor : Bool) : Parser Tree := do
  let start ← position
  expect .dots
  let inner ← g.pattern c
  let inner ← if ← guarded (!inConstructor) (eat .eq) then do
      let right ← g.assign c.bracketed
      close .defaultPattern start [inner.as .left, right.as .right]
    else pure inner
  let types ← colonType? g c
  let whole ← close .restPattern start (inner.as .operand :: types)
  let _ ← guarded (!inConstructor) (eat .question)
  return whole

def decorators (decorator : Parser Tree) : Parser (List Tree) :=
  many do
    if ← atMark .atSign then return some ((← decorator).as .decorator) else return none

def parameter (decorator : Parser Tree) : Parser Tree := do
  let start ← position
  let marks ← decorators decorator
  let inner ← if ← atMark .dots then restParameter g c false else parameterPattern g c
  close .parameter start (marks ++ [inner.as .value])

def parameters (decorator : Parser Tree) : Parser (List Tree) := do
  let ps ← commaList (atMark .rparen) (parameter g c decorator)
  expect .rparen
  return ps.map (·.as .param)

/-- Where an expression is read as a pattern. -/
inductive PatternPlace where
  /-- Among the parameters of an arrow function. -/
  | parameter
  /-- To the left of an assignment or in the head of a loop. -/
  | target
  /-- Inside of a pattern that is assigned to. -/
  | part
deriving DecidableEq

def PatternPlace.inner : PatternPlace → PatternPlace
  | .parameter => .parameter
  | _ => .part

def Kind.isPatternPart : Kind → Bool
  | .name _ | .member | .superMember | .call | .construct | .string _ | .number _ | .bigInteger
  | .constant _ | .regex | .function _ | .classDef | .parenthesized | .template | .asType => true
  | _ => false

/-- An expression that spells no pattern: at some places it stands for itself, and otherwise nothing
is left of it but its span. -/
def PatternPlace.keep (place : PatternPlace) : Tree → Tree
  | .node r k s ps =>
    let isKept := match place with
      | .parameter => match k with
        | .name _ => true
        | _ => false
      | .target => true
      | .part => k.isPatternPart
    if isKept then .node r k s ps else .node r .missing s []

def isRest (t : Tree) : Bool :=
  t.kind == .restPattern

/-- The elements of an array pattern, in which only the last one may take the rest. -/
def withoutEarlyRest (ps : List Tree) : List Tree :=
  (ps.dropLast.filter fun p => !isRest p) ++ ps.getLast?.toList

mutual

/-- The pattern that an expression spells at a place. A method in an object spells none. -/
def toPattern? (place : PatternPlace) : Tree → Option Tree
  | .node r k s ps =>
    match k with
    | .object => (propertyPatterns? place.inner ps).map fun ps => .node r .objectPattern s ps
    | .array =>
      (elementPatterns? place.inner ps).map fun ps => .node r .arrayPattern s (withoutEarlyRest ps)
    | .spread => (elementPatterns? place ps).map fun ps => .node r .restPattern s ps
    | .assign "=" =>
      some (if place = .target then .node r k s ps else .node r .defaultPattern s ps)
    | _ => some (place.keep (.node r k s ps))

def elementPatterns? (place : PatternPlace) : List Tree → Option (List Tree)
  | [] => some []
  | t :: ts =>
    match toPattern? place t, elementPatterns? place ts with
    | some p, some ps => some (p :: ps)
    | _, _ => none

def propertyPatterns? (place : PatternPlace) : List Tree → Option (List Tree)
  | [] => some []
  | t :: ts =>
    match propertyPattern? place t, propertyPatterns? place ts with
    | some p, some ps => some (p :: ps)
    | _, _ => none

def propertyPattern? (place : PatternPlace) : Tree → Option Tree
  | .node r .property s [key, value] =>
    (toPattern? place value).map fun value => .node r .patternProperty s [key, value]
  | .node r .shorthand s ps => some (.node r .patternShorthand s ps)
  | .node r .shorthandDefault s ps => some (.node r .patternShorthand s ps)
  | .node r .spread s ps => (elementPatterns? place ps).map fun ps => .node r .restPattern s ps
  | _ => none

end

def asPattern (place : PatternPlace) (t : Tree) : Parser Tree :=
  match toPattern? place t with
  | some p => return p
  | none => fail

mutual

/-- Whether a pattern declares a name that module code does not declare. -/
def bindsUndeclarable : Tree → Bool
  | .node _ k _ ps =>
    match k with
    | .name text => isUndeclarable text
    | .arrayPattern | .objectPattern => anyBindsUndeclarable .item ps
    | .restPattern => anyBindsUndeclarable .operand ps
    | .patternProperty => anyBindsUndeclarable .value ps
    | .patternShorthand => anyBindsUndeclarable .key ps
    | .defaultPattern => anyBindsUndeclarable .left ps
    | _ => false

/-- The same for the parts of a pattern in a role. -/
def anyBindsUndeclarable (r : Role) : List Tree → Bool
  | [] => false
  | t :: ts => (t.role == r && bindsUndeclarable t) || anyBindsUndeclarable r ts

end

def Kind.isSimpleTarget : Kind → Bool
  | .name _ | .member | .superMember | .chain _ | .parenthesized | .asType | .satisfies | .nonNull
  | .instantiation => true
  | _ => false

def Kind.isTarget (k : Kind) : Bool :=
  k.isSimpleTarget || k == .arrayPattern || k == .objectPattern || k == .missing

end Revue.Syntax
