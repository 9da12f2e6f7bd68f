import Revue.Syntax.Grammar.TypeExpr

/-!
# Markup

Elements, their attributes and their children. The text between tags is not read as tokens, so what
follows the last token of an element is read as a child if the element is a child itself.

A child that cannot be read ends the children; the closing tag of the element is then looked for
where reading stopped.
-/

namespace Revue.Syntax
open Text

variable (g : Grammar) (c : Context)

def markupName : Parser (Tree × String) := do
  if !(← atWord) then fail
  rereadMarkupName
  match ← lexeme with
  | .markupName name => return (← leaf (.name name), name)
  | _ => fail

def markupNames (mark : Mark) : Parser (List (Tree × String)) :=
  many do
    if ← eat mark then return some (← markupName) else return none

/-- The name of an element, as a node and as a text. Nothing is known of a member of a name with a
colon. -/
def tagName : Parser (Tree × String) := do
  let start ← position
  let (first, text) ← markupName
  if ← eat .colon then
    let (second, text') ← markupName
    if ← eat .dot then
      let _ ← markupName
      breakDown
    return (← close .namespacedName start [first.as .name, second.as .name], text ++ ":" ++ text')
  else if ← atMark .dot then
    let rest ← markupNames .dot
    let parts := first :: rest.map (·.1)
    let texts := text :: rest.map (·.2)
    return (← close .memberTag start (parts.map (·.as .name)), ".".intercalate texts)
  else return (first, text)

def attributeName : Parser Tree := do
  let start ← position
  let (first, _) ← markupName
  if ← eat .colon then
    let (second, _) ← markupName
    close .namespacedName start [first.as .name, second.as .name]
  else return first

def closeHere (kind : Kind) (start : Nat) (parts : List Tree) : Parser Tree := fun s =>
  .ok (.node .item kind ⟨start, s.token.span.stop⟩ parts, s)

/-- Goes on behind a part of markup, which is a child of an element or is not. -/
def skipPast (isChild : Bool) : Parser Unit :=
  if isChild then skipToChild else skip

/-- An expression in braces. Only a child may be empty or have dots. -/
def container (isChild : Bool) : Parser Tree := do
  let start ← position
  expect .lbrace
  if ← atMark .rbrace then
    if !isChild then fail
    let whole ← closeHere .emptyContainer start []
    skipPast isChild
    return whole
  else
    let hasDots ← guarded isChild (eat .dots)
    let inner ← expression g { c with expectsColon := false }
    if !(← atMark .rbrace) then fail
    let whole ← closeHere (if hasDots then .spreadChild else .container) start [inner.as .operand]
    skipPast isChild
    return whole

def attributeValue : Parser Tree := do
  match ← lexeme with
  | .string value => leaf (.string value)
  | .mark .lbrace => container g c false
  | .mark .lt => g.element c false
  | _ => fail

def tagAttribute : Parser Tree := do
  let start ← position
  if ← eat .lbrace then
    expect .dots
    let inner ← g.assign { c with expectsColon := false }
    expect .rbrace
    close .spreadAttribute start [inner.as .operand]
  else
    let name ← attributeName
    if ← atMark .eq then
      skipInTag
      let value ← attributeValue g c
      close .attribute start [name.as .name, value.as .value]
    else close .attribute start [name.as .name]

def tagAttributes : Parser (List Tree) :=
  many do
    if ← atAnyMark [.slash, .gt] then return none
    return some ((← tagAttribute g c).as .attribute)

def child? : Parser (Option Tree) := do
  match ← lexeme with
  | .markupText =>
    let text ← closeHere .markupText (← position) []
    skipToChild
    return some (text.as .child)
  | .mark .lbrace => return some ((← container g c true).as .child)
  | .mark .lt =>
    if ← peekMark .slash then return none
    return some ((← g.element c true).as .child)
  | _ => fail

/-- The children of an element whose opening tag ends with the token at hand, and the start of its
closing tag. -/
def children : Parser (List Tree × Nat) := do
  skipToChild
  let inner ← many (return (← recover (child? g c)).join)
  let start ← position
  expect .lt
  expect .slash
  return (inner, start)

def fragment (start : Nat) (isChild : Bool) : Parser Tree := do
  let (inner, _) ← children g c
  if !(← atMark .gt) then fail
  let whole ← closeHere .fragment start inner
  skipPast isChild
  return whole

def elementRest (start : Nat) (isChild : Bool) (name : Tree) (text : String) (types : List Tree) :
    Parser Tree := do
  let attrs ← tagAttributes g c
  let opening := name.as .tag :: (attrs ++ types)
  if ← eat .slash then
    if !(← atMark .gt) then fail
    let tag ← closeHere .openingTag start opening
    let whole ← closeHere .element start [tag.as .opening]
    skipPast isChild
    return whole
  else
    let tag ← closeHere .openingTag start opening
    let (inner, closingStart) ← children g c
    let (closingName, closingText) ← tagName
    if !(← atMark .gt) then fail
    let closing ← closeHere .closingTag closingStart [closingName.as .tag]
    let whole ← closeHere .element start (tag.as .opening :: (inner ++ [closing.as .closing]))
    skipPast isChild
    if closingText != text then fail
    return whole

def markupElement (isChild : Bool) : Parser Tree := do
  let start ← position
  expect .lt
  if ← atMark .gt then fragment g c start isChild
  else
    let (name, text) ← tagName
    let types ← if ← atMark .lt then attempt (typeArguments g c) else pure none
    elementRest g c start isChild name text (types.getD [])

end Revue.Syntax
