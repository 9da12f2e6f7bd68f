import Revue.Syntax.Grammar.Statement

/-!
# Imports and exports

The items of a module: statements, what it takes from other modules, and what it gives to them.
-/

namespace Revue.Syntax
open Text

variable (g : Grammar) (c : Context)

def moduleSource : Parser Tree := do
  match ← lexeme with
  | .string value => return (← leaf (.string value)).as .source
  | _ => fail

def importAttributes? : Parser (List Tree) := do
  if !(← afterBreak) && ((← atKeyword .kWith) || (← atKeyword .kAssert)) then
    skip
    return [(← objectLiteral g c).as .attributes]
  else return []

def fromClause : Parser (List Tree) := do
  expectKeyword .kFrom
  let source ← moduleSource
  let attributes ← importAttributes? g c
  expectEnding
  return source :: attributes

def foreignName : Parser Tree := do
  match ← lexeme with
  | .string value => leaf (.string value)
  | _ => anyName

def importedAs (start : Nat) (name : Tree) : Parser Tree := do
  if ← eatKeyword .kAs then
    let localName ← bindingName c
    close .importSpecifier start [localName.as .name, name.as .source]
  else
    let reserved : Bool := match name.kind with
      | .name text => (Keyword.ofName? text).any fun k => k.isReserved || k.isReservedInModules
      | _ => true
    if reserved then fail
    close .importSpecifier start [name.as .name]

def importedAfterType (start : Nat) (word : Tree) : Parser Tree := do
  if !(← atWord) then importedAs c start word
  else
    let second ← anyName
    if second.name? != some "as" then importedAs c start second
    else if !(← atWord) then close .importSpecifier start [second.as .name]
    else
      let third ← bindingName c
      if third.name? == some "as" && (← atWord) then
        let localName ← bindingName c
        close .importSpecifier start [localName.as .name, second.as .source]
      else close .importSpecifier start [third.as .name, word.as .source]

def importSpecifier : Parser Tree := do
  let start ← position
  let name ← foreignName
  if name.name? == some "type" then importedAfterType c start name else importedAs c start name

/-- A name for another module or for a name with dots. -/
def importEqualsRest (start : Nat) (name : Tree) : Parser Tree := do
  expect .eq
  let target ← if (← atKeyword .kRequire) && (← peekMark .lparen) then do
      skip
      skip
      let source ← moduleSource
      expect .rparen
      pure source
    else entityName (identifier c)
  expectEnding
  close .importEquals start [name.as .name, target]

/-- When an imported module runs. -/
inductive ImportPhase where
  | evaluation
  | source
  | defer
deriving DecidableEq

def ImportPhase.ofName? : Option String → Option ImportPhase
  | some "source" => some .source
  | some "defer" => some .defer
  | _ => none

def importedNames (phase : ImportPhase) : Parser (List Tree) := do
  let start ← position
  if ← guarded (phase ≠ .source) (eat .star) then
    expectKeyword .kAs
    let name ← bindingName c
    return [(← close .importSpecifier start [name.as .name]).as .specifier]
  else if ← guarded (phase = .evaluation) (eat .lbrace) then
    let names ← commaList (atMark .rbrace) (importSpecifier c)
    expect .rbrace
    return names.map (·.as .specifier)
  else return []

def importEnd (start : Nat) (phase : ImportPhase) (specifiers : List Tree) : Parser Tree := do
  let names ← importedNames c phase
  let parts ← fromClause g c
  close .importDef start (specifiers ++ names ++ parts)

def importAfterName (start : Nat) (phase : ImportPhase) (name : Tree) : Parser Tree := do
  if !(← atKeyword .kFrom) then expect .comma
  let specifier : Tree := .node .specifier .importSpecifier name.span [name.as .name]
  importEnd g c start phase [specifier]

/-- An import after its default name, which may also be a word that asks for a phase. -/
def importAfterDefault (start : Nat) (name : Tree) : Parser Tree := do
  if ← atMark .eq then importEqualsRest c start name
  else match ImportPhase.ofName? name.name? with
    | none => importAfterName g c start .evaluation name
    | some phase =>
      if ← atAnyMark [.lbrace, .star] then importEnd g c start phase []
      else if ((← atReference) && !(← atKeyword .kFrom)) || (← peekKeyword .kFrom) then
        importAfterName g c start phase (← bindingName c)
      else importAfterName g c start .evaluation name

def importAfterType (start : Nat) (word : Tree) : Parser Tree := do
  if ← atAnyMark [.star, .lbrace] then importEnd g c start .evaluation []
  else if (← atReference) && (!(← atKeyword .kFrom) || (← peekKeyword .kFrom)) then
    let name ← bindingName c
    importAfterDefault g c start name
  else if (← atKeyword .kFrom) && (← peekMark .eq) then
    let name ← anyName
    importAfterDefault g c start name
  else importAfterDefault g c start word

def importItem : Parser Tree := do
  let start ← position
  expectKeyword .kImport
  match ← lexeme with
  | .string _ =>
    let source ← moduleSource
    let attributes ← importAttributes? g c
    expectEnding
    close .importDef start (source :: attributes)
  | _ =>
    if ← atReference then
      let isType ← atKeyword .kType
      let name ← bindingName c
      if isType then importAfterType g c start name else importAfterDefault g c start name
    else importEnd g c start .evaluation []

def exportedAs (start : Nat) (name : Tree) : Parser Tree := do
  if ← eatKeyword .kAs then
    let label ← foreignName
    close .exportSpecifier start [name.as .name, label.as .label]
  else close .exportSpecifier start [name.as .name]

def exportedAfterType (start : Nat) (word : Tree) : Parser Tree := do
  let second ← anyName
  if second.name? != some "as" then exportedAs start second
  else if !(← atWord) then close .exportSpecifier start [second.as .name]
  else
    let third ← anyName
    if third.name? == some "as" && (← atWord) then
      let label ← anyName
      close .exportSpecifier start [second.as .name, label.as .label]
    else close .exportSpecifier start [word.as .name, third.as .label]

def exportSpecifier : Parser Tree := do
  let start ← position
  let name ← foreignName
  if name.name? == some "type" && (← atWord) then exportedAfterType start name
  else exportedAs start name

def exportNames (start : Nat) : Parser Tree := do
  if ← eat .star then
    if ← eatKeyword .kAs then
      let name ← foreignName
      let parts ← fromClause g c
      close .exportNames start (name.as .specifier :: parts)
    else
      let parts ← fromClause g c
      close .exportAll start parts
  else
    expect .lbrace
    let names ← commaList (atMark .rbrace) exportSpecifier
    expect .rbrace
    let names := names.map (·.as .specifier)
    if ← atKeyword .kFrom then
      let parts ← fromClause g c
      close .exportNames start (names ++ parts)
    else
      let _ ← eatEnding
      close .exportNames start names

/-- The decorators of an exported declaration, which stand on one side of the word `export`. -/
def exportMarks (marks : List Tree) : Parser (List Tree) := do
  let after ← decorators (g.decorator c)
  if !marks.isEmpty && !after.isEmpty then fail
  return marks ++ after

def exportDefault (start : Nat) (marks : List Tree) : Parser Tree := do
  let marks ← exportMarks g c marks
  let inner ← position
  let declared (t : Tree) : Parser Tree :=
    close .exportDefaultDeclaration start [t.as .declaration]
  if (← atKeyword .kAbstract) && (← peekKeywordOnLine .kClass) then
    skip
    declared (← classDef g c inner marks false)
  else if (← atKeyword .kInterface) ||
      ((← atKeyword .kAbstract) && (← peekKeyword .kInterface)) then
    let _ ← eatKeyword .kAbstract
    let inner ← position
    skip
    declared (← interfaceRest g c inner)
  else if ← atKeyword .kClass then declared (← classDef g c inner marks false)
  else if (← atKeyword .kFunction) || (← atAsyncFunction) then
    declared (← functionExpr g c .exportDefault)
  else
    let value ← g.assign c.bracketed
    expectEnding
    close .exportDefaultExpression start [value.as .value]

def exportedDeclaration (start : Nat) (marks : List Tree) : Parser Tree := do
  let marks ← exportMarks g c marks
  let inner ← position
  let declared (t : Tree) : Parser Tree := close .exportDeclaration start [t.as .declaration]
  if ← atKeyword .kClass then declared (← classDef g c inner marks true)
  else if (← atKeyword .kFunction) || (← atAsyncFunction) then
    declared (← functionExpr g c .declaration)
  else if (← atKeyword .kConst) && (← peekKeyword .kEnum) then
    skip
    skip
    declared (← enumRest g c inner)
  else if (← atKeyword .kVar) || (← atKeyword .kConst) || (← atKeyword .kLet) then
    declared (← variablesDef g c.bracketed inner false)
  else exportNames g c start

def exportItem (marks : List Tree) : Parser Tree := do
  let start ← position
  expectKeyword .kExport
  let inner ← position
  let ambient ← if ← atKeyword .kDeclare then do
      skip
      ambientDeclaration? g c inner marks
    else pure none
  let word ← match ambient with
    | some t => pure (some t)
    | none =>
      if ← atWord then attempt? (wordDeclaration? g c inner marks true) else pure none
  match word with
  | some t => close .exportDeclaration start [t.as .declaration]
  | none =>
    if ← eatKeyword .kImport then
      if (← atKeyword .kType) && (← peek).lexeme.isReference then skip
      let name ← anyName
      importEqualsRest c start name
    else if ← eat .eq then
      let value ← expression g c.bracketed
      expectEnding
      close .exportEquals start [value.as .value]
    else if ← eatKeyword .kAs then
      expectKeyword .kNamespace
      let name ← identifier c
      expectEnding
      close .exportNamespace start [name.as .name]
    else if (← atKeyword .kType) && ((← peekMark .lbrace) || (← peekMark .star)) then
      skip
      exportNames g c start
    else if ← eatKeyword .kDefault then exportDefault g c start marks
    else exportedDeclaration g c start marks

def awaitItem : Parser Tree := do
  let start ← position
  let first ← awaitExpr g c
  let whole ← g.binaryTail c 0 first
  let _ ← eatEnding
  close .expressionStatement start [whole.as .operand]

def moduleItemOf : Parser Tree := do
  let s ← get
  let marks ← decorators (g.decorator c)
  match ← lexeme with
  | .word _ (some .kImport) =>
    let next := (← peek).lexeme
    if next.isMark .lparen || next.isMark .dot then g.statement c true else importItem g c
  | .word _ (some .kExport) => exportItem g c marks
  | .word _ (some .kAwait) => if ← atAwaitUsing then g.statement c true else awaitItem g c
  | _ =>
    set s
    g.statement c true

end Revue.Syntax
