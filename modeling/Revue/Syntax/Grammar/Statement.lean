import Revue.Syntax.Grammar.Expression

/-!
# Statements

Statements and the declarations among them. A statement ends at a semicolon, which belongs to it,
or where one may be left out.
-/

namespace Revue.Syntax
open Text

variable (g : Grammar) (c : Context)

def headExpr : Parser Tree := do
  expect .lparen
  let inner ← expression g c.bracketed
  expect .rparen
  return inner

def declarator (isLoop : Bool) (keyword : String) : Parser Tree := do
  let start ← position
  let target ← g.pattern c
  let isName := target.name?.isSome
  if isName then
    let _ ← eat .bang
  let target ← annotated g c start target
  let isEach := isLoop && ((← atKeyword .kIn) || (← atKeyword .kOf))
  if ← guarded (!isEach) (eat .eq) then
    let value ← g.assign c
    close .declarator start [target.as .name, value.as .initializer]
  else
    let mayLack := isName || isEach || c.isAmbient || (keyword == "const" && !isLoop)
    if !mayLack then fail
    close .declarator start [target.as .name]

/-- Declared names with commas between them. The list may stop before a name at a semicolon or at
the end of the text. -/
def declarators (isLoop : Bool) (keyword : String) : Parser (List Tree) := do
  let names ← iterate
    (fun (names, goesOn) => do
      let l ← lexeme
      if !goesOn || l.isMark .semi || l == .eof then return none
      let name ← declarator g c isLoop keyword
      return some (name.as .declarator :: names, ← eat .comma))
    ([], true)
  return names.1.reverse

def atEach : Parser Bool := return (← atKeyword .kIn) || (← atKeyword .kOf)

/-- Whether the head of a loop goes on without the variable that it should declare. -/
def lacksVariable : Parser Bool := looksLike do
  if !(← atEach) then return false
  skip
  let _ ← g.assign c
  atMark .rparen

def skipToEnding : Parser Unit := do
  let _ ← many do
    if ← eatEnding then return none
    if (← lexeme) == .bad then fail
    skip
    return some ()
  return ()

/-- A declaration of variables from its keyword on. What stands behind the last variable is passed
over. -/
def variablesDef (start : Nat) (isLoop : Bool) : Parser Tree := do
  match ← lexeme with
  | .word keyword _ =>
    skip
    if ← guarded isLoop (lacksVariable g c) then close (.variables keyword) start []
    else
      let names ← declarators g c isLoop keyword
      let isDone ← if isLoop then pure true else eatEnding
      if !isDone then
        let _ ← recover (expression g c)
        skipToEnding
      close (.variables keyword) start names
  | _ => fail

def atLetDeclaration : Parser Bool := do
  if ← atKeyword .kLet then
    let next := (← peek).lexeme
    return next.isIdentifier || next.isMark .lbrace || next.isMark .lbracket
  else return false

def atUsingDeclaration : Parser Bool := do
  if ← atKeyword .kUsing then
    let next ← peek
    return next.lexeme.isReference && !next.breakBefore
  else return false

def atAwaitUsing : Parser Bool := looksLike do
  expectKeyword .kAwait
  atUsingDeclaration

def usingDef (start : Nat) : Parser Tree := do
  skip
  let names ← declarators g c false "using"
  expectEnding
  close .usingVariables start names

def ifStatement (start : Nat) : Parser Tree := do
  skip
  let test ← headExpr g c
  let yes ← g.statement c false
  if ← eatKeyword .kElse then
    let no ← g.statement c false
    close .ifStatement start [test.as .test, yes.as .consequent, no.as .alternate]
  else close .ifStatement start [test.as .test, yes.as .consequent]

def whileStatement (start : Nat) : Parser Tree := do
  skip
  let test ← headExpr g c
  let body ← g.statement c false
  close .whileStatement start [test.as .test, body.as .body]

def doStatement (start : Nat) : Parser Tree := do
  skip
  let body ← g.statement c false
  expectKeyword .kWhile
  let test ← headExpr g c
  let _ ← eatEnding
  close .doStatement start [test.as .test, body.as .body]

/-- The head of a loop after its first part and the semicolon. The semicolon behind the test may be
left out. -/
def loopHead (init : List Tree) : Parser (Kind × List Tree) := do
  let test ← if ← eat .semi then pure [] else do
      let test ← expression g c
      let _ ← eat .semi
      pure [test.as .test]
  let update ← if ← atMark .rparen then pure [] else pure [(← expression g c).as .update]
  return (.forStatement, init ++ test ++ update)

def eachHead (left : Tree) : Parser (Kind × List Tree) := do
  if ← eatKeyword .kOf then
    let right ← g.assign c
    return (.forOfStatement, [left.as .left, right.as .right])
  else
    expectKeyword .kIn
    let right ← expression g c
    return (.forInStatement, [left.as .left, right.as .right])

def headAfter (left : Tree) : Parser (Kind × List Tree) := do
  if ← atEach then eachHead g c left
  else
    expect .semi
    loopHead g c [left.as .initializer]

/-- Whether an expression is the word that declares the variable behind it. -/
def isUsingWord : Tree → Bool
  | .node _ (.name text) _ _ => text == "using"
  | .node _ .await _ [inner] => inner.name? == some "using"
  | _ => false

def atUsingVariable : Parser Bool := do
  return !(← atKeyword .kOf) && ((← peekKeyword .kOf) || (← peekKeyword .kIn))

def forHead : Parser (Kind × List Tree) := do
  let c := { c.bracketed with inLoopHead := true }
  let start ← position
  if (← atKeyword .kConst) || (← atLetDeclaration) then
    headAfter g c (← variablesDef g c start true)
  else if ← atKeyword .kVar then
    headAfter g c (← variablesDef g { c with allowIn := false } start true)
  else if ← eat .semi then loopHead g c []
  else
    let init ← expression g { c with allowIn := false }
    if isUsingWord init && (← atUsingVariable) then
      let name ← bindingName c
      let target ← close .declarator start [name.as .name]
      let whole ← close .usingVariables start [target.as .declarator]
      if !(← atKeyword .kOf) then fail
      eachHead g c whole
    else if ← atEach then eachHead g c (← asPattern .target init)
    else headAfter g c init

/-- A loop with a head. Only one over elements may wait for them. -/
def forLoop (start : Nat) : Parser Tree := do
  skip
  let waits ← eatKeyword .kAwait
  expect .lparen
  let (kind, parts) ← forHead g c
  expect .rparen
  let body ← g.statement c false
  if waits && kind != .forOfStatement then fail
  close kind start (parts ++ [body.as .body])

def switchCase? : Parser (Option Tree) := do
  let start ← position
  let isCase ← atKeyword .kCase
  if isCase || (← atKeyword .kDefault) then
    skip
    let test ← if isCase then pure [(← expression g c.bracketed).as .test] else pure []
    expect .colon
    let body ← many do
      if (← atKeyword .kCase) || (← atKeyword .kDefault) || (← atMark .rbrace) then return none
      return some ((← g.statement c true).as .statement)
    return some ((← close .switchCase start (test ++ body)).as .clause)
  else return none

/-- A switch. At most one of its cases has no test. -/
def switchStatement (start : Nat) : Parser Tree := do
  skip
  let value ← headExpr g c
  expect .lbrace
  let cases ← many (switchCase? g c)
  if (cases.filter fun t => (t.get? .test).isNone).length > 1 then fail
  expect .rbrace
  close .switchStatement start (value.as .operand :: cases)

def catchClause : Parser Tree := do
  let start ← position
  expectKeyword .kCatch
  let param ← if ← eat .lparen then do
      let paramStart ← position
      let target ← g.pattern c
      let target ← annotated g c paramStart target
      expect .rparen
      pure [target.as .param]
    else pure []
  let body ← block g c
  close .catchClause start (param ++ [body.as .body])

def finallyBlock? : Parser (List Tree) := do
  if ← eatKeyword .kFinally then return [(← block g c).as .finalizer] else return []

def tryStatement (start : Nat) : Parser Tree := do
  skip
  let body ← block g c
  let handler ← if ← atKeyword .kCatch then pure [(← catchClause g c).as .handler] else pure []
  let finalizer ← finallyBlock? g c
  close .tryStatement start (body.as .body :: (handler ++ finalizer))

/-- A handler without the block that it belongs to. Nothing is kept of it but its first word. -/
def strayHandler : Parser Tree := do
  let span := (← get).token.span
  if ← atKeyword .kCatch then
    let _ ← recover (catchClause g c)
  let _ ← recover (finallyBlock? g c)
  return .node .item .expressionStatement span [.node .operand .missing span []]

def returnStatement (start : Nat) : Parser Tree := do
  skip
  if ← eatEnding then close .returnStatement start []
  else
    let value ← expression g c.bracketed
    expectEnding
    close .returnStatement start [value.as .operand]

def throwStatement (start : Nat) : Parser Tree := do
  skip
  if ← afterBreak then fail
  let value ← expression g c.bracketed
  expectEnding
  close .throwStatement start [value.as .operand]

def jumpStatement (kind : Kind) (start : Nat) : Parser Tree := do
  skip
  if ← eatEnding then close kind start []
  else
    let label ← identifier c
    expectEnding
    close kind start [label.as .label]

def withStatement (start : Nat) : Parser Tree := do
  slip
  skip
  let object ← headExpr g c
  let body ← g.statement c false
  close .withStatement start [object.as .object, body.as .body]

/-- The key of a member of an enumeration. Nothing is kept of an expression in brackets. -/
def enumKey : Parser Tree := do
  match ← lexeme with
  | .string _ | .number _ => propertyKey g c
  | .mark .lbracket =>
    let start ← position
    let _ ← computedKey g c
    close .computed start []
  | _ => anyName

/-- A member of an enumeration and the comma after it, which may be left out. Where something else
stands behind a key, two tokens are passed over. -/
def enumMember : Parser Tree := do
  let start ← position
  let key ← enumKey g c
  if ← eat .eq then
    let value ← g.assign c.bracketed
    let whole ← close .enumMember start [key.as .key, value.as .value]
    let _ ← eat .comma
    return whole
  else
    let whole ← close .enumMember start [key.as .key]
    if ← atMark .rbrace then return whole
    if !(← eat .comma) then
      skip
      if (← lexeme) == .eof then breakDown
      skip
    return whole

def enumRest (start : Nat) : Parser Tree := do
  let name ← anyName
  expect .lbrace
  let members ← many do
    if ← atMark .rbrace then return none
    return some ((← enumMember g c).as .member)
  expect .rbrace
  close .enumDef start (name.as .name :: members)

def skipToBrace : Parser Unit := do
  let _ ← many do
    let l ← lexeme
    if l.isMark .lbrace then return none
    if l == .eof || l == .bad then fail
    skip
    return some ()
  return ()

/-- An interface after its keyword. A second list of bases is passed over. -/
def interfaceRest (start : Nat) : Parser Tree := do
  let name ← anyName
  let generics ← typeParameters? g c
  let bases ← if ← eatKeyword .kExtends then heritageList g c else pure []
  if ← atKeyword .kExtends then skipToBrace
  let members ← typeMembers g c
  close .interfaceDef start (name.as .name :: (generics ++ bases ++ members))

def aliasRest (start : Nat) : Parser Tree := do
  let name ← anyName
  let generics ← typeParameters? g c
  expect .eq
  let type ← g.type c.inType
  expectEnding
  close .aliasDef start (name.as .name :: type.as .type :: generics)

def namespaceBlock : Parser Tree := do
  let start ← position
  expect .lbrace
  let items ← many do
    if ← atMark .rbrace then return none
    return some ((← g.moduleItem c).as .item)
  expect .rbrace
  close .namespaceBlock start items

def namespaceName : Parser Tree := do
  let start ← position
  let first ← anyName
  let rest ← many do
    if ← eat .dot then return some ((← anyName).as .name) else return none
  if rest.isEmpty then return first else close .qualifiedName start (first.as .name :: rest)

def namespaceRest (start : Nat) : Parser Tree := do
  let name ← namespaceName
  let body ← namespaceBlock g c
  close .namespaceDef start [name.as .name, body.as .body]

def ambientModuleRest (start : Nat) : Parser Tree := do
  skip
  if ← atMark .lbrace then
    let body ← namespaceBlock g c
    close .namespaceDef start [body.as .body]
  else
    expectEnding
    close .namespaceDef start []

/-- A declaration that starts with a word that is not reserved. Where the word could be a name as
well, what follows it decides, unless `isSure`. -/
def wordDeclaration? (start : Nat) (marks : List Tree) (isSure : Bool) :
    Parser (Option Tree) := do
  let next ← peek
  let onLine := !next.breakBefore
  let declares (condition : Bool) (p : Parser Tree) : Parser (Option Tree) := do
    if isSure || condition then
      skip
      return some (← p)
    else return none
  match ← lexeme with
  | .word _ (some .kAbstract) =>
    declares (next.lexeme.isKeyword .kClass && onLine) (classDef g c start marks true)
  | .word _ (some .kEnum) => declares (next.lexeme.isWord && onLine) (enumRest g c start)
  | .word _ (some .kInterface) => declares (next.lexeme.isWord && onLine) (interfaceRest g c start)
  | .word _ (some .kType) => declares (next.lexeme.isWord && onLine) (aliasRest g c start)
  | .word _ (some .kNamespace) => declares next.lexeme.isReference (namespaceRest g c start)
  | .word _ (some .kModule) =>
    if ← if isSure then afterBreak else pure next.breakBefore then return none
    match next.lexeme with
    | .string _ => declares true (ambientModuleRest g { c with isAmbient := true } start)
    | l => declares l.isReference (namespaceRest g c start)
  | .word _ (some .kGlobal) =>
    if next.lexeme.isMark .lbrace then return some (← ambientModuleRest g c start) else return none
  | _ => return none

def ambientDeclaration? (start : Nat) (marks : List Tree) : Parser (Option Tree) := do
  let c := { c with isAmbient := true }
  match ← lexeme with
  | .word _ (some .kFunction) => return some (← functionDef g c start false .declaration)
  | .word _ (some .kClass) => return some (← classDef g c start marks true)
  | .word _ (some .kConst) =>
    if ← peekKeyword .kEnum then
      skip
      skip
      return some (← enumRest g c start)
    else return some (← variablesDef g c start false)
  | .word _ (some .kVar) | .word _ (some .kLet) => return some (← variablesDef g c start false)
  | .word _ (some .kGlobal) => return some (← ambientModuleRest g c start)
  | _ => wordDeclaration? g c start marks true

def Lexeme.canBeDeclared (l : Lexeme) : Bool :=
  [Keyword.kFunction, .kClass, .kConst, .kVar, .kLet, .kGlobal, .kAbstract, .kEnum, .kInterface,
    .kModule, .kNamespace, .kType].any l.isKeyword

def expressionStatement (start : Nat) : Parser Tree := do
  let inner ← expression g c.bracketed
  let name := inner.name?
  if ← guarded name.isSome (eat .colon) then
    let body ← g.statement c false
    close .labeledStatement start [inner.as .label, body.as .body]
  else if ← guarded (name == some "abstract" || name == some "static") (eatKeyword .kInterface) then
    interfaceRest g c start
  else if ← eatEnding then close .expressionStatement start [inner.as .operand]
  else if ← atBinaryMark then
    let whole ← g.binaryTail c.bracketed 0 inner
    close .expressionStatement start [whole.as .operand]
  else fail

def wordStatement (start : Nat) (marks : List Tree) : Parser Tree := do
  let s ← get
  let wordStart ← position
  let declared ← if (← atKeyword .kDeclare) && (← peek).lexeme.canBeDeclared then do
      skip
      ambientDeclaration? g c wordStart marks
    else wordDeclaration? g c wordStart marks false
  match declared with
  | some t => return t
  | none =>
    set s
    expressionStatement g c start

/-- A statement that imports a module while it runs. Nothing need end it. -/
def importStatement (start : Nat) : Parser Tree := do
  let next := (← peek).lexeme
  if !(next.isMark .lparen || next.isMark .dot) then fail
  let inner ← expression g c
  let _ ← eatEnding
  close .expressionStatement start [inner.as .operand]

def keywordStatement (k : Keyword) (start : Nat) (marks : List Tree) (mayDeclare : Bool) :
    Parser Tree := do
  match k with
  | .kBreak => jumpStatement c .breakStatement start
  | .kContinue => jumpStatement c .continueStatement start
  | .kDebugger =>
    skip
    expectEnding
    close .debuggerStatement start []
  | .kDo => doStatement g c start
  | .kFor => forLoop g c start
  | .kFunction => functionDef g c (← position) false .declaration
  | .kClass => classDef g c start marks true
  | .kIf => ifStatement g c start
  | .kReturn => returnStatement g c start
  | .kSwitch => switchStatement g c start
  | .kThrow => throwStatement g c start
  | .kTry => tryStatement g c start
  | .kCatch | .kFinally => strayHandler g c
  | .kWith => withStatement g c start
  | .kWhile => whileStatement g c start
  | .kVar => variablesDef g c.bracketed start false
  | .kConst =>
    if !mayDeclare then fail
    if ← peekKeyword .kEnum then
      skip
      skip
      enumRest g c start
    else variablesDef g c.bracketed start false
  | .kLet =>
    if mayDeclare && (← atLetDeclaration) then variablesDef g c.bracketed start false
    else expressionStatement g c start
  | .kUsing =>
    if mayDeclare && (← atUsingDeclaration) then usingDef g c.bracketed start
    else expressionStatement g c start
  | .kAwait =>
    if mayDeclare && (← atAwaitUsing) then
      skip
      usingDef g c.bracketed start
    else expressionStatement g c start
  | .kAsync =>
    if ← atAsyncFunction then functionExpr g c .declaration else expressionStatement g c start
  | .kImport => importStatement g c (← position)
  | .kExport => fail
  | k => if k.isReserved then expressionStatement g c start else wordStatement g c start marks

def statementOf (mayDeclare : Bool) : Parser Tree := do
  let c := c.inStatement
  let start ← position
  let marks ← decorators (g.decorator c)
  match ← lexeme with
  | .mark .lbrace => block g c
  | .mark .semi => leaf .empty
  | .word _ (some k) => keywordStatement g c k start marks mayDeclare
  | _ => expressionStatement g c start

end Revue.Syntax
