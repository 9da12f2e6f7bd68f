import Revue.Syntax.Grammar.ClassDef

/-!
# Expressions

Operands with what follows them, operators, and arrow functions. Whether a parenthesis opens the
parameters of an arrow function shows only behind it, so its content is read as expressions that
may carry types, and is turned into patterns when an arrow follows.
-/

namespace Revue.Syntax
open Text

variable (g : Grammar) (c : Context)

def Lexeme.startsExpression : Lexeme → Bool
  | .word _ (some k) =>
    !k.isReserved || k == .kThis || k == .kSuper || k == .kFunction || k == .kClass || k == .kNew ||
      k == .kNull || k == .kTrue || k == .kFalse || k == .kTypeof || k == .kVoid || k == .kDelete ||
      k == .kImport || k == .kThrow
  | .word _ none | .privateName _ | .number _ | .bigInteger | .string _ | .template _ _ | .regex =>
    true
  | .mark m =>
    m == .lparen || m == .lbracket || m == .lbrace || m == .plus || m == .minus || m == .bang ||
      m == .tilde || m == .plusPlus || m == .minusMinus
  | _ => false

def arguments : Parser (List Tree) := do
  expect .lparen
  let inner := c.bracketed
  let args ← commaList (atMark .rparen) (spreadable g inner)
  expect .rparen
  return args.map (·.as .argument)

def templateExpr (isTagged : Bool) : Parser Tree := do
  let start ← position
  let parts ← templateParts isTagged (expression g c.bracketed)
  close .template start (parts.map (·.as .operand))

def arrayLiteral : Parser Tree := do
  let start ← position
  expect .lbracket
  let elements ← many do
    if ← atMark .rbracket then return none
    if ← eat .comma then return some []
    let element ← spreadable g c.bracketed
    if ← atMark .rbracket then return some [element.as .item]
    expect .comma
    return some [element.as .item]
  expect .rbracket
  close .array start elements.flatten

def objectMethod (start : Nat) (flags : FunctionFlags) (key : Tree) : Parser Tree := do
  let parts ← functionRest g { c with allowsSuper := true } flags []
  close (.objectMethod flags) start (key.as .key :: parts)

/-- A member of an object after the words `get`, `set` or `async`. Nothing is kept of what a getter
takes, and of what a setter takes only the first two. -/
def objectAccessor (start : Nat) (word : String) : Parser Tree := do
  let isGenerator ← if word == "async" then eat .star else pure false
  let key ← propertyKey g c
  if word == "async" then objectMethod g c start ⟨true, isGenerator⟩ key
  else
    let parts ← functionRest g { c with allowsSuper := true } {} []
    let body := parts.filter (·.role == .body)
    if word == "get" then
      close .objectGetter start (key.as .key :: (body ++ parts.filter (·.role == .returnType)))
    else
      let params := parts.filter (·.role == .param)
      close .objectSetter start (key.as .key :: (params.take 2 ++ body))

def objectShorthand (start : Nat) (key : Tree) (name : String) : Parser Tree := do
  let _ ← eat .question
  if ← eat .eq then
    let value ← g.assign c.bracketed
    close .shorthandDefault start [key.as .key, value.as .value]
  else if ← atAnyMark [.comma, .rbrace] then close .shorthand start [key.as .key]
  else if name == "get" || name == "set" || name == "async" then objectAccessor g c start name
  else fail

/-- A property of an object after its key and without a value. Only a name stands for a value by
itself; behind another key the value may be missing at the end of the object. -/
def objectKeyAlone (start : Nat) (key : Tree) : Parser Tree := do
  match key.kind with
  | .name name => objectShorthand g c start key name
  | _ =>
    if !(← atMark .rbrace) then fail
    let value ← close .missing start []
    close .property key.span.start [key.as .key, value.as .value]

def objectProperty : Parser Tree := do
  let start ← position
  if ← eat .dots then
    let inner ← g.assign c.bracketed
    close .spread start [inner.as .operand]
  else if ← eat .star then
    let key ← propertyKey g c
    objectMethod g c start ⟨false, true⟩ key
  else
    let _ ← eatAccessWord
    let key ← propertyKey g c
    if ← eat .colon then
      let value ← g.assign c.bracketed
      close .property key.span.start [key.as .key, value.as .value]
    else if ← atMethodRest then objectMethod g c start {} key
    else objectKeyAlone g c start key

/-- An object between braces. Whoever asks for one knows that it starts here. -/
def objectLiteral : Parser Tree := do
  let start ← position
  if !(← atMark .lbrace) then breakDown
  skip
  let inner := c.bracketed
  let properties ← commaList (atMark .rbrace) (objectProperty g inner)
  expect .rbrace
  close .object start (properties.map (·.as .item))

def arrowBody (isAsync : Bool) : Parser Tree := do
  if ← atMark .lbrace then return (← block g (c.inFunction ⟨isAsync, false⟩)).as .body
  else return (← g.assign { c with isAsync := isAsync, isGenerator := false }).as .body

def arrowRest (start : Nat) (isAsync : Bool) (params result generics : List Tree) :
    Parser Tree := do
  let body ← arrowBody g c isAsync
  close (.arrow isAsync) start (params.map (·.as .param) ++ [body] ++ generics ++ result)

def isArrow (t : Tree) : Bool :=
  match t.kind with
  | .arrow _ => true
  | _ => false

def missing (pos : Nat) : Tree :=
  .node .item .missing ⟨pos, pos⟩ []

def atBinaryMark : Parser Bool := do
  match ← lexeme with
  | .mark m => return m.isBinary
  | _ => return false

/-- Operands with binary operators between them. A first operand that is missing is let pass. -/
def binaryExpr : Parser Tree := do
  let start ← position
  match ← recover (g.unary c) with
  | some left => if isArrow left then return left else g.binaryTail c 0 left
  | none =>
    let isWord := (c.allowIn && (← atKeyword .kIn)) || (← atKeyword .kInstanceof)
    if isWord || (← atBinaryMark) then g.binaryTail c 0 (missing start) else fail

def assignmentRest (start : Nat) (left : Tree) : Parser Tree := do
  match ← lexeme with
  | .mark m =>
    if !m.isAssignment then return left
    let isPlain := m == .eq
    let target ← if isPlain then asPattern .target left else pure left
    if !isPlain && left.name?.any isUndeclarable then slip
    if !(if isPlain then target.kind.isTarget else target.kind.isSimpleTarget) then fail
    skip
    let right ← g.assign c
    close (.assign m.text) start [target.as .left, right.as .right]
  | _ => return left

/-- An item between parentheses: an expression, or a pattern that is none. -/
structure ParenItem where
  tree : Tree
  isPattern : Bool

def parenConditional (start : Nat) (test : Tree) : Parser Tree := do
  expect .question
  let yes ← g.assign { c with inConditional := true, expectsColon := true }
  expect .colon
  let no ← g.assign { c with inConditional := true, expectsColon := false }
  return .node .item .conditional ⟨start, no.span.stop⟩
    [test.as .test, yes.as .consequent, no.as .alternate]

/-- An item that starts with a name or with dots and a name, read without a conditional. -/
def parenOperand (start : Nat) : Parser Tree := do
  if ← eat .dots then
    let inner ← binaryExpr g c
    close .spread start [inner.as .operand]
  else
    let left ← binaryExpr g c
    assignmentRest g c start left

/-- Whether a question mark makes a parameter optional. -/
def marksOptional : Parser Bool := do
  let next := (← peek).lexeme
  return next.isMark .comma || next.isMark .colon || next.isMark .rparen || next.isMark .eq

def parenPattern (start : Nat) (t : Tree) : Parser ParenItem := do
  let target ← match t with
    | .node _ .spread _ [inner] => do
      let inner ← asPattern .parameter inner
      close .restPattern start [inner.as .operand]
    | t => asPattern .parameter t
  let target ← match target.kind with
    | .name _ | .arrayPattern | .objectPattern | .restPattern => annotated g c start target
    | .defaultPattern => annotatedDefault g c start target
    | _ => pure target
  if ← eat .eq then
    let right ← g.assign c
    return ⟨← close .defaultPattern start [target.as .left, right.as .right], true⟩
  else return ⟨target, true⟩

def withoutDots : Tree → Tree
  | .node _ .spread _ [inner] => inner
  | t => t

def parenItem : Parser ParenItem := do
  let first ← position
  modify fun s => { s with arrowAt := some first }
  let _ ← eatAccessWord
  let start ← position
  let isNamed ← if ← atMark .dots then pure (← peek).lexeme.isReference else atReference
  let t ← if isNamed then parenOperand g c start else spreadable g c
  if ← atMark .question then
    if ← marksOptional then
      skip
      if (withoutDots t).name?.isNone then fail
      parenPattern g c start t
    else if t.kind == .spread then return ⟨t, false⟩
    else
      let whole ← parenConditional g c start t
      if ← atMark .colon then parenPattern g c start whole else return ⟨whole, false⟩
  else if ← atMark .colon then parenPattern g c start t
  else return ⟨t, false⟩

/-- The parameter that an item is. Dots without a type are not covered. -/
def ParenItem.toParam (item : ParenItem) : Parser Tree := do
  if item.isPattern then return item.tree
  else match item.tree with
    | .node r .spread _ [inner] =>
      let inner ← asPattern .parameter inner
      return .node r .restPattern inner.span [inner.as .operand]
    | t => asPattern .parameter t

def ParenItem.isRest (item : ParenItem) : Bool :=
  item.tree.kind == .restPattern || item.tree.kind == .spread

/-- The parameters that some items are. An item before the last that takes the rest is passed
over. -/
def paramsOf (items : List ParenItem) : Parser (List Tree) := do
  let items := items.dropLast.filter (!·.isRest) ++ items.getLast?.toList
  let params ← items.mapM ParenItem.toParam
  if params.any bindsUndeclarable then slip
  return params

/-- What an arrow right behind an item makes of the items so far, last first. Behind a single name
it starts the body of a function, which becomes an item of its own. -/
def parenArrow (items : List ParenItem) : Parser (List ParenItem) := do
  match items with
  | [item] =>
    if (withoutDots item.tree).name?.isNone then return [item]
    let params ← paramsOf [item]
    let body ← arrowBody g c false
    let arrow ← close (.arrow false) item.tree.span.start (params.map (·.as .param) ++ [body])
    return [⟨arrow, false⟩, item]
  | _ => breakDown

def parenItems : Parser (List ParenItem) := do
  let items ← iterate
    (fun items => do
      if ← atMark .rparen then return none
      let item ← parenItem g c
      let items := item :: items
      let items ← if ← eat .arrow then parenArrow g c items else pure items
      if !(← atMark .rparen) then expect .comma
      return some items)
    []
  return items.reverse

/-- An arrow function with a result type, in a branch of a conditional expression. A first branch
goes on with a colon. -/
def conditionalArrow (start : Nat) (isAsync : Bool) (items : List ParenItem) :
    Parser (Option Tree) := do
  if c.inConditional && (← atMark .colon) then
    attempt do
      let result ← typeOrPredicate g c .colon
      expect .arrow
      let params ← paramsOf items
      let t ← arrowRest g c start isAsync params [result.as .returnType] []
      if c.expectsColon && !(← atMark .colon) then fail
      return t
  else return none

def arrowResult? : Parser (Option Tree) := do
  if !c.expectsColon && (← atMark .colon) then
    attempt do
      let result ← typeOrPredicate g c .colon
      if ← atMark .arrow then return result else fail
  else return none

/-- An arrow function with operators behind its body, if the body is a block. -/
def arrowOperation (t : Tree) : Parser Tree := do
  let hasBlock := t.parts.any fun p => p.role == .body && p.kind == .block
  if hasBlock && (← atBinaryMark) then g.binaryTail c 0 t else return t

def parenthesized (start : Nat) (items : List ParenItem) : Parser Tree := do
  if items.any (·.isPattern) || items.any (·.tree.kind == .spread) then fail
  match items with
  | [] => fail
  | [item] => close .parenthesized start [item.tree.as .operand]
  | first :: rest =>
    let stop := ((rest.getLast?).map (·.tree.span.stop)).getD first.tree.span.stop
    let inner : Tree := .node .operand .sequence ⟨first.tree.span.start, stop⟩
      (items.map (·.tree.as .operand))
    close .parenthesized start [inner]

/-- An expression in parentheses, an arrow function, or the arguments of a call of `async`. -/
def parenOrArrow (canBeArrow : Bool) (asyncWord : Option Tree) : Parser Tree := do
  let open_ ← position
  let start := (asyncWord.map (·.span.start)).getD open_
  let isAsync := asyncWord.isSome
  expect .lparen
  let items ← parenItems g c.bracketed
  expect .rparen
  match ← conditionalArrow g c start isAsync items with
  | some t => return t
  | none =>
    let result ← arrowResult? g c
    if items.any (·.isPattern) || result.isSome || (← atMark .arrow) then
      if (← afterBreak) || !canBeArrow then fail
      expect .arrow
      let params ← paramsOf items
      let results := result.toList.map (·.as .returnType)
      arrowOperation g c (← arrowRest g c start isAsync params results [])
    else match asyncWord with
      | some word => close .call start (word.as .callee :: items.map (·.tree.as .argument))
      | none => parenthesized start items

def genericAsyncArrow (start : Nat) : Parser Tree := do
  let generics ← typeParameters g c
  expect .lparen
  let ps ← parameters g c (g.decorator c)
  let params := ps.filterMap (·.get? .value)
  let result ← returnType? g c
  expect .arrow
  arrowRest g c start true params result generics

def asyncNamed (start : Nat) (word : Tree) : Parser Tree := do
  if c.inLoopHead && (← atKeyword .kOf) && !(← peekMark .arrow) then return word
  let param ← bindingName c
  if param.name? == some "as" && !(← atMark .arrow) then
    let type ← g.type c.inType
    close .asType start [word.as .operand, type.as .type]
  else
    expect .arrow
    arrowRest g c start true [param] [] []

def nameOrArrow (canBeArrow : Bool) (start : Nat) (name : Tree) : Parser Tree := do
  if canBeArrow && !(← afterBreak) && (← atMark .arrow) then
    if name.name?.any isUndeclarable then slip
    skip
    arrowRest g c start false [name] [] []
  else return name

def asyncPrimary (canBeArrow : Bool) : Parser Tree := do
  let start ← position
  let next ← peek
  if next.lexeme.isKeyword .kFunction && !next.breakBefore then functionExpr g c .expression
  else
    let generic ← if canBeArrow && next.lexeme.isMark .lt then
        attempt (do
          skip
          genericAsyncArrow g c start)
      else pure none
    match generic with
    | some t => return t
    | none =>
      let word ← anyName
      let mayFollow := canBeArrow && !next.breakBefore
      if mayFollow && (← atMark .lparen) then parenOrArrow g c canBeArrow (some word)
      else if mayFollow && (← atReference) then asyncNamed g c start word
      else nameOrArrow g c canBeArrow start word

def namesVariable : Option Keyword → Bool
  | some k => k == .kLet || k == .kAwait || !(k.isReserved || k.isReservedInModules)
  | none => true

def namePrimary (keyword : Option Keyword) (canBeArrow : Bool) : Parser Tree := do
  if !namesVariable keyword then fail
  let start ← position
  let name ← identifier c
  nameOrArrow g c canBeArrow start name

/-- A class with the decorators in front of it. Decorators may also stand in front of a name, where
they mean nothing. -/
def decoratedPrimary (canBeArrow : Bool) : Parser Tree := do
  let start ← position
  let marks ← decorators (g.decorator c)
  match ← lexeme with
  | .word _ (some .kClass) => classDef g c start marks false
  | .word _ keyword => namePrimary g c keyword canBeArrow
  | _ => privateName

def wordPrimary (word : String) (keyword : Option Keyword) (canBeArrow : Bool) : Parser Tree := do
  match keyword with
  | some .kThis => leaf .this
  | some .kNull | some .kTrue | some .kFalse => leaf (.constant word)
  | some .kFunction => functionExpr g c .expression
  | some .kClass => decoratedPrimary g c canBeArrow
  | some .kAsync => asyncPrimary g c canBeArrow
  | _ => namePrimary g c keyword canBeArrow

def primary : Parser Tree := do
  let s ← get
  let canBeArrow := s.arrowAt == some s.token.span.start
  match s.token.lexeme with
  | .word word keyword => wordPrimary g c word keyword canBeArrow
  | .privateName name => leaf (.privateName name)
  | .string value => leaf (.string value)
  | .number spelling => leaf (.number spelling)
  | .bigInteger => leaf .bigInteger
  | .template _ _ => templateExpr g c false
  | .mark .lparen => parenOrArrow g c canBeArrow none
  | .mark .lbracket => arrayLiteral g c
  | .mark .lbrace => objectLiteral g c
  | .mark .atSign => decoratedPrimary g c canBeArrow
  | .mark .slash | .mark .slashEq =>
    rereadRegex
    leaf .regex
  | _ => fail

/-- Whether an expression is an optional chain, which what follows it goes on with. -/
def isChain : Tree → Bool
  | .node _ (.chain _) _ _ => true
  | .node _ .nonNull _ [inner] => isChain inner
  | _ => false

/-- A member access or a call, inside a chain if it belongs to one. -/
def chained (isOptional : Bool) (object inner : Tree) : Tree :=
  if isOptional || isChain object then
    .node .item (.chain isOptional) inner.span [inner.as .operand]
  else inner

def callRest (start : Nat) (callee : Tree) (isOptional : Bool) (types : List Tree) :
    Parser Tree := do
  let args ← arguments g c
  let parts := callee.as .callee :: (args ++ types)
  if isOptional || isChain callee then
    if callee.kind == .super || callee.kind == .importRef then fail
    let inner ← close .optionalCall start parts
    return .node .item (.chain isOptional) inner.span [inner.as .operand]
  else close .call start parts

/-- Whether types that were just read belong to the expression before them: what follows is neither
a call nor a comparison. -/
def endsInstantiation : Parser Bool := do
  let l ← lexeme
  let isOperator := l.isMark .lt || l.isMark .gt || l.isMark .plus || l.isMark .minus ||
    l.isMark .lparen || (match l with | .template _ _ => true | _ => false)
  return !isOperator && ((← afterBreak) || !l.startsExpression)

/-- Types after an expression that are neither the types of a call nor comparisons. -/
def instantiation? : Parser (Option (List Tree)) := do
  if ← atMark .lt then
    attempt? do
      let types ← typeArguments g c
      if ← endsInstantiation then return some types else return none
  else return none

def instantiated (start : Nat) (t : Tree) : Parser Tree := do
  match ← instantiation? g c with
  | some types => close .instantiation start (t.as .operand :: types)
  | none => return t

def memberAccess (object property : Tree) (isOptional : Bool) : Parser Tree := do
  if object.kind == .super then
    let isPrivate := match property.kind with
      | .privateName _ => true
      | _ => false
    if !c.allowsSuper || isOptional || isPrivate then fail
    close .superMember object.span.start [object.as .object, property.as .property]
  else close .member object.span.start [object.as .object, property.as .property]

def dotRest (start : Nat) (object : Tree) (isOptional : Bool) : Parser Tree := do
  let property ← match ← lexeme with
    | .privateName _ => privateName
    | _ => anyName
  if object.kind == .importRef then fail
  let inner ← memberAccess c object property isOptional
  instantiated g c start (chained isOptional object inner)

def indexRest (start : Nat) (object : Tree) (isOptional : Bool) : Parser Tree := do
  let bracket ← position
  expect .lbracket
  let index ← expression g { c with allowIn := true }
  expect .rbracket
  let property ← close .computed bracket [index.as .operand]
  if object.kind == .importRef then breakDown
  let inner ← memberAccess c object property isOptional
  instantiated g c start (chained isOptional object inner)

def taggedTemplate (start : Nat) (tag : Tree) (types : List Tree) : Parser Tree := do
  let template ← templateExpr g { c with expectsColon := false } true
  close .taggedTemplate start (tag.as .tag :: (types ++ [template.as .operand]))

/-- What follows an expression with types in between: a call, a template, or the end. The flag says
whether more may follow. -/
def typedSubscript (noCall : Bool) (start : Nat) (object : Tree) :
    Parser (Option (Tree × Bool)) :=
  attempt? do
    let types ← typeArguments g c
    let whole : Parser Tree := close .instantiation start (object.as .operand :: types)
    match ← lexeme with
    | .mark .lparen =>
      if noCall then fail
      return some (← callRest g c start object false types, true)
    | .template _ _ => return some (← taggedTemplate g c start object types, true)
    | .mark .eq | .word _ (some .kAs) | .word _ (some .kSatisfies) =>
      return some (← whole, false)
    | _ => if ← endsInstantiation then return some (← whole, true) else return none

/-- What a super reference or an import must be followed by. -/
def isBareCallee (t : Tree) : Bool :=
  t.kind == .super || t.kind == .importRef

/-- An access or a call from its question mark on, which a dot follows. -/
def optionalSubscript (noIndex : Bool) (start : Nat) (object : Tree) : Parser Tree := do
  skip
  let next := (← peek).lexeme
  skip
  if next.isMark .lbracket && !noIndex then indexRest g c start object true
  else if next.isMark .lparen then callRest g c start object true []
  else if next.isMark .lt then
    let types ← typeArguments g c
    callRest g c start object true types
  else dotRest g c start object true

/-- One more access, call or template after an expression. The flag says whether more may follow. -/
def subscript (noCall noIndex : Bool) (start : Nat) (object : Tree) :
    Parser (Option (Tree × Bool)) := do
  let l ← lexeme
  if l.isMark .bang && !(← afterBreak) then
    if isBareCallee object then fail
    skip
    return some (← close .nonNull start [object.as .operand], true)
  let typed ← if !isBareCallee object && l.isMark .lt then typedSubscript g c noCall start object
    else pure none
  match typed with
  | some result => return some result
  | none =>
    if l.isMark .question && (← peekMark .dot) then
      return some (← optionalSubscript g c noIndex start object, true)
    match l with
    | .mark .lbracket =>
      if noIndex then return none
      return some (← indexRest g c start object false, true)
    | .mark .lparen =>
      if noCall then
        if isBareCallee object then fail
        return none
      return some (← callRest g c start object false [], true)
    | .mark .dot =>
      skip
      return some (← dotRest g c start object false, true)
    | .template _ _ =>
      if isBareCallee object then fail
      return some (← taggedTemplate g c start object [], true)
    | _ => if isBareCallee object then fail else return none

def subscripts (noCall noIndex : Bool) (start : Nat) (object : Tree) : Parser Tree := do
  let last ← iterate
    (fun (t, goes) => do
      if !goes then return none
      subscript g c noCall noIndex start t)
    (object, true)
  return last.1

def namePath (name : Tree) : Parser Tree :=
  subscripts g c true true name.span.start name

def importExpr (noCall : Bool) : Parser Tree := do
  let start ← position
  expectKeyword .kImport
  if ← eat .dot then
    let name ← anyName
    match name.name? with
    | some "meta" =>
      let meta_ ← close .metaProperty start [name.as .name]
      subscripts g c noCall false start meta_
    | some "defer" | some "source" =>
      let callee ← close .importRef start []
      subscripts g c false false start callee
    | _ => fail
  else
    let callee ← close .importRef start []
    subscripts g c false false start callee

def callTypes : Parser (List Tree) := do
  if ← atAnyMark [.lt, .shl] then
    let types ← attempt do
      let types ← typeArguments g c
      if ← atMark .lparen then return types else fail
    return types.getD []
  else return []

def constructRest (start : Nat) : Parser Tree := do
  let callee ← g.construct c
  if isArrow callee then return callee
  if callee.kind == .chain true then fail
  let types ← callTypes g c
  if ← atMark .lparen then
    let args ← arguments g c
    let whole ← close .construct start (callee.as .callee :: (args ++ types))
    subscripts g c true false start whole
  else close .construct start (callee.as .callee :: types)

def constructExpr : Parser Tree := do
  let start ← position
  match ← lexeme with
  | .word _ (some .kNew) =>
    skip
    if ← eat .dot then
      expectKeyword .kTarget
      let target ← close .metaProperty start []
      subscripts g c true false start target
    else constructRest g c start
  | .word _ (some .kSuper) =>
    let base ← leaf .super
    subscripts g c true false start base
  | .word _ (some .kImport) => importExpr g c true
  | _ =>
    let object ← primary g c
    if isArrow object then return object
    let object ← instantiated g c start object
    subscripts g c true false start object

def leftHandSide : Parser Tree := do
  let start ← position
  match ← lexeme with
  | .word _ (some .kSuper) =>
    let base ← leaf .super
    subscripts g c false false start base
  | .word _ (some .kImport) => importExpr g c false
  | _ =>
    let callee ← constructExpr g c
    if isArrow callee then return callee
    let types ← callTypes g c
    if ← atMark .lparen then
      let call ← callRest g c start callee false types
      subscripts g c false false start call
    else return callee

def decoratorCall (callee : Tree) : Parser Tree := do
  let types ← typeArguments? g c
  if types.isEmpty && !(← atMark .lparen) then return callee
  let args ← arguments g c
  close .call callee.span.start (callee.as .callee :: (args ++ types))

def decoratorExpr : Parser Tree := do
  let start ← position
  expect .atSign
  let first ← position
  let callee ← if ← eat .lparen then do
      let inner ← expression g c.bracketed
      expect .rparen
      pure inner
    else do
      let name ← identifier c
      subscripts g c false true first name
  let inner ← decoratorCall g c callee
  close .decorator start [inner.as .operand]

def unaryOperator? : Lexeme → Option String
  | .word word (some .kDelete) | .word word (some .kVoid) | .word word (some .kTypeof) => some word
  | .mark .plus => some "+"
  | .mark .minus => some "-"
  | .mark .tilde => some "~"
  | .mark .bang => some "!"
  | _ => none

/-- An operand after its operator. An operand that cannot be read is let pass. -/
def prefixed (start : Nat) (operator : String) : Parser Tree := do
  skip
  let operandStart ← position
  let operand ← match ← recover (g.unary c) with
    | some t => pure t
    | none => pure (missing (operandStart - 1))
  if operator == "delete" && operand.name?.isSome then slip
  return .node .item (.unary operator) ⟨start, operand.span.stop⟩ [operand.as .operand]

def awaitExpr : Parser Tree := do
  let start ← position
  skip
  if ← atMark .star then fail
  let isName := (← atEnding) || (← atAnyMark [.rparen, .rbracket, .comma])
  if !c.isAsync && isName then close (.name "await") start []
  else
    let inner ← g.unary c
    close .await start [inner.as .operand]

def postfixed : Parser Tree := do
  let t ← leftHandSide g c
  if isArrow t || (← afterBreak) then return t
  else match ← lexeme with
    | .mark .plusPlus | .mark .minusMinus =>
      let m ← lexeme
      skip
      close (.updated (if m.isMark .plusPlus then "++" else "--")) t.span.start [t.as .operand]
    | _ => return t

def unaryExpr : Parser Tree := do
  let start ← position
  let l ← lexeme
  match unaryOperator? l with
  | some operator => prefixed g c start operator
  | none =>
    if l.isMark .plusPlus || l.isMark .minusMinus then
      skip
      let inner ← g.unary c
      return .node .item (.updated (if l.isMark .plusPlus then "++" else "--"))
        ⟨start, inner.span.stop⟩ [inner.as .operand]
    else if l.isKeyword .kAwait then awaitExpr g c
    else if l.isMark .lt then g.element c false
    else postfixed g c

def binaryOperator? : Parser (Option (String × Nat)) := do
  if ← atMark .gt then rereadGreater
  match ← lexeme with
  | .mark m => return if m.isBinary then some (m.text, m.precedence) else none
  | .word _ (some .kIn) => return if c.allowIn then some ("in", 7) else none
  | .word _ (some .kInstanceof) => return some ("instanceof", 7)
  | _ => return none

def castRest (left : Tree) (isSatisfies : Bool) : Parser Tree := do
  let start := left.span.start
  skip
  if ← guarded (!isSatisfies) (eatKeyword .kConst) then close .asConst start [left.as .operand]
  else
    let type ← g.type c.inType
    close (if isSatisfies then .satisfies else .asType) start [left.as .operand, type.as .type]

/-- An operand that may not stand before a power. -/
def isPowerless (t : Tree) : Bool :=
  match t.kind with
  | .unary _ | .await => true
  | _ => false

def binaryRest (least : Nat) (left : Tree) : Parser Tree := do
  let l ← lexeme
  let isSatisfies := l.isKeyword .kSatisfies
  if least < 7 && !(← afterBreak) && (isSatisfies || l.isKeyword .kAs) then
    g.binaryTail c least (← castRest g c left isSatisfies)
  else match ← binaryOperator? c with
    | none => return left
    | some (operator, precedence) =>
      if precedence ≤ least then return left
      else
        if operator == "**" && isPowerless left then fail
        skip
        let first ← g.unary c
        let bound := if operator == "**" then precedence - 1 else precedence
        let right ← g.binaryTail c bound first
        g.binaryTail c least (.node .item (.binary operator)
          ⟨left.span.start, right.span.stop⟩ [left.as .left, right.as .right])

def conditionalExpr : Parser Tree := do
  let start ← position
  let test ← binaryExpr g c
  if isArrow test then return test
  if ← eat .question then
    let yes ← g.assign { c with inConditional := true, expectsColon := true, allowIn := true }
    expect .colon
    let no ← g.assign { c with inConditional := true, expectsColon := false }
    return .node .item .conditional ⟨start, no.span.stop⟩
      [test.as .test, yes.as .consequent, no.as .alternate]
  else return test

def yieldExpr : Parser Tree := do
  let start ← position
  skip
  if c.inParameters then fail
  let startsOperand := (← lexeme).startsExpression || (← atAnyMark [.star, .slash, .slashEq, .lt])
  if (← afterBreak) || !startsOperand then close .yield start []
  else
    let _ ← eat .star
    let inner ← g.assign c
    close .yield start [inner.as .operand]

def Lexeme.startsParameters : Lexeme → Bool
  | .word _ (some k) => !(k.isReserved || k == .kLet || k == .kAwait)
  | .word _ none => true
  | l => l.isMark .lparen

def plainAssignment : Parser Tree := do
  if c.isGenerator && (← atKeyword .kYield) then yieldExpr g c
  else
    let start ← position
    let l ← lexeme
    modify fun s => { s with arrowAt := if l.startsParameters then some start else none }
    let left ← conditionalExpr g c
    match left.kind with
    | .arrow _ | .conditional | .binary _ | .unary _ | .updated _ => return left
    | _ => assignmentRest g c start left

def genericArrow : Parser Tree := do
  let start ← position
  let generics ← typeParameters g c
  if !(← lexeme).startsParameters then fail
  match ← plainAssignment g c with
  | .node r (.arrow isAsync) s parts =>
    return .node r (.arrow isAsync) ⟨start, s.stop⟩ (parts ++ generics)
  | _ => fail

/-- An expression without commas outside of brackets. What starts with a less-than sign is a generic
arrow function or, if it is not, markup. -/
def assignmentExpr : Parser Tree := do
  if ← atMark .lt then
    match ← attempt (genericArrow g c) with
    | some t => return t
    | none => plainAssignment g c
  else plainAssignment g c

end Revue.Syntax
