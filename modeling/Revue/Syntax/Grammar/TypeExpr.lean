import Revue.Syntax.Grammar.Pattern

/-!
# Types

The types in annotations, aliases and interfaces. What matters of a type later is its span, a
reference to a name, a function type, and the members of an object type; the rest is read to know
where it ends.
-/

namespace Revue.Syntax
open Text

variable (g : Grammar) (c : Context)

def typeArguments : Parser (List Tree) := do
  if ← atMark .shl then rereadLess
  expect .lt
  let types ← commaList (atMark .gt) (g.type c.inType)
  expect .gt
  return types.map (·.as .typeArgument)

def typeArguments? : Parser (List Tree) := do
  if ← atMark .lt then typeArguments g c else return []

def typeParameter : Parser Tree := do
  let start ← position
  let _ ← many (modifier? [.kPublic, .kPrivate, .kProtected, .kReadonly, .kAbstract, .kConst,
    .kOverride, .kIn, .kOut])
  let name ← anyName
  let bound ← if ← eatKeyword .kExtends then pure [(← g.type c.inType).as .constraint] else pure []
  let fallback ← if ← eat .eq then pure [(← g.type c.inType).as .fallback] else pure []
  close .typeParameter start (name.as .name :: (bound ++ fallback))

def typeParameters : Parser (List Tree) := do
  expect .lt
  let ps ← commaList (atMark .gt) (typeParameter g c)
  expect .gt
  return ps.map (·.as .typeParam)

def typeParameters? : Parser (List Tree) := do
  if ← atMark .lt then typeParameters g c else return []

/-- A name after a dot, or nothing if no word follows the dot. -/
def entityPart? (name : Parser Tree) : Parser (Option Tree) := do
  match ← lexeme with
  | .privateName _ => fail
  | .word _ _ => return some ((← name).as .name)
  | _ => return none

/-- Names with dots between them, of which `name` reads those after the first. A dot may be left
hanging at the end. -/
def entityName (name : Parser Tree) : Parser Tree := do
  let start ← position
  let first ← anyName
  if ← atMark .dot then
    let rest ← many do
      if ← eat .dot then entityPart? name else return none
    if rest.isEmpty then return first
    let stop := (rest.getLast?.map (·.span.stop)).getD first.span.stop
    return .node .item .qualifiedName ⟨start, stop⟩ (first.as .name :: rest)
  else return first

def typeReference : Parser Tree := do
  let start ← position
  let _ ← eatAccessWord
  let name ← entityName anyName
  let arguments ← if (← afterBreak) || !(← atAnyMark [.lt, .shl]) then pure []
    else typeArguments g c
  close .typeRef start (name.as .name :: arguments)

def typeOrPredicate (mark : Mark) : Parser Tree := do
  expect mark
  let start ← position
  let next ← peek
  let asserts := (← atKeyword .kAsserts) && next.lexeme.isReference
  if asserts then skip
  let next ← peek
  let claims := (← atReference) && next.lexeme.isKeyword .kIs && !next.breakBefore
  if asserts || claims then
    let name ← anyName
    if claims then
      skip
      let type ← g.type c.inType
      close .predicateType start [name.as .name, type.as .type]
    else close .predicateType start [name.as .name]
  else g.type c.inType

def returnType? : Parser (List Tree) := do
  if ← atMark .colon then return [(← typeOrPredicate g c .colon).as .returnType] else return []

def isSignaturePattern (parameter : Tree) : Bool :=
  parameter.parts.all fun p => p.kind != .defaultPattern

def signatureParameters : Parser (List Tree) := do
  expect .lparen
  let ps ← parameters g c (g.decorator c)
  if ps.all isSignaturePattern then return ps else fail

def memberEnding : Parser Unit := do
  if ← eat .comma then return () else expectEnding

def signature : Parser (List Tree) := do
  let generics ← typeParameters? g c
  let ps ← signatureParameters g c
  let result ← returnType? g c
  return ps ++ result ++ generics

def isIndexSignature : Parser Bool := looksLike do
  expect .lbracket
  if ← atReference then
    skip
    atAnyMark [.colon, .comma]
  else return false

def indexSignature? (start : Nat) : Parser (Option Tree) := do
  if !(← isIndexSignature) then return none
  expect .lbracket
  let name ← anyName
  if !(← eat .comma) then expect .colon
  let key ← g.type c.inType
  expect .rbracket
  let types ← colonType? g c
  memberEnding
  return some (← close .indexSignature start (name.as .param :: key.as .constraint :: types))

def signatureKey : Parser Tree := do
  match ← lexeme with
  | .privateName _ => privateName
  | .string _ | .number _ => g.construct c
  | .mark .lbracket =>
    let start ← position
    skip
    let inner ← g.assign c
    expect .rbracket
    close .computed start [inner.as .operand]
  | _ => anyName

def accessorSignature (isReadonly : Bool) : Parser Tree := do
  let start ← position
  if isReadonly then fail
  let isGetter ← eatKeyword .kGet
  if !isGetter then expectKeyword .kSet
  let key ← signatureKey g c
  if isGetter then
    expect .lparen
    expect .rparen
    let types ← colonType? g c
    memberEnding
    close .getterSignature start (key.as .key :: types)
  else
    let ps ← signatureParameters g c
    if ps.isEmpty then fail
    memberEnding
    close .setterSignature start (key.as .key :: ps)

def propertySignature (start : Nat) (isReadonly : Bool) : Parser Tree := do
  let key ← signatureKey g c
  let isOptional ← eat .question
  if ← atAnyMark [.lparen, .lt] then
    if isReadonly then fail
    let parts ← signature g c
    memberEnding
    close (.methodSignature isOptional) start (key.as .key :: parts)
  else
    let types ← colonType? g c
    memberEnding
    close (.propertySignature isOptional) start (key.as .key :: types)

def typeMember : Parser Tree := do
  let start ← position
  if ← atAnyMark [.lparen, .lt] then
    let parts ← signature g c
    memberEnding
    close .callSignature start parts
  else if (← atKeyword .kNew) && ((← peekMark .lparen) || (← peekMark .lt)) then
    skip
    let parts ← signature g c
    memberEnding
    close .constructSignature start parts
  else
    let isReadonly := (← modifier? [.kReadonly]).isSome
    match ← indexSignature? g c start with
    | some t => return t
    | none =>
      match ← attempt (accessorSignature g c isReadonly) with
      | some t => return t
      | none => propertySignature g c start isReadonly

def typeMembers : Parser (List Tree) := do
  expect .lbrace
  let members ← many do
    if ← atMark .rbrace then return none
    return some ((← typeMember g c).as .member)
  expect .rbrace
  return members

def isMappedType : Parser Bool := looksLike do
  expect .lbrace
  if (← atMark .plus) || (← atMark .minus) then
    skip
    atKeyword .kReadonly
  else
    let _ ← eatKeyword .kReadonly
    expect .lbracket
    if ← atReference then
      skip
      atKeyword .kIn
    else return false

/-- Reads a word or mark that a sign may add or take away. -/
def signed (word : Parser Bool) : Parser Unit := do
  if (← atMark .plus) || (← atMark .minus) then
    skip
    if ← word then return () else fail
  else
    let _ ← word
    return ()

def mappedType : Parser Tree := do
  let start ← position
  expect .lbrace
  signed (eatKeyword .kReadonly)
  expect .lbracket
  let name ← anyName
  expectKeyword .kIn
  let bound ← g.type c.inType
  let renamed ← if ← eatKeyword .kAs then pure [(← g.type c.inType).as .name] else pure []
  expect .rbracket
  signed (eat .question)
  let types ← colonType? g c
  expectEnding
  expect .rbrace
  close .mappedType start (name.as .param :: bound.as .constraint :: (renamed ++ types))

def objectType : Parser Tree := do
  let start ← position
  if ← isMappedType then mappedType g c
  else
    let members ← typeMembers g c
    close .typeLiteral start members

def tupleLabel : Parser Tree := do
  let _ ← eat .dots
  let name ← anyName
  let _ ← eat .question
  expect .colon
  return name

def tupleElement : Parser Tree := do
  let start ← position
  let label ← attempt tupleLabel
  let labels := label.toList.map (·.as .label)
  if ← eat .dots then
    let type ← g.type c.inType
    close .restType start (labels ++ [type.as .type])
  else
    let type ← g.type c.inType
    if ← eat .question then close .optionalType start (labels ++ [type.as .type])
    else close .tupleElement start (labels ++ [type.as .type])

def optionalsAreLast (elements : List Tree) : Bool :=
  let fixed := elements.filter (·.kind != .restType)
  (fixed.dropWhile (·.kind != .optionalType)).all (·.kind == .optionalType)

def tupleType : Parser Tree := do
  let start ← position
  expect .lbracket
  let elements ← commaList (atMark .rbracket) (tupleElement g c)
  expect .rbracket
  if !optionalsAreLast elements then fail
  close .tupleType start (elements.map (·.as .item))

/-- A piece of a template, and whether a substitution follows it. Only a template with a tag may
have escapes that are not valid. -/
def templatePiece (isTagged : Bool) : Parser Bool := do
  match ← lexeme with
  | .template more valid =>
    if !valid && !isTagged then fail
    skip
    return more
  | _ => fail

def templateSubstitution (isTagged : Bool) (inner : Parser Tree) : Parser (Tree × Bool) := do
  let part ← inner
  if !(← atMark .rbrace) then fail
  rereadTemplate
  return (part, ← templatePiece isTagged)

/-- What stands in the substitutions of a template whose first piece is at hand; `inner` reads
one. -/
def templateParts (isTagged : Bool) (inner : Parser Tree) : Parser (List Tree) := do
  let first ← templatePiece isTagged
  let last ← iterate
    (fun (parts, more) => do
      if !more then return none
      let (part, more) ← templateSubstitution isTagged inner
      return some (part :: parts, more))
    ([], first)
  return last.1.reverse

def templateType : Parser Tree := do
  let start ← position
  let parts ← templateParts false (g.type c.inType)
  close .templateType start (parts.map (·.as .item))

def importTypeOptions : Parser Unit := do
  expect .lbrace
  expectKeyword .kWith
  expect .colon
  let _ ← g.object c
  let _ ← eat .comma
  expect .rbrace

/-- A type from another module. Whatever stands where the module is named is taken for its name. -/
def importType : Parser Tree := do
  let start ← position
  expectKeyword .kImport
  expect .lparen
  if (← lexeme) == .bad then fail
  skip
  if ← eat .comma then
    if ← atMark .lbrace then importTypeOptions g c
  expect .rparen
  let names ← if ← eat .dot then pure [(← entityName (identifier c)).as .name] else pure []
  let arguments ← typeArguments? g c
  close .importType start (names ++ arguments)

def queryType : Parser Tree := do
  let start ← position
  expectKeyword .kTypeof
  if ← atKeyword .kImport then
    let inner ← importType g c
    let arguments ← if ← afterBreak then pure [] else typeArguments? g c
    close .queryType start (inner.as .operand :: arguments)
  else
    let name ← entityName anyName
    let arguments ← if ← afterBreak then pure [] else typeArguments? g c
    close .queryType start (name.as .name :: arguments)

def isTypeWord : Keyword → Bool
  | .kAny | .kBoolean | .kBigint | .kNever | .kNumber | .kObject | .kString | .kSymbol | .kUnknown
  | .kUndefined | .kIntrinsic | .kVoid | .kNull => true
  | _ => false

def isTypeName (k : Keyword) : Bool :=
  k == .kVoid || k == .kYield || k == .kNull || k == .kAwait || k == .kBreak ||
    !(k.isReserved || k == .kLet)

def thisType : Parser Tree := do
  let start ← position
  expectKeyword .kThis
  if !(← afterBreak) && (← atKeyword .kIs) then
    skip
    let type ← g.type c.inType
    close .predicateType start [type.as .type]
  else close .thisType start []

def wordType (word : String) (keyword : Option Keyword) : Parser Tree := do
  match keyword with
  | some .kImport => importType g c
  | some .kThis => thisType g c
  | some .kTypeof => queryType g c
  | some .kTrue | some .kFalse => leaf .literalType
  | some k =>
    let next := (← peek).lexeme
    if k == .kAsserts && next.isKeyword .kThis then
      skip
      thisType g c
    else if isTypeWord k && !next.isMark .dot then leaf (.typeKeyword word)
    else if isTypeName k then typeReference g c
    else fail
  | none => typeReference g c

def simpleType : Parser Tree := do
  match ← lexeme with
  | .string _ | .number _ | .bigInteger => leaf .literalType
  | .template _ _ => templateType g c
  | .word word keyword => wordType g c word keyword
  | .mark .minus =>
    let start ← position
    skip
    match ← lexeme with
    | .number _ | .bigInteger =>
      skip
      close .literalType start []
    | _ => fail
  | .mark .lbrace => objectType g c
  | .mark .lbracket => tupleType g c
  | .mark .lparen =>
    let start ← position
    skip
    let inner ← g.type c.inType
    expect .rparen
    close .parenthesizedType start [inner.as .operand]
  | _ => fail

def typeSubscript : Parser (Option (Kind × Nat × List Tree)) := do
  if !(← afterBreak) && (← atMark .lbracket) then
    skip
    if ← eat .rbracket then return some (.arrayType, ← lastStop, [])
    else
      let index ← g.type c.inType
      expect .rbracket
      return some (.indexedType, ← lastStop, [index.as .property])
  else return none

def arrayedType : Parser Tree := do
  let start ← position
  let first ← simpleType g c
  let subscripts ← many (typeSubscript g c)
  return subscripts.foldl (fun type (kind, stop, parts) =>
    .node .item kind ⟨start, stop⟩ (type.as .object :: parts)) first

def inferredType : Parser Tree := do
  let start ← position
  expectKeyword .kInfer
  let name ← anyName
  let bound ← attempt? do
    expectKeyword .kExtends
    let type ← g.type { c with noConditionalTypes := true }
    if c.noConditionalTypes || !(← atMark .question) then return some type else return none
  close .inferType start (name.as .name :: (bound.toList.map (·.as .constraint)))

def prefixedType : Parser Tree := do
  let start ← position
  match ← lexeme with
  | .word word (some .kKeyof) | .word word (some .kUnique) | .word word (some .kReadonly) =>
    skip
    let inner ← g.typeOperand c
    close (.operatorType word) start [inner.as .operand]
  | .word _ (some .kInfer) => inferredType g c
  | _ => arrayedType g c

def joinedType (mark : Mark) (kind : Kind) (operand : Parser Tree) : Parser Tree := do
  let start ← position
  let _ ← eat mark
  let first ← operand
  let rest ← many do
    if ← eat mark then return some ((← operand).as .item) else return none
  if rest.isEmpty then return first else close kind start (first.as .item :: rest)

def unionType : Parser Tree :=
  joinedType .bar .unionType (joinedType .amp .intersectionType (g.typeOperand c))

def opensParameters : Parser Bool := looksLike do
  expect .lparen
  if ← atAnyMark [.rparen, .dots] then return true
  let _ ← eatAccessWord
  let isNamed ← if ← atWord then do
      skip
      pure true
    else if ← atAnyMark [.lbrace, .lbracket] then do
      let _ ← g.pattern c
      pure true
    else pure false
  if !isNamed then return false
  if ← atAnyMark [.colon, .comma, .question, .eq] then return true
  if ← eat .rparen then atMark .arrow else return false

def functionType (kind : Kind) (start : Nat) : Parser Tree := do
  let generics ← typeParameters? g c
  let ps ← signatureParameters g c
  let result ← typeOrPredicate g c .arrow
  close kind start (ps ++ [result.as .returnType] ++ generics)

def unconditionalType : Parser Tree := do
  let start ← position
  if (← atMark .lt) || ((← atMark .lparen) && (← opensParameters g c)) then
    functionType g c .functionType start
  else if (← atKeyword .kAbstract) && (← peekKeyword .kNew) then
    skip
    skip
    functionType g c .constructorType start
  else if ← atKeyword .kNew then
    skip
    functionType g c .constructorType start
  else unionType g c

def typeExpr : Parser Tree := do
  let start ← position
  let first ← unconditionalType g c
  if c.noConditionalTypes || (← afterBreak) || !(← atKeyword .kExtends) then return first
  else
    skip
    let bound ← unconditionalType g { c with noConditionalTypes := true }
    expect .question
    let yes ← g.type c.inType
    expect .colon
    let no ← g.type c.inType
    close .conditionalType start
      [first.as .test, bound.as .constraint, yes.as .consequent, no.as .alternate]

end Revue.Syntax
