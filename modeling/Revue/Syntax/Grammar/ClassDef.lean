import Revue.Syntax.Grammar.Function

/-!
# Classes

A class with its heritage and members. The words in front of a member's name may also be the name
of a member, which shows in what follows them.
-/

namespace Revue.Syntax
open Text

variable (g : Grammar) (c : Context)

def atMethodRest : Parser Bool := atAnyMark [.lparen, .lt]

def atFieldRest (endsAtBreak : Bool) : Parser Bool := do
  if ← atAnyMark [.bang, .colon, .eq, .rbrace, .semi] then return true
  else if endsAtBreak then atEnding else return false

def memberKey : Parser Tree := do
  match ← lexeme with
  | .privateName _ => privateName
  | _ => propertyKey g c

def isConstructorKey (key : Tree) : Bool :=
  match key.kind with
  | .name text | .string text => text == "constructor"
  | _ => false

/-- What is known of a class member before its name: where it starts, its decorators, and the words
in front. -/
structure MemberHead where
  start : Nat
  marks : List Tree
  flags : MemberFlags
  isReadonly : Bool := false
  /-- Whether the word `accessor` stands in front of the name of a field. -/
  isAccessor : Bool := false

def methodRest (h : MemberHead) (sort : MethodSort) (flags : FunctionFlags) (key : Tree) :
    Parser Tree := do
  let parts ← functionRest g { c with allowsSuper := true } flags h.marks
  close (.method sort h.flags flags) h.start (key.as .key :: parts)

def fieldRest (h : MemberHead) (key : Tree) : Parser Tree := do
  if isConstructorKey key then fail
  if !h.flags.isOptional then
    let _ ← eat .bang
  let types ← colonType? g c
  let inner := { c.inFunction {} with allowsSuper := true }
  let value ← if ← eat .eq then pure [(← g.assign inner).as .value] else pure []
  let _ ← eatEnding
  let kind := if h.isAccessor then Kind.accessor h.flags else .field h.flags
  close kind h.start (key.as .key :: (value ++ types ++ h.marks))

def accessOf : Keyword → Option Access
  | .kPublic => some .isPublic
  | .kProtected => some .isProtected
  | .kPrivate => some .isPrivate
  | _ => none

/-- Reads a word that sets the access of a member. The words `in` and `out` may stand in its place
and mean nothing there. -/
def accessWord? : Parser (Option Access) := do
  return (← modifier? [.kPublic, .kProtected, .kPrivate, .kIn, .kOut]).bind accessOf

def constructorParameter : Parser Tree := do
  let start ← position
  let marks ← decorators (g.decorator c)
  if ← atMark .dots then
    let inner ← restParameter g c true
    close .parameter start (marks ++ [inner.as .value])
  else
    let access ← accessWord?
    let overrides ← modifier? [.kOverride]
    let readonly ← modifier? [.kReadonly]
    let inner ← parameterPattern g c
    if access.isNone && overrides.isNone && readonly.isNone then
      close .parameter start (marks ++ [inner.as .value])
    else match inner.kind with
      | .name _ | .defaultPattern => close .fieldParameter start (marks ++ [inner.as .value])
      | _ => fail

def constructorRest (h : MemberHead) (key : Tree) : Parser Tree := do
  let _ ← typeParameters? g c
  expect .lparen
  let inner := { c.inSignature {} with allowsSuper := true }
  let ps ← commaList (atMark .rparen) (constructorParameter g inner)
  expect .rparen
  let _ ← colonType? g c
  let body ← functionBody? g { c with allowsSuper := true } {}
  close (.constructorDef h.flags) h.start (key.as .key :: (ps.map (·.as .param) ++ body))

def staticBlock (start : Nat) : Parser Tree := do
  let body ← block g { c.inFunction {} with allowsSuper := true }
  close .staticBlock start [body.as .body]

def memberModifiers (h : MemberHead) : Parser MemberHead := do
  let words ← many (modifier? [.kAbstract, .kReadonly, .kOverride, .kStatic])
  return { h with
    flags := { h.flags with
      isAbstract := h.flags.isAbstract || words.contains .kAbstract
      isOverride := h.flags.isOverride || words.contains .kOverride
      isStatic := h.flags.isStatic || words.contains .kStatic }
    isReadonly := h.isReadonly || words.contains .kReadonly }

/-- A member after an accessor word, if the word is not itself the name. -/
def accessorMember (h : MemberHead) (word : Tree) : Parser Tree := do
  let key ← memberKey g c
  let sort := if word.name? = some "get" then .getter else .setter
  methodRest g c h sort {} key

def asyncMember (h : MemberHead) : Parser Tree := do
  let overrides ← modifier? [.kOverride]
  let h := { h with flags := { h.flags with isOverride := h.flags.isOverride || overrides.isSome } }
  let isGenerator ← eat .star
  let key ← memberKey g c
  let isOptional ← eat .question
  if isConstructorKey key || h.isReadonly then fail
  methodRest g c { h with flags := { h.flags with isOptional := isOptional } } .method
    ⟨true, isGenerator⟩ key

def namedMember (h : MemberHead) : Parser Tree := do
  let key ← memberKey g c
  let isOptional ← eat .question
  let h := { h with flags := { h.flags with isOptional := isOptional } }
  if ← atMethodRest then
    if h.isReadonly then fail
    if isConstructorKey key then constructorRest g c h key
    else methodRest g c h .method {} key
  else
    let startsLine ← afterBreak
    let isAccessor ← match key.name? with
      | some "get" | some "set" =>
        pure (!(← atFieldRest false) && !(startsLine && (← atMark .star)))
      | _ => pure false
    if !isAccessor && (← atFieldRest true) then fieldRest g c h key
    else if isAccessor then accessorMember g c h key
    else if key.name? = some "async" && !startsLine then asyncMember g c h
    else fail

/-- A member after its access and the words `static` and `accessor`. -/
def memberRest (h : MemberHead) : Parser Tree := do
  let h ← memberModifiers h
  let isAccessor ← guarded (!h.isAccessor) (eatKeyword .kAccessor)
  let h := { h with isAccessor := h.isAccessor || isAccessor }
  if h.flags.isStatic && (← atMark .lbrace) then staticBlock g c h.start
  else if (← atKeyword .kStatic) && (← peekMark .lbrace) then
    let start ← position
    skip
    staticBlock g c start
  else
    let index ← if h.flags.isAbstract || h.flags.isOverride || h.flags.access.isSome then pure none
      else indexSignature? g c h.start
    match index with
    | some t => return t
    | none =>
      if ← eat .star then
        let key ← memberKey g c
        methodRest g c h .method ⟨false, true⟩ key
      else namedMember g c h

/-- A member named by a word that was read as one in front of a name; nothing if it was not the
name. -/
def memberNamedByWord (h : MemberHead) (word : Tree) (endsAtBreak : Bool) :
    Parser (Option Tree) := do
  if ← atMethodRest then return some (← methodRest g c h .method {} word)
  else if (← atFieldRest endsAtBreak) || (← atMark .question) then
    let isOptional ← eat .question
    let h := { h with flags := { h.flags with isOptional := isOptional } }
    return some (← fieldRest g c h word)
  else return none

def memberAfterStatic (h : MemberHead) : Parser Tree := do
  if ← atKeyword .kAccessor then
    let word ← anyName
    match ← memberNamedByWord g c h word true with
    | some t => return t
    | none => memberRest g c { h with isAccessor := true }
  else memberRest g c h

def memberAfterAccess (h : MemberHead) : Parser Tree := do
  if ← atKeyword .kStatic then
    let word ← anyName
    match ← memberNamedByWord g c h word false with
    | some t => return t
    | none => memberAfterStatic g c { h with flags := { h.flags with isStatic := true } }
  else memberAfterStatic g c h

def memberAfterDeclare (h : MemberHead) : Parser Tree := do
  let access ← accessWord?
  let h := { h with flags := { h.flags with access := access } }
  if access.isSome && (← atKeyword .kDeclare) then
    let word ← anyName
    match ← memberNamedByWord g c h word true with
    | some t => return t
    | none => memberAfterAccess g c h
  else memberAfterAccess g c h

def classMember : Parser Tree := do
  let start ← position
  if ← eat .semi then close .empty start []
  else
    let marks ← decorators (g.decorator c)
    let h : MemberHead := { start := start, marks := marks, flags := {} }
    if ← atKeyword .kDeclare then
      let word ← anyName
      match ← memberNamedByWord g c h word true with
      | some t => return t
      | none => memberAfterDeclare g c h
    else memberAfterDeclare g c h

def superclass : Parser (List Tree × List Tree) := do
  let base ← g.leftHand { c with allowIn := true }
  match base with
  | .node _ .instantiation _ (inner :: types) =>
    return ([inner.as .superclass], types.map (·.as .superTypeArgument))
  | base =>
    let types ← typeArguments? g c
    return ([base.as .superclass], types.map (·.as .superTypeArgument))

def heritage : Parser Tree := do
  let start ← position
  let name ← anyName
  match ← g.path c name with
  | .node _ .instantiation s parts => return .node .heritage .heritageClause s parts
  | base =>
    let types ← typeArguments? g c
    return (← close .heritageClause start (base.as .name :: types)).as .heritage

def heritageList : Parser (List Tree) :=
  commaList (return (← atMark .lbrace) || (← atKeyword .kImplements) || (← atKeyword .kExtends))
    (heritage g c)

def implements? : Parser (List Tree) := do
  if ← eatKeyword .kImplements then heritageList g c else return []

def extends? : Parser (List Tree × List Tree) := do
  if ← eatKeyword .kExtends then superclass g c else return ([], [])

def classDef (start : Nat) (marks : List Tree) (needsName : Bool) : Parser Tree := do
  expectKeyword .kClass
  if needsName && (← atKeyword .kLet) then fail
  let names ← if needsName then pure [(← bindingName c).as .name] else bindingName? c
  let generics ← typeParameters? g c
  let base ← extends? g c
  if ← guarded (!base.1.isEmpty) (eat .comma) then
    let _ ← heritageList g c
  let _ ← extends? g c
  let interfaces ← implements? g c
  let _ ← implements? g c
  let late ← extends? g c
  let base := if base.1.isEmpty then late else base
  expect .lbrace
  let inner : Context := { c.inFunction {} with allowsSuper := true }
  let members ← many do
    if (← atMark .rbrace) || (← lexeme) == .eof then return none
    return some ((← classMember g inner).as .member)
  if (← lexeme) != .eof then expect .rbrace
  close .classDef start (names ++ marks ++ members ++ base.1 ++ generics ++ base.2 ++ interfaces)

end Revue.Syntax
