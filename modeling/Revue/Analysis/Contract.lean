import Revue.Analysis.Reading
import Revue.Analysis.TypeToken
import Revue.Component.Model

/-!
# Props that types declare

A component names the type of its props: a class in the arguments of what it extends, a function in
the type of its first parameter, a variable in its own type. The members of the named type declare
the props.
-/

namespace Revue.Analysis
open Text Syntax Component

def plainTypeName? (type : Tree) : Option String :=
  match type with
  | .node _ .typeRef _ [name] => name.name?
  | _ => none

def componentTypeArgument? (type : Tree) : Option String :=
  match type with
  | .node _ .typeRef _ (name :: arguments) =>
    let word? := match name with
      | .node _ (.name text) _ _ => some text
      | .node _ .qualifiedName _ [first, second] =>
        if first.name? = some "React" then second.name? else none
      | _ => none
    match word? with
    | some word =>
      if ["FC", "FunctionComponent", "SFC", "StatelessComponent"].contains word then
        arguments.head?.bind plainTypeName?
      else none
    | none => none
  | _ => none

def patternTypeName? : Tree → Option String
  | .node _ .defaultPattern _ (left :: _) => patternTypeName? left
  | t =>
    match t.kind with
    | .name _ | .objectPattern => (declaredType? t).bind plainTypeName?
    | _ => none

/-- A component and the name of the type of its props. -/
structure Correlation where
  component : String
  typeName : String
deriving DecidableEq, Repr

def classCorrelation? (t : Tree) : Option Correlation :=
  if t.kind = .classDef then
    ((t.get? .superTypeArgument).bind plainTypeName?).map fun typeName =>
      ⟨nameOrAnonymous t, typeName⟩
  else none

def parameterCorrelation? (component : String) (params : List Tree) : Option Correlation :=
  ((params.head?.bind parameterPattern?).bind patternTypeName?).map fun typeName =>
    ⟨component, typeName⟩

def declaratorCorrelation? (t : Tree) : Option Correlation := do
  let binding ← t.get? .name
  let name ← binding.name?
  match (declaredType? binding).bind componentTypeArgument? with
  | some typeName => return ⟨name, typeName⟩
  | none =>
    let init ← t.get? .initializer
    match init.withoutParens with
    | .node _ (.arrow _) _ parts =>
      parameterCorrelation? name (parts.filter (·.role = .param))
    | _ => none

def declarationCorrelations (t : Tree) : List Correlation :=
  match t.kind with
  | .function _ =>
    match declaredName? t with
    | some name => (parameterCorrelation? name (t.all .param)).toList
    | none => []
  | .variables _ => (t.all .declarator).filterMap declaratorCorrelation?
  | _ => []

def itemDeclaration (item : Tree) : Tree :=
  match item.kind with
  | .exportDeclaration | .exportDefaultDeclaration => (item.get? .declaration).getD item
  | _ => item

/-- The correlations of a module: those of its classes at any depth, then those of the functions and
variables at the top. -/
def correlations (m : Syntax.Module) : List Correlation :=
  m.tree.subtrees.filterMap classCorrelation? ++
    m.items.flatMap fun item => declarationCorrelations (itemDeclaration item)

def componentsFor (cs : List Correlation) (typeName : String) : List String :=
  (cs.filter (·.typeName = typeName)).map (·.component)

def contractMembers? (t : Tree) : Option (String × List Tree) := do
  let name ← declaredName? t
  match t.kind with
  | .interfaceDef => return (name, t.all .member)
  | .aliasDef =>
    let type ← t.get? .type
    if type.kind = .typeLiteral then return (name, type.all .member) else none
  | _ => none

def isFunctionType : Tree → Bool
  | .node _ .functionType _ _ => true
  | .node _ .parenthesizedType _ [inner] => isFunctionType inner
  | _ => false

def signatureName? (key : Tree) : Option String :=
  match key.kind with
  | .name text => some text
  | .string value => some value
  | _ => none

/-- The name of a member of a type. Brackets around a name or a string do not matter. -/
def memberName? (t : Tree) : Option String :=
  match t.get? .key with
  | some (.node _ .computed _ [inner]) => signatureName? inner
  | some key => signatureName? key
  | none => none

def memberText (r : Reading) (span : Span) : String :=
  let text := r.text span
  let rest := ((cut? span.stop r.source).map (·.2)).getD []
  let isSeparatorChar (c : Char) : Bool := c == ';' || c == ','
  match rest.dropWhile fun c => c == ' ' || c == '\t' with
  | c :: _ =>
    if isSeparatorChar c && !text.toList.getLast?.any isSeparatorChar then text.push c else text
  | [] => text

def memberProp? (r : Reading) (reader : TokenReader) (t : Tree) : Option (String × PropSpec) := do
  let name ← memberName? t
  match t.kind with
  | .propertySignature isOptional =>
    if (declaredType? t).any isFunctionType then return (name, .function .typed !isOptional)
    else return (name, .ofToken .typed (reader name (memberText r t.span)) !isOptional)
  | .methodSignature isOptional => return (name, .function .typed !isOptional)
  | _ => none

/-- The props of a component and the caveats about them. -/
structure Props where
  table : PropTable := []
  caveats : List Caveat := []

/-- Adds a prop; one without a known type is worth a caveat. -/
def Props.add (ps : Props) (component name : String) (prop : PropSpec) (span : Span) : Props where
  table := ps.table.insert name prop
  caveats := if prop.acceptsAll then ps.caveats ++ [.ambiguousProp name component span]
    else ps.caveats

def typedProps (r : Reading) (reader : TokenReader) (component : String) (members : List Tree) :
    Props :=
  members.foldl
    (fun ps t =>
      match memberProp? r reader t with
      | some (name, prop) => ps.add component name prop t.span
      | none => ps)
    {}

end Revue.Analysis
