import Revue.Analysis.ClassComponent
import Revue.Analysis.Failure
import Revue.Analysis.Functional
import Revue.Source.Flow

/-!
# From a source to its model

Goes once through the items of a module and puts each into the model: imports and declarations as
they stand, components taken apart, and a caveat for what is left out. Classes below the top level
come last.
-/

namespace Revue.Analysis
open Text Syntax Component

/-- What is known before the walk, and how types of members are read. -/
structure Setup where
  reading : Reading
  correlations : List Correlation
  reader : TokenReader

/-- The model so far, and the class at the top level. -/
structure Draft where
  model : Model := {}
  topClass : Option (String × Span) := none

abbrev Result := Except Failure Draft

/-- Packages whose imports mean nothing in the new component. -/
def frameworkPackages : List String :=
  ["react", "prop-types", "react-dom"]

namespace Draft

def update (d : Draft) (f : Model → Model) : Draft :=
  { d with model := f d.model }

def addDeclaration (r : Reading) (d : Draft) (span : Span) : Draft :=
  d.update fun m =>
    { m with declarations := m.declarations ++ [r.withTrailing (r.text span) span.stop] }

/-- The beginning of a text: its first line, cut after sixty characters, with dots if there is
more. -/
def snippet (text : List Char) : List Char :=
  let line := trim ((lines text).headD [])
  let short := line.take 60
  if byteLength short < byteLength (trim text) then short ++ "...".toList else short

def addUntransferred (r : Reading) (d : Draft) (span : Span) : Draft :=
  d.update (·.addCaveat
    (.statement (String.ofList (snippet (r.text span).toList)) span))

def addFunctional (d : Draft) (c : FunctionalComponent) : Draft :=
  d.update fun m => { m with functionalComponents := m.functionalComponents ++ [c] }

def setExport (d : Draft) (name : String) : Draft :=
  d.update fun m => { m with exportName := some name }

/-- The class at the top level. There is one at most. -/
def addTopClass (r : Reading) (d : Draft) (name : String) (t : Tree) : Result :=
  match d.topClass with
  | some (first, _) => .error (.multipleComponents first name t.span)
  | none =>
    .ok { model := addClass r d.model name t false, topClass := some (name, t.span) }

def addContract (s : Setup) (members : List Tree) (span : Span) (d : Draft) (component : String) :
    Draft :=
  let props := typedProps s.reading s.reader component members
  d.update fun m =>
    let known := (m.propTypes.get? component).getD []
    let m := m.addCaveats props.caveats
    let m := if known.hasKind .validated then m.addCaveat (.duplicateContract component span) else m
    { m with propTypes := m.propTypes.insert component props.table }

/-- A type, which declares the props of some components or is kept as it stands. -/
def addType (s : Setup) (d : Draft) (t : Tree) (span : Span) : Draft :=
  let components := match contractMembers? t with
    | some (name, members) => (componentsFor s.correlations name).map fun c => (c, members)
    | none => []
  match components with
  | [] => d.addDeclaration s.reading span
  | (_, members) :: _ => (components.map (·.1)).foldl (addContract s members span) d

/-- Declared variables: a component if there is one and its value is an arrow function. -/
def addVariables (r : Reading) (d : Draft) (t : Tree) (span : Span) : Draft :=
  match t.all .declarator with
  | [declarator] =>
    match arrowDeclarator? declarator with
    | some (name, arrow, isAsync) =>
      d.addFunctional (componentOfArrow r name arrow isAsync span)
    | none => d.addDeclaration r span
  | _ => d.addDeclaration r span

/-- A declaration at the top level, in an item that covers `span`. -/
def addTopDeclaration (s : Setup) (d : Draft) (t : Tree) (span : Span) : Result :=
  match t.kind with
  | .classDef => d.addTopClass s.reading (nameOrAnonymous t) t
  | .function _ =>
    match componentOfFunction? s.reading (nameOrAnonymous t) t span with
    | some c => .ok (d.addFunctional c)
    | none => .ok d
  | .variables _ => .ok (d.addVariables s.reading t span)
  | .interfaceDef | .aliasDef => .ok (d.addType s t span)
  | _ => .ok (d.addDeclaration s.reading span)

def addDefaultDeclaration (s : Setup) (d : Draft) (t : Tree) (span : Span) : Result :=
  match t.kind with
  | .classDef =>
    let name := nameOrAnonymous t
    (d.setExport name).addTopClass s.reading name t
  | .function _ =>
    let name := nameOrAnonymous t
    let d := d.setExport name
    match componentOfFunction? s.reading name t ⟨t.span.start, span.stop⟩ with
    | some c => .ok (d.addFunctional c)
    | none => .ok d
  | _ => .ok (d.addType s t span)

def addDefaultExpression (r : Reading) (d : Draft) (value : Tree) (span : Span) : Draft :=
  let value := value.withoutParens
  match value.kind with
  | .name text => d.setExport text
  | .arrow isAsync =>
    (d.setExport anonymous).addFunctional (componentOfArrow r anonymous value isAsync value.span)
  | _ => d.update (·.addCaveat (.higherOrder span))

/-- A statement that is an expression: a static field of a component, or left out. -/
def addExpression (r : Reading) (d : Draft) (t : Tree) : Draft :=
  let recorded := (t.get? .operand).bind fun e =>
    (staticAssignment? e).bind fun (component, field, value) =>
      recordStatic? r d.model component field value
  match recorded with
  | some model => { d with model := model }
  | none => d.addUntransferred r t.span

def addImport (r : Reading) (d : Draft) (t : Tree) : Draft :=
  let source := match t.get? .source with
    | some (.node _ (.string value) _ _) => value
    | _ => ""
  if frameworkPackages.contains source then d
  else d.update fun m => { m with imports := m.imports ++ [r.text t.span] }

def addItem (s : Setup) (d : Draft) (t : Tree) : Result :=
  let r := s.reading
  match t.kind with
  | .importDef => .ok (d.addImport r t)
  | .exportDeclaration => d.addTopDeclaration s ((t.get? .declaration).getD t) t.span
  | .exportDefaultDeclaration =>
    d.addDefaultDeclaration s ((t.get? .declaration).getD t) t.span
  | .exportDefaultExpression =>
    .ok (d.addDefaultExpression r ((t.get? .value).getD t) t.span)
  | .expressionStatement => .ok (d.addExpression r t)
  | .empty => .ok d
  | .classDef | .function _ | .variables _ | .usingVariables | .interfaceDef | .aliasDef | .enumDef
  | .namespaceDef => d.addTopDeclaration s t t.span
  | _ => .ok (d.addUntransferred r t.span)

def nestedClasses (d : Draft) (m : Syntax.Module) : List Tree :=
  m.tree.subtrees.filter fun t =>
    t.kind = .classDef && d.topClass.map (·.2) != some t.span

/-- The classes below the top level: the first stands in for one at the top level if there is none,
and all are worth a caveat. -/
def addNested (r : Reading) (d : Draft) : Draft :=
  let nested := d.nestedClasses r.module
  let (d, nested) := match d.topClass, nested with
    | none, first :: rest =>
      (d.update fun m => addClass r m (nameOrAnonymous first) first true, rest)
    | _, _ => (d, nested)
  d.update (·.addCaveats (nested.map fun t => .higherOrder t.span))

/-- A caveat if props are read and nothing is known about them. -/
def addMissingValidation (r : Reading) (d : Draft) : Draft :=
  if !d.model.hasPropContract && contains "props".toList r.source then
    d.update (·.addCaveat .missingValidation)
  else d

end Draft

def modelOf (s : Setup) : Except Failure Model := do
  let d ← s.reading.module.items.foldlM (Draft.addItem s) {}
  return ((d.addNested s.reading).addMissingValidation s.reading).model

/-- What kind of source is read. -/
structure Options where
  /-- Whether types declare props. -/
  isTyped : Bool := false
  /-- Whether the source is written with flow types. -/
  isFlow : Bool := false

def analyzeWith (reader : TokenReader) (options : Options) (text : String) :
    Except Failure Model :=
  let source := (Source.preprocess text options.isFlow).toList
  match parse source with
  | .error f => .error (.ofParse f)
  | .ok m =>
    let reading : Reading := ⟨source, m.repair source⟩
    modelOf
      { reading := reading
        correlations := if options.isTyped then correlations reading.module else []
        reader := reader }

def analyze : Options → String → Except Failure Model :=
  analyzeWith typeToken

end Revue.Analysis
