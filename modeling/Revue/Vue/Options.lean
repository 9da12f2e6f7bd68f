import Revue.Text.Edit
import Revue.Vue.Props

/-!
# The component as an object of options

Writes a model out: imports, declarations, helper functions, and the object of options that is
exported. The order is fixed. There is no output if a site splits a character.
-/

namespace Revue.Vue
open Text Component

def replacement : SiteKind → String
  | .propsMember | .stateMember | .constructorPropsMember => "this"
  | .propsObject => "this.$props"
  | .stateObject => "this.$data"
  | .children => "this.$slots.default"
  | .setStateCallee => "Object.assign"
  | .setStateArgs => "this.$data, "
  | .classNameAttr => "class"
  | .functionalChildren => "context.children"

def replaceSites (f : Fragment) : Option (List Char) :=
  (applyEdits f.text (f.sites.map fun s => ⟨s.range, replacement s.kind⟩)).map (·.toList)

def withComments (comments : List String) (text : List Char) : List Char :=
  joinWith ['\n'] (comments.map (fun c => dedentTail c.toList) ++ [text])

def memberHeader (m : Member) (name : List Char) : List Char :=
  (if m.isAsync then "async ".toList else []) ++ (if m.isGenerator then ['*'] else []) ++ name ++
    '(' :: m.params.toList ++ [')']

def memberAs (name : List Char) (m : Member) : Option (List Char) := do
  let body ← replaceSites m.body
  return withComments m.leadingComments (functionBlock (memberHeader m name) [] body)

def member (m : Member) : Option (List Char) :=
  memberAs (objectKey m.name) m

def nameSection (m : Model) (component : String) : List Char :=
  "name: ".toList ++ quoted ((m.displayNames.get? component).getD component)

def methodsSection (name : String) (ms : List Member) : Option (List (List Char)) := do
  match ← ms.mapM member with
  | [] => return []
  | entries => return [objectSection name.toList entries]

def stateSection (c : ClassComponent) : Option (List (List Char)) :=
  match c.state with
  | none => some []
  | some f => do
    let state ← replaceSites f
    return [braced "data()".toList ("return ".toList ++ dedentTail state ++ [';'])]

def createdSection (c : ClassComponent) : Option (List (List Char)) := do
  let statements ← c.created.mapM fun f => (replaceSites f).map dedentTail
  match statements with
  | [] => return []
  | ss => return [braced "created()".toList (joinWith ['\n'] ss)]

/-- A method that is called at a time in the component's life, under its new name. -/
def hookSection? (m : Member) : Option (Option (List Char)) :=
  match m.role with
  | .lifecycle hook => some (memberAs hook.optionName.toList m)
  | _ => none

def hookSections (c : ClassComponent) : Option (List (List Char)) :=
  (c.members.filterMap hookSection?).mapM id

def renderSection (c : ClassComponent) : Option (List (List Char)) :=
  match c.members.find? (·.role = .render) with
  | none => some []
  | some m => do
    let body ← replaceSites m.body
    return [withComments m.leadingComments (functionBlock "render(h)".toList [] body)]

def isMethodRole (r : MemberRole) : Bool :=
  r = .method || r = .static

def classSections (m : Model) (c : ClassComponent) : Option (List (List Char)) := do
  let state ← stateSection c
  let computed ← methodsSection "computed" (c.members.filter (·.role = .getter))
  let methods ← methodsSection "methods" (c.members.filter fun x => isMethodRole x.role)
  let hooks ← hookSections c
  let created ← createdSection c
  let render ← renderSection c
  return nameSection m c.name :: (propsSection? m c.name).toList ++ state ++ computed ++ methods ++
    hooks ++ created ++ render

def wordsOf (cs : List Char) : List (List Char) :=
  (cs.splitBy fun a b => isAsciiWord a == isAsciiWord b)

def mentionsChildren (pattern : List Char) : Bool :=
  (wordsOf pattern).contains "children".toList

/-- Binds the parameter of a functional component to the props of its context. -/
def propsBinding (binding : String) : List Char :=
  match binding.toList with
  | '\x7b' :: _ =>
    let pattern := dedentTail binding.toList
    if mentionsChildren pattern then
      "const ".toList ++ pattern ++
        " = \x7b ...context.props, children: context.children \x7d;".toList
    else "const ".toList ++ pattern ++ " = context.props;".toList
  | cs => "const ".toList ++ cs ++ " = context.props;".toList

def functionalRender (c : FunctionalComponent) : Option (List Char) :=
  let before := (c.propsBinding.map propsBinding).toList
  let header := "render(h, context)".toList
  match c.body with
  | .block f => (replaceSites f).map (functionBlock header before)
  | .expr f => (replaceSites f).map fun text =>
    braced header
      (joinWith ['\n'] (before ++ ["return ".toList ++ dedentTail text ++ [';']]))

def functionalSections (m : Model) (c : FunctionalComponent) : Option (List (List Char)) := do
  let render ← functionalRender c
  return nameSection m c.name :: "functional: true".toList ::
    ((propsSection? m c.name).toList ++ [render])

/-- The options when there is no component: the name that is exported and its props. -/
def orphanSections (m : Model) : List (List Char) :=
  match m.exportName with
  | none => []
  | some name => nameSection m name :: (propsSection? m name).toList

def exportDefault (sections : List (List Char)) : List Char :=
  match sections with
  | [] => "export default \x7b\x7d;".toList
  | ss => braced "export default".toList (joinWith ",\n".toList ss) ++ [';']

def primarySections (m : Model) : Option (List (List Char) × Option String) :=
  match m.classComponent with
  | some c => (classSections m c).map fun ss => (ss, some c.name)
  | none =>
    match m.primaryFunctional with
    | some c => (functionalSections m c).map fun ss => (ss, some c.name)
    | none => some (orphanSections m, none)

def importBlock (m : Model) : List (List Char) :=
  if m.imports.isEmpty then [] else [joinWith ['\n'] (m.imports.map (·.toList))]

/-- The functional components that the file is not about, as they stand. -/
def helperBlocks (m : Model) (primary : Option String) : List (List Char) :=
  (m.functionalComponents.filter fun c => some c.name != primary).map (·.source.toList)

def generate (m : Model) : Option String := do
  let (sections, primary) ← primarySections m
  let blocks := importBlock m ++ m.declarations.map (·.toList) ++ helperBlocks m primary ++
    [exportDefault sections]
  return String.ofList (joinWith "\n\n".toList blocks ++ ['\n'])

end Revue.Vue
