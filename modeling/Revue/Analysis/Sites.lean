import Revue.Analysis.Reading
import Revue.Component.Model
import Revue.Text.Edit

/-!
# Where code refers to its component

`findings` walks a piece of code and reports every place that reads props or state, changes state,
or names a class. A place that is reported is not looked into any further, except for the arguments
of a call that changes state.
-/

namespace Revue.Analysis
open Text Syntax Component

/-- The kind of component that a piece of code belongs to, and the name by which it reads props: a
parameter of the constructor, or the parameter of a functional component. -/
inductive Setting where
  | classMember (constructorProps : Option String)
  | functional (props : Option String)
deriving DecidableEq, Repr

/-- What is found in code: a site, or a change of state by something else than an object. -/
inductive Finding where
  | site (range : Span) (kind : SiteKind)
  | updater (range : Span)
deriving DecidableEq, Repr

/-- What is found at a node itself, and which of its parts are looked into. -/
structure Step where
  found : List Finding
  visits : Role → Bool

def Step.stop (found : List Finding) : Step := ⟨found, fun _ => false⟩
def Step.go : Step := ⟨[], fun _ => true⟩

/-- The offset behind the first opening parenthesis at or after an offset. -/
def afterParen? (source : List Char) (pos : Nat) : Option Nat :=
  (cut? pos source).bind fun (_, rest) =>
    let (before, after) := rest.span (· != '(')
    if after.isEmpty then none else some (pos + byteLength before + 1)

def classAccess (constructorProps : Option String) (t : Tree) : Step :=
  match namedMember? t with
  | none => .go
  | some (object, property) =>
    match memberOfThis? object, memberOfThis? t with
    | some "props", _ =>
      if property = "children" then .stop [.site t.span .children]
      else .stop [.site object.span .propsMember]
    | some "state", _ => .stop [.site object.span .stateMember]
    | some _, _ => .go
    | none, some "props" => .stop [.site t.span .propsObject]
    | none, some "state" => .stop [.site t.span .stateObject]
    | none, _ =>
      if constructorProps.isSome && object.name? = constructorProps then
        .stop [.site object.span .constructorPropsMember]
      else .go

def functionalAccess (props : Option String) (t : Tree) : Step :=
  match namedMember? t with
  | some (object, "children") =>
    if props.isSome && object.name? = props then .stop [.site t.span .functionalChildren] else .go
  | _ => .go

def isPlainUpdate (call : Tree) : Bool :=
  match call.all .argument with
  | [argument] => argument.withoutParens.kind = .object
  | _ => false

def classCall (source : List Char) (t : Tree) : Step :=
  match t.get? .callee with
  | some callee =>
    if memberOfThis? callee = some "setState" then
      let args := match afterParen? source callee.span.stop with
        | some pos => [Finding.site ⟨pos, pos⟩ .setStateArgs]
        | none => []
      let updaters := if isPlainUpdate t then [] else [Finding.updater t.span]
      ⟨.site callee.span .setStateCallee :: (args ++ updaters), (· = .argument)⟩
    else .go
  | none => .go

def attributeStep (t : Tree) : Step :=
  match t.get? .name with
  | some name =>
    ⟨if name.name? = some "className" then [.site name.span .classNameAttr] else [], (· = .value)⟩
  | none => .go

def step (source : List Char) (setting : Setting) (t : Tree) : Step :=
  match t.kind, setting with
  | .member, .classMember constructorProps => classAccess constructorProps t
  | .member, .functional props => functionalAccess props t
  | .call, .classMember _ => classCall source t
  | .attribute, _ => attributeStep t
  | _, _ => .go

mutual

/-- Everything that is found in a node, in the order of a walk through it. -/
def findings (source : List Char) (setting : Setting) : Tree → List Finding
  | .node r k s ps =>
    let here := step source setting (.node r k s ps)
    here.found ++ findingsIn source setting here.visits ps

def findingsIn (source : List Char) (setting : Setting) (visits : Role → Bool) :
    List Tree → List Finding
  | [] => []
  | t :: ts =>
    (if visits t.role then findings source setting t else []) ++
      findingsIn source setting visits ts

end

/-- The site of a finding inside a base span, seen from its start. -/
def Finding.site? (base : Span) : Finding → Option Site
  | site range kind =>
    if base.containsSpan range then some ⟨range.relativeTo base.start, kind⟩ else none
  | updater _ => none

def Finding.updater? : Finding → Option Span
  | site _ _ => none
  | updater range => some range

/-- The fragment that a node is, its sites in the order of their starts. -/
def fragmentOf (r : Reading) (setting : Setting) (t : Tree) : Fragment where
  text := r.text t.span
  sites := sortOn (·.range.start)
    ((findings r.source setting t).filterMap (Finding.site? t.span))

def updatersOf (r : Reading) (setting : Setting) (t : Tree) : List Span :=
  (findings r.source setting t).filterMap Finding.updater?

end Revue.Analysis
