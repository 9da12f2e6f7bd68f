import Revue.Text.Span

/-!
# Fragments

A fragment is a piece of source text together with the places in it that refer to the component:
its props, its state, its children. What becomes of these sites is decided where output is written.
-/

namespace Revue.Component
open Text

/-- What a site reads or calls. -/
inductive SiteKind where
  /-- The `this.props` in front of a name. -/
  | propsMember
  /-- The `this.state` in front of a name. -/
  | stateMember
  /-- A bare `this.props`. -/
  | propsObject
  /-- A bare `this.state`. -/
  | stateObject
  /-- The whole of `this.props.children`. -/
  | children
  /-- The constructor's parameter in front of a name. -/
  | constructorPropsMember
  /-- The callee of a change of state. -/
  | setStateCallee
  /-- The empty range in front of the arguments of a change of state. -/
  | setStateArgs
  /-- The name of a `className` attribute. -/
  | classNameAttr
  /-- The children of a functional component, read from its parameter. -/
  | functionalChildren
deriving DecidableEq, Repr

namespace SiteKind

def text : SiteKind → String
  | propsMember => "PropsMember"
  | stateMember => "StateMember"
  | propsObject => "PropsObject"
  | stateObject => "StateObject"
  | children => "Children"
  | constructorPropsMember => "ConstructorPropsMember"
  | setStateCallee => "SetStateCallee"
  | setStateArgs => "SetStateArgs"
  | classNameAttr => "ClassNameAttr"
  | functionalChildren => "FunctionalChildren"

def all : List SiteKind :=
  [propsMember, stateMember, propsObject, stateObject, children, constructorPropsMember,
    setStateCallee, setStateArgs, classNameAttr, functionalChildren]

def ofText? (s : String) : Option SiteKind :=
  all.find? (·.text == s)

end SiteKind

/-- A place in a fragment, relative to the fragment's text. -/
structure Site where
  range : Span
  kind : SiteKind
deriving DecidableEq, Repr

structure Fragment where
  text : String
  sites : List Site := []
deriving DecidableEq, Repr

namespace Fragment

/-- The fragment with a text in front and one behind; its sites move along. -/
def wrapped (before after : String) (f : Fragment) : Fragment where
  text := before ++ f.text ++ after
  sites := f.sites.map fun s => ⟨s.range.shift before.utf8ByteSize, s.kind⟩

/-- The same, if all sites stay in bounds. -/
def wrapped? (before after : String) (f : Fragment) : Option Fragment :=
  if f.sites.all fun s => (s.range.shift? before.utf8ByteSize).isSome then
    some (f.wrapped before after)
  else none

def hasSite (kind : SiteKind) (f : Fragment) : Bool :=
  f.sites.any (·.kind = kind)

end Fragment

end Revue.Component
