import Revue.Analysis.Contract

/-!
# Props that values declare

The fields `propTypes`, `defaultProps` and `displayName` of a component, which are assigned to its
name or stand as static fields in its class.
-/

namespace Revue.Analysis
open Text Syntax Component

inductive StaticField where
  | propTypes
  | defaultProps
  | displayName
deriving DecidableEq, Repr

def StaticField.ofName? : String → Option StaticField
  | "propTypes" => some .propTypes
  | "defaultProps" => some .defaultProps
  | "displayName" => some .displayName
  | _ => none

def staticAssignment? (t : Tree) : Option (String × StaticField × Tree) := do
  match t with
  | .node _ (.assign "=") _ [target, value] =>
    let (object, property) ← namedMember? target
    let component ← object.name?
    let field ← StaticField.ofName? property
    return (component, field, value)
  | _ => none

/-- The prop that a validator declares: a member of some object, with `isRequired` behind it if the
prop must be given. -/
def validatorProp (value : Tree) : PropSpec :=
  let (inner, isRequired) := match namedMember? value with
    | some (object, "isRequired") => (object, true)
    | _ => (value, false)
  let token := match namedMember? inner with
    | some (object, property) =>
      if object.name?.isSome || object.kind = .member then some property else none
    | none => none
  .ofToken .validated token isRequired

def validatedProp? (t : Tree) : Option (String × PropSpec) := do
  let key ← t.get? .key
  match t.kind with
  | .property =>
    let name ← keyName? key
    let value ← t.get? .value
    return (name, validatorProp value)
  | .shorthand =>
    let name ← key.name?
    return (name, .ofToken .validated none false)
  | .objectMethod _ =>
    let name ← keyName? key
    return (name, .ofToken .validated none false)
  | _ => none

def validatedProps (component : String) (object : Tree) : Props :=
  object.parts.foldl
    (fun ps t =>
      match validatedProp? t with
      | some (name, prop) => ps.add component name prop t.span
      | none => ps)
    {}

def defaultValue? (r : Reading) (t : Tree) : Option (String × String) := do
  let key ← t.get? .key
  match t.kind with
  | .property =>
    let name ← keyName? key
    let value ← t.get? .value
    return (name, r.text value.span)
  | .shorthand =>
    let name ← key.name?
    return (name, name)
  | _ => none

def defaultValues (r : Reading) (object : Tree) : Table String :=
  Table.extend [] (object.parts.filterMap (defaultValue? r))

/-- Takes over the validators of a component, unless a type declares its props. -/
def recordPropTypes (m : Model) (component : String) (object : Tree) : Model :=
  let known := (m.propTypes.get? component).getD []
  if known.hasKind .typed then m.addCaveat (.duplicateContract component object.span)
  else
    let props := validatedProps component object
    { m.addCaveats props.caveats with
      propTypes := m.propTypes.insert component (known.extend props.table) }

def recordDefaults (r : Reading) (m : Model) (component : String) (object : Tree) : Model :=
  let known := (m.defaultProps.get? component).getD []
  { m with
    defaultProps := m.defaultProps.insert component (known.extend (defaultValues r object)) }

/-- Takes over the value of a static field, if it has a form that is understood. -/
def recordStatic? (r : Reading) (m : Model) (component : String) (field : StaticField)
    (value : Tree) : Option Model :=
  let value := value.withoutParens
  match field, value.kind with
  | .propTypes, .object => some (recordPropTypes m component value)
  | .defaultProps, .object => some (recordDefaults r m component value)
  | .displayName, .string name =>
    some { m with displayNames := m.displayNames.insert component name }
  | _, _ => none

end Revue.Analysis
