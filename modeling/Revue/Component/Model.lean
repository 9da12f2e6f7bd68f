import Revue.Component.Caveat
import Revue.Component.Fragment
import Revue.Component.Lifecycle
import Revue.Component.Prop

/-!
# The component model

Everything that is taken from a source file to write the new component: imports and declarations
as they stand, the class component or the functional components, and what is known about props.
-/

namespace Revue.Component
open Text

/-- What becomes of a method of a class. -/
inductive MemberRole where
  | render
  | lifecycle (hook : Hook)
  | getter
  | method
  | static
deriving DecidableEq, Repr

structure Member where
  name : String
  role : MemberRole
  /-- The parameters, without parentheses. -/
  params : String
  /-- The body, with its braces. -/
  body : Fragment
  isAsync : Bool
  isGenerator : Bool
  /-- The comments right above the member. -/
  leadingComments : List String
deriving DecidableEq, Repr

structure ClassComponent where
  name : String
  span : Span
  /-- The value of the initial state. -/
  state : Option Fragment
  /-- What runs when an instance is made, in the order of the source. -/
  created : List Fragment
  members : List Member
deriving DecidableEq, Repr

/-- How a functional component is written. -/
inductive Origin where
  | declaration
  | arrow
deriving DecidableEq, Repr

/-- The body of a functional component: a block with its braces, or an expression. -/
inductive Body where
  | block (f : Fragment)
  | expr (f : Fragment)
deriving DecidableEq, Repr

def Body.fragment : Body → Fragment
  | block f => f
  | expr f => f

structure FunctionalComponent where
  name : String
  params : List String
  /-- The pattern of the first parameter, without its type. -/
  propsBinding : Option String
  body : Body
  origin : Origin
  isAsync : Bool
  /-- The whole declaration as it stands. -/
  source : String
  span : Span
deriving DecidableEq, Repr

structure Model where
  imports : List String := []
  declarations : List String := []
  classComponent : Option ClassComponent := none
  functionalComponents : List FunctionalComponent := []
  /-- The declared props of each component. -/
  propTypes : Table PropTable := []
  /-- The default values of each component's props, as they stand. -/
  defaultProps : Table (Table String) := []
  displayNames : Table String := []
  caveats : CaveatLog := {}
  /-- The name that is exported as the default. -/
  exportName : Option String := none
deriving DecidableEq, Repr

namespace Model

def hasPropContract (m : Model) : Bool :=
  !m.propTypes.isEmpty || !m.defaultProps.isEmpty

/-- The functional component that the file is about: the one that is exported as the default, or
else the first. -/
def primaryFunctional (m : Model) : Option FunctionalComponent :=
  let exported := m.exportName.bind fun name => m.functionalComponents.find? (·.name == name)
  exported.or m.functionalComponents.head?

def addCaveat (m : Model) (c : Caveat) : Model :=
  { m with caveats := m.caveats.push c }

def addCaveats (m : Model) (cs : List Caveat) : Model :=
  { m with caveats := m.caveats.extend cs }

end Model

end Revue.Component
