import Revue.Text.Table

/-!
# Props

What a component says about its props: where it says so, the type, and whether a prop must be given.
A type is known by a bare token; a prop with any other type is let pass by a validator that accepts
everything.
-/

namespace Revue.Component
open Text

/-- The types that are checked at run time. -/
inductive PropType where
  | array
  | boolean
  | function
  | number
  | object
  | string
  | symbol
deriving DecidableEq, Repr

namespace PropType

/-- The type that a token names. The spelling is exact. -/
def ofToken? : String → Option PropType
  | "array" => some .array
  | "bool" => some .boolean
  | "boolean" => some .boolean
  | "func" => some .function
  | "number" => some .number
  | "object" => some .object
  | "string" => some .string
  | "symbol" => some .symbol
  | _ => none

def constructorName : PropType → String
  | array => "Array"
  | boolean => "Boolean"
  | function => "Function"
  | number => "Number"
  | object => "Object"
  | string => "String"
  | symbol => "Symbol"

def all : List PropType :=
  [array, boolean, function, number, object, string, symbol]

end PropType

/-- Where a prop is declared: as a member of a type, or by a validator at run time. -/
inductive PropKind where
  | typed
  | validated
deriving DecidableEq, Repr

structure PropSpec where
  kind : PropKind
  type? : Option PropType
  isRequired : Bool
  /-- Whether the prop gets a validator that accepts everything in place of a type. -/
  acceptsAll : Bool
deriving DecidableEq, Repr

namespace PropSpec

def ofToken (kind : PropKind) (token : Option String) (isRequired : Bool) : PropSpec :=
  let type? := token.bind PropType.ofToken?
  ⟨kind, type?, isRequired, type?.isNone⟩

def function (kind : PropKind) (isRequired : Bool) : PropSpec :=
  ⟨kind, some .function, isRequired, false⟩

end PropSpec

/-- The props of a component in the order of their declaration. -/
abbrev PropTable := Table PropSpec

def PropTable.hasKind (kind : PropKind) (t : PropTable) : Bool :=
  t.values.any fun p => p.kind = kind

end Revue.Component
