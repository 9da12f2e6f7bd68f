/-!
# Lifecycle

The methods that a class component is called by at certain times, and those of them that have a
counterpart.
-/

namespace Revue.Component

/-- The times in the life of a component that have a counterpart. -/
inductive Hook where
  | willMount
  | didMount
  | willUpdate
  | didUpdate
  | willUnmount
  | didCatch
deriving DecidableEq, Repr

namespace Hook

def all : List Hook :=
  [willMount, didMount, willUpdate, didUpdate, willUnmount, didCatch]

def text : Hook → String
  | willMount => "WillMount"
  | didMount => "DidMount"
  | willUpdate => "WillUpdate"
  | didUpdate => "DidUpdate"
  | willUnmount => "WillUnmount"
  | didCatch => "DidCatch"

def ofText? (s : String) : Option Hook :=
  all.find? (·.text == s)

def ofMethod? : String → Option Hook
  | "componentWillMount" => some .willMount
  | "UNSAFE_componentWillMount" => some .willMount
  | "componentDidMount" => some .didMount
  | "componentWillUpdate" => some .willUpdate
  | "UNSAFE_componentWillUpdate" => some .willUpdate
  | "componentDidUpdate" => some .didUpdate
  | "componentWillUnmount" => some .willUnmount
  | "componentDidCatch" => some .didCatch
  | _ => none

def optionName : Hook → String
  | willMount => "beforeMount"
  | didMount => "mounted"
  | willUpdate => "beforeUpdate"
  | didUpdate => "updated"
  | willUnmount => "beforeDestroy"
  | didCatch => "errorCaptured"

end Hook

def unsupportedLifecycles : List String :=
  ["shouldComponentUpdate", "componentWillReceiveProps", "UNSAFE_componentWillReceiveProps",
    "getSnapshotBeforeUpdate", "getDerivedStateFromProps", "getDerivedStateFromError",
    "getChildContext"]

def isUnsupportedLifecycle (name : String) : Bool :=
  unsupportedLifecycles.contains name

end Revue.Component
