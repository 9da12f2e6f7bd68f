import Revue.Component.Model
import Revue.Vue.Layout

/-!
# The props option

One entry for each prop, with its type, whether it must be given, and its default value.
-/

namespace Revue.Vue
open Text Component

def escapeChar (c : Char) : List Char :=
  match c with
  | '\\' => ['\\', '\\']
  | '\x27' => ['\\', '\x27']
  | '\n' => ['\\', 'n']
  | '\r' => ['\\', 'r']
  | c => [c]

def quoted (s : String) : List Char :=
  '\x27' :: s.toList.flatMap escapeChar ++ ['\x27']

def isBareKey (s : String) : Bool :=
  match s.toList with
  | [] => false
  | c :: cs => isAsciiWordStart c && cs.all isAsciiWord

def objectKey (s : String) : List Char :=
  if isBareKey s then s.toList else quoted s

/-- A default value. Objects and arrays are made anew for each instance. -/
def defaultValue (source : String) : List Char :=
  let text := dedentTail (trim source.toList)
  match text with
  | '\x7b' :: _ | '[' :: _ => "() => (".toList ++ text ++ [')']
  | _ => text

/-- What is known about a prop: its declaration and its default value. -/
structure PropEntry where
  spec : Option PropSpec := none
  default : Option String := none
deriving DecidableEq, Repr

namespace PropEntry

/-- The options of a prop, in their fixed order. -/
def parts (e : PropEntry) : List (List Char) :=
  ((e.spec.bind (·.type?)).map fun t => "type: ".toList ++ t.constructorName.toList).toList ++
    (if e.spec.any (·.isRequired) then ["required: true".toList] else []) ++
    (e.default.map fun v => "default: ".toList ++ defaultValue v).toList ++
    (if e.spec.any (·.acceptsAll) then ["validator: () => true".toList] else [])

def render (e : PropEntry) : List Char :=
  match e.parts with
  | [] => "\x7b\x7d".toList
  | ps => "\x7b ".toList ++ joinWith ", ".toList ps ++ " \x7d".toList

end PropEntry

def addDefault (t : Table PropEntry) (name value : String) : Table PropEntry :=
  t.insert name { (t.get? name).getD {} with default := some value }

/-- The props of a component: the declared ones, then those with a default value only. -/
def propEntries (m : Model) (component : String) : Table PropEntry :=
  let declared := ((m.propTypes.get? component).getD []).map fun (name, spec) =>
    (name, { spec := some spec : PropEntry })
  ((m.defaultProps.get? component).getD []).foldl
    (fun t (name, value) => addDefault t name value) (Table.extend [] declared)

def propsSection? (m : Model) (component : String) : Option (List Char) :=
  match propEntries m component with
  | [] => none
  | entries => some (objectSection "props".toList
      (entries.map fun (name, e) => objectKey name ++ ": ".toList ++ e.render))

end Revue.Vue
