import Revue.Syntax.Repair
import Revue.Text.Decimal

/-!
# A source that has been read

A module together with the text from which it was read, and small questions about its nodes.
-/

namespace Revue.Analysis
open Text Syntax

structure Reading where
  source : List Char
  module : Syntax.Module

namespace Reading

def text (r : Reading) (s : Span) : String :=
  String.ofList ((s.slice? r.source).getD [])

def leadingComments (r : Reading) (pos : Nat) : List String :=
  (r.module.comments.leadingAt pos).map r.text

def trailingComments (r : Reading) (pos : Nat) : List String :=
  (r.module.comments.trailingAt pos).map r.text

/-- A text with the comments behind an offset after it. -/
def withTrailing (r : Reading) (text : String) (pos : Nat) : String :=
  match r.trailingComments pos with
  | [] => text
  | comments => text ++ " " ++ " ".intercalate comments

end Reading

/-- The name that a key spells, if it does not have to be computed. -/
def keyName? (key : Tree) : Option String :=
  match key.kind with
  | .name text => some text
  | .string value => some value
  | .number spelling => some (numberKey spelling)
  | _ => none

def namedMember? (t : Tree) : Option (Tree × String) :=
  match t with
  | .node _ .member _ [object, .node _ (.name property) _ _] => some (object, property)
  | _ => none

def memberOfThis? (t : Tree) : Option String :=
  match namedMember? t with
  | some (object, property) => if object.kind = .this then some property else none
  | none => none

def parameterPattern? (t : Tree) : Option Tree :=
  match t.kind with
  | .parameter | .fieldParameter => t.get? .value
  | _ => some t

def declaredType? (t : Tree) : Option Tree :=
  match t.get? .type with
  | some (.node _ .colonType _ [type]) => some type
  | _ => none

def declaredName? (t : Tree) : Option String :=
  (t.get? .name).bind (·.name?)

def anonymous : String := "Component"

def nameOrAnonymous (t : Tree) : String :=
  (declaredName? t).getD anonymous

end Revue.Analysis
