import Revue.Syntax.Module

/-!
# Repairs of a parse tree

Two small changes to a module before it is looked at. A trailing comment of a statement in a block
goes away when the statement ends its line: such a comment stands on a later line and belongs to
what follows. A class field whose value is an arrow function becomes a method, so that both
spellings of a method look the same.
-/

namespace Revue.Syntax
open Text

namespace Tree

def statements (t : Tree) : List Tree :=
  if t.kind = .block then t.all .statement else []

def blockStatements (t : Tree) : List Tree :=
  t.subtrees.flatMap statements

/-- The body of a function whose arrow form has the body `body`. -/
def blockOf (body : Tree) : Tree :=
  if body.kind = .block then body
  else .node .body .block body.span
    [.node .statement .returnStatement body.span [body.as .operand]]

def asParameter (pattern : Tree) : Tree :=
  .node .param .parameter pattern.span [pattern.as .value]

def methodOfArrow (span : Span) (flags : MemberFlags) (key arrow : Tree) (isAsync : Bool) : Tree :=
  .node .member (.method .method { flags with isAbstract := false } ⟨isAsync, false⟩) span
    (key :: ((arrow.all .param).map asParameter ++ (arrow.all .body).map blockOf ++
      arrow.all .typeParam ++ arrow.all .returnType))

/-- A class member, with an arrow function in a public field turned into a method. -/
def arrowFieldAsMethod (t : Tree) : Tree :=
  match t.kind, t.get? .key, t.get? .value with
  | .field flags, some key, some value =>
    match key.kind, value.kind with
    | .privateName _, _ => t
    | _, .arrow isAsync => methodOfArrow t.span flags key value isAsync
    | _, _ => t
  | _, _, _ => t

mutual

/-- Turns every public field with an arrow function into a method, from the inside out. -/
def arrowFieldsAsMethods : Tree → Tree
  | node r k s ps => (node r k s (arrowFieldsAsMethodsIn ps)).arrowFieldAsMethod

def arrowFieldsAsMethodsIn : List Tree → List Tree
  | [] => []
  | t :: ts => arrowFieldsAsMethods t :: arrowFieldsAsMethodsIn ts

end

end Tree

namespace Module

def endsLineAt (source : List Char) (pos : Nat) : Bool :=
  match cut? pos source with
  | some (_, c :: _) => c == '\n'
  | _ => false

/-- Drops the trailing comments of statements in blocks that end their line. -/
def dropStrayComments (source : List Char) (m : Module) : Module :=
  let ends := m.tree.blockStatements.map (·.span.stop)
  let isStray (pos : Nat) : Bool := ends.contains pos && endsLineAt source pos
  { m with comments :=
      { m.comments with trailing := m.comments.trailing.filter fun (pos, _) => !isStray pos } }

def arrowFieldsAsMethods (m : Module) : Module :=
  { m with tree := m.tree.arrowFieldsAsMethods }

def repair (source : List Char) (m : Module) : Module :=
  (m.dropStrayComments source).arrowFieldsAsMethods

end Module

end Revue.Syntax
