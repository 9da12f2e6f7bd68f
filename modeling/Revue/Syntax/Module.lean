import Revue.Syntax.Grammar.Markup
import Revue.Syntax.Grammar.ModuleItem

/-!
# Modules

Ties the areas of the grammar together and reads a whole source. Each level of the grammar uses the
level below it. A level is left only by reading a token or by passing to one of few other knots, so
a stack some times as high as the text is long is never used up.
-/

namespace Revue.Syntax
open Text

def Grammar.none : Grammar where
  assign _ := fail
  unary _ := fail
  binaryTail _ _ _ := fail
  construct _ := fail
  leftHand _ := fail
  path _ _ := fail
  object _ := fail
  decorator _ := fail
  statement _ _ := fail
  moduleItem _ := fail
  type _ := fail
  typeOperand _ := fail
  pattern _ := fail
  element _ _ := fail

def Grammar.step (g : Grammar) : Grammar where
  assign := assignmentExpr g
  unary := unaryExpr g
  binaryTail := binaryRest g
  construct := constructExpr g
  leftHand := leftHandSide g
  path := namePath g
  object := objectLiteral g
  decorator := decoratorExpr g
  statement := statementOf g
  moduleItem := moduleItemOf g
  type := typeExpr g
  typeOperand := prefixedType g
  pattern := bindingTarget g
  element := markupElement g

def Grammar.stack : Nat → Grammar → Grammar
  | 0, g => g
  | n + 1, g => stack n g.step

/-- A source as it was read: its tree and its comments. -/
structure Module where
  tree : Tree
  comments : Comments

def moduleBody (g : Grammar) : Parser Tree := do
  let items ← many do
    if (← lexeme) == .eof then return none
    return some (← g.moduleItem {})
  close .module 0 items

/-- Why a source has no tree. -/
inductive ParseFailure where
  | invalid
  | breakdown
deriving DecidableEq, Repr

def State.failure (s : State) : ParseFailure :=
  if s.isBroken then .breakdown else .invalid

def parse (source : List Char) : Except ParseFailure Module :=
  let g := Grammar.stack (4 * source.length + 16) .none
  match moduleBody g (State.ofText source) with
  | .ok (tree, s) =>
    if s.isBroken || s.isFlawed then .error s.failure
    else .ok ⟨tree, ⟨s.comments.leading.reverse, s.comments.trailing.reverse⟩⟩
  | .error s => .error s.failure

namespace Module

def items (m : Module) : List Tree :=
  m.tree.parts

end Module

end Revue.Syntax
