import Revue.Syntax.Repair
import Revue.Source.Flow
import Revue.Text.Edit

/-!
# Outlines

What a module looks like from far: its items with their texts and comments, the members of its
classes, and the statements in its blocks.
-/

namespace Revue.Syntax
open Text

def memberWord (t : Tree) : String :=
  let isPrivate := match (t.get? .key).map (·.kind) with
    | some (.privateName _) => true
    | _ => false
  match t.kind with
  | .constructorDef _ => "constructor"
  | .method _ _ _ => if isPrivate then "private-method" else "method"
  | .field _ => if isPrivate then "private-field" else "field"
  | .indexSignature => "index-signature"
  | .empty => "empty"
  | .staticBlock => "static-block"
  | _ => "accessor"

structure MemberOutline where
  word : String
  span : Span
  leading : List String

structure ItemOutline where
  span : Span
  text : String
  trailing : List String
  members : Option (List MemberOutline)

structure StatementOutline where
  span : Span
  trailing : List String

structure Outline where
  items : List ItemOutline
  blockStatements : List StatementOutline

def Tree.itemClass? (t : Tree) : Option Tree :=
  match t.kind with
  | .classDef => some t
  | .exportDeclaration | .exportDefaultDeclaration =>
    (t.get? .declaration).bind fun d => if d.kind = .classDef then some d else none
  | _ => none

namespace Module

def commentTexts (source : String) (comments : List Span) : List String :=
  comments.map (·.sliceD source)

def leadingTexts (m : Module) (source : String) (pos : Nat) : List String :=
  commentTexts source (m.comments.leadingAt pos)

def trailingTexts (m : Module) (source : String) (pos : Nat) : List String :=
  commentTexts source (m.comments.trailingAt pos)

def memberOutlines (m : Module) (source : String) (t : Tree) : Option (List MemberOutline) :=
  t.itemClass?.map fun cls => (cls.all .member).map fun member =>
    ⟨memberWord member, member.span, m.leadingTexts source member.span.start⟩

def outline (m : Module) (source : String) : Outline where
  items := m.items.map fun t =>
    { span := t.span
      text := t.span.sliceD source
      trailing := m.trailingTexts source t.span.stop
      members := m.memberOutlines source t }
  blockStatements :=
    let byStop := sortOn (·.span.stop) m.tree.blockStatements
    (sortOn (·.span.start) byStop).map fun t =>
      ⟨t.span, m.trailingTexts source t.span.stop⟩

def repairTimes (source : List Char) : Nat → Module → Module
  | 0, m => m
  | n + 1, m => repairTimes source n (m.repair source)

end Module

/-- Cleans a source, reads it, repairs it a number of times, and outlines it. -/
def outlineOf (text : String) (isFlow : Bool) (repairs : Nat) : Except ParseFailure Outline :=
  let source := Source.preprocess text isFlow
  (parse source.toList).map fun m => (m.repairTimes source.toList repairs).outline source

end Revue.Syntax
