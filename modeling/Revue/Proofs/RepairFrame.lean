import Revue.Proofs.ArrowFields

/-!
# What a repair leaves as it is

A repair changes the public fields that hold an arrow function, wherever they stand, and nothing
else. Every other node keeps its role, its kind, its span and its parts, and a node without such a
field below it stays as it is. A class keeps its members in their order, each with its span, its
key and the words in front of it. The method that a field becomes takes the parameters, the body and
the types of the function, and a body in braces stays the same block. What it does not take are the
decorators of the field and the type behind its key: these are lost, with all that stands in them.
-/

namespace Revue.Syntax
open Text

variable {isAsync : Bool} {arrow body key n p t : Tree} {flags : MemberFlags}

def Kind.memberFlags : Kind → MemberFlags
  | constructorDef flags => flags
  | method _ flags _ => flags
  | field flags => flags
  | accessor flags => flags
  | _ => {}

namespace Tree

structure KeepsMember (t t' : Tree) : Prop where
  span : t'.span = t.span
  key : t'.get? .key = (t.get? .key).map arrowFieldsAsMethods
  isStatic : t'.kind.memberFlags.isStatic = t.kind.memberFlags.isStatic
  access : t'.kind.memberFlags.access = t.kind.memberFlags.access

/-- A method has the body of an arrow function. An expression is returned in a block. -/
def IsMethodBody (body body' : Tree) : Prop :=
  (body.kind = .block → body' = body.arrowFieldsAsMethods) ∧
    (body.kind ≠ .block → body' = node .body .block body.span
      [node .statement .returnStatement body.span [body.arrowFieldsAsMethods.as .operand]])

/-- The method `t'` is the field `t` with an arrow function. -/
structure IsMethodFor (t arrow t' : Tree) : Prop extends KeepsMember t t' where
  role : t'.role = t.role
  kind : ∃ flags isAsync, t.kind = .field flags ∧ arrow.kind = .arrow isAsync ∧
    t'.kind = .method .method { flags with isAbstract := false } ⟨isAsync, false⟩
  params : t'.all .param = (arrow.all .param).map fun p =>
    node .param .parameter p.span [p.arrowFieldsAsMethods.as .value]
  body : List.Forall₂ IsMethodBody (arrow.all .body) (t'.all .body)
  typeParams : t'.all .typeParam = (arrow.all .typeParam).map arrowFieldsAsMethods
  returnType : t'.all .returnType = (arrow.all .returnType).map arrowFieldsAsMethods
  roles : ∀ p ∈ t'.parts, p.role ∈ [Role.key, .param, .body, .typeParam, .returnType]

section Node
variable {t : Tree} (h : t.FieldsInClasses)
include h

theorem kind_arrowFieldsAsMethods (hrole : t.role ≠ .member) :
    t.arrowFieldsAsMethods.kind = t.kind := by
  rw [arrowFieldsAsMethods_of_isField_eq_false (h.isField_eq_false hrole), kind]

theorem kind_of_get? {r : Role} (hr : r ≠ .member) (hp : t.get? r = some p) :
    p.arrowFieldsAsMethods.kind = p.kind :=
  kind_arrowFieldsAsMethods (h.of_mem (mem_subtrees_of_get? hp)) ((mem_parts_of_get? hp).2 ▸ hr)

/-- A repair of the parts of a field leaves its function where it is. -/
theorem fieldArrow?_map_arrowFieldsAsMethods :
    (node t.role t.kind t.span (t.parts.map arrowFieldsAsMethods)).fieldArrow? =
      t.fieldArrow?.map arrowFieldsAsMethods := by
  have hget := get?_map_arrowFieldsAsMethods h t.role t.kind t.span
  apply Option.ext
  intro arrow
  rw [fieldArrow?_eq_some_iff, Option.map_eq_some_iff]
  simp only [hget, Option.map_eq_some_iff]
  constructor
  · rintro ⟨flags, _, isAsync, hkind, ⟨key, hkey, rfl⟩, hpublic, ⟨value, hvalue, rfl⟩, harrow⟩
    rw [kind_of_get? h (by decide) hkey] at hpublic
    rw [kind_of_get? h (by decide) hvalue] at harrow
    exact ⟨value, fieldArrow?_eq_some_iff.2
      ⟨flags, key, isAsync, hkind, hkey, hpublic, hvalue, harrow⟩, rfl⟩
  · rintro ⟨value, hfield, rfl⟩
    obtain ⟨flags, key, isAsync, hkind, hkey, hpublic, hvalue, harrow⟩ :=
      fieldArrow?_eq_some_iff.1 hfield
    rw [← kind_of_get? h (by decide) hkey] at hpublic
    rw [← kind_of_get? h (by decide) hvalue] at harrow
    exact ⟨flags, _, isAsync, hkind, ⟨key, hkey, rfl⟩, hpublic, ⟨value, hvalue, rfl⟩, harrow⟩

theorem arrowFieldsAsMethods_of_none (hnone : t.fieldArrow? = none) :
    t.arrowFieldsAsMethods = node t.role t.kind t.span (t.parts.map arrowFieldsAsMethods) := by
  rw [arrowFieldsAsMethods_eq]
  apply arrowFieldAsMethod_of_none
  rw [fieldArrow?_map_arrowFieldsAsMethods h, hnone, Option.map_none]

theorem arrowFieldsAsMethods_of_some (harrow : t.fieldArrow? = some arrow)
    (hkind : t.kind = .field flags) (hkey : t.get? .key = some key)
    (hasync : arrow.kind = .arrow isAsync) :
    t.arrowFieldsAsMethods = methodOfArrow t.span flags key.arrowFieldsAsMethods
      arrow.arrowFieldsAsMethods isAsync := by
  obtain ⟨-, -, -, -, -, -, hvalue, -⟩ := fieldArrow?_eq_some_iff.1 harrow
  have hfield := fieldArrow?_map_arrowFieldsAsMethods h
  rw [harrow, Option.map_some] at hfield
  rw [arrowFieldsAsMethods_eq]
  refine arrowFieldAsMethod_of_some hfield hkind ?_ ?_
  · rw [get?_map_arrowFieldsAsMethods h, hkey, Option.map_some]
  · rw [kind_of_get? h (by decide) hvalue, hasync]

theorem all_arrowFieldsAsMethods (hfield : t.kind.isField = false) (role : Role) :
    t.arrowFieldsAsMethods.all role = (t.all role).map arrowFieldsAsMethods := by
  rw [arrowFieldsAsMethods_of_isField_eq_false hfield]
  exact all_map_arrowFieldsAsMethods h _ _ _ role

end Node

/-! ### The method for a field -/

theorem isMethodBody_blockOf (h : body.FieldsInClasses) (hrole : body.role = .body) :
    IsMethodBody body (blockOf body.arrowFieldsAsMethods) := by
  have hkind : body.arrowFieldsAsMethods.kind = body.kind :=
    kind_arrowFieldsAsMethods h (by rw [hrole]; decide)
  refine ⟨fun hblock => ?_, fun hother => ?_⟩
  · rw [blockOf, hkind, if_pos hblock]
  · rw [blockOf, hkind, if_neg hother, body.arrowFieldsAsMethods_shape.1]

theorem isMethodFor_arrowFieldsAsMethods (h : t.FieldsInClasses)
    (harrow : t.fieldArrow? = some arrow) : IsMethodFor t arrow t.arrowFieldsAsMethods := by
  obtain ⟨flags, key, isAsync, hkind, hkey, -, hvalue, hasync⟩ := fieldArrow?_eq_some_iff.1 harrow
  have hmethod := arrowFieldsAsMethods_of_some h harrow hkind hkey hasync
  have hkeyRole : key.arrowFieldsAsMethods.role = .key :=
    (role_arrowFieldsAsMethods (h.of_mem (mem_subtrees_of_get? hkey))).trans
      (mem_parts_of_get? hkey).2
  have hfields : arrow.FieldsInClasses := h.of_mem (mem_subtrees_of_get? hvalue)
  have hall := all_arrowFieldsAsMethods hfields (by rw [hasync]; rfl)
  refine ⟨⟨t.arrowFieldsAsMethods_shape.1, ?_, ?_, ?_⟩, role_arrowFieldsAsMethods h,
    ?_, ?_, ?_, ?_, ?_, ?_⟩ <;> rw [hmethod]
  · rw [hkey, Option.map_some, get?, methodOfArrow, parts]
    exact List.find?_cons_of_pos (by simpa using hkeyRole)
  · rw [hkind]
    rfl
  · rw [hkind]
    rfl
  · exact ⟨flags, isAsync, hkind, hasync, rfl⟩
  · rw [(all_methodOfArrow hkeyRole).1, hall, List.map_map]
    refine List.map_congr_left fun p _ => ?_
    rw [Function.comp_apply, asParameter, p.arrowFieldsAsMethods_shape.1]
  · rw [(all_methodOfArrow hkeyRole).2.1, hall, List.map_map, List.forall₂_map_right_iff,
      List.forall₂_same]
    intro body hbody
    exact isMethodBody_blockOf (hfields.of_mem (mem_subtrees_of_all hbody)) (mem_all.1 hbody).2
  · rw [(all_methodOfArrow hkeyRole).2.2.1, hall]
  · rw [(all_methodOfArrow hkeyRole).2.2.2, hall]
  · intro p hp
    simp only [methodOfArrow, parts, List.mem_cons, List.mem_append, List.mem_map] at hp
    obtain rfl | ((⟨q, hq, rfl⟩ | ⟨q, hq, rfl⟩) | hp) | hp := hp
    · simp [hkeyRole]
    · simp [asParameter, Tree.role]
    · simp [role_blockOf (mem_all.1 hq).2]
    · simp [(mem_all.1 hp).2]
    · simp [(mem_all.1 hp).2]

theorem keepsMember_arrowFieldsAsMethods (h : t.FieldsInClasses) :
    KeepsMember t t.arrowFieldsAsMethods := by
  cases harrow : t.fieldArrow? with
  | some arrow => exact (isMethodFor_arrowFieldsAsMethods h harrow).toKeepsMember
  | none =>
    rw [arrowFieldsAsMethods_of_none h harrow]
    exact ⟨rfl, get?_map_arrowFieldsAsMethods h _ _ _ _, rfl, rfl⟩

end Tree

namespace Module

def nestedFields : String :=
  "class A \x7b 'f' = async (a) => class \x7b static g = () => \x7b b; \x7d; " ++
    "#h = () => 2; \x7d; \x7d"

end Module

end Revue.Syntax
