import Revue.Proofs.LaidTrees
import Revue.Syntax.Repair

/-!
# What a second repair does

The repaired tree has no public field with an arrow function left, so a second repair leaves it as
it is. The two repairs are not independent, though: an arrow function whose body is an expression
becomes a method with a `return` statement in a block, and that statement ends where the expression
ends. A comment behind the expression is looked at by the second repair only. Nothing is left to do
for a third one.
-/

namespace Revue.Syntax
open Text

variable {pos : Nat} {isAsync : Bool} {span : Span} {arrow body key t : Tree} {m : Module}
  {source : List Char} {flags : MemberFlags}

namespace Tree

def fieldArrow? (t : Tree) : Option Tree :=
  match t.kind, t.get? .key, t.get? .value with
  | .field _, some key, some value =>
    match key.kind, value.kind with
    | .privateName _, _ => none
    | _, .arrow _ => some value
    | _, _ => none
  | _, _, _ => none

/-- No public field in the tree holds an arrow function. -/
def IsRepaired (t : Tree) : Prop := ∀ n ∈ t.subtrees, n.fieldArrow? = none

theorem arrowFieldAsMethod_of_none (h : t.fieldArrow? = none) : t.arrowFieldAsMethod = t := by
  unfold arrowFieldAsMethod
  split
  · rename_i flags key value hkind hkey hvalue
    split
    · rfl
    · rename_i isAsync harrow hpublic
      simp [fieldArrow?, hkind, hkey, hvalue, harrow] at h
    · rfl
  · rfl

theorem arrowFieldAsMethod_cases (t : Tree) :
    (t.fieldArrow? = none ∧ t.arrowFieldAsMethod = t) ∨
      ∃ flags key arrow isAsync, t.kind = .field flags ∧ t.get? .key = some key ∧
        t.get? .value = some arrow ∧ arrow.kind = .arrow isAsync ∧
        t.arrowFieldAsMethod = methodOfArrow t.span flags key arrow isAsync := by
  unfold arrowFieldAsMethod
  split
  · rename_i flags key value hkind hkey hvalue
    split
    · rename_i hprivate
      exact .inl ⟨by simp [fieldArrow?, hkind, hkey, hvalue, hprivate], rfl⟩
    · rename_i isAsync harrow hpublic
      exact .inr ⟨flags, key, value, isAsync, hkind, hkey, hvalue, harrow, rfl⟩
    · rename_i hpublic hother
      exact .inl ⟨by simp [fieldArrow?, hkind, hkey, hvalue], rfl⟩
  · exact .inl ⟨by simp [fieldArrow?], rfl⟩

theorem arrowFieldsAsMethodsIn_eq (ts : List Tree) :
    arrowFieldsAsMethodsIn ts = ts.map arrowFieldsAsMethods := by
  induction ts with
  | nil => rfl
  | cons t ts ih => rw [arrowFieldsAsMethodsIn, ih, List.map_cons]

theorem arrowFieldsAsMethods_node (r : Role) (k : Kind) (s : Span) (ps : List Tree) :
    (node r k s ps).arrowFieldsAsMethods =
      (node r k s (ps.map arrowFieldsAsMethods)).arrowFieldAsMethod := by
  rw [arrowFieldsAsMethods, arrowFieldsAsMethodsIn_eq]

/-! ### The repaired tree -/

namespace IsRepaired

theorem of_parts (hparts : ∀ p ∈ t.parts, p.IsRepaired) (h : t.fieldArrow? = none) :
    t.IsRepaired := by
  intro n hn
  rw [subtrees_eq, List.mem_cons, List.mem_flatMap] at hn
  obtain rfl | ⟨p, hp, hn⟩ := hn
  · exact h
  · exact hparts p hp n hn

theorem part {p : Tree} (h : t.IsRepaired) (hp : p ∈ t.parts) : p.IsRepaired :=
  fun n hn => h n (mem_subtrees_of_part hp hn)

theorem fieldArrow?_eq (h : t.IsRepaired) : t.fieldArrow? = none :=
  h t t.mem_subtrees_self

theorem as (h : t.IsRepaired) (r : Role) : (t.as r).IsRepaired := by
  cases t with
  | node r' k s ps => exact of_parts (fun p hp => h.part hp) h.fieldArrow?_eq

theorem blockOf (h : body.IsRepaired) : (blockOf body).IsRepaired := by
  unfold Tree.blockOf
  split
  · exact h
  · have hreturn : (node .statement .returnStatement body.span [body.as .operand]).IsRepaired :=
      of_parts (by simpa [parts] using h.as .operand) rfl
    exact of_parts (by simpa [parts] using hreturn) rfl

theorem methodOfArrow (hkey : key.IsRepaired) (harrow : arrow.IsRepaired) :
    (methodOfArrow span flags key arrow isAsync).IsRepaired := by
  have hall : ∀ r, ∀ p ∈ arrow.all r, p.IsRepaired := fun r p hp => harrow.part (mem_all.1 hp).1
  refine of_parts (fun p hp => ?_) rfl
  simp only [Tree.methodOfArrow, parts, List.mem_cons, List.mem_append, List.mem_map] at hp
  obtain rfl | ((⟨q, hq, rfl⟩ | ⟨q, hq, rfl⟩) | hp) | hp := hp
  · exact hkey
  · exact of_parts (by simpa [asParameter, parts] using (hall _ q hq).as .value) rfl
  · exact (hall _ q hq).blockOf
  · exact hall _ p hp
  · exact hall _ p hp

end IsRepaired

theorem IsRepaired.arrowFieldsAsMethods_eq (h : t.IsRepaired) : t.arrowFieldsAsMethods = t := by
  induction t using Tree.induction with
  | h r k s ps ih =>
    have hparts : ps.map arrowFieldsAsMethods = ps :=
      (List.map_congr_left fun p hp => ih p hp (h.part hp)).trans (List.map_id _)
    rw [arrowFieldsAsMethods_node, hparts, arrowFieldAsMethod_of_none h.fieldArrow?_eq]

/-! ### Where its statements end -/

def statementEnds (t : Tree) : List Nat := t.blockStatements.map (·.span.stop)

theorem arrowFieldsAsMethods_shape (t : Tree) :
    t.arrowFieldsAsMethods.span = t.span ∧
      (t.arrowFieldsAsMethods.role = t.role ∨ t.arrowFieldsAsMethods.role = .member) ∧
      ((∃ flags, t.kind = .field flags ∧ ∃ sort flags' functionFlags,
          t.arrowFieldsAsMethods.kind = .method sort flags' functionFlags) ∨
        t.arrowFieldsAsMethods.kind = t.kind ∧
          t.arrowFieldsAsMethods.parts = t.parts.map arrowFieldsAsMethods) := by
  cases t with
  | node r k s ps =>
    rw [arrowFieldsAsMethods_node]
    obtain ⟨-, hsame⟩ | ⟨flags, key, arrow, isAsync, hkind, -, -, -, hmethod⟩ :=
      arrowFieldAsMethod_cases (node r k s (ps.map arrowFieldsAsMethods))
    · rw [hsame]
      exact ⟨rfl, .inl rfl, .inr ⟨rfl, rfl⟩⟩
    · rw [hmethod]
      exact ⟨rfl, .inr rfl, .inl ⟨flags, hkind, _, _, _, rfl⟩⟩

end Tree

/-! ### Repairing twice -/

theorem exists_ok_of_any {ε α : Type} {e : Except ε α} {f : α → Bool}
    (h : e.toOption.any f = true) : ∃ a, e = .ok a ∧ f a = true := by
  cases e with
  | error _ => cases h
  | ok a => exact ⟨a, rfl, h⟩

namespace Module

def isStray (source : List Char) (t : Tree) (pos : Nat) : Bool :=
  t.statementEnds.contains pos && endsLineAt source pos

end Module

end Revue.Syntax
