import Revue.Analysis.Sites
import Revue.Proofs.EditOrder

/-!
# Trees whose spans are laid out like their text

In a parse tree the span of a node is on character boundaries, its parts lie in it and are apart
from each other. Names and `this` are not empty and have no parts in an access to a member, the name
of an attribute holds names only, and a call that changes state has a parenthesis behind its callee.
That is all that the places of sites depend on.
-/

namespace Revue.Syntax
open Text

variable {r : Role} {n p t : Tree}

namespace Tree

/-- What holds of a node as soon as it holds of its parts holds of every tree. -/
theorem induction {P : Tree → Prop}
    (h : ∀ r k s ps, (∀ p ∈ ps, P p) → P (.node r k s ps)) (t : Tree) : P t := by
  refine @Tree.rec P (fun ps => ∀ p ∈ ps, P p) h (by simp) (fun p ps hp hps q hq => ?_) t
  rcases List.mem_cons.1 hq with rfl | hq
  · exact hp
  · exact hps q hq

theorem subtreesOf_eq (ts : List Tree) : subtreesOf ts = ts.flatMap subtrees := by
  induction ts with
  | nil => rfl
  | cons t ts ih => rw [subtreesOf, ih, List.flatMap_cons]

theorem subtrees_eq (t : Tree) : t.subtrees = t :: t.parts.flatMap subtrees := by
  cases t with
  | node r k s ps => rw [subtrees, subtreesOf_eq, parts]

theorem mem_subtrees_self (t : Tree) : t ∈ t.subtrees := by
  rw [subtrees_eq]
  exact List.mem_cons_self

theorem mem_subtrees_of_part (hp : p ∈ t.parts) (hn : n ∈ p.subtrees) : n ∈ t.subtrees := by
  rw [subtrees_eq]
  exact List.mem_cons_of_mem _ (List.mem_flatMap.2 ⟨p, hp, hn⟩)

theorem mem_subtrees_trans (hp : p ∈ t.subtrees) (hn : n ∈ p.subtrees) : n ∈ t.subtrees := by
  induction t using Tree.induction with
  | h r k s ps ih =>
    rw [subtrees_eq, List.mem_cons, List.mem_flatMap] at hp
    obtain rfl | ⟨q, hq, hp⟩ := hp
    · exact hn
    · exact mem_subtrees_of_part hq (ih q hq hp)

theorem mem_parts_of_get? (h : t.get? r = some p) : p ∈ t.parts ∧ p.role = r :=
  ⟨List.mem_of_find?_eq_some h, by simpa using List.find?_some h⟩

theorem mem_all : p ∈ t.all r ↔ p ∈ t.parts ∧ p.role = r := by
  simp [all]

theorem mem_subtrees_of_get? (h : t.get? r = some p) : p ∈ t.subtrees :=
  mem_subtrees_of_part (mem_parts_of_get? h).1 p.mem_subtrees_self

theorem mem_subtrees_of_all (h : p ∈ t.all r) : p ∈ t.subtrees :=
  mem_subtrees_of_part (mem_all.1 h).1 p.mem_subtrees_self

theorem getD_get?_mem_subtrees (t : Tree) (r : Role) : (t.get? r).getD t ∈ t.subtrees := by
  cases h : t.get? r with
  | none => exact t.mem_subtrees_self
  | some p => exact mem_subtrees_of_get? h

theorem withoutParens_mem_subtrees (t : Tree) : t.withoutParens ∈ t.subtrees := by
  fun_induction withoutParens t with
  | case1 r s inner ih =>
    exact mem_subtrees_of_part (t := .node r .parenthesized s [inner]) List.mem_cons_self ih
  | case2 t => exact t.mem_subtrees_self

end Tree

def Kind.isToken : Kind → Bool
  | name _ | this => true
  | _ => false

def Kind.isAttributeName : Kind → Bool
  | name _ | namespacedName => true
  | _ => false

end Revue.Syntax

namespace Revue.Analysis
open Text Syntax Component

variable {t : Tree} {property : String} {source : List Char}

def isStateUpdate (t : Tree) : Bool :=
  (t.get? .callee).any fun callee => memberOfThis? callee = some "setState"

/-- Behind the callee there is a parenthesis, in front of the arguments and of the end. -/
def opensBeforeArguments (source : List Char) (t : Tree) : Bool :=
  match (t.get? .callee).bind fun callee => afterParen? source callee.span.stop with
  | some pos => pos < t.span.stop && (t.all .argument).all fun a => pos ≤ a.span.start
  | none => false

def apart (a b : Span) : Prop := a.stop ≤ b.start ∨ b.stop ≤ a.start

instance (a b : Span) : Decidable (apart a b) :=
  inferInstanceAs (Decidable (a.stop ≤ b.start ∨ b.stop ≤ a.start))

structure NodeLaid (source : List Char) (t : Tree) : Prop where
  within : t.span.Within source
  nested : ∀ p ∈ t.parts, t.span.containsSpan p.span = true
  apart : t.parts.Pairwise fun a b => apart a.span b.span
  token : t.kind.isToken = true → t.span.start < t.span.stop
  access : t.kind = .member → ∀ p ∈ t.parts, p.kind.isToken = true → p.parts.isEmpty = true
  names : t.kind = .attribute → ∀ p ∈ t.parts, p.role ≠ .value →
    ∀ n ∈ p.subtrees, n.kind.isAttributeName = true
  update : t.kind = .call → isStateUpdate t = true → opensBeforeArguments source t = true

instance (source : List Char) (t : Tree) : Decidable (NodeLaid source t) :=
  decidable_of_iff
    (t.span.Within source ∧ (∀ p ∈ t.parts, t.span.containsSpan p.span = true) ∧
      (t.parts.Pairwise fun a b => Analysis.apart a.span b.span) ∧
      (t.kind.isToken = true → t.span.start < t.span.stop) ∧
      (t.kind = .member → ∀ p ∈ t.parts, p.kind.isToken = true → p.parts.isEmpty = true) ∧
      (t.kind = .attribute → ∀ p ∈ t.parts, p.role ≠ .value →
        ∀ n ∈ p.subtrees, n.kind.isAttributeName = true) ∧
      (t.kind = .call → isStateUpdate t = true → opensBeforeArguments source t = true))
    ⟨fun ⟨h1, h2, h3, h4, h5, h6, h7⟩ => ⟨h1, h2, h3, h4, h5, h6, h7⟩,
      fun ⟨h1, h2, h3, h4, h5, h6, h7⟩ => ⟨h1, h2, h3, h4, h5, h6, h7⟩⟩

/-- All nodes of a tree are. -/
def Laid (source : List Char) (t : Tree) : Prop := ∀ n ∈ t.subtrees, NodeLaid source n

instance (source : List Char) (t : Tree) : Decidable (Laid source t) :=
  inferInstanceAs (Decidable (∀ n ∈ t.subtrees, NodeLaid source n))

theorem Laid.node (h : Laid source t) : NodeLaid source t :=
  h t t.mem_subtrees_self

theorem Laid.part {p : Tree} (h : Laid source t) (hp : p ∈ t.parts) : Laid source p :=
  fun n hn => h n (Tree.mem_subtrees_of_part hp hn)

theorem Laid.subtree {n : Tree} (h : Laid source t) (hn : n ∈ t.subtrees) : Laid source n :=
  fun n' hn' => h n' (Tree.mem_subtrees_trans hn hn')

theorem findingsIn_eq (source : List Char) (setting : Setting) (visits : Role → Bool)
    (ts : List Tree) :
    findingsIn source setting visits ts =
      (ts.filter fun t => visits t.role).flatMap (findings source setting) := by
  induction ts with
  | nil => rfl
  | cons t ts ih =>
    rw [findingsIn, ih, List.filter_cons]
    split <;> simp

theorem findings_eq (source : List Char) (setting : Setting) (t : Tree) :
    findings source setting t = (step source setting t).found ++
      (t.parts.filter fun p => (step source setting t).visits p.role).flatMap
        (findings source setting) := by
  cases t with
  | node r k s ps => rw [findings, findingsIn_eq, Tree.parts]

theorem kind_of_name? {name : String} (h : t.name? = some name) : t.kind = .name name := by
  unfold Tree.name? at h
  split at h
  · rename_i hkind
    rw [hkind, Option.some.inj h]
  · cases h

theorem namedMember?_eq_some {object : Tree} (h : namedMember? t = some (object, property)) :
    ∃ name, t.kind = .member ∧ t.parts = [object, name] ∧ name.kind = .name property := by
  unfold namedMember? at h
  split at h
  · obtain ⟨rfl, rfl⟩ : _ = object ∧ _ = property := by simpa using h
    exact ⟨_, rfl, rfl, rfl⟩
  · cases h

theorem memberOfThis?_eq_some (h : memberOfThis? t = some property) :
    ∃ object, namedMember? t = some (object, property) ∧ object.kind = .this := by
  unfold memberOfThis? at h
  split at h
  · rename_i object property' hnamed
    split at h
    · rename_i hthis
      obtain rfl : property' = property := by simpa using h
      exact ⟨object, hnamed, hthis⟩
    · cases h
  · cases h

end Revue.Analysis
