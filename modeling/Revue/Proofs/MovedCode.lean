import Revue.Proofs.ExportForms
import Revue.Proofs.FieldAssignments

/-!
# Code in another place

A piece of code may stand anywhere in a source, and its tree then differs in the offsets only. The
walk through it reads the source in one place: it looks for the parenthesis of a call that changes
state. Where the code has none, one may be found behind it, but that is outside of the code and
makes no site of it. So a fragment depends on the code alone, and the fragment of an expression that
is returned in braces is the one of the expression with text around it.
-/

namespace Revue.Syntax
open Text

namespace Tree

theorem fieldArrow?_eq_some_iff {t arrow : Tree} :
    t.fieldArrow? = some arrow ↔
      ∃ flags key isAsync, t.kind = .field flags ∧ t.get? .key = some key ∧
        (∀ name, key.kind ≠ .privateName name) ∧ t.get? .value = some arrow ∧
        arrow.kind = .arrow isAsync := by
  unfold fieldArrow?
  constructor
  · intro h
    split at h
    · rename_i flags key value hkind hkey hvalue
      split at h
      · cases h
      · rename_i isAsync harrow hpublic
        obtain rfl := Option.some.inj h
        exact ⟨flags, key, isAsync, hkind, hkey, hpublic, hvalue, harrow⟩
      · cases h
    · cases h
  · rintro ⟨flags, key, isAsync, hkind, hkey, hpublic, hvalue, harrow⟩
    rw [hkind, hkey, hvalue]
    dsimp only
    rw [harrow]
    split
    · rename_i name hprivate
      exact absurd hprivate (hpublic name)
    · rfl
    · rename_i hother
      exact absurd rfl (hother isAsync)

theorem arrowFieldAsMethod_of_some {t key arrow : Tree} {flags : MemberFlags} {isAsync : Bool}
    (h : t.fieldArrow? = some arrow) (hkind : t.kind = .field flags)
    (hkey : t.get? .key = some key) (harrow : arrow.kind = .arrow isAsync) :
    t.arrowFieldAsMethod = methodOfArrow t.span flags key arrow isAsync := by
  obtain ⟨hnone, -⟩ | ⟨flags', key', arrow', isAsync', hkind', hkey', hvalue', harrow', hmethod⟩ :=
    arrowFieldAsMethod_cases t
  · rw [h] at hnone
    cases hnone
  · obtain ⟨-, -, -, -, -, -, hvalue, -⟩ := fieldArrow?_eq_some_iff.1 h
    obtain rfl : flags' = flags := by simpa [hkind'] using hkind
    obtain rfl : key' = key := by simpa [hkey'] using hkey
    obtain rfl : arrow' = arrow := by simpa [hvalue'] using hvalue
    obtain rfl : isAsync' = isAsync := by simpa [harrow'] using harrow
    exact hmethod

mutual

def shift (n : Nat) : Tree → Tree
  | node r k s ps => node r k (s.shift n) (shiftAll n ps)

def shiftAll (n : Nat) : List Tree → List Tree
  | [] => []
  | t :: ts => shift n t :: shiftAll n ts

end

section Shift
variable (n : Nat)

theorem shiftAll_eq (ts : List Tree) : shiftAll n ts = ts.map (shift n) := by
  induction ts with
  | nil => rfl
  | cons t ts ih => rw [shiftAll, ih, List.map_cons]

theorem shift_node (r : Role) (k : Kind) (s : Span) (ps : List Tree) :
    (node r k s ps).shift n = node r k (s.shift n) (ps.map (shift n)) := by
  rw [shift, shiftAll_eq]

variable (t : Tree)

@[simp] theorem role_shift : (t.shift n).role = t.role := by cases t; rfl

@[simp] theorem kind_shift : (t.shift n).kind = t.kind := by cases t; rfl

@[simp] theorem span_shift : (t.shift n).span = t.span.shift n := by cases t; rfl

@[simp] theorem parts_shift : (t.shift n).parts = t.parts.map (shift n) := by
  cases t with
  | node r k s ps => rw [shift_node, parts, parts]

@[simp] theorem get?_shift (r : Role) : (t.shift n).get? r = (t.get? r).map (shift n) := by
  simp [get?, List.find?_map, Function.comp_def]

@[simp] theorem all_shift (r : Role) : (t.shift n).all r = (t.all r).map (shift n) := by
  simp [all, List.filter_map, Function.comp_def]

@[simp] theorem as_shift (r : Role) : (t.shift n).as r = (t.as r).shift n := by cases t; rfl

@[simp] theorem name?_shift : (t.shift n).name? = t.name? := by simp [name?]

theorem subtrees_shift : (t.shift n).subtrees = t.subtrees.map (shift n) := by
  induction t using Tree.induction with
  | h r k s ps ih =>
    rw [subtrees_eq, subtrees_eq (node r k s ps), parts_shift, List.flatMap_map, List.map_cons,
      List.map_flatMap]
    exact congrArg _ (List.flatMap_congr ih)

theorem spans_shift : (t.shift n).spans = t.spans.map (·.shift n) := by
  simp [spans, subtrees_shift, Function.comp_def]

theorem withoutParens_shift : (t.shift n).withoutParens = t.withoutParens.shift n := by
  fun_induction withoutParens t with
  | case1 r s inner ih =>
    rw [shift_node, List.map_singleton, withoutParens]
    exact ih
  | case2 t hother =>
    rw [withoutParens]
    intro r s inner hshift
    cases t with
    | node r' k s' ps =>
      rw [shift_node] at hshift
      obtain ⟨-, hkind, -, hparts⟩ := node.inj hshift
      obtain ⟨p, rfl, -⟩ := List.map_eq_singleton_iff.1 hparts
      exact hother r' s' p (by rw [hkind])

/-! ### Repairs of a shifted tree -/

theorem blockOf_shift : blockOf (t.shift n) = (blockOf t).shift n := by
  unfold blockOf
  rw [kind_shift]
  split
  · rfl
  · simp [shift_node]

theorem asParameter_shift : asParameter (t.shift n) = (asParameter t).shift n := by
  simp [asParameter, shift_node]

theorem methodOfArrow_shift (span : Span) (flags : MemberFlags) (key arrow : Tree)
    (isAsync : Bool) :
    methodOfArrow (span.shift n) flags (key.shift n) (arrow.shift n) isAsync =
      (methodOfArrow span flags key arrow isAsync).shift n := by
  simp [methodOfArrow, shift_node, asParameter_shift, blockOf_shift, Function.comp_def]

theorem fieldArrow?_shift : (t.shift n).fieldArrow? = t.fieldArrow?.map (shift n) := by
  refine Option.ext fun moved => ?_
  simp only [fieldArrow?_eq_some_iff, kind_shift, get?_shift, Option.map_eq_some_iff]
  constructor
  · rintro ⟨flags, _, isAsync, hkind, ⟨key, hkey, rfl⟩, hpublic, ⟨arrow, hvalue, rfl⟩, harrow⟩
    rw [kind_shift] at hpublic harrow
    exact ⟨arrow, ⟨flags, key, isAsync, hkind, hkey, hpublic, hvalue, harrow⟩, rfl⟩
  · rintro ⟨arrow, ⟨flags, key, isAsync, hkind, hkey, hpublic, hvalue, harrow⟩, rfl⟩
    refine ⟨flags, key.shift n, isAsync, hkind, ⟨key, hkey, rfl⟩, ?_, ⟨arrow, hvalue, rfl⟩, ?_⟩
    · rwa [kind_shift]
    · rwa [kind_shift]

theorem arrowFieldAsMethod_shift :
    (t.shift n).arrowFieldAsMethod = t.arrowFieldAsMethod.shift n := by
  cases h : t.fieldArrow? with
  | none =>
    have hmoved : (t.shift n).fieldArrow? = none := by rw [fieldArrow?_shift, h, Option.map_none]
    rw [arrowFieldAsMethod_of_none h, arrowFieldAsMethod_of_none hmoved]
  | some arrow =>
    have hmoved : (t.shift n).fieldArrow? = some (arrow.shift n) := by
      rw [fieldArrow?_shift, h, Option.map_some]
    obtain ⟨flags, key, isAsync, hkind, hkey, -, -, harrow⟩ := fieldArrow?_eq_some_iff.1 h
    rw [arrowFieldAsMethod_of_some h hkind hkey harrow,
      arrowFieldAsMethod_of_some hmoved ((t.kind_shift n).trans hkind)
        (by rw [get?_shift, hkey, Option.map_some]) ((arrow.kind_shift n).trans harrow),
      span_shift, methodOfArrow_shift]

theorem arrowFieldsAsMethods_shift :
    (t.shift n).arrowFieldsAsMethods = t.arrowFieldsAsMethods.shift n := by
  induction t using Tree.induction with
  | h r k s ps ih =>
    have hparts : (ps.map (shift n)).map arrowFieldsAsMethods =
        (ps.map arrowFieldsAsMethods).map (shift n) := by
      rw [List.map_map, List.map_map]
      exact List.map_congr_left ih
    rw [shift_node, arrowFieldsAsMethods_node, hparts, ← shift_node, arrowFieldAsMethod_shift,
      arrowFieldsAsMethods_node]

end Shift

end Tree

end Revue.Syntax

namespace Revue.Analysis
open Text Syntax Component

/-! ### The walk through shifted code -/

theorem namedMember?_shift (n : Nat) (t : Tree) :
    namedMember? (t.shift n) = (namedMember? t).map (Prod.map (Tree.shift n) id) := by
  cases h : namedMember? t with
  | some access =>
    obtain ⟨object, property⟩ := access
    obtain ⟨name, hkind, hparts, hname⟩ := namedMember?_eq_some h
    cases t with
    | node r k s ps =>
      cases name with
      | node r' k' s' ps' =>
        obtain rfl : k = .member := hkind
        obtain rfl : k' = .name property := hname
        obtain rfl : ps = _ := hparts
        rfl
  | none =>
    cases hmoved : namedMember? (t.shift n) with
    | none => rfl
    | some access =>
      obtain ⟨object, property⟩ := access
      obtain ⟨name, hkind, hparts, hname⟩ := namedMember?_eq_some hmoved
      rw [Tree.parts_shift] at hparts
      obtain ⟨object', rest, hps, -, hrest⟩ := List.map_eq_cons_iff.1 hparts
      obtain ⟨name', rfl, rfl⟩ := List.map_eq_singleton_iff.1 hrest
      cases t with
      | node r k s ps =>
        cases name' with
        | node r' k' s' ps' =>
          obtain rfl : k = .member := hkind
          obtain rfl : k' = .name property := hname
          obtain rfl : ps = _ := hps
          cases h

theorem memberOfThis?_shift (n : Nat) (t : Tree) :
    memberOfThis? (t.shift n) = memberOfThis? t := by
  unfold memberOfThis?
  rw [namedMember?_shift]
  cases namedMember? t with
  | none => rfl
  | some access => simp

theorem isPlainUpdate_shift (n : Nat) (t : Tree) : isPlainUpdate (t.shift n) = isPlainUpdate t := by
  unfold isPlainUpdate
  rw [Tree.all_shift]
  cases t.all .argument with
  | nil => rfl
  | cons argument rest =>
    cases rest with
    | nil => simp [Tree.withoutParens_shift]
    | cons => rfl

def Finding.shift (n : Nat) : Finding → Finding
  | site range kind => site (range.shift n) kind
  | updater range => updater (range.shift n)

def Step.shift (n : Nat) (s : Step) : Step := ⟨s.found.map (Finding.shift n), s.visits⟩

theorem classAccess_shift (n : Nat) (binding : Option String) (t : Tree) :
    classAccess binding (t.shift n) = (classAccess binding t).shift n := by
  unfold classAccess
  rw [namedMember?_shift]
  cases namedMember? t with
  | none => rfl
  | some access =>
    obtain ⟨object, property⟩ := access
    simp only [Option.map_some, Prod.map_apply, id_eq, memberOfThis?_shift, Tree.span_shift,
      Tree.name?_shift]
    generalize memberOfThis? object = outer, memberOfThis? t = inner
    split
    · split <;> rfl
    · rfl
    · rfl
    · rfl
    · rfl
    · split <;> rfl

theorem functionalAccess_shift (n : Nat) (props : Option String) (t : Tree) :
    functionalAccess props (t.shift n) = (functionalAccess props t).shift n := by
  unfold functionalAccess
  rw [namedMember?_shift]
  cases namedMember? t with
  | none => rfl
  | some access =>
    obtain ⟨object, property⟩ := access
    by_cases hproperty : property = "children"
    · subst hproperty
      simp only [Option.map_some, Prod.map_apply, id_eq, Tree.span_shift, Tree.name?_shift]
      split <;> rfl
    · simp [hproperty, Step.shift, Step.go]

theorem attributeStep_shift (n : Nat) (t : Tree) :
    attributeStep (t.shift n) = (attributeStep t).shift n := by
  unfold attributeStep
  rw [Tree.get?_shift]
  cases t.get? .name with
  | none => rfl
  | some name =>
    simp only [Option.map_some, Tree.span_shift, Tree.name?_shift]
    split <;> rfl

def Finding.isKept (keeps : Nat → Bool) : Finding → Bool
  | site range .setStateArgs => keeps range.stop
  | _ => true

def SameParen (source source' : List Char) (n : Nat) (keeps : Nat → Bool) (t : Tree) : Prop :=
  (afterParen? source' (t.span.stop + n)).filter keeps =
    (afterParen? source t.span.stop).map (· + n)

def insertionsAt (pos? : Option Nat) : List Finding :=
  pos?.toList.map fun pos => .site ⟨pos, pos⟩ .setStateArgs

theorem filter_insertionsAt (keeps : Nat → Bool) (pos? : Option Nat) :
    (insertionsAt pos?).filter (Finding.isKept keeps) = insertionsAt (pos?.filter keeps) := by
  cases pos? with
  | none => rfl
  | some pos => cases h : keeps pos <;> simp [insertionsAt, Finding.isKept, Option.filter, h]

theorem map_insertionsAt (n : Nat) (pos? : Option Nat) :
    (insertionsAt pos?).map (Finding.shift n) = insertionsAt (pos?.map (· + n)) := by
  cases pos? <;> rfl

theorem classCall_of_update (source : List Char) {t callee : Tree}
    (hcallee : t.get? .callee = some callee) (hupdate : memberOfThis? callee = some "setState") :
    classCall source t = ⟨.site callee.span .setStateCallee ::
      (insertionsAt (afterParen? source callee.span.stop) ++
        if isPlainUpdate t then [] else [.updater t.span]), (· = .argument)⟩ := by
  unfold classCall
  rw [hcallee]
  dsimp only
  rw [if_pos hupdate]
  cases afterParen? source callee.span.stop <;> rfl

theorem classCall_eq_go (source : List Char) {t : Tree}
    (h : ∀ callee, t.get? .callee = some callee → memberOfThis? callee ≠ some "setState") :
    classCall source t = .go := by
  unfold classCall
  cases hcallee : t.get? .callee with
  | none => rfl
  | some callee => exact if_neg (h callee hcallee)

section Walk
variable {source source' : List Char} {n : Nat} {keeps : Nat → Bool} {t : Tree}

theorem isKept_of_kind_ne (setting : Setting) (hkind : t.kind ≠ .call) :
    ∀ f ∈ (step source setting t).found, f.isKept keeps = true := by
  unfold step
  split
  · unfold classAccess
    repeat' split
    all_goals simp [Step.stop, Step.go, Finding.isKept]
  · unfold functionalAccess
    repeat' split
    all_goals simp [Step.stop, Step.go, Finding.isKept]
  · contradiction
  · unfold attributeStep
    repeat' split
    all_goals simp [Step.go, Finding.isKept]
  · simp [Step.go]

theorem step_shift_of_kind_ne (setting : Setting) (hkind : t.kind ≠ .call) :
    step source' setting (t.shift n) = (step source setting t).shift n := by
  unfold step
  rw [Tree.kind_shift]
  split
  · exact classAccess_shift n _ t
  · exact functionalAccess_shift n _ t
  · contradiction
  · exact attributeStep_shift n t
  · rfl

theorem classCall_shift (h : ∀ p ∈ t.parts, SameParen source source' n keeps p) :
    (classCall source' (t.shift n)).visits = (classCall source t).visits ∧
      (classCall source' (t.shift n)).found.filter (Finding.isKept keeps) =
        (classCall source t).found.map (Finding.shift n) := by
  by_cases hupdate : ∃ callee, t.get? .callee = some callee ∧
      memberOfThis? callee = some "setState"
  · obtain ⟨callee, hcallee, hupdate⟩ := hupdate
    have hcallee' : (t.shift n).get? .callee = some (callee.shift n) := by
      rw [Tree.get?_shift, hcallee, Option.map_some]
    have hparen := h callee (Tree.mem_parts_of_get? hcallee).1
    rw [classCall_of_update source hcallee hupdate,
      classCall_of_update source' hcallee' ((memberOfThis?_shift n callee).trans hupdate),
      isPlainUpdate_shift, Tree.span_shift, Tree.span_shift]
    refine ⟨rfl, ?_⟩
    rw [List.filter_cons_of_pos rfl, List.filter_append, filter_insertionsAt, Span.shift, hparen,
      List.map_cons, List.map_append, map_insertionsAt]
    cases isPlainUpdate t <;> rfl
  · have hnone : ∀ callee, t.get? .callee = some callee →
        memberOfThis? callee ≠ some "setState" :=
      fun callee hcallee hthis => hupdate ⟨callee, hcallee, hthis⟩
    have hnone' : ∀ moved, (t.shift n).get? .callee = some moved →
        memberOfThis? moved ≠ some "setState" := by
      intro moved hmoved
      rw [Tree.get?_shift] at hmoved
      obtain ⟨callee, hcallee, rfl⟩ := Option.map_eq_some_iff.1 hmoved
      rw [memberOfThis?_shift]
      exact hnone callee hcallee
    rw [classCall_eq_go source hnone, classCall_eq_go source' hnone']
    exact ⟨rfl, rfl⟩

theorem step_shift (setting : Setting) (h : ∀ p ∈ t.parts, SameParen source source' n keeps p) :
    (step source' setting (t.shift n)).visits = (step source setting t).visits ∧
      (step source' setting (t.shift n)).found.filter (Finding.isKept keeps) =
        (step source setting t).found.map (Finding.shift n) := by
  by_cases hkind : t.kind = .call
  · have hkind' : (t.shift n).kind = .call := (t.kind_shift n).trans hkind
    cases setting with
    | classMember binding =>
      have hstep : ∀ {source t}, t.kind = .call →
          step source (.classMember binding) t = classCall source t := by
        intro source t hkind
        simp only [step, hkind]
      rw [hstep hkind, hstep hkind']
      exact classCall_shift h
    | functional props =>
      have hstep : ∀ {source t}, t.kind = .call → step source (.functional props) t = .go := by
        intro source t hkind
        simp only [step, hkind]
      rw [hstep hkind, hstep hkind']
      exact ⟨rfl, rfl⟩
  · have hkept : ∀ f ∈ (step source' setting (t.shift n)).found, f.isKept keeps = true :=
      isKept_of_kind_ne setting (by rwa [Tree.kind_shift])
    rw [List.filter_eq_self.2 hkept, step_shift_of_kind_ne setting hkind]
    exact ⟨rfl, rfl⟩

/-- The walk through shifted code finds the same, further to the right. -/
theorem findings_shift (setting : Setting)
    (h : ∀ m ∈ t.subtrees, SameParen source source' n keeps m) :
    (findings source' setting (t.shift n)).filter (Finding.isKept keeps) =
      (findings source setting t).map (Finding.shift n) := by
  induction t using Tree.induction with
  | h r k s ps ih =>
    obtain ⟨hvisits, hfound⟩ := step_shift setting fun p hp =>
      h p (Tree.mem_subtrees_of_part hp p.mem_subtrees_self)
    rw [findings_eq, findings_eq source, hvisits, List.filter_append, hfound, List.map_append,
      Tree.parts_shift, List.filter_map, List.flatMap_map, List.filter_flatMap, List.map_flatMap]
    refine congrArg _ ?_
    simp only [Function.comp_def, Tree.role_shift]
    refine List.flatMap_congr fun p hp => ?_
    have hp' : p ∈ ps := (List.mem_filter.1 hp).1
    exact ih p hp' fun m hm => h m (Tree.mem_subtrees_of_part hp' hm)

end Walk

/-! ### Parentheses in a text with others around it -/

section Parens
variable {text : List Char} {pos : Nat} (before after : List Char)

theorem afterParen?_skip {gap : List Char} (h : '(' ∉ gap) (rest : List Char) :
    afterParen? (before ++ (gap ++ rest)) (byteLength before) =
      afterParen? (before ++ gap ++ rest) (byteLength (before ++ gap)) := by
  rw [afterParen?, afterParen?, cut?_append, cut?_append, Option.bind_some, Option.bind_some]
  dsimp only
  rw [span_of_paren_notMem h, List.span_eq_takeWhile_dropWhile]
  simp only [byteLength_append, Nat.add_assoc]

/-- A parenthesis behind an offset is in the text, or it is the first one behind the text. -/
theorem afterParen?_wrapped_cases (h : isBoundary text pos = true) :
    (∃ found ≤ byteLength text, afterParen? text pos = some found ∧
        afterParen? (before ++ (text ++ after)) (pos + byteLength before) =
          some (found + byteLength before)) ∨
      afterParen? text pos = none ∧
        afterParen? (before ++ (text ++ after)) (pos + byteLength before) =
          afterParen? (before ++ text ++ after) (byteLength (before ++ text)) := by
  obtain ⟨first, rest, rfl, rfl⟩ := isBoundary_iff.1 h
  have hpos : byteLength first + byteLength before = byteLength (before ++ first) := by
    rw [byteLength_append, Nat.add_comm]
  rw [hpos]
  by_cases hparen : '(' ∈ rest
  · obtain ⟨gap, tail, rfl, hgap⟩ := List.eq_append_cons_of_mem hparen
    have hsource : before ++ (first ++ (gap ++ '(' :: tail) ++ after) =
        before ++ first ++ (gap ++ '(' :: (tail ++ after)) := by simp
    have hsize : Char.utf8Size '(' = 1 := by decide
    refine .inl ⟨_, ?_, afterParen?_append hgap, ?_⟩
    · simp only [byteLength_append, byteLength, hsize]
      omega
    · rw [hsource, afterParen?_append hgap, byteLength_append]
      exact congrArg some (by omega)
  · refine .inr ⟨afterParen?_eq_none hparen, ?_⟩
    have hskip := afterParen?_skip (before ++ first) hparen after
    simpa only [List.append_assoc] using hskip

theorem afterParen?_wrapped (h : isBoundary text pos = true) :
    (afterParen? (before ++ (text ++ after)) (pos + byteLength before)).filter
        (· ≤ byteLength text + byteLength before) =
      (afterParen? text pos).map (· + byteLength before) := by
  obtain ⟨found, hle, hown, hfound⟩ | ⟨hnone, hbehind⟩ := afterParen?_wrapped_cases before after h
  · rw [hown, hfound, Option.map_some, Option.filter_some_pos]
    exact decide_eq_true (Nat.add_le_add_right hle _)
  · rw [hnone, hbehind, Option.map_none, Option.filter_eq_none_iff]
    intro found hfound
    obtain ⟨hlt, -⟩ := afterParen?_spec hfound
    rw [byteLength_append] at hlt
    simp only [decide_eq_true_eq]
    omega

theorem afterParen?_wrapped_of_notMem (h : isBoundary text pos = true) (hafter : '(' ∉ after) :
    afterParen? (before ++ (text ++ after)) (pos + byteLength before) =
      (afterParen? text pos).map (· + byteLength before) := by
  obtain ⟨found, -, hown, hfound⟩ | ⟨hnone, hbehind⟩ := afterParen?_wrapped_cases before after h
  · rw [hown, hfound, Option.map_some]
  · rw [hnone, hbehind, afterParen?_eq_none hafter, Option.map_none]

end Parens

/-! ### Code in its place -/

/-- A piece of code on its own: its text, and the tree of it. -/
structure Code where
  text : List Char
  tree : Tree
  span_eq : tree.span = ⟨0, byteLength text⟩
  within : ∀ s ∈ tree.spans, s.Within text

def Placed (r : Reading) (t : Tree) (c : Code) : Prop :=
  ∃ before after, r.source = before ++ (c.text ++ after) ∧ t = c.tree.shift (byteLength before)

namespace Code
variable (c : Code) (setting : Setting)

def findings : List Finding := Analysis.findings c.text setting c.tree

def fragment : Fragment where
  text := String.ofList c.text
  sites := sortOn (·.range.start) ((c.findings setting).filterMap (Finding.site? c.tree.span))

def updaters : List Span := (c.findings setting).filterMap Finding.updater?

end Code

theorem Finding.site?_of_isKept_eq_false {base : Span} {f : Finding}
    (h : f.isKept (· ≤ base.stop) = false) : f.site? base = none := by
  cases f with
  | updater range => rfl
  | site range kind =>
    cases kind <;> first | cases h | skip
    have hstop : ¬ range.stop ≤ base.stop := of_decide_eq_false h
    simp [Finding.site?, Span.containsSpan, hstop]

theorem Finding.site?_shift (n : Nat) (base : Span) (f : Finding) :
    (f.shift n).site? (base.shift n) = f.site? base := by
  cases f with
  | updater range => rfl
  | site range kind =>
    simp [Finding.shift, Finding.site?, Span.containsSpan, Span.shift, Span.relativeTo,
      Nat.add_sub_add_right]

theorem Finding.filterMap_updater?_shift (n : Nat) (fs : List Finding) :
    (fs.map (Finding.shift n)).filterMap Finding.updater? =
      (fs.filterMap Finding.updater?).map (·.shift n) := by
  rw [List.filterMap_map, List.map_filterMap]
  refine List.filterMap_congr fun f _ => ?_
  cases f <;> rfl

namespace Placed
variable {r : Reading} {t : Tree} {c : Code}

theorem kind_eq (h : Placed r t c) : t.kind = c.tree.kind := by
  obtain ⟨before, after, -, rfl⟩ := h
  exact c.tree.kind_shift _

/-- What is found in code that stands somewhere, apart from insertions behind its end. -/
theorem findings_eq {before after : List Char} (hsource : r.source = before ++ (c.text ++ after))
    (setting : Setting) :
    (findings r.source setting (c.tree.shift (byteLength before))).filter
        (Finding.isKept (· ≤ (c.tree.span.shift (byteLength before)).stop)) =
      (c.findings setting).map (Finding.shift (byteLength before)) := by
  apply findings_shift
  intro m hm
  rw [SameParen, hsource, c.span_eq]
  exact afterParen?_wrapped before after
    (c.within m.span (Tree.mem_spans.2 ⟨m, hm, rfl⟩)).stop_boundary

theorem fragmentOf_eq (h : Placed r t c) (setting : Setting) :
    fragmentOf r setting t = c.fragment setting := by
  obtain ⟨before, after, hsource, rfl⟩ := h
  have htext : r.text (c.tree.shift (byteLength before)).span = String.ofList c.text := by
    have hslice : (Span.mk 0 (byteLength c.text)).slice? c.text = some c.text :=
      Span.slice?_eq_some_iff.2 ⟨[], [], by simp, rfl, by simp⟩
    rw [Reading.text, hsource, Tree.span_shift, c.span_eq, Span.slice?_wrapped before after hslice,
      Option.getD_some]
  -- An insertion behind the code is outside of it.
  have hkept : ∀ f : Finding,
      (if f.isKept (· ≤ (c.tree.span.shift (byteLength before)).stop) then
        f.site? (c.tree.span.shift (byteLength before)) else none) =
      f.site? (c.tree.span.shift (byteLength before)) := by
    intro f
    split
    · rfl
    · rename_i hnot
      exact (Finding.site?_of_isKept_eq_false (by simpa using hnot)).symm
  have hfound := congrArg
    (List.filterMap (Finding.site? (c.tree.span.shift (byteLength before))))
    (findings_eq hsource setting)
  rw [List.filterMap_filter, List.filterMap_map] at hfound
  simp only [hkept, Function.comp_def, Finding.site?_shift] at hfound
  rw [fragmentOf, Code.fragment, htext, Tree.span_shift, hfound]

theorem updatersOf_eq (h : Placed r t c) (setting : Setting) :
    ∃ n, updatersOf r setting t = (c.updaters setting).map (·.shift n) := by
  obtain ⟨before, after, hsource, rfl⟩ := h
  refine ⟨byteLength before, ?_⟩
  have hkept : ∀ f : Finding,
      (if f.isKept (· ≤ (c.tree.span.shift (byteLength before)).stop) then f.updater? else none) =
        f.updater? := by
    intro f
    cases f with
    | site range kind => split <;> rfl
    | updater range => rfl
  have hfound := congrArg (List.filterMap Finding.updater?) (findings_eq hsource setting)
  rw [List.filterMap_filter, Finding.filterMap_updater?_shift] at hfound
  simp only [hkept] at hfound
  exact hfound

end Placed

/-! ### Code that is returned -/

theorem namedMember?_as (t : Tree) (role : Role) : namedMember? (t.as role) = namedMember? t := by
  by_cases hkind : t.kind = .member
  · cases t with
    | node r k s ps =>
      obtain rfl : k = .member := hkind
      obtain _ | ⟨object, _ | ⟨⟨_, kind, _, _⟩, _ | _⟩⟩ := ps
      · rfl
      · rfl
      · cases kind <;> rfl
      · cases kind <;> rfl
  · rw [namedMember?_of_kind hkind, namedMember?_of_kind (by rwa [Tree.kind_as])]

theorem step_as (source : List Char) (setting : Setting) (t : Tree) (role : Role) :
    step source setting (t.as role) = step source setting t := by
  have hthis : memberOfThis? (t.as role) = memberOfThis? t := by
    rw [memberOfThis?, memberOfThis?, namedMember?_as]
  unfold step
  rw [Tree.kind_as]
  split
  · rw [classAccess, classAccess, namedMember?_as, hthis, Tree.span_as]
  · rw [functionalAccess, functionalAccess, namedMember?_as, Tree.span_as]
  · rw [classCall, classCall, isPlainUpdate, isPlainUpdate, Tree.get?_as, Tree.all_as, Tree.span_as]
  · rw [attributeStep, attributeStep, Tree.get?_as]
  · rfl

theorem findings_as (source : List Char) (setting : Setting) (t : Tree) (role : Role) :
    findings source setting (t.as role) = findings source setting t := by
  rw [findings_eq, findings_eq source, step_as, Tree.parts_as]

theorem findings_of_go {source : List Char} {setting : Setting} {t part : Tree}
    (hgo : step source setting t = .go) (hparts : t.parts = [part]) :
    findings source setting t = findings source setting part := by
  rw [findings_eq, hgo, hparts]
  simp [Step.go]

theorem byteLength_returned (cs : List Char) :
    byteLength ("\x7b return ".toList ++ (cs ++ "; \x7d".toList)) = byteLength cs + 12 := by
  have hbefore : byteLength "\x7b return ".toList = 9 := by decide
  have hafter : byteLength "; \x7d".toList = 3 := by decide
  rw [byteLength_append, byteLength_append, hbefore, hafter]
  omega

theorem within_returned (cs : List Char) :
    (Span.mk 0 (byteLength cs + 12)).Within ("\x7b return ".toList ++ (cs ++ "; \x7d".toList)) ∧
      (Span.mk 2 (byteLength cs + 10)).Within
        ("\x7b return ".toList ++ (cs ++ "; \x7d".toList)) := by
  have hstop : byteLength ("\x7b return ".toList ++ (cs ++ [';'])) = byteLength cs + 10 := by
    have hbefore : byteLength "\x7b return ".toList = 9 := by decide
    have hafter : byteLength [';'] = 1 := by decide
    rw [byteLength_append, byteLength_append, hbefore, hafter]
    omega
  refine ⟨⟨Nat.zero_le _, rfl, ?_⟩, ⟨by simp, rfl, ?_⟩⟩
  · exact isBoundary_iff.2 ⟨_, [], by simp, byteLength_returned cs⟩
  · exact isBoundary_iff.2 ⟨_, [' ', '\x7d'], by simp, hstop⟩

namespace Code
variable (c : Code) (setting : Setting)

def returned : Code where
  text := "\x7b return ".toList ++ (c.text ++ "; \x7d".toList)
  tree := .node .body .block ⟨0, byteLength c.text + 12⟩
    [.node .statement .returnStatement ⟨2, byteLength c.text + 10⟩ [(c.tree.as .operand).shift 9]]
  span_eq := by rw [byteLength_returned]; rfl
  within := by
    intro s hs
    simp only [Tree.mem_spans_iff_parts (t := .node _ _ _ _), Tree.parts, Tree.span,
      List.mem_singleton, exists_eq_left, Tree.spans_shift, Tree.spans_as, List.mem_map] at hs
    obtain ⟨hblock, hreturn⟩ := within_returned c.text
    obtain rfl | rfl | ⟨u, hu, rfl⟩ := hs
    · exact hblock
    · exact hreturn
    · exact (c.within u hu).wrapped "\x7b return ".toList "; \x7d".toList

theorem text_returned :
    c.returned.text = "\x7b return ".toList ++ (c.text ++ "; \x7d".toList) := rfl

theorem span_returned : c.returned.tree.span = ⟨0, byteLength c.text + 12⟩ := rfl

theorem tree_returned :
    c.returned.tree = .node .body .block ⟨0, byteLength c.text + 12⟩
      [.node .statement .returnStatement ⟨2, byteLength c.text + 10⟩
        [(c.tree.as .operand).shift 9]] := rfl

theorem findings_returned :
    c.returned.findings setting = (c.findings setting).map (Finding.shift 9) := by
  have hkept : ∀ f : Finding, f.isKept (fun _ => true) = true := by
    intro f
    cases f with
    | updater range => rfl
    | site range kind => cases kind <;> rfl
  have hall : ∀ pos? : Option Nat, (pos?.filter fun _ => true) = pos? := by
    intro pos?
    cases pos? <;> rfl
  have hshift : (Analysis.findings c.returned.text setting ((c.tree.as .operand).shift 9)).filter
        (Finding.isKept fun _ => true) =
      (Analysis.findings c.text setting (c.tree.as .operand)).map (Finding.shift 9) := by
    apply findings_shift
    intro m hm
    have hspan : m.span ∈ c.tree.spans := by
      rw [← c.tree.spans_as .operand]
      exact Tree.mem_spans.2 ⟨m, hm, rfl⟩
    have hparen := afterParen?_wrapped_of_notMem "\x7b return ".toList "; \x7d".toList
      (c.within m.span hspan).stop_boundary (by decide)
    rw [SameParen, hall]
    exact hparen
  rw [List.filter_eq_self.2 fun f _ => hkept f, findings_as] at hshift
  rw [findings, findings_of_go (by cases setting <;> rfl) rfl,
    findings_of_go (by cases setting <;> rfl) rfl, hshift]
  rfl

theorem updaters_returned :
    c.returned.updaters setting = (c.updaters setting).map (·.shift 9) := by
  rw [updaters, findings_returned, Finding.filterMap_updater?_shift, updaters]

/-- All that is found in code lies in it. -/
theorem stop_le {range : Span} {kind : SiteKind} (h : .site range kind ∈ c.findings setting) :
    range.stop ≤ byteLength c.text := by
  cases foundIn_findings c.text setting c.tree _ h with
  | site hn =>
    exact isBoundary.le_byteLength (c.within _ (Tree.mem_spans.2 ⟨_, hn, rfl⟩)).stop_boundary
  | behindParen hpos => exact isBoundary.le_byteLength hpos

theorem fragment_returned :
    c.returned.fragment setting = (c.fragment setting).wrapped "\x7b return " "; \x7d" := by
  have htext : String.ofList c.returned.text =
      "\x7b return " ++ String.ofList c.text ++ "; \x7d" := by
    rw [text_returned, String.ofList_append, String.ofList_append, String.ofList_toList,
      String.ofList_toList, String.append_assoc]
  have hsite : ∀ f ∈ c.findings setting, (f.shift 9).site? c.returned.tree.span =
      (f.site? c.tree.span).map fun a => ⟨a.range.shift 9, a.kind⟩ := by
    intro f hf
    rw [span_returned, c.span_eq]
    cases f with
    | updater range => rfl
    | site range kind =>
      have hstop := c.stop_le setting hf
      have hstop' : range.stop + 9 ≤ byteLength c.text + 12 := by omega
      simp [Finding.shift, Finding.site?, Span.containsSpan, Span.shift, Span.relativeTo, hstop,
        hstop']
  have hsites : (c.returned.findings setting).filterMap (Finding.site? c.returned.tree.span) =
      ((c.findings setting).filterMap (Finding.site? c.tree.span)).map
        fun a => ⟨a.range.shift 9, a.kind⟩ := by
    rw [findings_returned, List.filterMap_map, List.map_filterMap]
    exact List.filterMap_congr hsite
  have hsize : "\x7b return ".utf8ByteSize = 9 := by decide
  have hsorted : (c.returned.fragment setting).sites =
      (c.fragment setting).sites.map fun a => ⟨a.range.shift 9, a.kind⟩ := by
    rw [fragment, fragment, hsites]
    exact sortOn_map (fun a b => Nat.add_le_add_iff_right) _
  rw [Fragment.wrapped, hsize, ← hsorted]
  exact congrArg (Fragment.mk · _) htext

end Code

end Revue.Analysis
