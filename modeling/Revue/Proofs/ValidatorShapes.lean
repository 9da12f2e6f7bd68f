import Revue.Proofs.ObjectEntries

/-!
# The shapes of validators

A validator is read by its shape: a member of `PropTypes` or of `React.PropTypes`, with `isRequired`
behind it or without. Of any other expression no type should be known. But the object of the member
is not looked at, only whether it is a name or a member itself, so that a member of another object
that is spelled like a type is taken for one, without a caveat. Apart from these, a validator has a
type only if it has the shape, and each that has none accepts everything and is flagged.
-/

namespace Revue.Analysis
open Text Syntax Component

/-! ### Recorded caveats -/

section Recording
variable {s : Setup} {cs : List Contract} {xs : List Static} {m m' : Model}

theorem Recording.caveats (h : Recording s cs xs m m') :
    m.caveats.toList <+: m'.caveats.toList := by
  induction h with
  | nil => exact List.prefix_rfl
  | elsewhere hother _ ih =>
    obtain ⟨added, hadded, -⟩ := hother.caveats
    exact (hadded ▸ List.prefix_append _ _).trans ih
  | typed _ _ _ _ ih => exact (addContract_grows _ _ _ _ _).caveats.trans ih
  | static hrecord _ ih => exact (recordStatic?_grows hrecord).caveats.trans ih

/-- The caveats about a static field are kept from where it is recorded. -/
theorem Recording.exists_recorded (h : Recording s cs xs m m') {x : Static} (hx : x ∈ xs) :
    ∃ m₀ m₁, recordStatic? s.reading m₀ x.component x.field x.value = some m₁ ∧
      m₁.caveats.toList <+: m'.caveats.toList := by
  induction h with
  | nil => cases hx
  | elsewhere _ _ ih => exact ih hx
  | typed _ _ _ _ ih => exact ih hx
  | static hrecord hrest ih =>
    rcases List.mem_cons.1 hx with rfl | hx
    · exact ⟨_, _, hrecord, hrest.caveats⟩
    · exact ih hx

end Recording

/-! ### Shapes -/

/-- The object of validators: `PropTypes`, alone or as a member of `React`. -/
def isValidatorObject (t : Tree) : Bool :=
  t.name? = some "PropTypes" ||
    (namedMember? t).any fun (object, property) =>
      object.name? = some "React" && property = "PropTypes"

/-- A value without `isRequired` behind it. -/
def withoutRequired (value : Tree) : Tree :=
  match namedMember? value with
  | some (object, "isRequired") => object
  | _ => value

/-- The token of a value that has the shape of a validator. -/
def shapeToken? (value : Tree) : Option String :=
  ((namedMember? (withoutRequired value)).filter (isValidatorObject ·.1)).map (·.2)

/-- Whether a value is spelled like a type, as a member of a name or of another member that is not
the object of validators. -/
def isMisread (value : Tree) : Bool :=
  (namedMember? (withoutRequired value)).any fun (object, token) =>
    (object.name?.isSome || object.kind = .member) && !isValidatorObject object &&
      (PropType.ofToken? token).isSome

/-- A validator has the shape and the type of its token, or it has no type, accepts everything and
is flagged. -/
def FollowsShape (m : Model) (component : String) (e : Tree) (name : String) (prop : PropSpec) :
    Prop :=
  (∃ token isRequired, (entryValue? e).bind shapeToken? = some token ∧
    prop = .ofToken .validated (some token) isRequired) ∨
  (entryValue? e).bind shapeToken? = none ∧ prop.type? = none ∧ prop.acceptsAll = true ∧
    Caveat.ambiguousProp name component e.span ∈ m.caveats.toList

section Shapes
variable {m : Model} {component name : String} {e value : Tree} {prop : PropSpec}

/-- The member that a validator is read as, if its object is a name or a member itself. -/
def readMember? (value : Tree) : Option (Tree × String) :=
  (namedMember? (withoutRequired value)).filter fun x => x.1.name?.isSome || x.1.kind = .member

theorem validatorProp_eq (value : Tree) :
    ∃ isRequired, validatorProp value =
      .ofToken .validated ((readMember? value).map (·.2)) isRequired := by
  unfold validatorProp readMember? withoutRequired
  cases hmember : namedMember? value with
  | none => exact ⟨false, by simp [hmember]⟩
  | some pair =>
    obtain ⟨object, property⟩ := pair
    by_cases hrequired : property = "isRequired"
    · subst hrequired
      refine ⟨true, ?_⟩
      cases hinner : namedMember? object <;> simp [hinner, Option.filter_some, apply_ite]
    · refine ⟨false, ?_⟩
      simp [hmember, hrequired, Option.filter_some, apply_ite]

theorem isValidatorObject_read {object : Tree} (h : isValidatorObject object = true) :
    (object.name?.isSome || object.kind = .member) = true := by
  unfold isValidatorObject namedMember? at h
  split at h
  · simp [Tree.kind]
  · have hname : object.name? = some "PropTypes" := by simpa using h
    simp [hname]

theorem isMisread_iff : isMisread value = true ↔
    shapeToken? value = none ∧ (validatorProp value).type? ≠ none := by
  obtain ⟨isRequired, hprop⟩ := validatorProp_eq value
  rw [hprop]
  unfold isMisread shapeToken? readMember?
  cases namedMember? (withoutRequired value) with
  | none => simp [PropSpec.ofToken]
  | some pair =>
    obtain ⟨object, token⟩ := pair
    cases hshape : isValidatorObject object <;>
      cases hread : (object.name?.isSome || object.kind = .member) <;>
      simp_all [PropSpec.ofToken, Option.isSome_iff_ne_none]

theorem shapeToken?_read {token : String} (h : shapeToken? value = some token) :
    ∃ isRequired, validatorProp value = .ofToken .validated (some token) isRequired := by
  obtain ⟨isRequired, hprop⟩ := validatorProp_eq value
  obtain ⟨⟨object, token'⟩, hmember, rfl⟩ := Option.map_eq_some_iff.1 h
  obtain ⟨hmember, hobject⟩ := Option.filter_eq_some_iff.1 hmember
  refine ⟨isRequired, ?_⟩
  rw [hprop, readMember?, hmember, Option.filter_some, if_pos (isValidatorObject_read hobject)]
  rfl

theorem followsShape_iff (h : validatedProp? e = some (name, prop))
    (hflag : prop.acceptsAll = true →
      Caveat.ambiguousProp name component e.span ∈ m.caveats.toList) :
    FollowsShape m component e name prop ↔ ¬ (entryValue? e).any isMisread = true := by
  have hsettled : prop.type? = none → prop.acceptsAll = true := by
    obtain ⟨token, isRequired, rfl⟩ := validatedProp?_cases h
    exact Option.isNone_iff_eq_none.2
  rcases validatedProp?_value h with ⟨value, hvalue, rfl⟩ | ⟨hvalue, rfl⟩
  · simp only [FollowsShape, hvalue, Option.bind_some, Option.any_some, isMisread_iff]
    cases htoken : shapeToken? value with
    | some token =>
      obtain ⟨isRequired, hprop⟩ := shapeToken?_read htoken
      exact iff_of_true (Or.inl ⟨token, isRequired, rfl, hprop⟩) (by simp)
    | none =>
      constructor
      · rintro (⟨token, -, ⟨⟩, -⟩ | ⟨-, hnone, -⟩) ⟨-, hsome⟩
        exact hsome hnone
      · intro hread
        have hnone : (validatorProp value).type? = none := by simpa using hread
        exact Or.inr ⟨rfl, hnone, hsettled hnone, hflag (hsettled hnone)⟩
  · exact iff_of_true (Or.inr ⟨by rw [hvalue]; rfl, rfl, rfl, hflag rfl⟩) (by simp [hvalue])

end Shapes

/-- An entry of validators that are not ignored follows its shape if and only if it is not spelled
like a type as a member of some other object. -/
theorem validators_followShape_iff {s : Setup} {m : Model} (h : modelOf s = .ok m) {x : Static}
    (hx : x ∈ moduleFields s) (hfield : x.field = .propTypes)
    (hkept : Caveat.duplicateContract x.component x.object.span ∉ m.caveats.toList) :
    ∀ e ∈ x.object.parts, ∀ name prop, validatedProp? e = some (name, prop) →
      (FollowsShape m x.component e name prop ↔ ¬ (entryValue? e).any isMisread = true) := by
  intro e he name prop hread
  refine followsShape_iff hread fun haccepts => ?_
  obtain ⟨m₀, m₁, hrecord, hlog⟩ := (recording_modelOf h).exists_recorded hx
  refine hlog.subset ?_
  rcases recordStatic?_cases hrecord with ⟨-, -, rfl⟩ | ⟨hother, -⟩ | ⟨hother, -⟩
  · unfold recordPropTypes at hlog ⊢
    dsimp only at hlog ⊢
    split at hlog
    · exact absurd (hlog.subset (List.mem_append_right _ List.mem_cons_self)) hkept
    · rename_i htyped
      rw [if_neg htyped, validatedProps_eq]
      refine List.mem_append_right _ (List.mem_filterMap.2 ⟨e, he, ?_⟩)
      simp [ambiguity?, hread, haccepts, Option.filter_some]
  · cases hfield.symm.trans hother
  · cases hfield.symm.trans hother

/-- Validators of both shapes, and values of other shapes. -/
def shapedValidators : String :=
  "A.propTypes=\x7ba:PropTypes.bool,b:React.PropTypes.func.isRequired,c:f(),d:a.b,e\x7d"

set_option maxRecDepth 100000 in
theorem validators_followShape_shapedValidators :
    ∃ s m x, setupOf? {} shapedValidators = some s ∧ modelOf s = .ok m ∧ x ∈ moduleFields s ∧
      x.field = .propTypes ∧
      Caveat.duplicateContract x.component x.object.span ∉ m.caveats.toList ∧
      (x.object.parts.map fun e => (entryValue? e).bind shapeToken?) =
        [some "bool", some "func", none, none, none] ∧
      ∀ e ∈ x.object.parts, ∀ name prop, validatedProp? e = some (name, prop) →
        FollowsShape m x.component e name prop := by
  obtain ⟨s, m, x, hs, hm, hx, hfield, hkept, htokens, hread⟩ := exists_found? {} shapedValidators
    (fun s => (moduleFields s).head?)
    (fun _ m x => x.field = .propTypes ∧
      Caveat.duplicateContract x.component x.object.span ∉ m.caveats.toList ∧
      (x.object.parts.map fun e => (entryValue? e).bind shapeToken?) =
        [some "bool", some "func", none, none, none] ∧
      ∀ e ∈ x.object.parts, ¬ (entryValue? e).any isMisread = true)
    (by decide +kernel)
  refine ⟨s, m, x, hs, hm, List.mem_of_head? hx, hfield, hkept, htokens, fun e he name prop h => ?_⟩
  exact (validators_followShape_iff hm (List.mem_of_head? hx) hfield hkept e he name prop h).2
    (hread e he)

/-- A member of another object that is spelled like a type. -/
def otherValidators : String := "class A \x7b\x7d\nA.propTypes = \x7b a: Foo.string \x7d;"

set_option maxRecDepth 100000 in
/-- It has a type, and nothing is flagged. -/
theorem validators_typed_otherValidators :
    ∃ s m x, setupOf? {} otherValidators = some s ∧ modelOf s = .ok m ∧ x ∈ moduleFields s ∧
      m.propTypes = [("A", [("a", .ofToken .validated (some "string") false)])] ∧
      m.caveats.toList = [] ∧
      ∃ e ∈ x.object.parts, ¬ FollowsShape m x.component e "a"
        (.ofToken .validated (some "string") false) := by
  obtain ⟨s, m, x, hs, hm, hx, hprops, hcaveats, htokens⟩ := exists_found? {} otherValidators
    (fun s => (moduleFields s).head?)
    (fun _ m x => m.propTypes = [("A", [("a", .ofToken .validated (some "string") false)])] ∧
      m.caveats.toList = [] ∧
      (x.object.parts.map fun e => (entryValue? e).bind shapeToken?) = [none])
    (by decide +kernel)
  obtain ⟨e, hparts, htoken⟩ :
      ∃ e, x.object.parts = [e] ∧ (entryValue? e).bind shapeToken? = none := by
    simpa [List.map_eq_cons_iff] using htokens
  refine ⟨s, m, x, hs, hm, List.mem_of_head? hx, hprops, hcaveats, e, by simp [hparts], ?_⟩
  simp [FollowsShape, htoken, hcaveats]

end Revue.Analysis
