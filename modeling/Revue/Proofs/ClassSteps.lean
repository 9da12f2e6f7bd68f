import Revue.Analysis.ClassComponent

/-!
# The walk through the members of a class

A `MemberStep` is all that a member of a class can do: its constructor is taken apart, a method, a
static field or a field of an instance is kept, and any other member leaves a caveat at most. To the
model they only add caveats and static fields. A `ClassRun` says so and lists these fields.
-/

namespace Revue.Analysis
open Text Syntax Component

variable {t value : Tree} {m m' : Model} {component : String} {r : Reading} {d' : ClassDraft}
  {flags : MemberFlags} {field : StaticField}

def isUnderstood (field : StaticField) (value : Tree) : Bool :=
  match field, value.withoutParens.kind with
  | .propTypes, .object => true
  | .defaultProps, .object => true
  | .displayName, .string _ => true
  | _, _ => false

theorem isSome_recordStatic? (r : Reading) (m : Model) (component : String) (field : StaticField)
    (value : Tree) :
    (recordStatic? r m component field value).isSome = isUnderstood field value := by
  unfold recordStatic? isUnderstood
  dsimp only
  split <;> simp_all

theorem recordStatic?_cases (h : recordStatic? r m component field value = some m') :
    (field = .propTypes ∧ value.withoutParens.kind = .object ∧
        m' = recordPropTypes m component value.withoutParens) ∨
      (field = .defaultProps ∧ m' = recordDefaults r m component value.withoutParens) ∨
      field = .displayName ∧
        ∃ name, m' = { m with displayNames := m.displayNames.insert component name } := by
  unfold recordStatic? at h
  dsimp only at h
  split at h
  · rename_i hkind
    exact Or.inl ⟨rfl, hkind, (Option.some.inj h).symm⟩
  · exact Or.inr (Or.inl ⟨rfl, (Option.some.inj h).symm⟩)
  · exact Or.inr (Or.inr ⟨rfl, _, (Option.some.inj h).symm⟩)
  · cases h

theorem components_recordStatic? (h : recordStatic? r m component field value = some m') :
    m'.classComponent = m.classComponent ∧ m'.functionalComponents = m.functionalComponents := by
  rcases recordStatic?_cases h with ⟨rfl, -, rfl⟩ | ⟨rfl, rfl⟩ | ⟨rfl, name, rfl⟩
  · unfold recordPropTypes
    dsimp only
    split <;> exact ⟨rfl, rfl⟩
  · exact ⟨rfl, rfl⟩
  · exact ⟨rfl, rfl⟩

def staticField? (t : Tree) : Option (StaticField × Tree) :=
  match t.kind with
  | .field flags =>
    if flags.isStatic && (privateKey? t).isNone then do
      let name ← (t.get? .key).bind keyName?
      let value ← t.get? .value
      let field ← StaticField.ofName? name
      if isUnderstood field value then some (field, value) else none
    else none
  | _ => none

def classStatics (t : Tree) : List (StaticField × Tree) :=
  (t.all .member).filterMap staticField?

/-- What becomes of a method with a name. A setter of an instance is dropped. -/
def methodRole? (sort : MethodSort) (isStatic : Bool) (name : String) : Option MemberRole :=
  if isStatic then some .static
  else match sort with
    | .getter => some .getter
    | .setter => none
    | .method => some (roleOf name)

def keptMethod? (t : Tree) : Option (String × MemberRole × Tree) :=
  match t.kind with
  | .method sort flags _ => do
    let name ← (t.get? .key).bind keyName?
    let body ← t.get? .body
    let role ← methodRole? sort flags.isStatic name
    return (name, role, body)
  | _ => none

theorem keyName?_of_privateKey? {name : String} (h : privateKey? t = some name) :
    (t.get? .key).bind keyName? = none := by
  unfold privateKey? at h
  split at h
  · rename_i hkey
    rw [hkey]
    rfl
  · cases h

theorem keptMethod?_of_keyName? (h : (t.get? .key).bind keyName? = none) :
    keptMethod? t = none := by
  unfold keptMethod?
  split
  · rw [h]
    rfl
  · rfl

/-- Whether a member leaves nothing but a caveat, if even that. -/
def isDropped (t : Tree) : Bool :=
  match t.kind with
  | .constructorDef _ => false
  | .method _ _ _ => (keptMethod? t).isNone
  | .field flags => ((t.get? .key).bind keyName?).isNone || (t.get? .value).isNone ||
      flags.isStatic && (staticField? t).isNone
  | _ => true

theorem staticField?_of_isDropped (h : isDropped t = true) : staticField? t = none := by
  unfold staticField?
  split
  · rename_i flags hkind
    simp only [isDropped, hkind, Bool.or_eq_true, Option.isNone_iff_eq_none] at h
    split
    · rename_i hstatic
      rcases h with (hkey | hvalue) | hfield
      · rw [hkey]
        rfl
      · rw [hvalue]
        cases (t.get? .key).bind keyName? <;> rfl
      · simpa [staticField?, hkind, hstatic] using (Bool.and_eq_true_iff.1 hfield).2
    · rfl
  · rfl

/-- A caveat about a member of a class is noted, or nothing. -/
inductive Noted (d : ClassDraft) : ClassDraft → Prop
  | silent : Noted d d
  | caveat (code : CaveatCode) {c : Caveat} (hcode : c.code = code)
      (hmember : code ∈ [.unsupportedLifecycle, .staticMember, .setter, .untransferred]) :
      Noted d (d.addCaveat c)

/-- What a member of a class does to a draft. -/
inductive MemberStep (r : Reading) (component : String) (d : ClassDraft) (t : Tree) :
    ClassDraft → Prop
  | constructorDef {flags : MemberFlags} (hkind : t.kind = .constructorDef flags) :
      MemberStep r component d t (addConstructor r d t)
  | dropped {d' : ClassDraft} (hdropped : isDropped t = true) (hnoted : Noted d d') :
      MemberStep r component d t d'
  | method {sort : MethodSort} {flags : MemberFlags} {functionFlags : FunctionFlags}
      {name : String} {role : MemberRole} {body : Tree} {d' : ClassDraft}
      (hkind : t.kind = .method sort flags functionFlags)
      (hkept : keptMethod? t = some (name, role, body)) (hnoted : Noted d d') :
      MemberStep r component d t (addMember r d' t body name role functionFlags)
  | static {flags : MemberFlags} {field : StaticField} {value : Tree} {m : Model}
      (hkind : t.kind = .field flags) (hstatic : flags.isStatic = true)
      (hfield : staticField? t = some (field, value))
      (hrecord : recordStatic? r d.model component field value = some m) :
      MemberStep r component d t { d with model := m }
  | field {flags : MemberFlags} {name : String} {value : Tree} (hkind : t.kind = .field flags)
      (hstatic : flags.isStatic = false) (hkey : (t.get? .key).bind keyName? = some name)
      (hvalue : t.get? .value = some value) :
      MemberStep r component d t (addInstanceField r d value name)

section Steps
variable {r : Reading} {component : String} {d : ClassDraft} {t : Tree}

theorem addMethod_step {sort : MethodSort} {functionFlags : FunctionFlags}
    (hkind : t.kind = .method sort flags functionFlags) :
    MemberStep r component d t (addMethod r d t sort flags.isStatic functionFlags) := by
  have hkept : keptMethod? t = ((t.get? .key).bind keyName?).bind fun name =>
      (t.get? .body).bind fun body =>
        (methodRole? sort flags.isStatic name).bind fun role => some (name, role, body) := by
    unfold keptMethod?
    rw [hkind]
    rfl
  have hdropped (hnone : keptMethod? t = none) : isDropped t = true := by
    simp [isDropped, hkind, hnone]
  unfold addMethod
  split
  · rename_i hkey
    exact .dropped (hdropped (keptMethod?_of_keyName? hkey))
      (.caveat .untransferred rfl (by decide))
  · rename_i hkey hbody
    exact .dropped (hdropped (by rw [hkept, hkey, hbody]; rfl)) .silent
  · rename_i name body hkey hbody
    rw [hkey, hbody, Option.bind_some, Option.bind_some] at hkept
    unfold addNamedMethod
    unfold methodRole? at hkept
    split
    · rename_i hstatic
      rw [if_pos hstatic] at hkept
      exact .method hkind hkept (.caveat .staticMember rfl (by decide))
    · rename_i hstatic
      rw [if_neg hstatic] at hkept
      cases sort with
      | getter => exact .method hkind hkept .silent
      | setter => exact .dropped (hdropped hkept) (.caveat .setter rfl (by decide))
      | method =>
        refine .method hkind hkept ?_
        split
        · exact .caveat .unsupportedLifecycle rfl (by decide)
        · exact .silent

theorem addField_step (hkind : t.kind = .field flags) (hpublic : privateKey? t = none) :
    MemberStep r component d t (addField r component d t flags.isStatic) := by
  unfold addField
  split
  · rename_i hkey
    exact .dropped (by simp [isDropped, hkind, hkey]) (.caveat .untransferred rfl (by decide))
  · rename_i hvalue
    exact .dropped (by simp [isDropped, hkind, hvalue]) .silent
  · rename_i name value hkey hvalue
    split
    · rename_i hstatic
      have hfield : staticField? t = (StaticField.ofName? name).bind fun field =>
          if isUnderstood field value then some (field, value) else none := by
        simp [staticField?, hkind, hpublic, hstatic, hkey, hvalue, bind]
      unfold addStaticField
      split
      · rename_i m hm
        obtain ⟨field, hname, hrecord⟩ := Option.bind_eq_some_iff.1 hm
        have hsome := isSome_recordStatic? r d.model component field value
        rw [hrecord] at hsome
        exact .static hkind hstatic (by rw [hfield, hname, Option.bind_some, ← hsome]; rfl) hrecord
      · rename_i hnone
        refine .dropped ?_ (.caveat .staticMember rfl (by decide))
        have hother : staticField? t = none := by
          rw [hfield]
          refine Option.bind_eq_none_iff.2 fun field hname => ?_
          have hsome := isSome_recordStatic? r d.model component field value
          rw [Option.bind_eq_none_iff.1 hnone field hname] at hsome
          rw [← hsome]
          rfl
        simp [isDropped, hkind, hstatic, hother]
    · rename_i hstatic
      exact .field hkind (eq_false_of_ne_true hstatic) hkey hvalue

theorem addClassMember_step (r : Reading) (component : String) (d : ClassDraft) (t : Tree) :
    MemberStep r component d t (addClassMember r component d t) := by
  unfold addClassMember
  split
  case h_1 hkind => exact .constructorDef hkind
  case h_2 hkind =>
    exact .dropped (by simp [isDropped, hkind]) (.caveat .untransferred rfl (by decide))
  case h_3 hkind =>
    exact .dropped (by simp [isDropped, hkind]) (.caveat .staticMember rfl (by decide))
  case h_4 hkind hprivate =>
    have hnone := keptMethod?_of_keyName? (keyName?_of_privateKey? hprivate)
    exact .dropped (by simp [isDropped, hkind, hnone]) (.caveat .untransferred rfl (by decide))
  case h_5 hkind hprivate =>
    have hkey := keyName?_of_privateKey? hprivate
    exact .dropped (by simp [isDropped, hkind, hkey]) (.caveat .untransferred rfl (by decide))
  case h_6 hkind _ => exact addMethod_step hkind
  case h_7 hkind hpublic => exact addField_step hkind hpublic
  case h_8 hconstructor _ _ hprivateMethod hprivateField hpublicMethod hpublicField =>
    refine .dropped ?_ .silent
    unfold isDropped
    split
    · rename_i h
      exact absurd h (hconstructor _)
    · rename_i h
      cases hkey : privateKey? t with
      | none => exact absurd hkey (hpublicMethod _ _ _ h)
      | some name => exact absurd hkey (hprivateMethod _ _ _ name h)
    · rename_i h
      cases hkey : privateKey? t with
      | none => exact absurd hkey (hpublicField _ h)
      | some name => exact absurd hkey (hprivateField _ name h)
    · rfl

end Steps

/-- Changes of a model by members of a class. None of the caveats is about a second contract. -/
inductive ClassRun (r : Reading) (component : String) :
    List (StaticField × Tree) → Model → Model → Prop
  | nil (m : Model) : ClassRun r component [] m m
  | caveats {cs : List Caveat} {statics : List (StaticField × Tree)} {m m' : Model}
      (h : ∀ c ∈ cs, c.code ≠ .duplicateContract)
      (hrest : ClassRun r component statics (m.addCaveats cs) m') :
      ClassRun r component statics m m'
  | static {field : StaticField} {value : Tree} {statics : List (StaticField × Tree)}
      {m m₁ m' : Model} (h : recordStatic? r m component field value = some m₁)
      (hrest : ClassRun r component statics m₁ m') :
      ClassRun r component ((field, value) :: statics) m m'

section Members
variable {r : Reading} {component : String} {d : ClassDraft} {t : Tree}

theorem ClassRun.append {first second : List (StaticField × Tree)} {m₁ : Model}
    (h : ClassRun r component first m m₁) (hrest : ClassRun r component second m₁ m') :
    ClassRun r component (first ++ second) m m' := by
  induction h with
  | nil => exact hrest
  | caveats hcodes _ ih => exact .caveats hcodes (ih hrest)
  | static hrecord _ ih => exact .static hrecord (ih hrest)

theorem run_addCaveat {c : Caveat} (h : c.code ≠ .duplicateContract) :
    ClassRun r component [] d.model (d.addCaveat c).model := by
  refine .caveats (fun c' hc' => ?_) (.nil (d.model.addCaveats [c]))
  obtain rfl := List.mem_singleton.1 hc'
  exact h

theorem run_addUpdaters (spans : List Span) :
    ClassRun r component [] d.model (d.addUpdaters spans).model := by
  refine .caveats (fun c hc => ?_) (.nil (d.model.addCaveats (spans.map Caveat.stateUpdater)))
  obtain ⟨span, -, rfl⟩ := List.mem_map.1 hc
  simp [Caveat.stateUpdater, Caveat.at_]

theorem run_addStatement (setting : Setting) :
    ClassRun r component [] d.model (addStatement r setting d t).model := by
  unfold addStatement
  split
  · exact .nil _
  · split
    · exact run_addUpdaters _
    · exact run_addUpdaters _

theorem run_addConstructor : ClassRun r component [] d.model (addConstructor r d t).model := by
  unfold addConstructor
  split
  · rename_i body _
    generalize body.all .statement = statements
    induction statements generalizing d with
    | nil => exact .nil _
    | cons statement statements ih => exact (run_addStatement _).append ih
  · exact .nil _

theorem run_addMember (body : Tree) (name : String) (role : MemberRole) (flags : FunctionFlags) :
    ClassRun r component [] d.model (addMember r d t body name role flags).model :=
  run_addUpdaters _

theorem run_addInstanceField (name : String) :
    ClassRun r component [] d.model (addInstanceField r d t name).model := by
  unfold addInstanceField
  dsimp only
  split
  · exact run_addUpdaters _
  · exact run_addUpdaters _

theorem Noted.run (h : Noted d d') : ClassRun r component [] d.model d'.model := by
  cases h with
  | silent => exact .nil _
  | caveat code hcode hmember => exact run_addCaveat (by rw [hcode]; rintro rfl; simp at hmember)

theorem MemberStep.run (h : MemberStep r component d t d') :
    ClassRun r component (staticField? t).toList d.model d'.model := by
  have hnone : (∀ flags, t.kind ≠ .field flags) → staticField? t = none := by
    intro hkind
    unfold staticField?
    split
    · rename_i flags h
      exact absurd h (hkind flags)
    · rfl
  cases h with
  | constructorDef hkind =>
    rw [hnone (by simp [hkind])]
    exact run_addConstructor
  | dropped hdropped hnoted =>
    rw [staticField?_of_isDropped hdropped]
    exact hnoted.run
  | method hkind _ hnoted =>
    rw [hnone (by simp [hkind])]
    exact hnoted.run.append (run_addMember _ _ _ _)
  | static _ _ hfield hrecord =>
    rw [hfield]
    exact .static hrecord (.nil _)
  | field hkind hstatic =>
    have hother : staticField? t = none := by simp [staticField?, hkind, hstatic]
    rw [hother]
    exact run_addInstanceField _

theorem run_addClassMember : ClassRun r component (staticField? t).toList d.model
    (addClassMember r component d t).model :=
  (addClassMember_step r component d t).run

theorem run_members (members : List Tree) :
    ClassRun r component (members.filterMap staticField?) d.model
      (members.foldl (addClassMember r component) d).model := by
  induction members generalizing d with
  | nil => exact .nil _
  | cons t members ih =>
    have hcons : (t :: members).filterMap staticField? =
        (staticField? t).toList ++ members.filterMap staticField? := by
      rw [List.filterMap_cons]
      cases staticField? t <;> rfl
    rw [hcons]
    exact run_addClassMember.append ih

def noted (m : Model) (t : Tree) (isNested : Bool) : Model :=
  let m := if isNested then m.addCaveat (.higherOrder t.span) else m
  match t.get? .decorator with
  | some mark => m.addCaveat (.decorators mark.span)
  | none => m

def draftOf (r : Reading) (m : Model) (name : String) (t : Tree) (isNested : Bool) : ClassDraft :=
  (t.all .member).foldl (addClassMember r name) { model := noted m t isNested }

theorem addClass_eq (r : Reading) (m : Model) (name : String) (t : Tree) (isNested : Bool) :
    addClass r m name t isNested =
      let d := draftOf r m name t isNested
      { d.model with
        classComponent := some ⟨name, t.span, d.state, d.created, d.members⟩ } := rfl

theorem run_noted (m : Model) (t : Tree) (isNested : Bool) :
    ClassRun r component [] m (noted m t isNested) := by
  have hcaveat : ∀ {m : Model} {c : Caveat}, c.code ≠ .duplicateContract →
      ClassRun r component [] m (m.addCaveat c) := fun {m} _ => run_addCaveat (d := { model := m })
  have hnested : ClassRun r component [] m
      (if isNested then m.addCaveat (.higherOrder t.span) else m) := by
    split
    · exact hcaveat (by simp [Caveat.higherOrder, Caveat.at_])
    · exact .nil _
  unfold noted
  dsimp only
  split
  · exact hnested.append (hcaveat (by simp [Caveat.decorators, Caveat.at_]))
  · exact hnested

/-- A class changes the model by a run and is then set as the class component. -/
theorem run_addClass (r : Reading) (m : Model) (name : String) (t : Tree) (isNested : Bool) :
    ∃ m' c, ClassRun r name (classStatics t) m m' ∧ c.name = name ∧ c.span = t.span ∧
      addClass r m name t isNested = { m' with classComponent := some c } := by
  have hmembers : ClassRun r name (classStatics t) (noted m t isNested)
      (draftOf r m name t isNested).model :=
    run_members (d := { model := noted m t isNested }) (t.all .member)
  exact ⟨_, _, (run_noted m t isNested).append hmembers, rfl, rfl, addClass_eq r m name t isNested⟩

end Members

end Revue.Analysis
