import Revue.Proofs.ContractLedger
import Revue.Proofs.PropsScope

/-!
# What the members of a class are noted for

A member of a class is dropped, recorded as a static field, or kept: a method as a member of the
component, the statements of a constructor and the fields of an instance as fragments. Of the code
that is kept the changes of state are noted. A `Follows` says so of each step, and that no step
notes anything about the place of a class.
-/

namespace Revue.Component

def Model.coded (m : Model) (code : CaveatCode) : List Caveat :=
  m.caveats.toList.filter (·.code = code)

variable (m : Model) (code : CaveatCode)

theorem coded_addCaveats (cs : List Caveat) :
    (m.addCaveats cs).coded code = m.coded code ++ cs.filter (·.code = code) := by
  simp [Model.coded, Model.addCaveats, CaveatLog.extend]

theorem coded_addCaveats_of_ne {cs : List Caveat} (h : ∀ c ∈ cs, c.code ≠ code) :
    (m.addCaveats cs).coded code = m.coded code := by
  rw [coded_addCaveats, List.filter_eq_nil_iff.2 (by simpa using h), List.append_nil]

theorem coded_addCaveat_of_ne {c : Caveat} (h : c.code ≠ code) :
    (m.addCaveat c).coded code = m.coded code := by
  have hsingle : ∀ c' ∈ [c], c'.code ≠ code := by simpa using h
  exact coded_addCaveats_of_ne m code hsingle

end Revue.Component

namespace Revue.Analysis
open Text Syntax Component

/-! ### What is kept of a member -/

def bodyCode (body : Tree) : Tree := (conciseBody? body).getD body

def statementCode (t : Tree) : List Tree :=
  if isBoilerplate t then [] else [(stateValue? t).getD t]

def keptCode (t : Tree) : List Tree :=
  match t.kind with
  | .constructorDef _ => (constructorStatements t).flatMap statementCode
  | .method _ _ _ => (keptMethod? t).toList.map fun method => bodyCode method.2.2
  | .field flags =>
    if flags.isStatic || ((t.get? .key).bind keyName?).isNone then [] else (t.get? .value).toList
  | _ => []

def memberSetting (t : Tree) : Setting :=
  match t.kind with
  | .constructorDef _ => .classMember (constructorProps? t)
  | _ => .classMember none

structure IsMemberOf (r : Reading) (t : Tree) (x : Member) : Prop where
  method : ∃ body, keptMethod? t = some (x.name, x.role, body) ∧ x.body = methodBody r body
  params : x.params = paramsText r t

/-! ### Steps -/

/-- What a step through a class adds: notes about changes of state, and members. -/
structure Follows (r : Reading) (updaters : List Span) (methods : List Tree) (d d' : ClassDraft) :
    Prop where
  updaters : d'.model.coded .stateUpdater =
    d.model.coded .stateUpdater ++ updaters.map Caveat.stateUpdater
  places : d'.model.coded .higherOrder = d.model.coded .higherOrder
  members : ∃ added, d'.members = d.members ++ added ∧
    List.Forall₂ (IsMemberOf r) methods added

section Steps
variable {r : Reading} {d d' d'' : ClassDraft} {t : Tree}

theorem Follows.refl (d : ClassDraft) : Follows r [] [] d d :=
  ⟨by simp, rfl, [], by simp, .nil⟩

theorem Follows.trans {us vs : List Span} {ts ts' : List Tree} (h : Follows r us ts d d')
    (h' : Follows r vs ts' d' d'') : Follows r (us ++ vs) (ts ++ ts') d d'' where
  updaters := by rw [h'.updaters, h.updaters, List.map_append, List.append_assoc]
  places := h'.places.trans h.places
  members := by
    obtain ⟨added, hadded, hmethods⟩ := h.members
    obtain ⟨added', hadded', hmethods'⟩ := h'.members
    exact ⟨added ++ added', by rw [hadded', hadded, List.append_assoc],
      List.rel_append hmethods hmethods'⟩

/-- A step that changes the model only, by caveats about other things. -/
theorem follows_of_model {m : Model}
    (hupdaters : m.coded .stateUpdater = d.model.coded .stateUpdater)
    (hplaces : m.coded .higherOrder = d.model.coded .higherOrder) :
    Follows r [] [] d { d with model := m } :=
  ⟨by simp [hupdaters], hplaces, [], by simp, .nil⟩

theorem follows_addCaveat {c : Caveat} (hupdater : c.code ≠ .stateUpdater)
    (hplace : c.code ≠ .higherOrder) : Follows r [] [] d (d.addCaveat c) :=
  follows_of_model (coded_addCaveat_of_ne _ _ hupdater) (coded_addCaveat_of_ne _ _ hplace)

theorem follows_addUpdaters (spans : List Span) :
    Follows r spans [] d (d.addUpdaters spans) := by
  have hcode : ∀ c ∈ spans.map Caveat.stateUpdater, c.code = .stateUpdater := by
    intro c hc
    obtain ⟨span, -, rfl⟩ := List.mem_map.1 hc
    rfl
  refine ⟨?_, coded_addCaveats_of_ne _ _ fun c hc => by simp [hcode c hc], [], by
    simp [ClassDraft.addUpdaters], .nil⟩
  rw [ClassDraft.addUpdaters, coded_addCaveats, List.filter_eq_self.2 (by simpa using hcode)]

theorem follows_addStatement (setting : Setting) :
    Follows r ((statementCode t).flatMap (updatersOf r setting)) [] d
      (addStatement r setting d t) := by
  unfold addStatement statementCode
  by_cases hboilerplate : isBoilerplate t = true
  · rw [if_pos hboilerplate, if_pos hboilerplate]
    exact .refl d
  · rw [if_neg hboilerplate, if_neg hboilerplate, List.flatMap_singleton, stateValue?]
    cases (statementExpr? t).bind stateAssignment? with
    | none =>
      obtain ⟨hupdaters, hplaces, hmembers⟩ :=
        follows_addUpdaters (r := r) (d := d) (updatersOf r setting t)
      exact ⟨hupdaters, hplaces, hmembers⟩
    | some value =>
      obtain ⟨hupdaters, hplaces, hmembers⟩ :=
        follows_addUpdaters (r := r) (d := d) (updatersOf r setting value)
      exact ⟨hupdaters, hplaces, hmembers⟩

theorem follows_addConstructor :
    Follows r (((constructorStatements t).flatMap statementCode).flatMap
      (updatersOf r (.classMember (constructorProps? t)))) [] d (addConstructor r d t) := by
  have hstatements : ∀ (setting : Setting) (statements : List Tree) (d : ClassDraft),
      Follows r ((statements.flatMap statementCode).flatMap (updatersOf r setting)) [] d
        (statements.foldl (addStatement r setting) d) := by
    intro setting statements
    induction statements with
    | nil => exact fun d => .refl d
    | cons t statements ih =>
      intro d
      rw [List.flatMap_cons, List.flatMap_append]
      exact (follows_addStatement setting).trans (ih _)
  unfold addConstructor constructorStatements
  cases t.get? .body with
  | none => exact .refl d
  | some body =>
    rw [Option.toList_some, List.flatMap_singleton]
    exact hstatements _ _ d

theorem follows_addMember {body : Tree} {name : String} {role : MemberRole} (flags : FunctionFlags)
    (hkept : keptMethod? t = some (name, role, body)) :
    Follows r (updatersOf r (.classMember none) (bodyCode body)) [t] d
      (addMember r d t body name role flags) := by
  obtain ⟨hupdaters, hplaces, -⟩ :=
    follows_addUpdaters (r := r) (d := d) (bodyUpdaters r body)
  exact ⟨hupdaters, hplaces, _, rfl, .cons ⟨⟨body, hkept, rfl⟩, rfl⟩ .nil⟩

theorem follows_recordStatic? {component : String} {field : StaticField} {value : Tree} {m : Model}
    (h : recordStatic? r d.model component field value = some m) :
    Follows r [] [] d { d with model := m } := by
  obtain ⟨-, -, rfl⟩ | ⟨-, rfl⟩ | ⟨-, name, rfl⟩ := recordStatic?_cases h
  · unfold recordPropTypes
    dsimp only
    split
    · exact follows_addCaveat (by simp [Caveat.duplicateContract, Caveat.at_])
        (by simp [Caveat.duplicateContract, Caveat.at_])
    · have hcode := validatedProps_caveats component value.withoutParens
      exact follows_of_model
        (coded_addCaveats_of_ne d.model _ fun c hc => by simp [hcode c hc])
        (coded_addCaveats_of_ne d.model _ fun c hc => by simp [hcode c hc])
  · exact follows_of_model rfl rfl
  · exact follows_of_model rfl rfl

theorem Noted.follows (h : Noted d d') : Follows r [] [] d d' := by
  cases h with
  | silent => exact .refl d
  | caveat code hcode hmember =>
    exact follows_addCaveat (by rw [hcode]; rintro rfl; simp at hmember)
      (by rw [hcode]; rintro rfl; simp at hmember)

theorem keptMethod?_of_kind
    (h : ∀ sort flags functionFlags, t.kind ≠ .method sort flags functionFlags) :
    keptMethod? t = none := by
  unfold keptMethod?
  split
  · rename_i hkind
    exact absurd hkind (h _ _ _)
  · rfl

theorem keptCode_of_isDropped (h : isDropped t = true) :
    keptCode t = [] ∧ keptMethod? t = none := by
  unfold isDropped at h
  split at h
  · cases h
  · rename_i hkind
    have hnone := Option.isNone_iff_eq_none.1 h
    exact ⟨by simp [keptCode, hkind, hnone], hnone⟩
  · rename_i flags hkind
    refine ⟨?_, keptMethod?_of_kind (by simp [hkind])⟩
    simp only [Bool.or_eq_true, Bool.and_eq_true, Option.isNone_iff_eq_none] at h
    rcases h with (hkey | hvalue) | ⟨hstatic, -⟩
    · simp [keptCode, hkind, hkey]
    · simp [keptCode, hkind, hvalue]
    · simp [keptCode, hkind, hstatic]
  · rename_i hconstructor hmethod hfield
    refine ⟨?_, keptMethod?_of_kind hmethod⟩
    unfold keptCode
    split
    · rename_i hkind
      exact absurd hkind (hconstructor _)
    · rename_i hkind
      exact absurd hkind (hmethod _ _ _)
    · rename_i hkind
      exact absurd hkind (hfield _)
    · rfl

/-- A member of a class is noted for the code of it that is kept, and kept if it is a method. -/
theorem MemberStep.follows {component : String} (h : MemberStep r component d t d') :
    Follows r ((keptCode t).flatMap (updatersOf r (memberSetting t)))
      ((keptMethod? t).toList.map fun _ => t) d d' := by
  cases h with
  | constructorDef hkind =>
    have hcode : keptCode t = (constructorStatements t).flatMap statementCode := by
      simp [keptCode, hkind]
    have hsetting : memberSetting t = .classMember (constructorProps? t) := by
      simp [memberSetting, hkind]
    rw [hcode, hsetting, keptMethod?_of_kind (by simp [hkind])]
    exact follows_addConstructor
  | dropped hdropped hnoted =>
    obtain ⟨hcode, hkept⟩ := keptCode_of_isDropped hdropped
    rw [hcode, hkept]
    exact hnoted.follows
  | @method _ _ _ _ _ body _ hkind hkept hnoted =>
    have hcode : keptCode t = [bodyCode body] := by
      rw [keptCode, hkind, hkept]
      rfl
    have hsetting : memberSetting t = .classMember none := by simp [memberSetting, hkind]
    rw [hcode, hkept, hsetting, List.flatMap_singleton]
    exact hnoted.follows.trans (follows_addMember _ hkept)
  | static hkind hstatic _ hrecord =>
    have hcode : keptCode t = [] := by simp [keptCode, hkind, hstatic]
    rw [hcode, keptMethod?_of_kind (by simp [hkind])]
    exact follows_recordStatic? hrecord
  | @field _ name value hkind hstatic hkey hvalue =>
    have hcode : keptCode t = [value] := by simp [keptCode, hkind, hstatic, hkey, hvalue]
    have hsetting : memberSetting t = .classMember none := by simp [memberSetting, hkind]
    obtain ⟨hupdaters, hplaces, hmembers⟩ :=
      follows_addUpdaters (r := r) (d := d) (updatersOf r (.classMember none) value)
    rw [hcode, hsetting, keptMethod?_of_kind (by simp [hkind]), List.flatMap_singleton]
    unfold addInstanceField
    dsimp only
    split
    · exact ⟨hupdaters, hplaces, hmembers⟩
    · exact ⟨hupdaters, hplaces, hmembers⟩

end Steps

/-! ### A whole class -/

def keptMethods (t : Tree) : List Tree :=
  (t.all .member).filter fun member => (keptMethod? member).isSome

def classUpdaters (r : Reading) (t : Tree) : List Span :=
  (t.all .member).flatMap fun member =>
    (keptCode member).flatMap (updatersOf r (memberSetting member))

theorem follows_members (r : Reading) (component : String) (members : List Tree)
    (d : ClassDraft) :
    Follows r (members.flatMap fun member =>
        (keptCode member).flatMap (updatersOf r (memberSetting member)))
      (members.filter fun member => (keptMethod? member).isSome) d
      (members.foldl (addClassMember r component) d) := by
  induction members generalizing d with
  | nil => exact .refl d
  | cons t members ih =>
    have hcons : (t :: members).filter (fun member => (keptMethod? member).isSome) =
        ((keptMethod? t).toList.map fun _ => t) ++
          members.filter fun member => (keptMethod? member).isSome := by
      rw [List.filter_cons]
      cases keptMethod? t <;> rfl
    rw [List.flatMap_cons, hcons]
    exact (addClassMember_step r component d t).follows.trans (ih _)

section Class
variable (r : Reading) (m : Model) (name : String) (t : Tree) (isNested : Bool)

theorem coded_noted {code : CaveatCode} (hplace : code ≠ .higherOrder)
    (hmark : code ≠ .decorators) : (noted m t isNested).coded code = m.coded code := by
  unfold noted
  cases isNested <;> cases t.get? .decorator <;>
    simp [coded_addCaveat_of_ne, Caveat.higherOrder, Caveat.decorators, Caveat.at_, hplace.symm,
      hmark.symm]

theorem coded_noted_higherOrder :
    (noted m t isNested).coded .higherOrder =
      m.coded .higherOrder ++ if isNested then [.higherOrder t.span] else [] := by
  unfold noted
  cases isNested <;> cases t.get? .decorator <;>
    simp [Caveat.higherOrder, Caveat.decorators, Caveat.at_, Model.coded, Model.addCaveat,
      CaveatLog.push]

/-- A class is noted for the changes of state in the code of it that is kept. -/
theorem coded_stateUpdater_addClass :
    (addClass r m name t isNested).coded .stateUpdater =
      m.coded .stateUpdater ++ (classUpdaters r t).map Caveat.stateUpdater := by
  have hmembers :=
    (follows_members r name (t.all .member) ⟨noted m t isNested, none, [], []⟩).updaters
  rw [coded_noted m t isNested (by simp) (by simp)] at hmembers
  exact hmembers

/-- A class is noted for its place if it is not at the top. -/
theorem coded_higherOrder_addClass :
    (addClass r m name t isNested).coded .higherOrder =
      m.coded .higherOrder ++ if isNested then [.higherOrder t.span] else [] :=
  (follows_members r name (t.all .member) ⟨noted m t isNested, none, [], []⟩).places.trans
    (coded_noted_higherOrder m t isNested)

theorem members_addClass {component : ClassComponent}
    (h : (addClass r m name t isNested).classComponent = some component) :
    List.Forall₂ (IsMemberOf r) (keptMethods t) component.members := by
  obtain ⟨added, hadded, hmethods⟩ :=
    (follows_members r name (t.all .member) ⟨noted m t isNested, none, [], []⟩).members
  obtain rfl := Option.some.inj h
  exact hadded ▸ hmethods

end Class

def firstClass? (s : Setup) : Option Tree :=
  s.reading.module.tree.subtrees.find? (·.kind = .classDef)

end Revue.Analysis
