import Revue.Proofs.PropsScope

/-!
# What a constructor leaves out

A constructor calls the one of the superclass and binds its methods to itself; neither makes sense
in the new component. All else has to be kept: one statement may set the state, and the others run
when an instance is made. The test for a bound method looks at the shape of an assignment alone, so
it also takes away assignments to other names, by other operators and to members in brackets. A
constructor keeps what it should just when it has no such assignment.
-/

namespace Revue.Analysis
open Text Syntax Component

/-! ### Methods that are bound to their component -/

def thisName? (t : Tree) : Option String :=
  if isMemberOfThis t then
    (t.get? .property).bind fun property =>
      match property.kind with
      | .name text => some text
      | .privateName text => some ("#" ++ text)
      | _ => none
  else none

def boundObject? (t : Tree) : Option Tree :=
  match (t.get? .callee).bind namedMember? with
  | some (object, "bind") => some object
  | _ => none

def assignment? (t : Tree) : Option (String × Tree × Tree) :=
  match t with
  | .node _ (.assign operator) _ [target, value] => some (operator, target, value)
  | _ => none

def isSelfBind (t : Tree) : Bool :=
  (assignment? t).any fun (operator, target, value) =>
    let call := value.withoutParens
    operator = "=" && call.kind = .call && (call.all .argument).map (·.kind) = [.this] &&
      (thisName? target).isSome && (boundObject? call).bind thisName? = thisName? target

/-- What the test for a bound method does not look at: the operator, the names of the member that is
set and of the one that is bound, where they are not in brackets, and dots in front of `this`. -/
structure Bind where
  operator : String
  target : Option String
  bound : Option String
  isSpread : Bool
deriving DecidableEq

/-- Whether a method is bound to itself. -/
def Bind.isSelf (b : Bind) : Bool :=
  b.operator = "=" && b.target.isSome && b.bound = b.target && !b.isSpread

def bind? (t : Tree) : Option Bind :=
  (assignment? t).bind fun (operator, target, value) =>
    let call := value.withoutParens
    if isMemberOfThis target && isBindOfThis call then
      some ⟨operator, thisName? target, (boundObject? call).bind thisName?,
        (call.all .argument).any (·.kind = .spread)⟩
    else none

theorem isBindAssignment_eq (t : Tree) : isBindAssignment t = (assignment? t).any fun a =>
    isMemberOfThis a.2.1 && isBindOfThis a.2.2.withoutParens := by
  obtain ⟨role, kind, span, parts⟩ := t
  cases kind with
  | assign operator => rcases parts with _ | ⟨a, _ | ⟨b, _ | ⟨c, parts⟩⟩⟩ <;> rfl
  | _ => rfl

theorem isSome_bind? (t : Tree) : (bind? t).isSome = isBindAssignment t := by
  rw [isBindAssignment_eq, bind?]
  cases assignment? t with
  | none => rfl
  | some a =>
    dsimp only [Option.bind_some, Option.any_some]
    cases isMemberOfThis a.2.1 && isBindOfThis a.2.2.withoutParens <;> rfl

theorem isMemberOfThis_of_thisName? {t : Tree} (h : (thisName? t).isSome = true) :
    isMemberOfThis t = true := by
  by_contra hnot
  simp [thisName?, hnot] at h

theorem isBindOfThis_of_arguments {t object : Tree} (hkind : t.kind = .call)
    (hobject : boundObject? t = some object) (hthis : isMemberOfThis object = true)
    (hargs : (t.all .argument).map (·.kind) = [.this]) : isBindOfThis t = true := by
  have hcallee : (t.get? .callee).bind namedMember? = some (object, "bind") := by
    unfold boundObject? at hobject
    split at hobject
    · rename_i hnamed
      rw [hnamed, Option.some.inj hobject]
    · cases hobject
  obtain ⟨⟨role, kind, span, parts⟩, hall, rfl⟩ :
      ∃ a, t.all .argument = [a] ∧ a.kind = .this := by
    simpa [List.map_eq_cons_iff] using hargs
  unfold isBindOfThis
  rw [hcallee, hall, hkind]
  simp [hthis, Tree.kind]

/-- The only argument of a bound method is `this`, unless dots stand in front of it. -/
theorem arguments_of_isBindOfThis {t : Tree} (h : isBindOfThis t = true)
    (hspread : (t.all .argument).any (·.kind = .spread) = false) :
    (t.all .argument).map (·.kind) = [.this] := by
  unfold isBindOfThis at h
  simp only [Bool.and_eq_true] at h
  obtain ⟨-, hargs⟩ := h
  split at hargs
  · rename_i hall
    simp [hall, Tree.kind] at hspread
  · rename_i hall
    simpa [hall] using hargs
  · cases hargs

theorem kind_of_isBindOfThis {t : Tree} (h : isBindOfThis t = true) : t.kind = .call := by
  unfold isBindOfThis at h
  simp only [Bool.and_eq_true, decide_eq_true_eq] at h
  exact h.1.1

theorem isSelfBind_iff (t : Tree) : isSelfBind t = true ↔ (bind? t).any Bind.isSelf = true := by
  unfold isSelfBind bind?
  cases assignment? t with
  | none => simp
  | some a =>
    obtain ⟨operator, target, value⟩ := a
    simp only [Option.any_some, Option.bind_some, Bool.and_eq_true, decide_eq_true_eq]
    constructor
    · rintro ⟨⟨⟨⟨hplain, hkind⟩, hargs⟩, htarget⟩, hbound⟩
      obtain ⟨name, hname⟩ := Option.isSome_iff_exists.1 htarget
      obtain ⟨object, hobject, hobjectName⟩ := Option.bind_eq_some_iff.1 (hbound.trans hname)
      have hthis := isMemberOfThis_of_thisName? (t := object) (by simp [hobjectName])
      obtain ⟨argument, hall, hargument⟩ :
          ∃ a, value.withoutParens.all .argument = [a] ∧ a.kind = .this := by
        simpa [List.map_eq_cons_iff] using hargs
      rw [if_pos ⟨isMemberOfThis_of_thisName? htarget,
        isBindOfThis_of_arguments hkind hobject hthis hargs⟩]
      simp [Bind.isSelf, hplain, hbound, htarget, hall, hargument]
    · intro h
      split at h
      · rename_i htest
        simp only [Option.any_some, Bind.isSelf, Bool.and_eq_true, decide_eq_true_eq,
          Bool.not_eq_true'] at h
        obtain ⟨⟨⟨hplain, htarget⟩, hbound⟩, hspread⟩ := h
        exact ⟨⟨⟨⟨hplain, kind_of_isBindOfThis htest.2⟩,
          arguments_of_isBindOfThis htest.2 hspread⟩, htarget⟩, hbound⟩
      · cases h

/-! ### Statements -/

/-- A statement that may be left out: a call of the superclass' constructor, or a method that is
bound to itself. -/
def mayBeDropped (t : Tree) : Bool :=
  (statementExpr? t).any fun e => isSuperCall e || isSelfBind e

/-- The bound method that a statement sets. -/
def statementBind? (t : Tree) : Option Bind :=
  (statementExpr? t).bind bind?

theorem isBoilerplate_eq (t : Tree) :
    isBoilerplate t = ((statementExpr? t).any isSuperCall || (statementBind? t).isSome) := by
  unfold isBoilerplate statementBind?
  cases statementExpr? t with
  | none => rfl
  | some e => simp [isSome_bind?]

theorem mayBeDropped_eq (t : Tree) : mayBeDropped t =
    ((statementExpr? t).any isSuperCall || (statementBind? t).any Bind.isSelf) := by
  unfold mayBeDropped statementBind?
  cases statementExpr? t with
  | none => rfl
  | some e =>
    have hself : isSelfBind e = (bind? e).any Bind.isSelf := Bool.eq_iff_iff.2 (isSelfBind_iff e)
    simp [hself]

/-- An assignment is no call. -/
theorem not_isSuperCall_of_bind? {t : Tree} {b : Bind} (h : statementBind? t = some b) :
    (statementExpr? t).any isSuperCall = false := by
  obtain ⟨e, he, hbind⟩ := Option.bind_eq_some_iff.1 h
  obtain ⟨a, ha, -⟩ := Option.bind_eq_some_iff.1 hbind
  unfold assignment? at ha
  split at ha
  · simp [he, isSuperCall, Tree.kind]
  · cases ha

section
variable (r : Reading) (setting : Setting)

def LeavesNothing (t : Tree) : Prop := ∀ d, addStatement r setting d t = d

/-- The statements that leave nothing are calls of the superclass' constructor and assignments of
members that are bound to `this`. -/
theorem leavesNothing_iff (t : Tree) : LeavesNothing r setting t ↔ isBoilerplate t = true := by
  constructor
  · intro h
    by_contra hkept
    have hadds := adds_addStatement r setting { model := {} } t
    rw [h] at hadds
    cases hvalue : stateValue? t with
    | none => simpa [createdAmong, hkept, hvalue] using hadds.created
    | some value => simpa [stateAmong?, hkept, hvalue] using hadds.state
  · intro h d
    simp [addStatement, h]

end

/-- What becomes of the statements of a constructor: one is left out only if it may be, the last one
that sets the state gives the state, and each other one is kept once, in its place. -/
structure KeepsStatements (r : Reading) (t : Tree) : Prop where
  dropped : ∀ u ∈ constructorStatements t,
    LeavesNothing r (.classMember (constructorProps? t)) u → mayBeDropped u = true
  state : ∀ d, (addConstructor r d t).state =
    ((((constructorStatements t).filter fun u => !mayBeDropped u).filterMap
      stateValue?).getLast?.map (fragmentOf r (.classMember (constructorProps? t)))).or d.state
  created : ∀ d, (addConstructor r d t).created = d.created ++
    ((constructorStatements t).filter fun u => !mayBeDropped u && (stateValue? u).isNone).map
      (keptStatement r (.classMember (constructorProps? t)))

/-- A method that is bound is left out, so it has to be bound to itself. -/
theorem KeepsStatements.isSelf {r : Reading} {t u : Tree} (h : KeepsStatements r t)
    (hu : u ∈ constructorStatements t) {b : Bind} (hb : statementBind? u = some b) :
    b.isSelf = true := by
  have hnothing : LeavesNothing r (.classMember (constructorProps? t)) u := by
    rw [leavesNothing_iff, isBoilerplate_eq, hb]
    simp
  have hdropped := h.dropped u hu hnothing
  rw [mayBeDropped_eq, not_isSuperCall_of_bind? hb, hb] at hdropped
  simpa using hdropped

/-- A constructor keeps its statements just when all methods that it binds, it binds to themselves:
by a plain assignment, to a member of the same name, and without dots. -/
theorem keepsStatements_iff (r : Reading) (t : Tree) :
    KeepsStatements r t ↔
      ∀ u ∈ constructorStatements t, ∀ b, statementBind? u = some b → b.isSelf = true := by
  refine ⟨fun h u hu b hb => h.isSelf hu hb, fun h => ?_⟩
  have hsame : ∀ u ∈ constructorStatements t, isBoilerplate u = mayBeDropped u := by
    intro u hu
    rw [isBoilerplate_eq, mayBeDropped_eq]
    cases hb : statementBind? u with
    | none => rfl
    | some b => simp [h u hu b hb]
  refine ⟨fun u hu hnothing => ?_, fun d => ?_, fun d => ?_⟩
  · rwa [← hsame u hu, ← leavesNothing_iff]
  · rw [(adds_addConstructor r d t).state, stateAmong?, List.filterMap_filter]
    congr 3
    refine List.filterMap_congr fun u hu => ?_
    rw [hsame u hu]
    cases mayBeDropped u <;> rfl
  · rw [(adds_addConstructor r d t).created, createdAmong]
    congr 2
    exact List.filter_congr fun u hu => by rw [hsame u hu]

def plainConstructor : String :=
  "class A \x7b constructor(props) \x7b super(props); this.a = 1; " ++
    "this.state = \x7b b: props.b \x7d; this.f = (this.f.bind(this)); " ++
    "this.#g = this.#g.bind(this); if (c) this.h(); \x7d \x7d"

set_option maxRecDepth 100000 in
/-- Of these the two are kept that set no state and bind no method. -/
theorem keepsStatements_plainConstructor :
    ∃ s m fn, setupOf? {} plainConstructor = some s ∧ modelOf s = .ok m ∧
      firstFunction? s = some fn ∧
      ((constructorStatements fn).filterMap statementBind?).map Bind.target =
        [some "f", some "#g"] ∧
      (m.classComponent.map fun c => c.created.map (·.text)) =
        some ["this.a = 1;", "if (c) this.h();"] ∧
      KeepsStatements s.reading fn := by
  obtain ⟨s, m, fn, hsetup, hmodel, hfn, htargets, hcreated, hself⟩ :=
    exists_firstFunction? plainConstructor
      (fun _ m fn => ((constructorStatements fn).filterMap statementBind?).map Bind.target =
          [some "f", some "#g"] ∧
        (m.classComponent.map fun c => c.created.map (·.text)) =
          some ["this.a = 1;", "if (c) this.h();"] ∧
        ((constructorStatements fn).filterMap statementBind?).all Bind.isSelf = true)
      (by decide +kernel)
  refine ⟨s, m, fn, hsetup, hmodel, hfn, htargets, hcreated, ?_⟩
  refine (keepsStatements_iff s.reading fn).2 fun u hu b hb => ?_
  exact List.all_eq_true.1 hself b (List.mem_filterMap.2 ⟨u, hu, hb⟩)

def aliasedMethods : String :=
  "class A \x7b constructor() \x7b this.a = this.b.bind(this); this.c ||= this.c.bind(this); " ++
    "this[k] = this[k].bind(this); \x7d \x7d"

set_option maxRecDepth 100000 in
/-- Such assignments are lost. -/
theorem keepsStatements_fails_aliasedMethods :
    ∃ s m fn, setupOf? {} aliasedMethods = some s ∧ modelOf s = .ok m ∧
      firstFunction? s = some fn ∧
      (constructorStatements fn).filterMap statementBind? =
        [⟨"=", some "a", some "b", false⟩, ⟨"||=", some "c", some "c", false⟩,
          ⟨"=", none, none, false⟩] ∧
      (constructorStatements fn).any mayBeDropped = false ∧
      m.classComponent.map (·.created) = some [] ∧ m.caveats.size = 0 ∧
      ¬ KeepsStatements s.reading fn := by
  obtain ⟨s, m, fn, hsetup, hmodel, hfn, hbinds, hdropped, hcreated, hsize⟩ :=
    exists_firstFunction? aliasedMethods
      (fun _ m fn => (constructorStatements fn).filterMap statementBind? =
          [⟨"=", some "a", some "b", false⟩, ⟨"||=", some "c", some "c", false⟩,
            ⟨"=", none, none, false⟩] ∧
        (constructorStatements fn).any mayBeDropped = false ∧
        m.classComponent.map (·.created) = some [] ∧ m.caveats.size = 0)
      (by decide +kernel)
  refine ⟨s, m, fn, hsetup, hmodel, hfn, hbinds, hdropped, hcreated, hsize, fun hkeeps => ?_⟩
  obtain ⟨u, hu, hb⟩ := List.mem_filterMap.1 (hbinds ▸ List.mem_cons_self)
  exact absurd (hkeeps.isSelf hu hb) (by decide)

end Revue.Analysis
