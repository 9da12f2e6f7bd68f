import Revue.Proofs.LaidTrees

/-!
# Where sites belong

Every node of a piece of code, seen with the node above it, says which sites it stands for: an
access to props or state, to a parameter that holds props, a change of state, a class attribute.
The walk through the code does not look at each node: it stops at what it has found, and of a call
that changes state it enters the arguments only. `step_cases` says once what the walk can do at a
node.
-/

namespace Revue.Analysis
open Text Syntax Component

mutual

def occurrences (parent : Option Tree) : Tree → List (Option Tree × Tree)
  | .node r k s ps => (parent, .node r k s ps) :: occurrencesIn (.node r k s ps) ps

def occurrencesIn (parent : Tree) : List Tree → List (Option Tree × Tree)
  | [] => []
  | t :: ts => occurrences (some parent) t ++ occurrencesIn parent ts

end

/-- The site of an access to the props or the state of `this`. In front of a name it is a site of
its own kind, and the children of a component are one site with their name. -/
def instanceSite? (parent : Option Tree) (t : Tree) : Option Site :=
  match memberOfThis? t, parent.bind fun p => (namedMember? p).map fun (_, name) => (p, name) with
  | some "props", some (p, "children") => some ⟨p.span, .children⟩
  | some "props", some _ => some ⟨t.span, .propsMember⟩
  | some "props", none => some ⟨t.span, .propsObject⟩
  | some "state", some _ => some ⟨t.span, .stateMember⟩
  | some "state", none => some ⟨t.span, .stateObject⟩
  | _, _ => none

def bindingSite? (binding : Option String) (t : Tree) : Option Site :=
  match namedMember? t with
  | some (object, _) =>
    if binding.isSome && object.name? = binding then some ⟨object.span, .constructorPropsMember⟩
    else none
  | none => none

def childrenSite? (props : Option String) (t : Tree) : Option Site :=
  match namedMember? t with
  | some (object, "children") =>
    if props.isSome && object.name? = props then some ⟨t.span, .functionalChildren⟩ else none
  | _ => none

def updateSites (source : List Char) (t : Tree) : List Site :=
  match t.get? .callee with
  | some callee =>
    if memberOfThis? callee = some "setState" then
      ⟨callee.span, .setStateCallee⟩ ::
        (afterParen? source callee.span.stop).toList.map fun pos => ⟨⟨pos, pos⟩, .setStateArgs⟩
    else []
  | none => []

def attributeSites (t : Tree) : List Site :=
  match t.get? .name with
  | some name => if name.name? = some "className" then [⟨name.span, .classNameAttr⟩] else []
  | none => []

def expectedAt (source : List Char) (setting : Setting) (parent : Option Tree) (t : Tree) :
    List Site :=
  match t.kind, setting with
  | .member, .classMember binding =>
    (instanceSite? parent t).toList ++ (bindingSite? binding t).toList
  | .member, .functional props => (childrenSite? props t).toList
  | .call, .classMember _ => updateSites source t
  | .attribute, _ => attributeSites t
  | _, _ => []

/-- The sites that all nodes of a tree stand for, in the offsets of the source. -/
def expectedIn (source : List Char) (setting : Setting) (parent : Option Tree) (t : Tree) :
    List Site :=
  (occurrences parent t).flatMap fun (parent, n) => expectedAt source setting parent n

def isUpdateIn (setting : Setting) (t : Tree) : Bool :=
  match t.kind, setting with
  | .call, .classMember _ => isStateUpdate t
  | _, _ => false

mutual

/-- The parts of calls that change state that are not among the arguments, each with its call. -/
def overlooked (setting : Setting) : Tree → List (Tree × Tree)
  | .node r k s ps =>
    if isUpdateIn setting (.node r k s ps) then
      (ps.filter (·.role ≠ .argument)).map (fun p => (.node r k s ps, p)) ++
        overlookedIn setting (· = .argument) ps
    else overlookedIn setting (fun _ => true) ps

def overlookedIn (setting : Setting) (visits : Role → Bool) : List Tree → List (Tree × Tree)
  | [] => []
  | t :: ts =>
    (if visits t.role then overlooked setting t else []) ++ overlookedIn setting visits ts

end

/-- The sites that belong into such parts. -/
def missedIn (source : List Char) (setting : Setting) (t : Tree) : List Site :=
  (overlooked setting t).flatMap fun (call, part) => expectedIn source setting (some call) part

section Equations

variable {t : Tree} (source : List Char) (setting : Setting)

theorem occurrencesIn_eq (parent : Tree) (ts : List Tree) :
    occurrencesIn parent ts = ts.flatMap (occurrences (some parent)) := by
  induction ts with
  | nil => rfl
  | cons t ts ih => rw [occurrencesIn, ih, List.flatMap_cons]

theorem expectedIn_eq (parent : Option Tree) (t : Tree) :
    expectedIn source setting parent t =
      expectedAt source setting parent t ++
        t.parts.flatMap (expectedIn source setting (some t)) := by
  cases t with
  | node r k s ps =>
    rw [expectedIn, occurrences, List.flatMap_cons, occurrencesIn_eq, List.flatMap_assoc]
    rfl

theorem overlookedIn_eq (visits : Role → Bool) (ts : List Tree) :
    overlookedIn setting visits ts =
      (ts.filter fun t => visits t.role).flatMap (overlooked setting) := by
  induction ts with
  | nil => rfl
  | cons t ts ih =>
    rw [overlookedIn, ih, List.filter_cons]
    split <;> simp

theorem missedIn_of_update (h : isUpdateIn setting t = true) :
    missedIn source setting t =
      (t.parts.filter (·.role ≠ .argument)).flatMap (expectedIn source setting (some t)) ++
        (t.parts.filter (·.role = .argument)).flatMap (missedIn source setting) := by
  cases t with
  | node r k s ps =>
    rw [missedIn, overlooked, if_pos h, overlookedIn_eq, List.flatMap_append, List.flatMap_map,
      List.flatMap_assoc]
    rfl

theorem missedIn_of_not_update (h : isUpdateIn setting t = false) :
    missedIn source setting t = t.parts.flatMap (missedIn source setting) := by
  cases t with
  | node r k s ps =>
    rw [missedIn, overlooked, if_neg (by simp [h]), overlookedIn_eq, List.flatMap_assoc]
    rw [List.filter_eq_self.2 (by simp)]
    rfl

end Equations

def Finding.mark? : Finding → Option Site
  | site range kind => some ⟨range, kind⟩
  | updater _ => none

def marksAt (source : List Char) (setting : Setting) (t : Tree) : List Site :=
  (step source setting t).found.filterMap Finding.mark?

def marks (source : List Char) (setting : Setting) (t : Tree) : List Site :=
  (findings source setting t).filterMap Finding.mark?

theorem marks_eq (source : List Char) (setting : Setting) (t : Tree) :
    marks source setting t = marksAt source setting t ++
      (t.parts.filter fun p => (step source setting t).visits p.role).flatMap
        (marks source setting) := by
  rw [marks, findings_eq, List.filterMap_append, List.filterMap_flatMap]
  rfl

/-- The sites at which the walk stops, with what it has seen there. -/
inductive StopsAt : Setting → Tree → Site → Prop
  | children {binding : Option String} {t object : Tree}
      (hnamed : namedMember? t = some (object, "children"))
      (hprops : memberOfThis? object = some "props") :
      StopsAt (.classMember binding) t ⟨t.span, .children⟩
  | propsMember {binding : Option String} {t object : Tree} {name : String}
      (hnamed : namedMember? t = some (object, name)) (hname : name ≠ "children")
      (hprops : memberOfThis? object = some "props") :
      StopsAt (.classMember binding) t ⟨object.span, .propsMember⟩
  | stateMember {binding : Option String} {t object : Tree} {name : String}
      (hnamed : namedMember? t = some (object, name))
      (hstate : memberOfThis? object = some "state") :
      StopsAt (.classMember binding) t ⟨object.span, .stateMember⟩
  | propsObject {binding : Option String} {t : Tree} (hprops : memberOfThis? t = some "props") :
      StopsAt (.classMember binding) t ⟨t.span, .propsObject⟩
  | stateObject {binding : Option String} {t : Tree} (hstate : memberOfThis? t = some "state") :
      StopsAt (.classMember binding) t ⟨t.span, .stateObject⟩
  | binding {binding : Option String} {t object : Tree} {name : String}
      (hnamed : namedMember? t = some (object, name)) (hsome : binding.isSome = true)
      (hbinding : object.name? = binding) :
      StopsAt (.classMember binding) t ⟨object.span, .constructorPropsMember⟩
  | functionalChildren {props : Option String} {t object : Tree}
      (hnamed : namedMember? t = some (object, "children")) (hsome : props.isSome = true)
      (hprops : object.name? = props) :
      StopsAt (.functional props) t ⟨t.span, .functionalChildren⟩

/-- A node that the walk passes through: it stands for no site, and its parts stand for the same
sites as they would alone. -/
structure Passes (source : List Char) (setting : Setting) (t : Tree) : Prop where
  unmarked : expectedAt source setting none t = []
  parts : ∀ p ∈ t.parts, expectedAt source setting (some t) p = expectedAt source setting none p
  notUpdate : isUpdateIn setting t = false

/-- Only an access to a named member changes what its object stands for. -/
theorem expectedAt_of_namedMember?_eq_none {source : List Char} {setting : Setting} {t : Tree}
    (h : namedMember? t = none) (p : Tree) :
    expectedAt source setting (some t) p = expectedAt source setting none p := by
  simp [expectedAt, instanceSite?, h]

theorem expectedAt_of_memberOfThis?_ne {source : List Char} {setting : Setting} {p : Tree}
    (hprops : memberOfThis? p ≠ some "props") (hstate : memberOfThis? p ≠ some "state")
    (parent : Option Tree) :
    expectedAt source setting parent p = expectedAt source setting none p := by
  have hnone : ∀ parent, instanceSite? parent p = none := by
    intro parent
    unfold instanceSite?
    split <;> simp_all
  simp [expectedAt, hnone]

theorem namedMember?_of_kind {t : Tree} (h : t.kind ≠ .member) : namedMember? t = none := by
  cases hnamed : namedMember? t with
  | none => rfl
  | some access =>
    obtain ⟨-, hkind, -⟩ := namedMember?_eq_some hnamed
    exact absurd hkind h

theorem memberOfThis?_of_kind {t : Tree} (h : t.kind ≠ .member) : memberOfThis? t = none := by
  simp [memberOfThis?, namedMember?_of_kind h]

/-- What an access to a named member stands for, other than by its object. -/
theorem passes_of_namedMember? {source : List Char} {binding : Option String} {t object : Tree}
    {name : String} (hnamed : namedMember? t = some (object, name))
    (hprops : memberOfThis? object ≠ some "props") (hstate : memberOfThis? object ≠ some "state")
    (hprops' : memberOfThis? t ≠ some "props") (hstate' : memberOfThis? t ≠ some "state")
    (hbinding : ¬ (binding.isSome = true ∧ object.name? = binding)) :
    Passes source (.classMember binding) t := by
  obtain ⟨node, hkind, hparts, hname⟩ := namedMember?_eq_some hnamed
  have hinstance : instanceSite? none t = none := by
    unfold instanceSite?
    split <;> simp_all
  have hbindingSite : bindingSite? binding t = none := by
    simp only [bindingSite?, hnamed, Bool.and_eq_true, decide_eq_true_eq, if_neg hbinding]
  refine ⟨by simp [expectedAt, hkind, hinstance, hbindingSite], fun p hp => ?_,
    by simp [isUpdateIn, hkind]⟩
  rw [hparts] at hp
  obtain rfl | rfl : p = object ∨ p = node := by simpa using hp
  · exact expectedAt_of_memberOfThis?_ne hprops hstate _
  · have hthis : memberOfThis? p = none := memberOfThis?_of_kind (by simp [hname])
    exact expectedAt_of_memberOfThis?_ne (by simp [hthis]) (by simp [hthis]) _

section
variable {t : Tree} (source : List Char)
include source

theorem classAccess_cases (binding : Option String) (hkind : t.kind = .member) :
    (∃ a, StopsAt (.classMember binding) t a ∧
        classAccess binding t = .stop [.site a.range a.kind]) ∨
      classAccess binding t = .go ∧ Passes source (.classMember binding) t := by
  unfold classAccess
  cases hnamed : namedMember? t with
  | none =>
    have hthis : memberOfThis? t = none := by simp [memberOfThis?, hnamed]
    refine Or.inr ⟨rfl, ?_, fun p _ => expectedAt_of_namedMember?_eq_none hnamed p,
      by simp [isUpdateIn, hkind]⟩
    simp [expectedAt, hkind, instanceSite?, bindingSite?, hnamed, hthis]
  | some access =>
    obtain ⟨object, name⟩ := access
    -- An object that is itself an access is neither `this` nor a plain name.
    have hobject : ∀ {property}, memberOfThis? object = some property →
        memberOfThis? t = none ∧ object.name? = none := by
      intro property hproperty
      obtain ⟨inner, hinner, -⟩ := memberOfThis?_eq_some hproperty
      obtain ⟨-, hmember, -⟩ := namedMember?_eq_some hinner
      simp [memberOfThis?, hnamed, Tree.name?, hmember]
    dsimp only
    split
    · rename_i hprops
      split
      · rename_i hchildren
        subst hchildren
        exact Or.inl ⟨_, .children hnamed hprops, rfl⟩
      · rename_i hchildren
        exact Or.inl ⟨_, .propsMember hnamed hchildren hprops, rfl⟩
    · rename_i hstate
      exact Or.inl ⟨_, .stateMember hnamed hstate, rfl⟩
    · rename_i property hnotProps hnotState hproperty
      obtain ⟨hthis, hname⟩ := hobject hproperty
      refine Or.inr ⟨rfl,
        passes_of_namedMember? hnamed ?_ ?_ (by simp [hthis]) (by simp [hthis]) ?_⟩
      · simpa [hproperty] using hnotProps
      · simpa [hproperty] using hnotState
      · rintro ⟨hsome, hbinding⟩
        rw [← hbinding, hname] at hsome
        cases hsome
    · rename_i hprops
      exact Or.inl ⟨_, .propsObject hprops, rfl⟩
    · rename_i hstate
      exact Or.inl ⟨_, .stateObject hstate, rfl⟩
    · rename_i hnone hnotProps hnotState
      split
      · rename_i hbinding
        obtain ⟨hsome, hname⟩ : binding.isSome = true ∧ object.name? = binding := by
          simpa using hbinding
        exact Or.inl ⟨_, .binding hnamed hsome hname, rfl⟩
      · rename_i hbinding
        refine Or.inr ⟨rfl, passes_of_namedMember? hnamed (by simp [hnone]) (by simp [hnone])
          hnotProps hnotState ?_⟩
        simpa using hbinding

theorem functionalAccess_cases (props : Option String) (hkind : t.kind = .member) :
    (∃ a, StopsAt (.functional props) t a ∧
        functionalAccess props t = .stop [.site a.range a.kind]) ∨
      functionalAccess props t = .go ∧ Passes source (.functional props) t := by
  have hpasses : childrenSite? props t = none → Passes source (.functional props) t := by
    intro hnone
    refine ⟨by simp [expectedAt, hkind, hnone], fun p _ => ?_, by simp [isUpdateIn, hkind]⟩
    unfold expectedAt
    split <;> simp_all
  unfold functionalAccess
  split
  · rename_i object hnamed
    split
    · rename_i hprops
      obtain ⟨hsome, hname⟩ : props.isSome = true ∧ object.name? = props := by simpa using hprops
      exact Or.inl ⟨_, .functionalChildren hnamed hsome hname, rfl⟩
    · rename_i hprops
      refine Or.inr ⟨rfl, hpasses ?_⟩
      simp only [childrenSite?, hnamed, if_neg hprops]
  · rename_i hnamed
    refine Or.inr ⟨rfl, hpasses ?_⟩
    unfold childrenSite?
    split
    · rename_i object hchildren
      exact absurd hchildren (hnamed object)
    · rfl

theorem classCall_cases (binding : Option String) (hkind : t.kind = .call) :
    (classCall source t = .go ∧ Passes source (.classMember binding) t) ∨
      isStateUpdate t = true ∧
        (classCall source t).found.filterMap Finding.mark? = updateSites source t ∧
        (classCall source t).visits = fun r => decide (r = .argument) := by
  have hparts : ∀ p ∈ t.parts, expectedAt source (.classMember binding) (some t) p =
      expectedAt source (.classMember binding) none p := fun p _ =>
    expectedAt_of_namedMember?_eq_none (namedMember?_of_kind (by simp [hkind])) p
  unfold classCall isStateUpdate updateSites
  cases hcallee : t.get? .callee with
  | none =>
    refine Or.inl ⟨rfl, ?_, hparts, by simp [isUpdateIn, hkind, isStateUpdate, hcallee]⟩
    simp [expectedAt, hkind, updateSites, hcallee]
  | some callee =>
    by_cases hupdate : memberOfThis? callee = some "setState"
    · refine Or.inr ⟨by simp [hupdate], ?_, by simp [hupdate]⟩
      have hupdaters : ∀ b : Bool,
          (if b then [] else [Finding.updater t.span]).filterMap Finding.mark? = [] := by
        intro b
        cases b <;> rfl
      simp only [hupdate, if_true, List.filterMap_cons, Finding.mark?, List.filterMap_append,
        hupdaters, List.append_nil]
      cases afterParen? source callee.span.stop <;> rfl
    · refine Or.inl ⟨by simp [hupdate], ?_, hparts, ?_⟩
      · simp [expectedAt, hkind, updateSites, hcallee, hupdate]
      · simp [isUpdateIn, hkind, isStateUpdate, hcallee, hupdate]

theorem attributeStep_cases (setting : Setting) (hkind : t.kind = .attribute) :
    (attributeStep t = .go ∧ Passes source setting t) ∨
      (attributeStep t).found.filterMap Finding.mark? = attributeSites t ∧
        (attributeStep t).visits = fun r => decide (r = .value) := by
  unfold attributeStep attributeSites
  cases hname : t.get? .name with
  | none =>
    refine Or.inl ⟨rfl, by simp [expectedAt, hkind, attributeSites, hname], fun p _ => ?_,
      by simp [isUpdateIn, hkind]⟩
    exact expectedAt_of_namedMember?_eq_none (namedMember?_of_kind (by simp [hkind])) p
  | some name =>
    refine Or.inr ⟨?_, rfl⟩
    by_cases hclass : name.name? = some "className" <;> simp [hclass, Finding.mark?]

/-- What the walk can do at a node: stop at a site, pass through, enter the arguments of a call that
changes state, or enter the value of an attribute. -/
theorem step_cases (setting : Setting) (t : Tree) :
    (∃ a, StopsAt setting t a ∧ step source setting t = .stop [.site a.range a.kind]) ∨
    (step source setting t = .go ∧ Passes source setting t) ∨
    (t.kind = .call ∧ isUpdateIn setting t = true ∧
      marksAt source setting t = updateSites source t ∧
      (step source setting t).visits = fun r => decide (r = .argument)) ∨
    (t.kind = .attribute ∧ marksAt source setting t = attributeSites t ∧
      (step source setting t).visits = fun r => decide (r = .value)) := by
  unfold marksAt
  by_cases hmember : t.kind = .member
  · cases setting with
    | classMember binding =>
      have hstep : step source (.classMember binding) t = classAccess binding t := by
        simp [step, hmember]
      rw [hstep]
      rcases classAccess_cases source binding hmember with h | h
      · exact Or.inl h
      · exact Or.inr (Or.inl h)
    | functional props =>
      have hstep : step source (.functional props) t = functionalAccess props t := by
        simp [step, hmember]
      rw [hstep]
      rcases functionalAccess_cases source props hmember with h | h
      · exact Or.inl h
      · exact Or.inr (Or.inl h)
  by_cases hattribute : t.kind = .attribute
  · have hstep : step source setting t = attributeStep t := by simp [step, hattribute]
    rw [hstep]
    rcases attributeStep_cases source setting hattribute with h | h
    · exact Or.inr (Or.inl h)
    · exact Or.inr (Or.inr (Or.inr ⟨hattribute, h⟩))
  have hother : step source setting t = .go → expectedAt source setting none t = [] →
      isUpdateIn setting t = false → step source setting t = .go ∧ Passes source setting t :=
    fun hgo hunmarked hupdate => ⟨hgo, hunmarked, fun p _ =>
      expectedAt_of_namedMember?_eq_none (namedMember?_of_kind hmember) p, hupdate⟩
  by_cases hcall : t.kind = .call
  · cases setting with
    | classMember binding =>
      have hstep : step source (.classMember binding) t = classCall source t := by
        simp [step, hcall]
      rw [hstep]
      rcases classCall_cases source binding hcall with h | ⟨hupdate, hmarks, hvisits⟩
      · exact Or.inr (Or.inl h)
      · have hin : isUpdateIn (.classMember binding) t = true := by
          simp [isUpdateIn, hcall, hupdate]
        exact Or.inr (Or.inr (Or.inl ⟨hcall, hin, hmarks, hvisits⟩))
    | functional props =>
      exact Or.inr (Or.inl (hother (by simp [step, hcall]) (by simp [expectedAt, hcall])
        (by simp [isUpdateIn, hcall])))
  · refine Or.inr (Or.inl (hother ?_ ?_ ?_))
    · unfold step
      split <;> simp_all
    · unfold expectedAt
      split <;> simp_all
    · unfold isUpdateIn
      split <;> simp_all

end

end Revue.Analysis
