import Revue.Analysis.Assembly
import Revue.Proofs.AsciiBytes
import Revue.Proofs.ClassSteps

/-!
# The walk through the items of a module

What one item does to a draft, said once: every fact about the walk is proved by looking at the
cases of `ItemStep` and carried along the items by induction.
-/

namespace Revue.Analysis
open Text Syntax Component

variable {span : Span} {t : Tree} {d d' : Draft} {m : Model} {s : Setup} {name text : String}
  {options : Options} {r : Reading} {ts : List Tree}

def isClassOrType : Kind → Bool
  | .classDef | .interfaceDef | .aliasDef => true
  | _ => false

theorem isClassOrType_eq_false {k : Kind} (hclass : k ≠ .classDef) (hinterface : k ≠ .interfaceDef)
    (halias : k ≠ .aliasDef) : isClassOrType k = false := by
  unfold isClassOrType
  split <;> simp_all

/-- An item that is exported as the default, as a declaration. -/
def isDefault (t : Tree) : Bool := t.kind = .exportDefaultDeclaration

/-- The draft in which the declaration of an item is put: a default export has set its name. -/
def exported (d : Draft) (t : Tree) : Draft :=
  if isDefault t then d.setExport (nameOrAnonymous (itemDeclaration t)) else d

/-- Where the declaration of an item starts as it is written again. -/
def declaredSpan (t : Tree) : Span :=
  if isDefault t then ⟨(itemDeclaration t).span.start, t.span.stop⟩ else t.span

def declaresValue (t : Tree) : Bool :=
  match t.kind, (itemDeclaration t).kind with
  | .exportDefaultExpression, _ => true
  | _, .function _ => true
  | _, .variables _ => !isDefault t
  | _, _ => false

def exportedValue (t : Tree) : Tree := ((t.get? .value).getD t).withoutParens

/-- The name under which an item is exported as the default. -/
def exportOf? (t : Tree) : Option String :=
  match t.kind with
  | .exportDefaultDeclaration =>
    match (itemDeclaration t).kind with
    | .classDef | .function _ => some (nameOrAnonymous (itemDeclaration t))
    | _ => none
  | .exportDefaultExpression =>
    match (exportedValue t).kind with
    | .name text => some text
    | .arrow _ => some anonymous
    | _ => none
  | _ => none

inductive ItemStep (s : Setup) (d : Draft) (t : Tree) : Draft → Prop
  | empty (hkind : t.kind = .empty) : ItemStep s d t d
  | importing (hkind : t.kind = .importDef) : ItemStep s d t (d.addImport s.reading t)
  | expression (hkind : t.kind = .expressionStatement) :
      ItemStep s d t (d.addExpression s.reading t)
  | defaultExpression (hkind : t.kind = .exportDefaultExpression) :
      ItemStep s d t (d.addDefaultExpression s.reading ((t.get? .value).getD t) t.span)
  | classDef (hkind : (itemDeclaration t).kind = .classDef) (hfirst : d.topClass = none) :
      ItemStep s d t
        { model := addClass s.reading (exported d t).model (nameOrAnonymous (itemDeclaration t))
            (itemDeclaration t) false
          topClass := some (nameOrAnonymous (itemDeclaration t), (itemDeclaration t).span) }
  | function {flags : FunctionFlags} {c : FunctionalComponent}
      (hkind : (itemDeclaration t).kind = .function flags)
      (hcomponent : componentOfFunction? s.reading (nameOrAnonymous (itemDeclaration t))
        (itemDeclaration t) (declaredSpan t) = some c) :
      ItemStep s d t ((exported d t).addFunctional c)
  | signature {flags : FunctionFlags} (hkind : (itemDeclaration t).kind = .function flags)
      (hbody : (itemDeclaration t).get? .body = none) : ItemStep s d t (exported d t)
  | bindings {keyword : String} (hkind : (itemDeclaration t).kind = .variables keyword)
      (hdefault : isDefault t = false) :
      ItemStep s d t (d.addVariables s.reading (itemDeclaration t) t.span)
  | type (hclass : (itemDeclaration t).kind ≠ .classDef)
      (hstatement : t.kind ≠ .expressionStatement) (hvalue : declaresValue t = false) :
      ItemStep s d t (d.addType s (itemDeclaration t) t.span)
  | declaration (hkind : isClassOrType (itemDeclaration t).kind = false)
      (hstatement : t.kind ≠ .expressionStatement) (hvalue : declaresValue t = false) :
      ItemStep s d t (d.addDeclaration s.reading t.span)
  | untransferred (hkind : isClassOrType (itemDeclaration t).kind = false)
      (hstatement : t.kind ≠ .expressionStatement) (hvalue : declaresValue t = false) :
      ItemStep s d t (d.addUntransferred s.reading t.span)

theorem body_of_componentOfFunction? (h : componentOfFunction? r name t span = none) :
    t.get? .body = none := by
  simpa [componentOfFunction?] using h

theorem topClass_of_addTopClass (h : d.addTopClass r name t = .ok d') :
    d.topClass = none ∧ d' = ⟨addClass r d.model name t false, some (name, t.span)⟩ := by
  unfold Draft.addTopClass at h
  split at h
  · cases h
  · rename_i hnone
    exact ⟨hnone, (Except.ok.inj h).symm⟩

theorem addTopDeclaration_step {decl : Tree} (hdecl : itemDeclaration t = decl)
    (hdefault : isDefault t = false) (hstatement : t.kind ≠ .expressionStatement)
    (hexpression : t.kind ≠ .exportDefaultExpression)
    (h : d.addTopDeclaration s decl t.span = .ok d') : ItemStep s d t d' := by
  subst hdecl
  have hexported : exported d t = d := by simp [exported, hdefault]
  have hspan : declaredSpan t = t.span := by simp [declaredSpan, hdefault]
  unfold Draft.addTopDeclaration at h
  split at h
  case h_1 hkind =>
    obtain ⟨hfirst, rfl⟩ := topClass_of_addTopClass h
    have hstep := ItemStep.classDef (s := s) hkind hfirst
    rwa [hexported] at hstep
  case h_2 hkind =>
    split at h
    · rename_i c hcomponent
      obtain rfl := Except.ok.inj h
      have hstep := ItemStep.function (s := s) (d := d) hkind (by rw [hspan]; exact hcomponent)
      rwa [hexported] at hstep
    · rename_i hcomponent
      obtain rfl := Except.ok.inj h
      have hstep := ItemStep.signature (s := s) (d := d) hkind
        (body_of_componentOfFunction? hcomponent)
      rwa [hexported] at hstep
  case h_3 hkind =>
    obtain rfl := Except.ok.inj h
    exact .bindings hkind hdefault
  case h_4 hkind =>
    obtain rfl := Except.ok.inj h
    exact .type (by simp [hkind]) hstatement (by simp [declaresValue, hkind])
  case h_5 hkind =>
    obtain rfl := Except.ok.inj h
    exact .type (by simp [hkind]) hstatement (by simp [declaresValue, hkind])
  case h_6 hclass hfunction hvariables hinterface halias =>
    obtain rfl := Except.ok.inj h
    exact .declaration (isClassOrType_eq_false hclass hinterface halias) hstatement
      (by simp [declaresValue])

theorem addDefaultDeclaration_step (hdefault : t.kind = .exportDefaultDeclaration)
    (h : d.addDefaultDeclaration s (itemDeclaration t) t.span = .ok d') : ItemStep s d t d' := by
  have his : isDefault t = true := by simp [isDefault, hdefault]
  have hexported : exported d t = d.setExport (nameOrAnonymous (itemDeclaration t)) := by
    simp [exported, his]
  have hspan : declaredSpan t = ⟨(itemDeclaration t).span.start, t.span.stop⟩ := by
    simp [declaredSpan, his]
  unfold Draft.addDefaultDeclaration at h
  split at h
  case h_1 hkind =>
    obtain ⟨hfirst, rfl⟩ := topClass_of_addTopClass h
    rw [← hexported]
    exact .classDef hkind hfirst
  case h_2 hkind =>
    dsimp only at h
    split at h
    · rename_i c hcomponent
      obtain rfl := Except.ok.inj h
      rw [← hexported]
      exact .function hkind (by rw [hspan]; exact hcomponent)
    · rename_i hcomponent
      obtain rfl := Except.ok.inj h
      rw [← hexported]
      exact .signature hkind (body_of_componentOfFunction? hcomponent)
  case h_3 hclass hfunction =>
    obtain rfl := Except.ok.inj h
    refine .type hclass (by simp [hdefault]) ?_
    unfold declaresValue
    split <;> simp_all

theorem itemDeclaration_of_export
    (h : t.kind = .exportDeclaration ∨ t.kind = .exportDefaultDeclaration) :
    itemDeclaration t = (t.get? .declaration).getD t := by
  rcases h with hkind | hkind <;> simp [itemDeclaration, hkind]

theorem itemDeclaration_of_kind (hexport : t.kind ≠ .exportDeclaration)
    (hdefault : t.kind ≠ .exportDefaultDeclaration) : itemDeclaration t = t := by
  unfold itemDeclaration
  split <;> simp_all

theorem addItem_step (h : d.addItem s t = .ok d') : ItemStep s d t d' := by
  unfold Draft.addItem at h
  dsimp only at h
  split at h
  case h_1 hkind =>
    obtain rfl := Except.ok.inj h
    exact .importing hkind
  case h_2 hkind =>
    exact addTopDeclaration_step (by simp [itemDeclaration, hkind]) (by simp [isDefault, hkind])
      (by simp [hkind]) (by simp [hkind]) h
  case h_3 hkind =>
    apply addDefaultDeclaration_step hkind
    simpa [itemDeclaration, hkind] using h
  case h_4 hkind =>
    obtain rfl := Except.ok.inj h
    exact .defaultExpression hkind
  case h_5 hkind =>
    obtain rfl := Except.ok.inj h
    exact .expression hkind
  case h_6 hkind =>
    obtain rfl := Except.ok.inj h
    exact .empty hkind
  case h_15 _ hexport hdefault _ hstatement _ hclass _ _ _ hinterface halias _ _ =>
    obtain rfl := Except.ok.inj h
    have hself := itemDeclaration_of_kind hexport hdefault
    refine .untransferred ?_ hstatement (by simp [declaresValue, hself])
    rw [hself]
    exact isClassOrType_eq_false hclass hinterface halias
  all_goals
    rename_i hkind
    exact addTopDeclaration_step (itemDeclaration_of_kind (by simp [hkind]) (by simp [hkind]))
      (by simp [isDefault, hkind]) (by simp [hkind]) (by simp [hkind]) h

theorem ItemStep.topClass_of_classDef (h : ItemStep s d t d')
    (hclass : (itemDeclaration t).kind = .classDef) :
    d.topClass = none ∧
      d'.topClass = some (nameOrAnonymous (itemDeclaration t), (itemDeclaration t).span) := by
  have hself : ∀ {k : Kind}, t.kind = k → k ≠ .exportDeclaration → k ≠ .exportDefaultDeclaration →
      k ≠ .classDef → False := by
    intro k hkind hexport hdefault hne
    rw [itemDeclaration_of_kind (hkind ▸ hexport) (hkind ▸ hdefault), hkind] at hclass
    exact hne hclass
  cases h with
  | classDef _ hfirst => exact ⟨hfirst, rfl⟩
  | empty hkind => exact (hself hkind (by simp) (by simp) (by simp)).elim
  | importing hkind => exact (hself hkind (by simp) (by simp) (by simp)).elim
  | expression hkind => exact (hself hkind (by simp) (by simp) (by simp)).elim
  | defaultExpression hkind => exact (hself hkind (by simp) (by simp) (by simp)).elim
  | function hkind => simp [hkind] at hclass
  | signature hkind => simp [hkind] at hclass
  | bindings hkind => simp [hkind] at hclass
  | type hne => exact absurd hclass hne
  | declaration hkind => simp [hclass, isClassOrType] at hkind
  | untransferred hkind => simp [hclass, isClassOrType] at hkind

def importedFrom (t : Tree) : String :=
  match t.get? .source with
  | some (.node _ (.string value) _ _) => value
  | _ => ""

theorem addImport_eq (r : Reading) (d : Draft) (t : Tree) :
    d.addImport r t = if frameworkPackages.contains (importedFrom t) then d
      else d.update fun m => { m with imports := m.imports ++ [r.text t.span] } := rfl

/-- A type is kept as it stands unless a component is correlated with it. -/
theorem addType_cases (s : Setup) (d : Draft) (t : Tree) (span : Span) :
    (d.addType s t span = d.addDeclaration s.reading span ∧
        ∀ name members, contractMembers? t = some (name, members) →
          componentsFor s.correlations name = []) ∨
      ∃ name members, contractMembers? t = some (name, members) ∧
        componentsFor s.correlations name ≠ [] ∧
        d.addType s t span =
          (componentsFor s.correlations name).foldl (Draft.addContract s members span) d := by
  unfold Draft.addType
  cases hmembers : contractMembers? t with
  | none => exact Or.inl ⟨rfl, by simp⟩
  | some contract =>
    obtain ⟨name, members⟩ := contract
    dsimp only
    cases hcomponents : componentsFor s.correlations name with
    | nil =>
      refine Or.inl ⟨rfl, ?_⟩
      intro name' members' heq
      obtain ⟨rfl, -⟩ := Prod.mk.inj (Option.some.inj heq)
      exact hcomponents
    | cons component components =>
      refine Or.inr ⟨name, members, rfl, by simp [hcomponents], ?_⟩
      simp [hcomponents, Function.comp_def]

/-- What holds with the declaration added, and is kept by each contract, holds after a type. -/
theorem addType_induction {P : Draft → Prop} (h : P d)
    (hdeclaration : P (d.addDeclaration s.reading span))
    (hcontract : ∀ name members, contractMembers? t = some (name, members) →
      ∀ d component, P d → P (d.addContract s members span component)) :
    P (d.addType s t span) := by
  rcases addType_cases s d t span with ⟨heq, -⟩ | ⟨name, members, hmembers, -, heq⟩
  · rwa [heq]
  · rw [heq]
    exact List.foldlRecOn (motive := P) _ _ h fun d hd component _ =>
      hcontract name members hmembers d component hd

theorem addExpression_cases (r : Reading) (d : Draft) (t : Tree) :
    d.addExpression r t = d.addUntransferred r t.span ∨
      ∃ component field value m', (t.get? .operand).bind staticAssignment? =
          some (component, field, value) ∧
        recordStatic? r d.model component field value = some m' ∧
        d.addExpression r t = { d with model := m' } := by
  unfold Draft.addExpression
  dsimp only
  split
  · rename_i model hrecord
    obtain ⟨e, hoperand, hassigned⟩ := Option.bind_eq_some_iff.1 hrecord
    obtain ⟨⟨component, field, value⟩, hassignment, hstatic⟩ := Option.bind_eq_some_iff.1 hassigned
    refine Or.inr ⟨component, field, value, model, ?_, hstatic, rfl⟩
    rw [hoperand, Option.bind_some, hassignment]
  · exact Or.inl rfl

/-- Only a class changes which class the module is about. -/
theorem ItemStep.sameClass (h : ItemStep s d t d') (hclass : (itemDeclaration t).kind ≠ .classDef) :
    d'.topClass = d.topClass ∧ d'.model.classComponent = d.model.classComponent := by
  cases h with
  | classDef hkind => exact absurd hkind hclass
  | importing =>
    rw [addImport_eq]
    split <;> exact ⟨rfl, rfl⟩
  | expression =>
    rcases addExpression_cases s.reading d t with heq | ⟨_, _, _, m', -, hrecord, heq⟩
    · rw [heq]
      exact ⟨rfl, rfl⟩
    · rw [heq]
      exact ⟨rfl, (components_recordStatic? hrecord).1⟩
  | defaultExpression =>
    unfold Draft.addDefaultExpression
    dsimp only
    split <;> exact ⟨rfl, rfl⟩
  | function | signature =>
    unfold exported
    split <;> exact ⟨rfl, rfl⟩
  | bindings =>
    unfold Draft.addVariables
    split
    · split <;> exact ⟨rfl, rfl⟩
    · exact ⟨rfl, rfl⟩
  | type =>
    refine addType_induction (P := fun d' => d'.topClass = d.topClass ∧
      d'.model.classComponent = d.model.classComponent) ⟨rfl, rfl⟩ ⟨rfl, rfl⟩
      fun _ members _ d' component hd' => ?_
    unfold Draft.addContract
    dsimp only [Draft.update]
    split <;> exact hd'
  | empty | declaration | untransferred => exact ⟨rfl, rfl⟩

theorem ItemStep.topClass_of_not_classDef (h : ItemStep s d t d')
    (hclass : (itemDeclaration t).kind ≠ .classDef) : d'.topClass = d.topClass :=
  (h.sameClass hclass).1

theorem walk_cons (h : (t :: ts).foldlM (Draft.addItem s) d = .ok d') :
    ∃ d₁, d.addItem s t = .ok d₁ ∧ ts.foldlM (Draft.addItem s) d₁ = .ok d' := by
  rw [List.foldlM_cons] at h
  cases hitem : d.addItem s t with
  | error f =>
    rw [hitem] at h
    cases h
  | ok d₁ =>
    rw [hitem] at h
    exact ⟨d₁, rfl, h⟩

/-- What every item keeps, the walk keeps. -/
theorem walk_induction {R : Draft → Draft → Prop} (hrefl : ∀ d, R d d)
    (hstep : ∀ {d t d₁ d₂}, ItemStep s d t d₁ → R d₁ d₂ → R d d₂)
    (h : ts.foldlM (Draft.addItem s) d = .ok d') : R d d' := by
  induction ts generalizing d with
  | nil =>
    obtain rfl : d = d' := Except.ok.inj h
    exact hrefl d
  | cons t ts ih =>
    obtain ⟨d₁, hitem, hrest⟩ := walk_cons h
    exact hstep (addItem_step hitem) (ih hrest)

theorem walk_append {before after : List Tree}
    (h : (before ++ after).foldlM (Draft.addItem s) d = .ok d') :
    ∃ d₁, before.foldlM (Draft.addItem s) d = .ok d₁ ∧
      after.foldlM (Draft.addItem s) d₁ = .ok d' := by
  rw [List.foldlM_append] at h
  cases hbefore : before.foldlM (Draft.addItem s) d with
  | error f =>
    rw [hbefore] at h
    cases h
  | ok d₁ =>
    rw [hbefore] at h
    exact ⟨d₁, rfl, h⟩

theorem modelOf_walk (h : modelOf s = .ok m) :
    ∃ d, s.reading.module.items.foldlM (Draft.addItem s) {} = .ok d ∧
      m = ((d.addNested s.reading).addMissingValidation s.reading).model := by
  unfold modelOf at h
  cases hwalk : s.reading.module.items.foldlM (Draft.addItem s) {} with
  | error f =>
    rw [hwalk] at h
    cases h
  | ok d =>
    rw [hwalk] at h
    exact ⟨d, rfl, (Except.ok.inj h).symm⟩

/-- A class at the top level stays the one that it is. -/
theorem sameClass_of_walk (h : ts.foldlM (Draft.addItem s) d = .ok d') (hsome : d.topClass ≠ none) :
    d'.topClass = d.topClass ∧ d'.model.classComponent = d.model.classComponent := by
  refine walk_induction (R := fun d d' => d.topClass ≠ none →
    d'.topClass = d.topClass ∧ d'.model.classComponent = d.model.classComponent)
    (fun _ _ => ⟨rfl, rfl⟩) (fun {d t d₁ d₂} hstep hrest hsome => ?_) h hsome
  have hclass : (itemDeclaration t).kind ≠ .classDef := fun hclass =>
    hsome (hstep.topClass_of_classDef hclass).1
  obtain ⟨htop, hcomponent⟩ := hstep.sameClass hclass
  obtain ⟨htop', hcomponent'⟩ := hrest (htop ▸ hsome)
  exact ⟨htop'.trans htop, hcomponent'.trans hcomponent⟩

theorem topClass_of_walk (h : ts.foldlM (Draft.addItem s) d = .ok d') (hnone : d.topClass = none) :
    d'.topClass = none ↔ ∀ t ∈ ts, (itemDeclaration t).kind ≠ .classDef := by
  induction ts generalizing d with
  | nil =>
    obtain rfl : d = d' := Except.ok.inj h
    simp [hnone]
  | cons t ts ih =>
    obtain ⟨d₁, hok, hrest⟩ := walk_cons h
    have hitem := addItem_step hok
    by_cases hclass : (itemDeclaration t).kind = .classDef
    · obtain ⟨-, hsome⟩ := hitem.topClass_of_classDef hclass
      rw [(sameClass_of_walk hrest (by simp [hsome])).1, hsome]
      simp [hclass]
    · rw [ih hrest ((hitem.topClass_of_not_classDef hclass).trans hnone)]
      simp [hclass]

/-- What is known of a source before the walk, if the source can be read. -/
def setupOf? (options : Options) (text : String) : Option Setup :=
  let source := (Source.preprocess text options.isFlow).toList
  match parse source with
  | .ok m =>
    let reading : Reading := ⟨source, m.repair source⟩
    some
      { reading := reading
        correlations := if options.isTyped then correlations reading.module else []
        reader := typeToken }
  | .error _ => none

theorem analyze_of_setupOf? (h : setupOf? options text = some s) :
    analyze options text = modelOf s := by
  unfold setupOf? at h
  unfold analyze analyzeWith
  dsimp only at h ⊢
  split at h
  · rename_i m hparse
    obtain rfl := Option.some.inj h
    rw [hparse]
  · cases h

theorem analyze_eq_ok_iff :
    analyze options text = .ok m ↔ ∃ s, setupOf? options text = some s ∧ modelOf s = .ok m := by
  unfold analyze analyzeWith setupOf?
  dsimp only
  cases parse (Source.preprocess text options.isFlow).toList with
  | error f => simp
  | ok module => simp

def analysis? (options : Options) (text : String) : Option (Setup × Model) :=
  (setupOf? options text).bind fun s => (modelOf s).toOption.map fun m => (s, m)

/-! ### Sources that are evaluated -/

def preparedChars (isFlow : Bool) (cs : List Char) : List Char :=
  let cleaned := Source.removeBinds (Source.unifyFeeds (Source.dropMark cs))
  if isFlow then
    Source.erase none true [] 0 cleaned
      ((Source.classify cleaned).zip (Source.pragmaMarks cleaned))
  else cleaned

theorem toList_preprocess (text : String) (isFlow : Bool) :
    (Source.preprocess text isFlow).toList = preparedChars isFlow text.toList := by
  cases isFlow with
  | false => exact String.toList_ofList
  | true =>
    rw [Source.preprocess, if_pos rfl, Source.eraseFlow, String.toList_ofList, Source.clean,
      String.toList_ofList]
    rfl

def setupOfChars? (options : Options) (cs : List Char) : Option Setup :=
  let source := preparedChars options.isFlow cs
  match parse source with
  | .ok m =>
    let reading : Reading := ⟨source, m.repair source⟩
    some
      { reading := reading
        correlations := if options.isTyped then correlations reading.module else []
        reader := typeToken }
  | .error _ => none

def analysisOfChars? (options : Options) (cs : List Char) : Option (Setup × Model) :=
  (setupOfChars? options cs).bind fun s => (modelOf s).toOption.map fun m => (s, m)

theorem analysis?_eq (options : Options) (text : String) :
    analysis? options text = analysisOfChars? options (Source.readChars text) := by
  delta analysis? analysisOfChars? setupOf? setupOfChars?
  rw [toList_preprocess, Source.readChars_eq]

theorem exists_of_analysis? (options : Options) (text : String) (P : Setup → Model → Prop)
    [∀ s m, Decidable (P s m)]
    (h : (analysisOfChars? options (Source.readChars text)).any fun (s, m) => P s m) :
    ∃ s m, setupOf? options text = some s ∧ modelOf s = .ok m ∧ P s m := by
  rw [← analysis?_eq] at h
  obtain ⟨⟨s, m⟩, hanalysis, hP⟩ := (Option.any_eq_true _ _).1 h
  obtain ⟨s', hsetup, hmodel⟩ := Option.bind_eq_some_iff.1 hanalysis
  obtain ⟨m', hm', heq⟩ := Option.map_eq_some_iff.1 hmodel
  obtain ⟨rfl, rfl⟩ := Prod.mk.inj heq
  refine ⟨s', m', hsetup, ?_, of_decide_eq_true hP⟩
  cases hresult : modelOf s' with
  | error f => simp [hresult, Except.toOption] at hm'
  | ok m =>
    rw [hresult] at hm'
    exact congrArg Except.ok (Option.some.inj hm')

/-- The same for two sources. -/
theorem exists_of_analyses? (options : Options) (text text' : String)
    (P : Setup → Model → Setup → Model → Prop) [∀ s m s' m', Decidable (P s m s' m')]
    (h : (analysisOfChars? options (Source.readChars text)).any fun (s, m) =>
      (analysisOfChars? options (Source.readChars text')).any fun (s', m') => P s m s' m') :
    ∃ s m s' m', setupOf? options text = some s ∧ modelOf s = .ok m ∧
      setupOf? options text' = some s' ∧ modelOf s' = .ok m' ∧ P s m s' m' := by
  obtain ⟨s, m, hs, hm, hother⟩ := exists_of_analysis? options text
    (fun s m => (analysisOfChars? options (Source.readChars text')).any
      (fun x => P s m x.1 x.2) = true) (by simpa using h)
  obtain ⟨s', m', hs', hm', hP⟩ := exists_of_analysis? options text' (P s m) hother
  exact ⟨s, m, s', m', hs, hm, hs', hm', hP⟩

/-- The same for something that is found in a source. -/
theorem exists_found? {α : Type} (options : Options) (text : String) (find : Setup → Option α)
    (P : Setup → Model → α → Prop) [∀ s m a, Decidable (P s m a)]
    (h : (analysisOfChars? options (Source.readChars text)).any fun (s, m) =>
      (find s).any fun a => P s m a) :
    ∃ s m a, setupOf? options text = some s ∧ modelOf s = .ok m ∧ find s = some a ∧ P s m a := by
  obtain ⟨s, m, hsetup, hmodel, hany⟩ := exists_of_analysis? options text
    (fun s m => (find s).any (fun a => P s m a) = true) (by simpa using h)
  obtain ⟨a, ha, hP⟩ := (Option.any_eq_true _ _).1 hany
  exact ⟨s, m, a, hsetup, hmodel, ha, of_decide_eq_true hP⟩

end Revue.Analysis
