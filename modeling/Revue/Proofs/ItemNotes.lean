import Revue.Proofs.ItemSteps

/-!
# What the walk through a module only notes

Two fields of a model are written on the walk and never read: the name of the default export and the
declarations that are kept as they stand. So each item does the same whatever these notes hold. It
adds its own to them, which depend on nothing but the item.
-/

namespace Revue.Analysis
open Text Syntax Component

def withNotes (x : Option String) (l : List String) (m : Model) : Model :=
  { m with exportName := x, declarations := l }

def ClassDraft.withNotes (x : Option String) (l : List String) (d : ClassDraft) : ClassDraft :=
  { d with model := Analysis.withNotes x l d.model }

def Draft.withNotes (x : Option String) (l : List String) (d : Draft) : Draft :=
  d.update (Analysis.withNotes x l)

/-! ### Classes -/

section Classes
variable (x : Option String) (l : List String) (r : Reading)

theorem recordPropTypes_withNotes (m : Model) (component : String) (object : Tree) :
    recordPropTypes (withNotes x l m) component object =
      withNotes x l (recordPropTypes m component object) := by
  unfold recordPropTypes
  dsimp only [withNotes]
  split <;> rfl

theorem recordStatic?_withNotes (m : Model) (component : String) (field : StaticField)
    (value : Tree) :
    recordStatic? r (withNotes x l m) component field value =
      (recordStatic? r m component field value).map (withNotes x l) := by
  unfold recordStatic?
  dsimp only
  split
  · rw [recordPropTypes_withNotes]
    rfl
  · rfl
  · rfl
  · rfl

theorem addStatement_withNotes (setting : Setting) (d : ClassDraft) (t : Tree) :
    addStatement r setting (d.withNotes x l) t = (addStatement r setting d t).withNotes x l := by
  unfold addStatement
  split
  · rfl
  · split <;> rfl

theorem addConstructor_withNotes (d : ClassDraft) (t : Tree) :
    addConstructor r (d.withNotes x l) t = (addConstructor r d t).withNotes x l := by
  unfold addConstructor
  split
  · exact List.foldl_hom (ClassDraft.withNotes x l) fun d t => addStatement_withNotes x l r _ d t
  · rfl

theorem addMethod_withNotes (d : ClassDraft) (t : Tree) (sort : MethodSort) (isStatic : Bool)
    (flags : FunctionFlags) :
    addMethod r (d.withNotes x l) t sort isStatic flags =
      (addMethod r d t sort isStatic flags).withNotes x l := by
  unfold addMethod
  split
  · rfl
  · rfl
  · unfold addNamedMethod
    split
    · rfl
    · split
      · rfl
      · rfl
      · dsimp only
        split <;> rfl

theorem addField_withNotes (component : String) (d : ClassDraft) (t : Tree) (isStatic : Bool) :
    addField r component (d.withNotes x l) t isStatic =
      (addField r component d t isStatic).withNotes x l := by
  unfold addField
  split
  · rfl
  · rfl
  · split
    · unfold addStaticField
      dsimp only [ClassDraft.withNotes]
      cases StaticField.ofName? ‹_› with
      | none => rfl
      | some field =>
        dsimp only [Option.bind_some]
        rw [recordStatic?_withNotes]
        cases recordStatic? r d.model component field ‹_› <;> rfl
    · unfold addInstanceField
      dsimp only
      split <;> rfl

theorem addClassMember_withNotes (component : String) (d : ClassDraft) (t : Tree) :
    addClassMember r component (d.withNotes x l) t =
      (addClassMember r component d t).withNotes x l := by
  unfold addClassMember
  split
  · exact addConstructor_withNotes x l r d t
  · rfl
  · rfl
  · rfl
  · rfl
  · exact addMethod_withNotes x l r d t _ _ _
  · exact addField_withNotes x l r component d t _
  · rfl

theorem noted_withNotes (m : Model) (t : Tree) (isNested : Bool) :
    noted (withNotes x l m) t isNested = withNotes x l (noted m t isNested) := by
  unfold noted
  cases isNested <;> cases t.get? .decorator <;> rfl

theorem addClass_withNotes (m : Model) (name : String) (t : Tree) (isNested : Bool) :
    addClass r (withNotes x l m) name t isNested =
      withNotes x l (addClass r m name t isNested) := by
  have hmembers : ∀ d : ClassDraft,
      (t.all .member).foldl (addClassMember r name) (d.withNotes x l) =
        ((t.all .member).foldl (addClassMember r name) d).withNotes x l := fun d =>
    List.foldl_hom (ClassDraft.withNotes x l) fun d t => addClassMember_withNotes x l r name d t
  have hdraft : draftOf r (withNotes x l m) name t isNested =
      (draftOf r m name t isNested).withNotes x l := by
    rw [draftOf, noted_withNotes]
    exact hmembers { model := noted m t isNested }
  rw [addClass_eq, addClass_eq, hdraft]
  rfl

end Classes

/-! ### Items -/

def keptText (r : Reading) (span : Span) : String := r.withTrailing (r.text span) span.stop

def keepsType (cs : List Correlation) (t : Tree) : Bool :=
  match contractMembers? t with
  | some (name, _) => (componentsFor cs name).isEmpty
  | none => true

def keepsVariables (t : Tree) : Bool :=
  match t.all .declarator with
  | [declarator] => (arrowDeclarator? declarator).isNone
  | _ => true

def keepsDeclaration (cs : List Correlation) (t : Tree) : Bool :=
  match t.kind with
  | .classDef | .function _ => false
  | .variables _ => keepsVariables t
  | .interfaceDef | .aliasDef => keepsType cs t
  | _ => true

def keepsItem (cs : List Correlation) (t : Tree) : Bool :=
  match t.kind with
  | .exportDeclaration => keepsDeclaration cs (itemDeclaration t)
  | .exportDefaultDeclaration =>
    match (itemDeclaration t).kind with
    | .classDef | .function _ => false
    | _ => keepsType cs (itemDeclaration t)
  | .classDef | .function _ | .variables _ | .usingVariables | .interfaceDef | .aliasDef | .enumDef
  | .namespaceDef => keepsDeclaration cs t
  | _ => false

def keptIf (keeps : Bool) (r : Reading) (span : Span) : List String :=
  if keeps then [keptText r span] else []

theorem append_keptIf_false (l : List String) (r : Reading) (span : Span) :
    l ++ keptIf false r span = l :=
  List.append_nil l

def keptOf (s : Setup) (t : Tree) : List String :=
  keptIf (keepsItem s.correlations t) s.reading t.span

theorem flatMap_keptOf (s : Setup) (ts : List Tree) :
    ts.flatMap (keptOf s) =
      (ts.filter (keepsItem s.correlations)).map fun t => keptText s.reading t.span := by
  induction ts with
  | nil => rfl
  | cons t ts ih =>
    rw [List.flatMap_cons, ih, keptOf, keptIf, List.filter_cons]
    split <;> rfl

section Items
variable (x : Option String) (l : List String) (s : Setup) (d : Draft) (t : Tree) (span : Span)

theorem addType_withNotes :
    (d.withNotes x l).addType s t span =
      (d.addType s t span).withNotes x
        (l ++ keptIf (keepsType s.correlations t) s.reading span) := by
  unfold Draft.addType keepsType
  cases contractMembers? t with
  | none => rfl
  | some contract =>
    obtain ⟨name, members⟩ := contract
    cases hcomponents : componentsFor s.correlations name with
    | nil =>
      simp only [hcomponents]
      rfl
    | cons component components =>
      simp only [hcomponents, List.map_cons, List.isEmpty_cons, append_keptIf_false]
      refine List.foldl_hom (Draft.withNotes x l) fun d component => ?_
      unfold Draft.addContract Draft.withNotes Draft.update withNotes
      dsimp only
      split <;> rfl

theorem addVariables_withNotes (r : Reading) :
    (d.withNotes x l).addVariables r t span =
      (d.addVariables r t span).withNotes x
        (l ++ keptIf (keepsVariables t) r span) := by
  unfold Draft.addVariables
  split
  · rename_i declarator hdeclarators
    have hkeeps : keepsVariables t = (arrowDeclarator? declarator).isNone := by
      rw [keepsVariables, hdeclarators]
    rw [hkeeps]
    cases arrowDeclarator? declarator with
    | none => rfl
    | some arrow =>
      rw [Option.isNone_some, append_keptIf_false]
      rfl
  · rename_i hmany
    have hkeeps : keepsVariables t = true := by
      unfold keepsVariables
      split
      · exact absurd ‹_› (hmany _)
      · rfl
    rw [hkeeps]
    rfl

theorem addTopClass_withNotes (r : Reading) (name : String) :
    (d.withNotes x l).addTopClass r name t = (d.addTopClass r name t).map (·.withNotes x l) := by
  have htop : (d.withNotes x l).topClass = d.topClass := rfl
  unfold Draft.addTopClass
  rw [htop]
  cases d.topClass with
  | some first => rfl
  | none =>
    have hclass := addClass_withNotes x l r d.model name t false
    dsimp only
    exact congrArg (fun m => Except.ok (ε := Failure) (Draft.mk m (some (name, t.span)))) hclass

theorem addTopDeclaration_withNotes :
    (d.withNotes x l).addTopDeclaration s t span =
      (d.addTopDeclaration s t span).map (·.withNotes x
        (l ++ keptIf (keepsDeclaration s.correlations t) s.reading span)) := by
  unfold Draft.addTopDeclaration
  split
  case h_1 hkind =>
    simp only [keepsDeclaration, hkind, append_keptIf_false]
    exact addTopClass_withNotes x l d t s.reading _
  case h_2 hkind =>
    simp only [keepsDeclaration, hkind, append_keptIf_false]
    split <;> rfl
  case h_3 hkind =>
    simp only [keepsDeclaration, hkind]
    exact congrArg _ (addVariables_withNotes x l d t span s.reading)
  case h_4 hkind =>
    simp only [keepsDeclaration, hkind]
    exact congrArg _ (addType_withNotes x l s d t span)
  case h_5 hkind =>
    simp only [keepsDeclaration, hkind]
    exact congrArg _ (addType_withNotes x l s d t span)
  case h_6 =>
    simp only [keepsDeclaration]
    rfl

theorem addDefaultDeclaration_withNotes (hkind : t.kind = .exportDefaultDeclaration) :
    (d.withNotes x l).addDefaultDeclaration s (itemDeclaration t) t.span =
      (d.addDefaultDeclaration s (itemDeclaration t) t.span).map
        (·.withNotes ((exportOf? t).or x) (l ++ keptOf s t)) := by
  unfold Draft.addDefaultDeclaration
  split
  case h_1 hclass =>
    simp only [keptOf, keepsItem, exportOf?, hkind, hclass, append_keptIf_false, Option.some_or]
    exact addTopClass_withNotes (some _) l (d.setExport _) (itemDeclaration t) s.reading _
  case h_2 hfunction =>
    simp only [keptOf, keepsItem, exportOf?, hkind, hfunction, append_keptIf_false, Option.some_or]
    split <;> rfl
  case h_3 =>
    simp only [keptOf, keepsItem, exportOf?, hkind, Option.none_or]
    exact congrArg Except.ok (addType_withNotes x l s d _ _)

theorem addDefaultExpression_withNotes (hkind : t.kind = .exportDefaultExpression) :
    (d.withNotes x l).addDefaultExpression s.reading ((t.get? .value).getD t) t.span =
      (d.addDefaultExpression s.reading ((t.get? .value).getD t) t.span).withNotes
        ((exportOf? t).or x) (l ++ keptOf s t) := by
  have hkept : l ++ keptOf s t = l := by
    simp only [keptOf, keepsItem, hkind, append_keptIf_false]
  rw [hkept]
  unfold Draft.addDefaultExpression
  dsimp only
  split
  · rename_i text hname
    have hexport : exportOf? t = some text := by simp only [exportOf?, exportedValue, hkind, hname]
    rw [hexport]
    rfl
  · rename_i isAsync harrow
    have hexport : exportOf? t = some anonymous := by
      simp only [exportOf?, exportedValue, hkind, harrow]
    rw [hexport]
    rfl
  · rename_i hname harrow
    have hexport : exportOf? t = none := by simp only [exportOf?, exportedValue, hkind]
    rw [hexport]
    rfl

theorem addExpression_withNotes (r : Reading) :
    (d.withNotes x l).addExpression r t = (d.addExpression r t).withNotes x l := by
  unfold Draft.addExpression
  cases t.get? .operand with
  | none => rfl
  | some e =>
    dsimp only [Option.bind_some]
    cases staticAssignment? e with
    | none => rfl
    | some assignment =>
      have hstatic := recordStatic?_withNotes x l r d.model assignment.1 assignment.2.1
        assignment.2.2
      dsimp only [Option.bind_some]
      rw [show (d.withNotes x l).model = withNotes x l d.model from rfl, hstatic]
      cases recordStatic? r d.model assignment.1 assignment.2.1 assignment.2.2 <;> rfl

/-- An item does the same whatever was noted before, and adds its own notes. -/
theorem addItem_withNotes :
    (d.withNotes x l).addItem s t =
      (d.addItem s t).map (·.withNotes ((exportOf? t).or x) (l ++ keptOf s t)) := by
  unfold Draft.addItem
  dsimp only
  split
  case h_1 hkind =>
    rw [addImport_eq, addImport_eq]
    simp only [keptOf, keepsItem, exportOf?, hkind, append_keptIf_false, Option.none_or]
    split <;> rfl
  case h_2 hkind =>
    simp only [keptOf, keepsItem, exportOf?, hkind, itemDeclaration_of_export (.inl hkind),
      Option.none_or]
    exact addTopDeclaration_withNotes x l s d _ _
  case h_3 hkind =>
    rw [← itemDeclaration_of_export (.inr hkind)]
    exact addDefaultDeclaration_withNotes x l s d t hkind
  case h_4 hkind =>
    exact congrArg Except.ok (addDefaultExpression_withNotes x l s d t hkind)
  case h_5 hkind =>
    simp only [keptOf, keepsItem, exportOf?, hkind, append_keptIf_false, Option.none_or]
    exact congrArg Except.ok (addExpression_withNotes x l d t s.reading)
  case h_6 hkind =>
    simp only [keptOf, keepsItem, exportOf?, hkind, append_keptIf_false, Option.none_or]
    rfl
  case h_15 =>
    simp only [keptOf, keepsItem, exportOf?, append_keptIf_false, Option.none_or]
    rfl
  all_goals
    rename_i hkind
    simp only [keptOf, keepsItem, exportOf?, hkind, Option.none_or]
    exact addTopDeclaration_withNotes x l s d _ _

theorem addNested_withNotes (r : Reading) :
    (d.withNotes x l).addNested r = (d.addNested r).withNotes x l := by
  have hnested : (d.withNotes x l).nestedClasses r.module = d.nestedClasses r.module := rfl
  have htop : (d.withNotes x l).topClass = d.topClass := rfl
  unfold Draft.addNested
  dsimp only
  rw [hnested, htop]
  split
  · rename_i first rest hnone hcons
    have hclass := addClass_withNotes x l r d.model (nameOrAnonymous first) first true
    unfold Draft.update Draft.withNotes Draft.update
    dsimp only
    rw [hclass]
    rfl
  · rfl

theorem addMissingValidation_withNotes (r : Reading) :
    (d.withNotes x l).addMissingValidation r = (d.addMissingValidation r).withNotes x l := by
  have hcontract : (d.withNotes x l).model.hasPropContract = d.model.hasPropContract := rfl
  unfold Draft.addMissingValidation
  rw [hcontract]
  split <;> rfl

end Items

/-! ### Drafts but for their notes -/

def Draft.bare (d : Draft) : Draft := d.withNotes none []

def SameButNotes (a b : Result) : Prop := a.map Draft.bare = b.map Draft.bare

section Bare
variable {a b : Result} {s : Setup} {d d' : Draft}

theorem SameButNotes.trans {c : Result} (h : SameButNotes a b) (h' : SameButNotes b c) :
    SameButNotes a c :=
  Eq.trans h h'

theorem SameButNotes.cases (h : SameButNotes a b) :
    (∃ f, a = .error f ∧ b = .error f) ∨ ∃ d d', a = .ok d ∧ b = .ok d' ∧ d.bare = d'.bare := by
  cases a with
  | error e =>
    cases b with
    | error e' => exact Or.inl ⟨e, rfl, congrArg Except.error (Except.error.inj h).symm⟩
    | ok d' => cases h
  | ok d =>
    cases b with
    | error e' => cases h
    | ok d' => exact Or.inr ⟨d, d', rfl, rfl, Except.ok.inj h⟩

theorem SameButNotes.bind {f g : Draft → Result} (h : SameButNotes a b)
    (hnext : ∀ d d' : Draft, d.bare = d'.bare → SameButNotes (f d) (g d')) :
    SameButNotes (a >>= f) (b >>= g) := by
  rcases h.cases with ⟨e, rfl, rfl⟩ | ⟨d, d', rfl, rfl, hd⟩
  · rfl
  · exact hnext d d' hd

/-- An item does the same to drafts that differ in nothing but the notes. -/
theorem addItem_sameButNotes (h : d.bare = d'.bare) (t : Tree) :
    SameButNotes (d.addItem s t) (d'.addItem s t) := by
  have hbare : ∀ d : Draft,
      (d.addItem s t).map Draft.bare = (d.bare.addItem s t).map Draft.bare := by
    intro d
    have hitem := addItem_withNotes none [] s d t
    rw [show d.bare = d.withNotes none [] from rfl, hitem]
    cases d.addItem s t <;> rfl
  rw [SameButNotes, hbare d, h, ← hbare d']

theorem notes_of_addItem {t : Tree} (h : d.addItem s t = .ok d') :
    d'.model.exportName = (exportOf? t).or d.model.exportName ∧
      d'.model.declarations = d.model.declarations ++ keptOf s t := by
  have hitem := addItem_withNotes d.model.exportName d.model.declarations s d t
  rw [show d.withNotes d.model.exportName d.model.declarations = d from rfl, h] at hitem
  have hd' := Except.ok.inj hitem
  exact ⟨congrArg (·.model.exportName) hd', congrArg (·.model.declarations) hd'⟩

def exportAfter (x : Option String) (ts : List Tree) : Option String :=
  ts.foldl (fun x t => (exportOf? t).or x) x

theorem exportAfter_cons (x : Option String) (t : Tree) (ts : List Tree) :
    exportAfter x (t :: ts) = exportAfter ((exportOf? t).or x) ts :=
  rfl

theorem exportAfter_append (x : Option String) (ts us : List Tree) :
    exportAfter x (ts ++ us) = exportAfter (exportAfter x ts) us :=
  List.foldl_append

theorem exportAfter_of_none {ts : List Tree} (h : ∀ t ∈ ts, exportOf? t = none)
    (x : Option String) : exportAfter x ts = x := by
  induction ts with
  | nil => rfl
  | cons t ts ih =>
    obtain ⟨ht, hrest⟩ := List.forall_mem_cons.1 h
    rw [exportAfter_cons, ht, Option.none_or, ih hrest]

theorem notes_of_walk {ts : List Tree} (h : ts.foldlM (Draft.addItem s) d = .ok d') :
    d'.model.exportName = exportAfter d.model.exportName ts ∧
      d'.model.declarations = d.model.declarations ++ ts.flatMap (keptOf s) := by
  induction ts generalizing d with
  | nil =>
    obtain rfl : d = d' := Except.ok.inj h
    simp [exportAfter]
  | cons t ts ih =>
    obtain ⟨d₁, hitem, hrest⟩ := walk_cons h
    obtain ⟨hname, htexts⟩ := notes_of_addItem hitem
    obtain ⟨hname', htexts'⟩ := ih hrest
    rw [hname', htexts', hname, htexts, List.flatMap_cons, List.append_assoc]
    exact ⟨rfl, rfl⟩

theorem notes_of_modelOf {m : Model} (h : modelOf s = .ok m) :
    m.exportName = exportAfter none s.reading.module.items ∧
      m.declarations = s.reading.module.items.flatMap (keptOf s) := by
  obtain ⟨d, hwalk, rfl⟩ := modelOf_walk h
  have hnested := addNested_withNotes d.model.exportName d.model.declarations d s.reading
  have hmissing := addMissingValidation_withNotes d.model.exportName d.model.declarations
    (d.addNested s.reading) s.reading
  rw [← hnested] at hmissing
  obtain ⟨hname, htexts⟩ := notes_of_walk hwalk
  exact ⟨(congrArg (·.model.exportName) hmissing).trans hname,
    (congrArg (·.model.declarations) hmissing).trans htexts⟩

end Bare

end Revue.Analysis
