import Revue.Proofs.AnalysisSlices
import Revue.Proofs.ItemNotes

/-!
# Items that read the same in two sources

Of a source the analysis reads nothing but the text at the nodes of an item, what follows a few of
them, and the comments beside members, beside statements and behind declarations. So two readings
that agree there make the same of an item, whatever else their sources hold and whatever other items
their modules have. The comments behind a declaration are only noted.
-/

namespace Revue.Analysis
open Text Syntax Component

variable {role : Role} {span : Span} {body : Tree} {members : List Tree}

/-- Two readings agree about a node: its text, as a whole and up to a type, the parenthesis behind
what is called, and what belongs to a member or a statement. -/
structure AgreesAt (r r' : Reading) (t : Tree) : Prop where
  text : r.text t.span = r'.text t.span
  untyped : r.text (untypedSpan t) = r'.text (untypedSpan t)
  paren : t.role = .callee → afterParen? r.source t.span.stop = afterParen? r'.source t.span.stop
  member : t.role = .member → memberText r t.span = memberText r' t.span
  leading : t.role = .member → r.leadingComments t.span.start = r'.leadingComments t.span.start
  trailing : t.role = .statement → r.trailingComments t.span.stop = r'.trailingComments t.span.stop

def Agrees (r r' : Reading) (t : Tree) : Prop := ∀ u ∈ t.subtrees, AgreesAt r r' u

-- Texts are compared character by character: the kernel is slow at comparing computed strings.
instance (r r' : Reading) (t : Tree) : Decidable (AgreesAt r r' t) :=
  decidable_of_iff
    ((r.text t.span).toList = (r'.text t.span).toList ∧
      (r.text (untypedSpan t)).toList = (r'.text (untypedSpan t)).toList ∧
      (t.role = .callee →
        afterParen? r.source t.span.stop = afterParen? r'.source t.span.stop) ∧
      (t.role = .member → (memberText r t.span).toList = (memberText r' t.span).toList) ∧
      (t.role = .member → (r.leadingComments t.span.start).map String.toList =
        (r'.leadingComments t.span.start).map String.toList) ∧
      (t.role = .statement → (r.trailingComments t.span.stop).map String.toList =
        (r'.trailingComments t.span.stop).map String.toList))
    (by
      have hmap : Function.Injective (List.map String.toList) :=
        List.map_injective_iff.2 fun _ _ h => String.toList_injective h
      simp only [String.toList_inj, hmap.eq_iff]
      exact ⟨fun ⟨text, untyped, paren, member, leading, trailing⟩ =>
        ⟨text, untyped, paren, member, leading, trailing⟩,
        fun h => ⟨h.text, h.untyped, h.paren, h.member, h.leading, h.trailing⟩⟩)

instance (r r' : Reading) (t : Tree) : Decidable (Agrees r r' t) :=
  inferInstanceAs (Decidable (∀ u ∈ t.subtrees, AgreesAt r r' u))

section
variable {r r' : Reading} {t u : Tree}

theorem Agrees.at (h : Agrees r r' t) : AgreesAt r r' t := h t t.mem_subtrees_self

theorem Agrees.of_mem (h : Agrees r r' t) (hu : u ∈ t.subtrees) : Agrees r r' u :=
  fun v hv => h v (Tree.mem_subtrees_trans hu hv)

theorem Agrees.get? (h : Agrees r r' t) (hu : t.get? role = some u) : Agrees r r' u :=
  h.of_mem (Tree.mem_subtrees_of_get? hu)

theorem Agrees.all (h : Agrees r r' t) (hu : u ∈ t.all role) : Agrees r r' u :=
  h.of_mem (Tree.mem_subtrees_of_all hu)

theorem AgreesAt.withTrailing (h : AgreesAt r r' t) (hrole : t.role = .statement) (text : String) :
    r.withTrailing text t.span.stop = r'.withTrailing text t.span.stop := by
  rw [Reading.withTrailing, Reading.withTrailing, h.trailing hrole]

/-! ### Fragments -/

section
variable (h : Agrees r r' t) (setting : Setting)
include h setting

theorem step_congr : step r.source setting t = step r'.source setting t := by
  have hcall : classCall r.source t = classCall r'.source t := by
    unfold classCall
    cases hcallee : t.get? .callee with
    | none => rfl
    | some callee =>
      dsimp only
      rw [(h.get? hcallee).at.paren (Tree.mem_parts_of_get? hcallee).2]
  unfold step
  rw [hcall]

theorem findings_congr : findings r.source setting t = findings r'.source setting t := by
  induction t using Tree.induction with
  | h role kind span parts ih =>
    have hparts : ∀ visits, findingsIn r.source setting visits parts =
        findingsIn r'.source setting visits parts := by
      intro visits
      have hmem : ∀ p ∈ parts, findings r.source setting p = findings r'.source setting p :=
        fun p hp => ih p hp (h.of_mem (Tree.mem_subtrees_of_part hp p.mem_subtrees_self))
      clear ih h
      induction parts with
      | nil => rfl
      | cons p parts ihparts =>
        obtain ⟨hp, hrest⟩ := List.forall_mem_cons.1 hmem
        rw [findingsIn, findingsIn, hp, ihparts hrest]
    rw [findings, findings, step_congr h, hparts]

theorem fragmentOf_congr : fragmentOf r setting t = fragmentOf r' setting t := by
  rw [fragmentOf, fragmentOf, h.at.text, findings_congr h]

theorem updatersOf_congr : updatersOf r setting t = updatersOf r' setting t := by
  rw [updatersOf, updatersOf, findings_congr h]

end

theorem map_text_congr {ts : List Tree} (h : ∀ p ∈ ts, Agrees r r' p) :
    ts.map (fun p => r.text p.span) = ts.map fun p => r'.text p.span :=
  List.map_congr_left fun p hp => (h p hp).at.text

/-! ### Classes -/

theorem addStatement_congr (h : Agrees r r' t) (hrole : t.role = .statement) (setting : Setting)
    (d : ClassDraft) :
    addStatement r setting d t = addStatement r' setting d t := by
  unfold addStatement
  cases hvalue : (statementExpr? t).bind stateAssignment? with
  | none => simp only [fragmentOf_congr h, updatersOf_congr h, h.at.withTrailing hrole]
  | some value =>
    have hagrees := h.of_mem (mem_subtrees_of_stateAssignment? hvalue)
    simp only [fragmentOf_congr hagrees, updatersOf_congr hagrees]

theorem addConstructor_congr (h : Agrees r r' t) (d : ClassDraft) :
    addConstructor r d t = addConstructor r' d t := by
  unfold addConstructor
  cases hbody : t.get? .body with
  | none => rfl
  | some body =>
    exact List.foldl_ext _ _ d fun d p hp =>
      addStatement_congr ((h.get? hbody).all hp) (Tree.mem_all.1 hp).2 _ d

theorem methodBody_congr (h : Agrees r r' body) : methodBody r body = methodBody r' body := by
  unfold methodBody
  cases hvalue : conciseBody? body with
  | none => exact fragmentOf_congr h _
  | some value =>
    dsimp only
    rw [fragmentOf_congr (h.of_mem (mem_subtrees_of_conciseBody? hvalue))]

theorem bodyUpdaters_congr (h : Agrees r r' body) : bodyUpdaters r body = bodyUpdaters r' body := by
  unfold bodyUpdaters
  cases hvalue : conciseBody? body with
  | none => exact updatersOf_congr h _
  | some value => exact updatersOf_congr (h.of_mem (mem_subtrees_of_conciseBody? hvalue)) _

theorem addMember_congr (h : Agrees r r' t) (hrole : t.role = .member) (hbody : Agrees r r' body)
    (d : ClassDraft) (name : String) (role : MemberRole) (flags : FunctionFlags) :
    addMember r d t body name role flags = addMember r' d t body name role flags := by
  have hparams : paramsText r t = paramsText r' t := by
    rw [paramsText, paramsText, map_text_congr fun p hp => h.all hp]
  rw [addMember, addMember, bodyUpdaters_congr hbody, methodBody_congr hbody, hparams,
    h.at.leading hrole]

theorem addMethod_congr (h : Agrees r r' t) (hrole : t.role = .member) (d : ClassDraft)
    (sort : MethodSort) (isStatic : Bool) (flags : FunctionFlags) :
    addMethod r d t sort isStatic flags = addMethod r' d t sort isStatic flags := by
  unfold addMethod
  cases (t.get? .key).bind keyName? with
  | none => rfl
  | some name =>
    cases hbody : t.get? .body with
    | none => rfl
    | some body =>
      dsimp only
      unfold addNamedMethod
      simp only [addMember_congr h hrole (h.get? hbody)]

theorem recordStatic?_congr {value : Tree} (h : Agrees r r' value) (m : Model) (component : String)
    (field : StaticField) :
    recordStatic? r m component field value = recordStatic? r' m component field value := by
  have hdefault : ∀ u ∈ value.withoutParens.parts, defaultValue? r u = defaultValue? r' u := by
    intro u hu
    have hagrees : Agrees r r' u := (h.of_mem value.withoutParens_mem_subtrees).of_mem
      (Tree.mem_subtrees_of_part hu u.mem_subtrees_self)
    unfold defaultValue?
    cases hvalue : u.get? .value with
    | none => rfl
    | some v => simp only [Option.bind_eq_bind, Option.bind_some, (hagrees.get? hvalue).at.text]
  have hvalues : defaultValues r value.withoutParens = defaultValues r' value.withoutParens := by
    rw [defaultValues, defaultValues, List.filterMap_congr hdefault]
  unfold recordStatic? recordDefaults
  dsimp only
  rw [hvalues]

theorem addField_congr (h : Agrees r r' t) (component : String) (d : ClassDraft) (isStatic : Bool) :
    addField r component d t isStatic = addField r' component d t isStatic := by
  unfold addField
  cases (t.get? .key).bind keyName? with
  | none => rfl
  | some name =>
    cases hvalue : t.get? .value with
    | none => rfl
    | some value =>
      have hagrees := h.get? hvalue
      dsimp only
      unfold addStaticField addInstanceField
      simp only [fragmentOf_congr hagrees, updatersOf_congr hagrees, recordStatic?_congr hagrees]

theorem addClassMember_congr (h : Agrees r r' t) (hrole : t.role = .member) (component : String)
    (d : ClassDraft) :
    addClassMember r component d t = addClassMember r' component d t := by
  unfold addClassMember
  simp only [addConstructor_congr h, addMethod_congr h hrole, addField_congr h]

theorem addClass_congr (h : Agrees r r' t) (m : Model) (name : String) (isNested : Bool) :
    addClass r m name t isNested = addClass r' m name t isNested := by
  have hmembers : ∀ d : ClassDraft, (t.all .member).foldl (addClassMember r name) d =
      (t.all .member).foldl (addClassMember r' name) d := fun d =>
    List.foldl_ext _ _ d fun d p hp =>
      addClassMember_congr (h.all hp) (Tree.mem_all.1 hp).2 name d
  unfold addClass
  dsimp only
  rw [hmembers]

/-! ### Functions -/

theorem patternText?_congr (h : Agrees r r' t) : patternText? r t = patternText? r' t := by
  fun_induction patternText? r t with
  | case1 role span left rest ih =>
    rw [patternText?]
    exact ih (h.of_mem (Tree.mem_subtrees_of_part List.mem_cons_self left.mem_subtrees_self))
  | case2 t hdefault text hkind =>
    rw [patternText?.eq_2 _ _ hdefault, hkind]
  | case3 t hdefault hkind stop trimmed bare =>
    have htext : ∀ r : Reading, r.text ⟨t.span.start, stop⟩ = r.text (untypedSpan t) := by
      intro r
      unfold untypedSpan
      dsimp only [stop]
      cases t.get? .type with
      | none => rfl
      | some type => rw [text_max]
    rw [patternText?.eq_2 _ _ hdefault, hkind]
    dsimp only [bare, trimmed]
    rw [htext r, h.at.untyped, ← htext r']
  | case4 t hdefault hname hobject =>
    rw [patternText?.eq_2 _ _ hdefault]
    split
    · exact absurd ‹_› (hname _)
    · exact absurd ‹_› hobject
    · rfl

theorem functionalComponent_congr {params : List Tree} (h : ∀ p ∈ params, Agrees r r' p)
    (hspan : r.text span = r'.text span) (name : String) (body : Body) (origin : Origin)
    (isAsync : Bool) :
    functionalComponent r name params body origin isAsync span =
      functionalComponent r' name params body origin isAsync span := by
  have hbinding : params.head?.bind (patternText? r) = params.head?.bind (patternText? r') := by
    cases params with
    | nil => rfl
    | cons p params => exact patternText?_congr (h p List.mem_cons_self)
  rw [functionalComponent, functionalComponent, map_text_congr h, hbinding, hspan]

theorem componentOfFunction?_congr (h : Agrees r r' t) (hspan : r.text span = r'.text span)
    (name : String) :
    componentOfFunction? r name t span = componentOfFunction? r' name t span := by
  have hparams : ∀ p ∈ (t.all .param).filterMap parameterPattern?, Agrees r r' p := by
    intro p hp
    obtain ⟨q, hq, hpattern⟩ := List.mem_filterMap.1 hp
    have hagrees := h.all hq
    unfold parameterPattern? at hpattern
    split at hpattern
    · exact hagrees.get? hpattern
    · exact hagrees.get? hpattern
    · obtain rfl := Option.some.inj hpattern
      exact hagrees
  unfold componentOfFunction?
  cases hbody : t.get? .body with
  | none => rfl
  | some body =>
    dsimp only [Option.map_some]
    rw [fragmentOf_congr (h.get? hbody), functionalComponent_congr hparams hspan]

theorem componentOfArrow_congr (h : Agrees r r' t) (hspan : r.text span = r'.text span)
    (name : String) (isAsync : Bool) :
    componentOfArrow r name t isAsync span = componentOfArrow r' name t isAsync span := by
  have hbody : Agrees r r' ((t.get? .body).getD t) := h.of_mem (t.getD_get?_mem_subtrees .body)
  unfold componentOfArrow
  dsimp only
  rw [fragmentOf_congr hbody, functionalComponent_congr (fun p hp => h.all hp) hspan]

end

/-! ### Items -/

section Items
variable {s s' : Setup} {t u : Tree}

structure SameSetting (s s' : Setup) : Prop where
  correlations : s.correlations = s'.correlations
  reader : s.reader = s'.reader

theorem addUntransferred_congr (h : AgreesAt s.reading s'.reading t) (d : Draft) :
    d.addUntransferred s.reading t.span = d.addUntransferred s'.reading t.span := by
  rw [Draft.addUntransferred, Draft.addUntransferred, h.text]

theorem addVariables_congr (h : Agrees s.reading s'.reading u)
    (ht : AgreesAt s.reading s'.reading t) (d : Draft) :
    (d.addVariables s.reading u t.span).bare = (d.addVariables s'.reading u t.span).bare := by
  unfold Draft.addVariables
  split
  · rename_i declarator hdeclarators
    have hdeclarator : declarator ∈ u.subtrees :=
      Tree.mem_subtrees_of_all (r := .declarator) (by rw [hdeclarators]; exact List.mem_cons_self)
    split
    · rename_i name arrow isAsync harrow
      obtain ⟨value, hvalue, rfl, -⟩ := arrowDeclarator?_eq_some harrow
      have hagrees := ((h.of_mem hdeclarator).get? hvalue).of_mem value.withoutParens_mem_subtrees
      rw [componentOfArrow_congr hagrees ht.text]
    · rfl
  · rfl

theorem role_of_contractMembers? {name : String} (h : contractMembers? t = some (name, members)) :
    ∀ p ∈ members, p.role = .member := by
  obtain ⟨v, -, rfl⟩ := eq_all_of_contractMembers? h
  exact fun p hp => (Tree.mem_all.1 hp).2

theorem typedProps_congr (hs : SameSetting s s')
    (h : ∀ p ∈ members, Agrees s.reading s'.reading p) (hrole : ∀ p ∈ members, p.role = .member)
    (component : String) :
    typedProps s.reading s.reader component members =
      typedProps s'.reading s'.reader component members := by
  have hprop : ∀ p ∈ members,
      memberProp? s.reading s.reader p = memberProp? s'.reading s'.reader p := by
    intro p hp
    rw [memberProp?, memberProp?, hs.reader, (h p hp).at.member (hrole p hp)]
  unfold typedProps
  apply List.foldl_ext
  intro ps p hp
  rw [hprop p hp]

theorem addType_congr (hs : SameSetting s s') (h : Agrees s.reading s'.reading u) (d : Draft)
    (span : Span) : (d.addType s u span).bare = (d.addType s' u span).bare := by
  unfold Draft.addType
  rw [hs.correlations]
  cases hmembers : contractMembers? u with
  | none => rfl
  | some contract =>
    obtain ⟨name, members⟩ := contract
    have hagrees : ∀ p ∈ members, Agrees s.reading s'.reading p := fun p hp =>
      h.of_mem (mem_subtrees_of_contractMembers? hmembers p hp)
    have hcontract : Draft.addContract s members span = Draft.addContract s' members span := by
      funext d component
      rw [Draft.addContract, Draft.addContract,
        typedProps_congr hs hagrees (role_of_contractMembers? hmembers)]
    dsimp only
    cases componentsFor s'.correlations name with
    | nil => rfl
    | cons component components =>
      rw [List.map_cons]
      dsimp only
      rw [hcontract]

theorem text_declared (h : Agrees s.reading s'.reading t) (hends : EndsWithDeclaration t)
    (hkind : t.kind = .exportDefaultDeclaration) :
    s.reading.text ⟨((t.get? .declaration).getD t).span.start, t.span.stop⟩ =
      s'.reading.text ⟨((t.get? .declaration).getD t).span.start, t.span.stop⟩ := by
  cases hdeclaration : t.get? .declaration with
  | none => exact h.at.text
  | some u =>
    have hstop : u.span.stop = t.span.stop :=
      hends hkind u (Tree.mem_parts_of_get? hdeclaration).1
    rw [← hstop]
    exact (h.get? hdeclaration).at.text

theorem addExpression_congr (h : Agrees s.reading s'.reading t) (d : Draft) :
    d.addExpression s.reading t = d.addExpression s'.reading t := by
  unfold Draft.addExpression
  cases hoperand : t.get? .operand with
  | none => exact addUntransferred_congr h.at d
  | some e =>
    cases hassign : staticAssignment? e with
    | none => simp only [Option.bind_some, hassign, Option.bind_none, addUntransferred_congr h.at]
    | some assignment =>
      obtain ⟨component, field, value⟩ := assignment
      have hvalue : Agrees s.reading s'.reading value := (h.get? hoperand).of_mem
        (Tree.mem_subtrees_of_part (mem_parts_of_staticAssignment? hassign)
          value.mem_subtrees_self)
      simp only [Option.bind_some, hassign, recordStatic?_congr hvalue, addUntransferred_congr h.at]

theorem addTopDeclaration_congr (hs : SameSetting s s') (h : Agrees s.reading s'.reading u)
    (ht : AgreesAt s.reading s'.reading t) (d : Draft) :
    SameButNotes (d.addTopDeclaration s u t.span) (d.addTopDeclaration s' u t.span) := by
  unfold Draft.addTopDeclaration Draft.addTopClass
  rw [componentOfFunction?_congr h ht.text, addClass_congr h]
  split
  case h_3 => exact congrArg Except.ok (addVariables_congr h ht d)
  case h_4 => exact congrArg Except.ok (addType_congr hs h d t.span)
  case h_5 => exact congrArg Except.ok (addType_congr hs h d t.span)
  all_goals rfl

/-- Two readings that agree about an item make the same of it, but for the notes. -/
theorem addItem_congr (hs : SameSetting s s') (h : Agrees s.reading s'.reading t)
    (hends : EndsWithDeclaration t) (d : Draft) :
    SameButNotes (d.addItem s t) (d.addItem s' t) := by
  have hdeclaration : Agrees s.reading s'.reading ((t.get? .declaration).getD t) :=
    h.of_mem (t.getD_get?_mem_subtrees .declaration)
  have hvalue : Agrees s.reading s'.reading ((t.get? .value).getD t) :=
    h.of_mem (t.getD_get?_mem_subtrees .value)
  unfold Draft.addItem
  dsimp only
  split
  case h_1 =>
    rw [Draft.addImport, Draft.addImport, h.at.text]
    rfl
  case h_2 => exact addTopDeclaration_congr hs hdeclaration h.at d
  case h_3 hkind =>
    unfold Draft.addDefaultDeclaration Draft.addTopClass
    simp only [componentOfFunction?_congr hdeclaration (text_declared h hends hkind),
      addClass_congr hdeclaration]
    split
    case h_3 => exact congrArg Except.ok (addType_congr hs hdeclaration d t.span)
    all_goals rfl
  case h_4 =>
    have hinner := hvalue.of_mem (Tree.withoutParens_mem_subtrees _)
    unfold Draft.addDefaultExpression
    simp only [componentOfArrow_congr hinner hinner.at.text]
    rfl
  case h_5 =>
    rw [addExpression_congr h]
    rfl
  case h_6 => rfl
  case h_15 =>
    rw [addUntransferred_congr h.at]
    rfl
  all_goals exact addTopDeclaration_congr hs h h.at d

theorem addNested_congr {r r' : Reading} {d : Draft}
    (hnested : d.nestedClasses r.module = d.nestedClasses r'.module)
    (h : ∀ t ∈ d.nestedClasses r'.module, Agrees r r' t) : d.addNested r = d.addNested r' := by
  unfold Draft.addNested
  dsimp only
  rw [hnested]
  split
  · rename_i first rest htop hcons
    have hfirst : Agrees r r' first := h first (by rw [hcons]; exact List.mem_cons_self)
    simp only [addClass_congr hfirst]
  · rfl

end Items

end Revue.Analysis
