import Revue.Proofs.ModelSlices

/-!
# The analysis cuts its model out of the source

The walk through the members of a class and the walk through the items of a module add to a model
nothing but what is cut out of the source. So a model has no text that is empty for want of a place
and no caveat without a line and a column, as long as the nodes and comments that were read lie in
the source.
-/

namespace Revue.Analysis
open Text Syntax Component

variable {body t value : Tree} {r : Reading} {f : Fragment}

/-! ### The walk through a class -/

theorem mem_subtrees_of_stateAssignment?
    (h : (statementExpr? t).bind stateAssignment? = some value) : value ∈ t.subtrees := by
  obtain ⟨e, he, hvalue⟩ := Option.bind_eq_some_iff.1 h
  have he' : e ∈ t.subtrees := by
    unfold statementExpr? at he
    split at he
    · exact Tree.mem_subtrees_of_get? he
    · cases he
  refine Tree.mem_subtrees_trans he' ?_
  have hpart : value ∈ e.parts := by
    unfold stateAssignment? at hvalue
    split at hvalue
    · split at hvalue
      · obtain rfl := Option.some.inj hvalue
        simp [Tree.parts]
      · cases hvalue
    · cases hvalue
  exact Tree.mem_subtrees_of_part hpart value.mem_subtrees_self

theorem mem_subtrees_of_conciseBody? (h : conciseBody? body = some value) :
    value ∈ body.subtrees := by
  unfold conciseBody? at h
  split at h
  · rename_i role span value' hstatements
    split at h
    · obtain rfl := Option.some.inj h
      have hreturn : (.node role .returnStatement span [value'] : Tree) ∈ body.subtrees :=
        Tree.mem_subtrees_of_all (r := .statement) (by rw [hstatements]; exact List.mem_cons_self)
      exact Tree.mem_subtrees_trans hreturn
        (Tree.mem_subtrees_of_part (p := value') (by simp [Tree.parts]) value'.mem_subtrees_self)
    · cases h
  · cases h

theorem bodyUpdaters_anchored (hr : r.InBounds) (hbody : body ∈ r.nodes) :
    ∀ s ∈ bodyUpdaters r body, Anchored r s := by
  unfold bodyUpdaters
  cases hconcise : conciseBody? body with
  | none => exact hr.updaters hbody _
  | some value =>
    exact hr.updaters (mem_nodes_trans hbody (mem_subtrees_of_conciseBody? hconcise)) _

theorem methodBody_cutout (hr : r.InBounds) (hbody : body ∈ r.nodes) :
    ∃ n ∈ r.nodes, Cutout r n.span [] [] (methodBody r body) ∨
      Cutout r n.span "\x7b return ".toList "; \x7d".toList (methodBody r body) := by
  unfold methodBody
  dsimp only
  split
  · rename_i value hconcise
    have hvalue := mem_nodes_trans hbody (mem_subtrees_of_conciseBody? hconcise)
    exact ⟨value, hvalue, .inr ((hr.fragment hvalue _).wrapped _ _)⟩
  · exact ⟨body, hbody, .inl (hr.fragment hbody _)⟩

structure DraftSliced (r : Reading) (d : ClassDraft) : Prop where
  model : Sliced r d.model
  state : ∀ f ∈ d.state, ∃ n ∈ r.nodes, Cutout r n.span [] [] f
  created : ∀ f ∈ d.created, CreatedSliced r f
  members : ∀ x ∈ d.members, ∃ t ∈ r.nodes, MemberSliced r t x

namespace DraftSliced
variable {r : Reading} {d : ClassDraft} {t : Tree}

section
variable (h : DraftSliced r d)
include h

theorem addCaveat {c : Caveat} {s : Span} (hspan : c.span? = some s) (hs : Anchored r s) :
    DraftSliced r (d.addCaveat c) :=
  { h with model := h.model.addCaveat hspan hs }

theorem addUpdaters {spans : List Span} (hspans : ∀ s ∈ spans, Anchored r s) :
    DraftSliced r (d.addUpdaters spans) := by
  refine { h with model := h.model.addCaveats ?_ }
  intro c hc s hs
  obtain ⟨span, hspan, rfl⟩ := List.mem_map.1 hc
  obtain rfl : span = s := Option.some.inj hs
  exact hspans span hspan

theorem setState (ht : t ∈ r.nodes) (hf : Cutout r t.span [] [] f) :
    DraftSliced r { d with state := some f } := by
  refine { h with state := ?_ }
  intro f' hf'
  obtain rfl := Option.some.inj hf'
  exact ⟨t, ht, hf⟩

theorem addCreated (hf : CreatedSliced r f) :
    DraftSliced r { d with created := d.created ++ [f] } := by
  refine { h with created := ?_ }
  intro f' hf'
  rcases List.mem_append.1 hf' with hf' | hf'
  · exact h.created f' hf'
  · obtain rfl := List.mem_singleton.1 hf'
    exact hf

end

variable (hr : r.InBounds) (h : DraftSliced r d) (ht : t ∈ r.nodes)
include hr h ht

theorem addStatement (setting : Setting) : DraftSliced r (addStatement r setting d t) := by
  unfold Analysis.addStatement
  split
  · exact h
  · split
    · rename_i value hvalue
      have hvalue' := mem_nodes_trans ht (mem_subtrees_of_stateAssignment? hvalue)
      exact (h.addUpdaters (hr.updaters hvalue' setting)).setState hvalue'
        (hr.fragment hvalue' setting)
    · refine (h.addUpdaters (hr.updaters ht setting)).addCreated ?_
      exact .statement ht (hr.trailingComments t.span.stop)
        ((hr.fragment ht setting).extended (toList_withTrailing r _ _))

theorem addConstructor : DraftSliced r (addConstructor r d t) := by
  unfold Analysis.addConstructor
  split
  · rename_i body hbody
    exact List.foldlRecOn _ _ h fun d hd u hu =>
      hd.addStatement hr (mem_nodes_of_all (mem_nodes_of_get? ht hbody) hu) _
  · exact h

theorem addMember (hbody : body ∈ r.nodes) (name : String) (role : MemberRole)
    (flags : FunctionFlags) : DraftSliced r (addMember r d t body name role flags) := by
  refine { h.addUpdaters (bodyUpdaters_anchored hr hbody) with members := ?_ }
  intro x hx
  rcases List.mem_append.1 hx with hx | hx
  · exact h.members x hx
  · obtain rfl := List.mem_singleton.1 hx
    have hparams : ∀ p ∈ t.all .param, p ∈ r.nodes := fun p hp => mem_nodes_of_all ht hp
    exact ⟨t, ht, ⟨_, hr.params hparams, rfl⟩, methodBody_cutout hr hbody,
      hr.leadingComments t.span.start⟩

theorem addNamedMethod (hbody : body ∈ r.nodes) (name : String) (sort : MethodSort)
    (isStatic : Bool) (flags : FunctionFlags) :
    DraftSliced r (addNamedMethod r d t body name sort isStatic flags) := by
  have hspan := hr.anchored ht
  unfold Analysis.addNamedMethod
  split
  · exact (h.addCaveat rfl hspan).addMember hr ht hbody name .static flags
  · split
    · exact h.addMember hr ht hbody name .getter flags
    · exact h.addCaveat rfl hspan
    · dsimp only
      split
      · exact (h.addCaveat rfl hspan).addMember hr ht hbody name _ flags
      · exact h.addMember hr ht hbody name _ flags

theorem addMethod (sort : MethodSort) (isStatic : Bool) (flags : FunctionFlags) :
    DraftSliced r (addMethod r d t sort isStatic flags) := by
  unfold Analysis.addMethod
  split
  · exact h.addCaveat rfl (hr.anchored ht)
  · exact h
  · rename_i name body _ hbody
    exact h.addNamedMethod hr ht (mem_nodes_of_get? ht hbody) name sort isStatic flags

theorem addStaticField (hvalue : value ∈ r.nodes) (component name : String) :
    DraftSliced r (addStaticField r component d t value name) := by
  unfold Analysis.addStaticField
  split
  · rename_i model hrecord
    obtain ⟨field, -, hrecord⟩ := Option.bind_eq_some_iff.1 hrecord
    exact { h with model := h.model.recordStatic? hr hvalue hrecord }
  · exact h.addCaveat rfl (hr.anchored ht)

theorem addInstanceField (name : String) : DraftSliced r (addInstanceField r d t name) := by
  have hupdated := h.addUpdaters (hr.updaters ht (.classMember none))
  have hvalue := hr.fragment ht (.classMember none)
  unfold Analysis.addInstanceField
  dsimp only
  split
  · exact hupdated.setState ht hvalue
  · exact hupdated.addCreated (.field ht (hvalue.wrapped _ _))

theorem addField (component : String) (isStatic : Bool) :
    DraftSliced r (addField r component d t isStatic) := by
  unfold Analysis.addField
  split
  · exact h.addCaveat rfl (hr.anchored ht)
  · exact h
  · rename_i name value _ hvalue
    have hvalue' := mem_nodes_of_get? ht hvalue
    split
    · exact h.addStaticField hr ht hvalue' component name
    · exact h.addInstanceField hr hvalue' name

theorem addClassMember (component : String) :
    DraftSliced r (addClassMember r component d t) := by
  have hspan := hr.anchored ht
  unfold Analysis.addClassMember
  split
  · exact h.addConstructor hr ht
  · exact h.addCaveat rfl hspan
  · exact h.addCaveat rfl hspan
  · exact h.addCaveat rfl hspan
  · exact h.addCaveat rfl hspan
  · exact h.addMethod hr ht _ _ _
  · exact h.addField hr ht component _
  · exact h

end DraftSliced

theorem Sliced.addClass {m : Model} (hr : r.InBounds) (h : Sliced r m) (ht : t ∈ r.nodes)
    (name : String) (isNested : Bool) :
    Sliced r (addClass r m name t isNested) := by
  have hnested : Sliced r (if isNested then m.addCaveat (.higherOrder t.span) else m) := by
    split
    · exact h.addCaveat rfl (hr.anchored ht)
    · exact h
  have hnoted : Sliced r (noted m t isNested) := by
    unfold noted
    dsimp only
    split
    · rename_i mark hmark
      exact hnested.addCaveat rfl (hr.anchored (mem_nodes_of_get? ht hmark))
    · exact hnested
  have hstart : DraftSliced r { model := noted m t isNested } :=
    ⟨hnoted, by simp, by simp, by simp⟩
  have hdraft : DraftSliced r (draftOf r m name t isNested) :=
    List.foldlRecOn _ _ hstart fun d hd u hu =>
      hd.addClassMember hr (mem_nodes_of_all ht hu) name
  rw [addClass_eq]
  refine { hdraft.model with classComponent := ?_ }
  intro c hc
  obtain rfl := Option.some.inj hc
  exact ⟨hr.anchored ht, hdraft.state, hdraft.created, hdraft.members⟩

/-! ### The walk through the items -/

section Items
variable {s : Setup} {d d' : Draft} {t : Tree}

theorem declaredSpan_within (hr : r.InBounds) (ht : t ∈ r.module.items) :
    (declaredSpan t).Within r.source := by
  have hself := hr.nodes t (mem_nodes_of_item ht)
  unfold declaredSpan
  split
  · rename_i hdefault
    have hkind : t.kind = .exportDefaultDeclaration := by simpa [isDefault] using hdefault
    rw [itemDeclaration_of_export (.inr hkind)]
    cases hget : t.get? .declaration with
    | none => exact hself
    | some declaration =>
      -- Both ends are those of the declaration.
      obtain ⟨hpart, -⟩ := Tree.mem_parts_of_get? hget
      rw [← hr.exports t ht hkind declaration hpart]
      exact hr.nodes declaration (mem_nodes_of_get? (mem_nodes_of_item ht) hget)
  · exact hself

theorem sliced_exported (h : Sliced r d.model) : Sliced r (exported d t).model := by
  unfold exported
  split
  · exact { h with }
  · exact h

theorem mem_parts_of_staticAssignment? {component : String} {field : StaticField}
    (h : staticAssignment? t = some (component, field, value)) : value ∈ t.parts := by
  unfold staticAssignment? at h
  split at h
  · obtain ⟨⟨object, property⟩, -, h⟩ := Option.bind_eq_some_iff.1 h
    obtain ⟨component', -, h⟩ := Option.bind_eq_some_iff.1 h
    obtain ⟨field', -, h⟩ := Option.bind_eq_some_iff.1 h
    simp only [pure, Option.some.injEq, Prod.mk.injEq] at h
    simp [Tree.parts, h.2.2]
  · cases h

section
variable (hr : r.InBounds) (h : Sliced r d.model)
include hr h

theorem sliced_addExpression (ht : t ∈ r.nodes) : Sliced r (d.addExpression r t).model := by
  rcases addExpression_cases r d t with heq | ⟨component, field, value, m', hassign, hrecord, heq⟩
  · rw [heq]
    exact h.addCaveat rfl (hr.anchored ht)
  · rw [heq]
    obtain ⟨e, he, hassign⟩ := Option.bind_eq_some_iff.1 hassign
    have hvalue : value ∈ r.nodes :=
      mem_nodes_of_part (mem_nodes_of_get? ht he) (mem_parts_of_staticAssignment? hassign)
    exact h.recordStatic? hr hvalue hrecord

theorem sliced_addDefaultExpression (ht : t ∈ r.nodes) :
    Sliced r (d.addDefaultExpression r ((t.get? .value).getD t) t.span).model := by
  have hvalue : exportedValue t ∈ r.nodes := mem_nodes_trans ht (exportedValue_mem_subtrees t)
  have hexport : ∀ name, Sliced r (d.setExport name).model := fun name => { h with }
  unfold Draft.addDefaultExpression
  dsimp only
  split
  · exact hexport _
  · rename_i isAsync hkind
    exact (hexport anonymous).addFunctional hvalue
      (functionalSliced_arrow hr hvalue hkind (hr.nodes _ hvalue) anonymous)
  · exact h.addCaveat rfl (hr.anchored ht)

theorem sliced_addVariables (ht : t ∈ r.module.items) :
    Sliced r (d.addVariables r (itemDeclaration t) t.span).model := by
  have hdeclaration := h.addDeclaration hr ht
  unfold Draft.addVariables
  split
  · rename_i declarator hsingle
    split
    · rename_i name arrow isAsync harrow
      obtain ⟨value, hvalue, rfl, hkind⟩ := arrowDeclarator?_eq_some harrow
      have hdeclarator : declarator ∈ (itemDeclaration t).all .declarator := by
        rw [hsingle]
        exact List.mem_cons_self
      have hdeclared := mem_nodes_trans (mem_nodes_of_item ht) (itemDeclaration_mem_subtrees t)
      have hnode : value.withoutParens ∈ r.nodes :=
        mem_nodes_trans (mem_nodes_of_get? (mem_nodes_of_all hdeclared hdeclarator) hvalue)
          value.withoutParens_mem_subtrees
      exact h.addFunctional hnode
        (functionalSliced_arrow hr hnode hkind (hr.nodes t (mem_nodes_of_item ht)) name)
    · exact hdeclaration
  · exact hdeclaration

end

theorem sliced_addContract {span : Span} (hspan : Anchored s.reading span) {members : List Tree}
    (hmembers : ∀ u ∈ members, Anchored s.reading u.span) (h : Sliced s.reading d.model)
    (component : String) :
    Sliced s.reading (d.addContract s members span component).model := by
  have hcaveats : ∀ c ∈ (typedProps s.reading s.reader component members).caveats,
      ∀ u ∈ c.span?, Anchored s.reading u := by
    rw [typedProps_eq]
    exact ambiguity?_anchored hmembers
  have hprops := h.addCaveats hcaveats
  unfold Draft.addContract
  dsimp only [Draft.update]
  split
  · exact { hprops.addCaveat rfl hspan with }
  · exact { hprops with }

theorem sliced_addType (hr : s.reading.InBounds) (h : Sliced s.reading d.model)
    (ht : t ∈ s.reading.module.items) :
    Sliced s.reading (d.addType s (itemDeclaration t) t.span).model := by
  refine addType_induction (P := fun d => Sliced s.reading d.model) h (h.addDeclaration hr ht)
    fun name members hname d component hd => ?_
  have hmembers : ∀ u ∈ members, Anchored s.reading u.span := fun u hu =>
    hr.anchored (mem_nodes_trans (mem_nodes_of_item ht)
      (Tree.mem_subtrees_trans (itemDeclaration_mem_subtrees t)
        (mem_subtrees_of_contractMembers? hname u hu)))
  exact sliced_addContract (hr.anchored (mem_nodes_of_item ht)) hmembers hd component

/-- An item leaves slices only. -/
theorem ItemStep.sliced (hstep : ItemStep s d t d') (hr : s.reading.InBounds)
    (ht : t ∈ s.reading.module.items) (h : Sliced s.reading d.model) :
    Sliced s.reading d'.model := by
  have hnode := mem_nodes_of_item ht
  have hdeclaration := mem_nodes_trans hnode (itemDeclaration_mem_subtrees t)
  cases hstep with
  | empty => exact h
  | importing hkind =>
    rw [addImport_eq]
    split
    · exact h
    · refine { h with imports := ?_ }
      intro text htext
      rcases List.mem_append.1 htext with htext | htext
      · exact h.imports text htext
      · obtain rfl := List.mem_singleton.1 htext
        exact ⟨t, ht, hkind, hr.text_of_node hnode⟩
  | expression => exact sliced_addExpression hr h hnode
  | defaultExpression => exact sliced_addDefaultExpression hr h hnode
  | classDef => exact (sliced_exported h).addClass hr hdeclaration _ false
  | function hkind hcomponent =>
    exact (sliced_exported h).addFunctional hdeclaration
      (functionalSliced_function hr hdeclaration hkind (declaredSpan_within hr ht) hcomponent)
  | signature => exact sliced_exported h
  | bindings => exact sliced_addVariables hr h ht
  | type => exact sliced_addType hr h ht
  | declaration => exact h.addDeclaration hr ht
  | untransferred => exact h.addCaveat rfl (hr.anchored hnode)

theorem sliced_of_walk (hr : s.reading.InBounds) {ts : List Tree}
    (hts : ∀ t ∈ ts, t ∈ s.reading.module.items)
    (hwalk : ts.foldlM (Draft.addItem s) d = .ok d') (h : Sliced s.reading d.model) :
    Sliced s.reading d'.model := by
  induction ts generalizing d with
  | nil =>
    obtain rfl : d = d' := Except.ok.inj hwalk
    exact h
  | cons t ts ih =>
    obtain ⟨ht, hrest⟩ := List.forall_mem_cons.1 hts
    obtain ⟨d₁, hitem, hwalk⟩ := walk_cons hwalk
    exact ih hrest hwalk ((addItem_step hitem).sliced hr ht h)

theorem sliced_addNested (hr : r.InBounds) (h : Sliced r d.model) :
    Sliced r (d.addNested r).model := by
  have hnested : ∀ t ∈ d.nestedClasses r.module, t ∈ r.nodes := fun t ht =>
    (List.mem_filter.1 ht).1
  have hcaveats : ∀ {m : Model} {ts : List Tree}, Sliced r m → (∀ t ∈ ts, t ∈ r.nodes) →
      Sliced r (m.addCaveats (ts.map fun t => .higherOrder t.span)) := by
    intro m ts hm hts
    refine hm.addCaveats fun c hc span hspan => ?_
    obtain ⟨t, ht, rfl⟩ := List.mem_map.1 hc
    obtain rfl : t.span = span := Option.some.inj hspan
    exact hr.anchored (hts t ht)
  unfold Draft.addNested
  dsimp only
  split
  · rename_i first rest _ hlist
    rw [hlist] at hnested
    obtain ⟨hfirst, hrest⟩ := List.forall_mem_cons.1 hnested
    exact hcaveats (h.addClass hr hfirst _ true) hrest
  · exact hcaveats h hnested

theorem sliced_addMissingValidation (h : Sliced r d.model) :
    Sliced r (d.addMissingValidation r).model := by
  unfold Draft.addMissingValidation
  split
  · have hunanchored : ∀ c ∈ [Caveat.missingValidation], ∀ span ∈ c.span?, Anchored r span := by
      simp [Caveat.missingValidation, Caveat.unanchored]
    exact h.addCaveats hunanchored
  · exact h

/-- The text in which spans are counted: a source without what is removed before it is read. -/
def cleaned (options : Options) (text : String) : List Char :=
  (Source.preprocess text options.isFlow).toList

/-- If the spans of all nodes and comments that were read lie in the source, then everything in the
model is cut out of the source, with the comments and the wrapping that belong to it, and every
caveat has a place in it. -/
theorem analyze_sliced {options : Options} {text : String} {p : Syntax.Module} {m : Model}
    (hparse : parse (cleaned options text) = .ok p)
    (hnodes : ∀ n ∈ p.tree.subtrees, n.span.Within (cleaned options text))
    (hcomments : ∀ c ∈ p.comments.leading ++ p.comments.trailing, c.2.Within (cleaned options text))
    (hmodel : analyze options text = .ok m) :
    Sliced ⟨cleaned options text, p.repair (cleaned options text)⟩ m := by
  have hr := inBounds_repair hparse hnodes
    (fun c hc => hcomments c (List.mem_append_left _ hc))
    (fun c hc => hcomments c (List.mem_append_right _ hc))
  obtain ⟨s, hsetup, hmodel⟩ := analyze_eq_ok_iff.1 hmodel
  unfold cleaned at hparse
  unfold setupOf? at hsetup
  dsimp only at hsetup
  rw [hparse] at hsetup
  obtain rfl := Option.some.inj hsetup
  obtain ⟨d, hwalk, rfl⟩ := modelOf_walk hmodel
  have hitems := sliced_of_walk hr (fun t ht => ht) hwalk (.empty _)
  exact sliced_addMissingValidation (sliced_addNested hr hitems)

def readsWithin (cs : List Char) : Bool :=
  (parse cs).toOption.any fun p => (∀ n ∈ p.tree.subtrees, n.span.Within cs) ∧
    ∀ c ∈ p.comments.leading ++ p.comments.trailing, c.2.Within cs

/-- A source with items of several kinds, in which characters are not bytes. -/
def manyItems : String :=
  "import a from 'a';\nconst é = 1; // é\nclass C \x7b x = 1; f = () => 1; \x7d\n" ++
    "export default function G(\x7b u \x7d: P) \x7b\x7d\ngo();"

set_option maxRecDepth 100000 in
theorem analyze_sliced_manyItems :
    ∃ p m, parse (cleaned {} manyItems) = .ok p ∧
      (∀ n ∈ p.tree.subtrees, n.span.Within (cleaned {} manyItems)) ∧
      (∀ c ∈ p.comments.leading ++ p.comments.trailing, c.2.Within (cleaned {} manyItems)) ∧
      analyze {} manyItems = .ok m ∧
      m.imports = ["import a from 'a';"] ∧ m.declarations = ["const é = 1; // é"] ∧
      m.functionalComponents.map (·.propsBinding) = [some "\x7b u \x7d"] ∧
      m.caveats.size = 1 ∧
      Sliced ⟨cleaned {} manyItems, p.repair (cleaned {} manyItems)⟩ m := by
  obtain ⟨s, m, hsetup, hmodel, hread, hmade⟩ := exists_of_analysis? {} manyItems
    (fun _ m => readsWithin (preparedChars ({} : Options).isFlow (Source.readChars manyItems)) ∧
      m.imports = ["import a from 'a';"] ∧ m.declarations = ["const é = 1; // é"] ∧
      m.functionalComponents.map (·.propsBinding) = [some "\x7b u \x7d"] ∧ m.caveats.size = 1)
    (by decide +kernel)
  obtain ⟨himports, hdeclarations, hbindings, hsize⟩ := hmade
  rw [Source.readChars_eq, ← toList_preprocess] at hread
  obtain ⟨p, hparse, hwithin⟩ := exists_ok_of_any hread
  obtain ⟨hnodes, hcomments⟩ := of_decide_eq_true hwithin
  have hanalyze := (analyze_of_setupOf? hsetup).trans hmodel
  exact ⟨p, m, hparse, hnodes, hcomments, hanalyze, himports, hdeclarations, hbindings, hsize,
    analyze_sliced hparse hnodes hcomments hanalyze⟩

end Items

end Revue.Analysis
