import Revue.Proofs.SharedText

/-!
# Two forms of a default export

A component can be exported where it is declared, or by its name in an item of its own later on. The
walk through the items only notes the name of the default export, so that the note can be made
later, and both forms have the same model, or the same failure. There is one exception: a comment is
kept with the declaration in front of it if no other item follows, and the item that exports the
name is one that follows.
-/

namespace Revue.Syntax.Tree
variable (t : Tree) (role : Role)

@[simp] theorem role_as : (t.as role).role = role := by cases t; rfl

@[simp] theorem kind_as : (t.as role).kind = t.kind := by cases t; rfl

@[simp] theorem span_as : (t.as role).span = t.span := by cases t; rfl

@[simp] theorem parts_as : (t.as role).parts = t.parts := by cases t; rfl

@[simp] theorem get?_as (part : Role) : (t.as role).get? part = t.get? part := by cases t; rfl

@[simp] theorem all_as (part : Role) : (t.as role).all part = t.all part := by cases t; rfl

mutual

def decEq : (t u : Tree) → Decidable (t = u)
  | .node r k s ps, .node r' k' s' ps' =>
    match decEqList ps ps' with
    | .isTrue hps =>
      if h : r = r' ∧ k = k' ∧ s = s' then
        .isTrue (by obtain ⟨rfl, rfl, rfl⟩ := h; rw [hps])
      else .isFalse fun heq => h (by cases heq; exact ⟨rfl, rfl, rfl⟩)
    | .isFalse hps => .isFalse fun heq => hps (by cases heq; rfl)

def decEqList : (ts us : List Tree) → Decidable (ts = us)
  | [], [] => .isTrue rfl
  | [], _ :: _ => .isFalse (List.cons_ne_nil _ _).symm
  | _ :: _, [] => .isFalse (List.cons_ne_nil _ _)
  | t :: ts, u :: us =>
    match decEq t u with
    | .isTrue h =>
      match decEqList ts us with
      | .isTrue hs => .isTrue (by rw [h, hs])
      | .isFalse hs => .isFalse fun heq => hs (List.cons.inj heq).2
    | .isFalse h => .isFalse fun heq => h (List.cons.inj heq).1

end

instance : DecidableEq Tree := decEq

end Revue.Syntax.Tree

namespace Revue.Analysis
open Text Syntax Component Vue

variable {d : Draft} {r r' : Reading}

/-! ### The walk -/

section Walk
variable {s s' : Setup}

theorem walk_congr (hs : SameSetting s s') {ts : List Tree}
    (h : ∀ t ∈ ts, Agrees s.reading s'.reading t) (hends : ∀ t ∈ ts, EndsWithDeclaration t)
    {d' : Draft} (hd : d.bare = d'.bare) :
    SameButNotes (ts.foldlM (Draft.addItem s) d) (ts.foldlM (Draft.addItem s') d') := by
  induction ts generalizing d d' with
  | nil => exact congrArg Except.ok hd
  | cons t ts ih =>
    obtain ⟨ht, hrest⟩ := List.forall_mem_cons.1 h
    obtain ⟨htends, hrestends⟩ := List.forall_mem_cons.1 hends
    rw [List.foldlM_cons, List.foldlM_cons]
    exact ((addItem_sameButNotes hd t).trans (addItem_congr hs ht htends d')).bind
      fun d d' hd => ih hrest hrestends hd

end Walk

/-! ### The two forms -/

/-- The items of a module around the declaration of a component that is exported as the default. No
item up to the place where its name may be exported exports another. -/
structure ExportForms where
  before : List Tree
  declaration : Tree
  name : String
  between : List Tree
  after : List Tree
  /-- Where the declaration stands together with the words that export it. -/
  exportSpan : Span
  /-- Where the item stands that exports the name, and where the name stands in it. -/
  laterSpan : Span
  nameSpan : Span
  isComponent : declaration.kind = .classDef ∨ ∃ flags, declaration.kind = .function flags
  isNamed : declaredName? declaration = some name
  exportsNone : ∀ t ∈ between, exportOf? t = none

namespace ExportForms
variable (e : ExportForms)

def plainItem : Tree := e.declaration.as .item

def inlineItem : Tree :=
  .node .item .exportDefaultDeclaration e.exportSpan [e.declaration.as .declaration]

def laterItem : Tree :=
  .node .item .exportDefaultExpression e.laterSpan [.node .value (.name e.name) e.nameSpan []]

def inlineItems : List Tree := e.before ++ e.inlineItem :: (e.between ++ e.after)

def laterItems : List Tree := e.before ++ e.plainItem :: (e.between ++ e.laterItem :: e.after)

def shared : List Tree := e.before ++ e.plainItem :: (e.between ++ e.after)

end ExportForms

structure Setup.HasItems (s : Setup) (isTyped : Bool) (items : List Tree) : Prop where
  kind : s.reading.module.tree.kind = .module
  items_eq : s.reading.module.items = items
  ends : ∀ t ∈ items, EndsWithDeclaration t
  correlations_eq : s.correlations = if isTyped then Analysis.correlations s.reading.module else []
  reader_eq : s.reader = typeToken

theorem hasItems_of_setupOf? {options : Options} {text : String} {s : Setup}
    (h : setupOf? options text = some s) :
    s.HasItems options.isTyped s.reading.module.items := by
  unfold setupOf? at h
  dsimp only at h
  split at h
  · rename_i m hparse
    obtain rfl := Option.some.inj h
    obtain ⟨hmodule, hends⟩ := endsWithDeclaration_of_repair hparse
    exact ⟨hmodule, rfl, hends, rfl, rfl⟩
  · cases h

/-- Two readings of the two forms that agree about the items which both have. -/
structure ExportForms.AreRead (e : ExportForms) (s s' : Setup) : Prop where
  inline : s.reading.module.items = e.inlineItems
  later : s'.reading.module.items = e.laterItems
  agree : ∀ t ∈ e.shared, Agrees s.reading s'.reading t
  props : contains "props".toList s.reading.source = contains "props".toList s'.reading.source

def ExportForms.SameComments (e : ExportForms) (s s' : Setup) : Prop :=
  ∀ t ∈ e.shared, keepsItem s.correlations t →
    spaced (s.reading.trailingComments t.span.stop) =
      spaced (s'.reading.trailingComments t.span.stop)

theorem addClass_as (role : Role) (r : Reading) (m : Model) (name : String) (t : Tree)
    (isNested : Bool) : addClass r m name (t.as role) isNested = addClass r m name t isNested := by
  cases t
  rfl

theorem componentOfFunction?_as (role : Role) (r : Reading) (name : String) (t : Tree)
    (span : Span) :
    componentOfFunction? r name (t.as role) span = componentOfFunction? r name t span := by
  cases t
  rfl

namespace ExportForms
variable {e : ExportForms} {isTyped : Bool} {s s' : Setup}

theorem nameOrAnonymous_as (role : Role) :
    nameOrAnonymous (e.declaration.as role) = e.name := by
  rw [nameOrAnonymous, declaredName?, Tree.get?_as, ← declaredName?, e.isNamed]
  rfl

theorem kind_inlineItem : e.inlineItem.kind = .exportDefaultDeclaration := rfl

theorem kind_laterItem : e.laterItem.kind = .exportDefaultExpression := rfl

theorem kind_plainItem : e.plainItem.kind = e.declaration.kind := e.declaration.kind_as .item

theorem nameOrAnonymous_plainItem : nameOrAnonymous e.plainItem = e.name := nameOrAnonymous_as .item

theorem get?_inlineItem :
    e.inlineItem.get? .declaration = some (e.declaration.as .declaration) := by
  simp [inlineItem, Tree.get?, Tree.parts]

/-- Questions that only a class answers have the same answers in both forms. -/
theorem filterMap_subtrees_eq {α : Type} {f : Tree → Option α}
    (hclass : ∀ t, t.kind ≠ .classDef → f t = none)
    (hdeclaration : f (e.declaration.as .declaration) = f e.plainItem)
    (h : s.HasItems isTyped e.inlineItems) (h' : s'.HasItems isTyped e.laterItems) :
    s.reading.module.tree.subtrees.filterMap f = s'.reading.module.tree.subtrees.filterMap f := by
  have hinlineItem : e.inlineItem.subtrees.filterMap f = e.plainItem.subtrees.filterMap f := by
    have hnone : f e.inlineItem = none := hclass _ (by simp [kind_inlineItem])
    rw [Tree.subtrees_eq e.inlineItem, List.filterMap_cons, hnone, Tree.subtrees_eq e.plainItem,
      List.filterMap_cons]
    change (List.flatMap Tree.subtrees [e.declaration.as .declaration]).filterMap f = _
    rw [List.flatMap_singleton, Tree.subtrees_eq, List.filterMap_cons, hdeclaration, Tree.parts_as,
      plainItem, Tree.parts_as]
  have hlaterItem : e.laterItem.subtrees.filterMap f = [] := by
    have hnone : f e.laterItem = none := hclass _ (by simp [kind_laterItem])
    have hname : f (.node .value (.name e.name) e.nameSpan []) = none :=
      hclass _ (by simp [Tree.kind])
    rw [Tree.subtrees_eq, List.filterMap_cons, hnone]
    simp [laterItem, Tree.parts, Tree.subtrees_eq, hname]
  have hroot : ∀ m : Syntax.Module, m.tree.kind = .module →
      m.tree.subtrees.filterMap f = (m.items.flatMap Tree.subtrees).filterMap f := by
    intro m hkind
    rw [Tree.subtrees_eq, List.filterMap_cons, hclass _ (by simp [hkind])]
    rfl
  rw [hroot _ h.kind, hroot _ h'.kind, h.items_eq, h'.items_eq, inlineItems, laterItems]
  simp only [List.flatMap_append, List.flatMap_cons, List.filterMap_append, hinlineItem, hlaterItem,
    List.nil_append]

theorem itemDeclaration_inlineItem :
    itemDeclaration e.inlineItem = e.declaration.as .declaration := by
  rw [itemDeclaration, kind_inlineItem]
  dsimp only
  rw [get?_inlineItem]
  rfl

theorem itemDeclaration_plainItem : itemDeclaration e.plainItem = e.plainItem := by
  unfold itemDeclaration
  rw [kind_plainItem]
  rcases e.isComponent with hkind | ⟨flags, hkind⟩ <;> rw [hkind]

theorem sameSetting (h : s.HasItems isTyped e.inlineItems) (h' : s'.HasItems isTyped e.laterItems) :
    SameSetting s s' := by
  have hclasses : s.reading.module.tree.subtrees.filterMap classCorrelation? =
      s'.reading.module.tree.subtrees.filterMap classCorrelation? := by
    refine filterMap_subtrees_eq (fun t ht => if_neg ht) ?_ h h'
    rw [plainItem, classCorrelation?, classCorrelation?, nameOrAnonymous_as, nameOrAnonymous_as]
    simp
  have hdeclaration : declarationCorrelations (e.declaration.as .declaration) =
      declarationCorrelations e.plainItem := by
    simp [declarationCorrelations, plainItem, declaredName?]
  have hitems : correlations s.reading.module = correlations s'.reading.module := by
    rw [correlations, correlations, hclasses, h.items_eq, h'.items_eq, inlineItems, laterItems]
    simp only [List.flatMap_append, List.flatMap_cons, itemDeclaration_inlineItem,
      itemDeclaration_plainItem, hdeclaration]
    rfl
  exact ⟨by rw [h.correlations_eq, h'.correlations_eq, hitems], h.reader_eq.trans h'.reader_eq.symm⟩

/-! ### The same walk -/

theorem span_stop (h : s.HasItems isTyped e.inlineItems) :
    e.exportSpan.stop = e.declaration.span.stop := by
  have hends := h.ends e.inlineItem (by simp [inlineItems]) rfl (e.declaration.as .declaration)
    List.mem_cons_self
  rw [Tree.span_as] at hends
  exact hends.symm

theorem addItem_inlineItem_eq (d : Draft) : d.addItem s e.inlineItem =
    d.addDefaultDeclaration s (e.declaration.as .declaration) e.exportSpan := by
  have hitem : d.addItem s e.inlineItem = d.addDefaultDeclaration s
    ((e.inlineItem.get? .declaration).getD e.inlineItem) e.exportSpan := rfl
  rw [hitem, get?_inlineItem]
  rfl

theorem addItem_plainItem_eq (d : Draft) :
    d.addItem s e.plainItem = d.addTopDeclaration s e.plainItem e.plainItem.span := by
  unfold Draft.addItem
  rw [kind_plainItem]
  rcases e.isComponent with hkind | ⟨flags, hkind⟩ <;> rw [hkind]

theorem addItem_of_class (hkind : e.declaration.kind = .classDef)
    (hagrees : Agrees s.reading s'.reading e.plainItem) (d : Draft) :
    SameButNotes (d.addItem s e.inlineItem) (d.addItem s' e.plainItem) := by
  have hinline : d.addItem s e.inlineItem = (d.setExport e.name).addTopClass s.reading e.name
      (e.declaration.as .declaration) := by
    rw [addItem_inlineItem_eq, Draft.addDefaultDeclaration, Tree.kind_as, hkind]
    dsimp only
    rw [nameOrAnonymous_as]
  have hplain : d.addItem s' e.plainItem = d.addTopClass s'.reading e.name e.plainItem := by
    rw [addItem_plainItem_eq, Draft.addTopDeclaration, kind_plainItem, hkind]
    dsimp only
    rw [nameOrAnonymous_plainItem]
  have hclass : d.addTopClass s.reading e.name (e.declaration.as .declaration) =
      d.addTopClass s'.reading e.name e.plainItem := by
    unfold Draft.addTopClass
    rw [addClass_as, ← addClass_as .item, ← plainItem, addClass_congr hagrees, Tree.span_as,
      plainItem, Tree.span_as]
  have hnote := addTopClass_withNotes (some e.name) d.model.declarations d
    (e.declaration.as .declaration) s.reading e.name
  rw [SameButNotes, hinline, hplain, ← hclass]
  refine (congrArg (Except.map Draft.bare) hnote).trans ?_
  cases d.addTopClass s.reading e.name (e.declaration.as .declaration) <;> rfl

theorem addItem_of_function {flags : FunctionFlags} (hkind : e.declaration.kind = .function flags)
    (hstop : e.exportSpan.stop = e.declaration.span.stop)
    (hagrees : Agrees s.reading s'.reading e.plainItem) (d : Draft) :
    SameButNotes (d.addItem s e.inlineItem) (d.addItem s' e.plainItem) := by
  have hspan : e.plainItem.span = ⟨e.declaration.span.start, e.exportSpan.stop⟩ := by
    rw [hstop, plainItem, Tree.span_as]
  have hcomponent : componentOfFunction? s.reading e.name (e.declaration.as .declaration)
      ⟨e.declaration.span.start, e.exportSpan.stop⟩ =
        componentOfFunction? s'.reading e.name e.plainItem e.plainItem.span := by
    rw [componentOfFunction?_as, ← componentOfFunction?_as .item, ← plainItem, ← hspan,
      componentOfFunction?_congr hagrees hagrees.at.text]
  rw [addItem_inlineItem_eq, addItem_plainItem_eq, Draft.addDefaultDeclaration,
    Draft.addTopDeclaration, Tree.kind_as, kind_plainItem, hkind]
  dsimp only
  rw [nameOrAnonymous_as, nameOrAnonymous_plainItem, Tree.span_as, hcomponent]
  cases componentOfFunction? s'.reading e.name e.plainItem e.plainItem.span <;> rfl

/-- The item that exports the component does what its declaration does, but for the note. -/
theorem addItem_inlineItem (hstop : e.exportSpan.stop = e.declaration.span.stop)
    (hagrees : Agrees s.reading s'.reading e.plainItem) (d : Draft) :
    SameButNotes (d.addItem s e.inlineItem) (d.addItem s' e.plainItem) := by
  rcases e.isComponent with hkind | ⟨flags, hkind⟩
  · exact addItem_of_class hkind hagrees d
  · exact addItem_of_function hkind hstop hagrees d

theorem addItem_laterItem (d : Draft) : d.addItem s e.laterItem = .ok (d.setExport e.name) := rfl

theorem walk_forms (h : s.HasItems isTyped e.inlineItems) (h' : s'.HasItems isTyped e.laterItems)
    (hagrees : ∀ t ∈ e.shared, Agrees s.reading s'.reading t) :
    SameButNotes (e.inlineItems.foldlM (Draft.addItem s) {})
      (e.laterItems.foldlM (Draft.addItem s') {}) := by
  have hs := sameSetting h h'
  have hwalk : ∀ ts : List Tree, (∀ t ∈ ts, t ∈ e.shared ∧ t ∈ e.inlineItems) →
      ∀ {d d' : Draft}, d.bare = d'.bare →
        SameButNotes (ts.foldlM (Draft.addItem s) d) (ts.foldlM (Draft.addItem s') d') :=
    fun ts hts _ _ hd =>
      walk_congr hs (fun t ht => hagrees t (hts t ht).1) (fun t ht => h.ends t (hts t ht).2) hd
  have hbefore : ∀ t ∈ e.before, t ∈ e.shared ∧ t ∈ e.inlineItems := fun t ht => by
    simp [shared, inlineItems, ht]
  have hbetween : ∀ t ∈ e.between, t ∈ e.shared ∧ t ∈ e.inlineItems := fun t ht => by
    simp [shared, inlineItems, ht]
  have hafter : ∀ t ∈ e.after, t ∈ e.shared ∧ t ∈ e.inlineItems := fun t ht => by
    simp [shared, inlineItems, ht]
  rw [inlineItems, laterItems, List.foldlM_append, List.foldlM_append]
  refine (hwalk e.before hbefore rfl).bind fun d d' hd => ?_
  rw [List.foldlM_cons, List.foldlM_cons]
  have hitem := addItem_inlineItem (span_stop h) (hagrees e.plainItem (by simp [shared])) d
  refine (hitem.trans (addItem_sameButNotes hd e.plainItem)).bind fun d d' hd => ?_
  rw [List.foldlM_append, List.foldlM_append]
  refine (hwalk e.between hbetween hd).bind fun d d' hd => ?_
  rw [List.foldlM_cons, addItem_laterItem]
  -- The later item changes the second draft and not the first, but only in the note.
  have hset : (d'.setExport e.name).bare = d'.bare := rfl
  exact hwalk e.after hafter (hd.trans hset.symm)

/-! ### The same classes below the top level -/

theorem topClass_of_laterItems (hkind : e.declaration.kind = .classDef)
    (h : e.laterItems.foldlM (Draft.addItem s) {} = .ok d) :
    d.topClass.map (·.2) = some e.declaration.span := by
  rw [laterItems] at h
  obtain ⟨d₀, -, h⟩ := walk_append h
  obtain ⟨d₁, hitem, hrest⟩ := walk_cons h
  have hclass : (itemDeclaration e.plainItem).kind = .classDef := by
    rw [itemDeclaration_plainItem, kind_plainItem, hkind]
  have htop := ((addItem_step hitem).topClass_of_classDef hclass).2
  rw [(sameClass_of_walk hrest (by simp [htop])).1, htop, itemDeclaration_plainItem]
  simp [plainItem]

theorem nestedClasses_eq (h : s.HasItems isTyped e.inlineItems)
    (h' : s'.HasItems isTyped e.laterItems)
    (htop : e.declaration.kind = .classDef → d.topClass.map (·.2) = some e.declaration.span) :
    d.nestedClasses s.reading.module = d.nestedClasses s'.reading.module := by
  unfold Draft.nestedClasses
  rw [← List.filterMap_eq_filter]
  refine filterMap_subtrees_eq (fun t ht => by simp [Option.guard, ht]) ?_ h h'
  -- The declaration plays another role in each form. It is no nested class in either: if it is a
  -- class at all, then it is the one at the top level.
  have hnone : ∀ role : Role, Option.guard
      (fun t : Tree => t.kind = .classDef && d.topClass.map (·.2) != some t.span)
      (e.declaration.as role) = none := by
    intro role
    by_cases hkind : e.declaration.kind = .classDef
    · simp [Option.guard, htop hkind]
    · simp [Option.guard, hkind]
  rw [hnone, plainItem, hnone]

theorem agrees_of_nested (h' : s'.HasItems isTyped e.laterItems)
    (hagrees : ∀ t ∈ e.shared, Agrees s.reading s'.reading t) {t : Tree}
    (ht : t ∈ d.nestedClasses s'.reading.module) : Agrees s.reading s'.reading t := by
  obtain ⟨ht, hnested⟩ := List.mem_filter.1 ht
  have hkind : t.kind = .classDef := of_decide_eq_true (Bool.and_eq_true_iff.1 hnested).1
  rw [Tree.subtrees_eq] at ht
  rcases List.mem_cons.1 ht with rfl | ht
  · rw [h'.kind] at hkind
    cases hkind
  · obtain ⟨item, hitem, hmem⟩ := List.mem_flatMap.1 ht
    have hitem' : item ∈ s'.reading.module.items := hitem
    rw [h'.items_eq] at hitem'
    have hcases : item ∈ e.shared ∨ item = e.laterItem := by
      simp only [laterItems, shared, List.mem_append, List.mem_cons] at hitem' ⊢
      tauto
    rcases hcases with hshared | rfl
    · exact (hagrees item hshared).of_mem hmem
    · have hparts : e.laterItem.subtrees =
          [e.laterItem, .node .value (.name e.name) e.nameSpan []] := by
        simp [Tree.subtrees_eq, laterItem, Tree.parts]
      rw [hparts] at hmem
      simp only [List.mem_cons, List.not_mem_nil, or_false] at hmem
      rcases hmem with rfl | rfl <;> cases hkind

/-! ### The same model -/

theorem addMissingValidation_congr
    (h : contains "props".toList r.source = contains "props".toList r'.source) (d : Draft) :
    d.addMissingValidation r = d.addMissingValidation r' := by
  rw [Draft.addMissingValidation, Draft.addMissingValidation, h]

/-- Both forms fail in the same way, or have models that differ in nothing but the notes. -/
theorem modelOf_forms (h : s.HasItems isTyped e.inlineItems) (h' : s'.HasItems isTyped e.laterItems)
    (hagrees : ∀ t ∈ e.shared, Agrees s.reading s'.reading t)
    (hprops : contains "props".toList s.reading.source =
      contains "props".toList s'.reading.source) :
    (∃ f, modelOf s = .error f ∧ modelOf s' = .error f) ∨
      ∃ m m', modelOf s = .ok m ∧ modelOf s' = .ok m' ∧
        withNotes none [] m = withNotes none [] m' := by
  unfold modelOf
  rw [h.items_eq, h'.items_eq]
  rcases (walk_forms h h' hagrees).cases with ⟨f, hf, hf'⟩ | ⟨d, d', hd, hd', hbare⟩
  · rw [hf, hf']
    exact Or.inl ⟨f, rfl, rfl⟩
  · rw [hd, hd']
    refine Or.inr ⟨_, _, rfl, rfl, ?_⟩
    -- What follows the walk does not read the notes either, so one bare draft is enough.
    have hend : ∀ (r : Reading) (d : Draft), ((d.addNested r).addMissingValidation r).bare =
        (d.bare.addNested r).addMissingValidation r := by
      intro r d
      rw [Draft.bare, Draft.bare, addNested_withNotes, addMissingValidation_withNotes]
    have htop : e.declaration.kind = .classDef →
        d'.bare.topClass.map (·.2) = some e.declaration.span := fun hkind =>
      topClass_of_laterItems (d := d') hkind hd'
    have hnested : d'.bare.addNested s.reading = d'.bare.addNested s'.reading :=
      addNested_congr (nestedClasses_eq h h' htop) fun t ht => agrees_of_nested h' hagrees ht
    have hsame : ((d.addNested s.reading).addMissingValidation s.reading).bare =
        ((d'.addNested s'.reading).addMissingValidation s'.reading).bare := by
      rw [hend, hend, hbare, hnested, addMissingValidation_congr hprops]
    exact congrArg Draft.model hsame

theorem exportOf?_inlineItem : exportOf? e.inlineItem = some e.name := by
  rw [exportOf?, kind_inlineItem, itemDeclaration_inlineItem, Tree.kind_as, nameOrAnonymous_as]
  rcases e.isComponent with hkind | ⟨flags, hkind⟩ <;> rw [hkind]

theorem exportAfter_inlineItems :
    exportAfter none e.inlineItems = exportAfter (some e.name) e.after := by
  rw [inlineItems, exportAfter_append, exportAfter_cons, exportAfter_append, exportOf?_inlineItem,
    Option.some_or, exportAfter_of_none e.exportsNone]

theorem exportAfter_laterItems :
    exportAfter none e.laterItems = exportAfter (some e.name) e.after := by
  have hlaterItem : exportOf? e.laterItem = some e.name := rfl
  rw [laterItems, exportAfter_append, exportAfter_cons, exportAfter_append, exportAfter_cons,
    hlaterItem, Option.some_or]

theorem keptOf_inlineItem (s : Setup) : keptOf s e.inlineItem = [] := by
  have hkeeps : keepsItem s.correlations e.inlineItem = false := by
    rw [keepsItem, kind_inlineItem, itemDeclaration_inlineItem, Tree.kind_as]
    rcases e.isComponent with hkind | ⟨flags, hkind⟩ <;> rw [hkind]
  rw [keptOf, hkeeps]
  rfl

theorem keptOf_plainItem (s : Setup) : keptOf s e.plainItem = [] := by
  have hkeeps : keepsItem s.correlations e.plainItem = false := by
    rcases e.isComponent with hkind | ⟨flags, hkind⟩ <;>
      simp only [keepsItem, keepsDeclaration, kind_plainItem, hkind]
  rw [keptOf, hkeeps]
  rfl

theorem kept_inlineItems (s : Setup) :
    e.inlineItems.flatMap (keptOf s) = e.shared.flatMap (keptOf s) := by
  simp only [inlineItems, shared, List.flatMap_append, List.flatMap_cons, keptOf_inlineItem,
    keptOf_plainItem]

theorem kept_laterItems (s : Setup) :
    e.laterItems.flatMap (keptOf s) = e.shared.flatMap (keptOf s) := by
  have hlaterItem : keptOf s e.laterItem = [] := rfl
  simp only [laterItems, shared, List.flatMap_append, List.flatMap_cons, hlaterItem,
    List.nil_append]

theorem keptText_eq_iff {span : Span} (h : r.text span = r'.text span) :
    keptText r span = keptText r' span ↔
      spaced (r.trailingComments span.stop) = spaced (r'.trailingComments span.stop) := by
  rw [← String.toList_inj, keptText, keptText, toList_withTrailing, toList_withTrailing, h,
    List.append_cancel_left_eq]

/-- The same declarations are kept if and only if the same comments stand behind them. -/
theorem kept_eq_iff (hs : SameSetting s s')
    (hagrees : ∀ t ∈ e.shared, Agrees s.reading s'.reading t) :
    e.shared.flatMap (keptOf s) = e.shared.flatMap (keptOf s') ↔ e.SameComments s s' := by
  rw [flatMap_keptOf, flatMap_keptOf, ← hs.correlations, List.map_inj_left]
  constructor
  · intro h t ht hkeeps
    exact (keptText_eq_iff (hagrees t ht).at.text).1 (h t (List.mem_filter.2 ⟨ht, hkeeps⟩))
  · intro h t ht
    obtain ⟨ht, hkeeps⟩ := List.mem_filter.1 ht
    exact (keptText_eq_iff (hagrees t ht).at.text).2 (h t ht hkeeps)

end ExportForms

/-- The export form matters to nothing but the comments behind declarations. Two sources in the two
forms fail in the same way, or their models differ in the declarations at most, and they differ in
nothing if and only if the same comments stand behind each declaration that is kept. -/
theorem analyze_exportForms {options : Options} {text text' : String} {s s' : Setup}
    (e : ExportForms) (h : setupOf? options text = some s)
    (h' : setupOf? options text' = some s') (hread : e.AreRead s s') :
    (∃ f, analyze options text = .error f ∧ analyze options text' = .error f) ∨
      ∃ m m', analyze options text = .ok m ∧ analyze options text' = .ok m' ∧
        m' = { m with declarations := m'.declarations } ∧
        ((∀ t ∈ e.after, exportOf? t = none) → m.exportName = some e.name) ∧
        (m = m' ↔ e.SameComments s s') := by
  have hitems := hread.inline ▸ hasItems_of_setupOf? h
  have hitems' := hread.later ▸ hasItems_of_setupOf? h'
  rw [analyze_of_setupOf? h, analyze_of_setupOf? h']
  rcases ExportForms.modelOf_forms hitems hitems' hread.agree hread.props with
    hfail | ⟨m, m', hm, hm', hsame⟩
  · exact Or.inl hfail
  · obtain ⟨hname, hkept⟩ := notes_of_modelOf hm
    obtain ⟨hname', hkept'⟩ := notes_of_modelOf hm'
    rw [hread.inline, ExportForms.exportAfter_inlineItems] at hname
    rw [hread.later, ExportForms.exportAfter_laterItems] at hname'
    rw [hread.inline, ExportForms.kept_inlineItems] at hkept
    rw [hread.later, ExportForms.kept_laterItems] at hkept'
    have heq : m' = { m with declarations := m'.declarations } :=
      calc m' = withNotes m'.exportName m'.declarations (withNotes none [] m') := rfl
        _ = withNotes m.exportName m'.declarations (withNotes none [] m) := by
          rw [hsame, hname, hname']
        _ = { m with declarations := m'.declarations } := rfl
    refine Or.inr ⟨m, m', hm, hm', heq, ?_, ?_⟩
    · intro hnone
      rw [hname, exportAfter_of_none hnone]
    · rw [← ExportForms.kept_eq_iff (ExportForms.sameSetting hitems hitems') hread.agree, ← hkept,
        ← hkept']
      constructor
      · intro hmodel
        rw [hmodel]
      · intro hdeclarations
        rw [heq, ← hdeclarations]

instance (e : ExportForms) (s s' : Setup) : Decidable (e.AreRead s s') :=
  decidable_of_iff
    (s.reading.module.items = e.inlineItems ∧ s'.reading.module.items = e.laterItems ∧
      (∀ t ∈ e.shared, Agrees s.reading s'.reading t) ∧
      contains "props".toList s.reading.source = contains "props".toList s'.reading.source)
    ⟨fun ⟨inline, later, agree, props⟩ => ⟨inline, later, agree, props⟩,
      fun h => ⟨h.inline, h.later, h.agree, h.props⟩⟩

instance (e : ExportForms) (s s' : Setup) : Decidable (e.SameComments s s') :=
  inferInstanceAs (Decidable (∀ t ∈ e.shared, keepsItem s.correlations t →
    spaced (s.reading.trailingComments t.span.stop) =
      spaced (s'.reading.trailingComments t.span.stop)))

def inlineSample (comment : String) : String :=
  "// c\nexport default class A \x7b m() \x7b\x7d \x7d\nconst x = 1;" ++ comment ++
    "                 \n"

def laterSample (comment : String) : String :=
  "// c\n               class A \x7b m() \x7b\x7d \x7d\nconst x = 1;" ++ comment ++
    "export default A;\n"

def sampleForms : ExportForms where
  before := []
  declaration := .node .item .classDef ⟨20, 38⟩
    [.node .name (.name "A") ⟨26, 27⟩ [],
      .node .member (.method .method {} {}) ⟨30, 36⟩
        [.node .key (.name "m") ⟨30, 31⟩ [], .node .body .block ⟨34, 36⟩ []]]
  name := "A"
  between := [.node .item (.variables "const") ⟨39, 51⟩
    [.node .declarator .declarator ⟨45, 50⟩
      [.node .name (.name "x") ⟨45, 46⟩ [], .node .initializer (.number "1") ⟨49, 50⟩ []]]]
  after := []
  exportSpan := ⟨5, 38⟩
  laterSpan := ⟨57, 74⟩
  nameSpan := ⟨72, 73⟩
  isComponent := .inl rfl
  isNamed := rfl
  exportsNone := by decide

set_option maxRecDepth 100000 in
/-- A comment on the same line is kept with the declaration in both forms. -/
theorem analyze_exportForms_sameLine :
    ∃ s s' m, setupOf? {} (inlineSample " // d\n") = some s ∧
      setupOf? {} (laterSample " // d\n") = some s' ∧ sampleForms.AreRead s s' ∧
      sampleForms.SameComments s s' ∧ m.declarations = ["const x = 1; // d"] ∧
      analyze {} (inlineSample " // d\n") = .ok m ∧ analyze {} (laterSample " // d\n") = .ok m := by
  obtain ⟨s, m, s', -, hs, hm, hs', -, hdeclarations, hread, hcomments⟩ :=
    exists_of_analyses? {} (inlineSample " // d\n") (laterSample " // d\n")
      (fun s m s' _ => m.declarations = ["const x = 1; // d"] ∧
        sampleForms.AreRead s s' ∧ sampleForms.SameComments s s') (by decide +kernel)
  have hinline := (analyze_of_setupOf? hs).trans hm
  refine ⟨s, s', m, hs, hs', hread, hcomments, hdeclarations, hinline, ?_⟩
  rcases analyze_exportForms sampleForms hs hs' hread with
    ⟨f, hfail, -⟩ | ⟨m₁, m₂, hm₁, hm₂, -, -, hsame⟩
  · rw [hinline] at hfail
    cases hfail
  · obtain rfl := Except.ok.inj (hinline.symm.trans hm₁)
    rw [hm₂, hsame.2 hcomments]

set_option maxRecDepth 100000 in
/-- A comment on the line below is kept with the declaration only if the class is exported where it
is declared. -/
theorem generate_exportForms_lineBelow :
    ∃ s s', setupOf? {} (inlineSample "\n// d\n") = some s ∧
      setupOf? {} (laterSample "\n// d\n") = some s' ∧ sampleForms.AreRead s s' ∧
      (analyze {} (inlineSample "\n// d\n")).toOption.bind generate =
        some ("const x = 1; // d\n\nexport default \x7b\n  name: 'A',\n  methods: \x7b\n" ++
          "    m() \x7b\x7d\n  \x7d\n\x7d;\n") ∧
      (analyze {} (laterSample "\n// d\n")).toOption.bind generate =
        some ("const x = 1;\n\nexport default \x7b\n  name: 'A',\n  methods: \x7b\n" ++
          "    m() \x7b\x7d\n  \x7d\n\x7d;\n") := by
  obtain ⟨s, m, s', m', hs, hm, hs', hm', hread, htext, htext'⟩ :=
    exists_of_analyses? {} (inlineSample "\n// d\n") (laterSample "\n// d\n")
      (fun s m s' m' => sampleForms.AreRead s s' ∧
        generate m =
          some ("const x = 1; // d\n\nexport default \x7b\n  name: 'A',\n  methods: \x7b\n" ++
            "    m() \x7b\x7d\n  \x7d\n\x7d;\n") ∧
        generate m' =
          some ("const x = 1;\n\nexport default \x7b\n  name: 'A',\n  methods: \x7b\n" ++
            "    m() \x7b\x7d\n  \x7d\n\x7d;\n")) (by decide +kernel)
  refine ⟨s, s', hs, hs', hread, ?_, ?_⟩
  · rw [analyze_of_setupOf? hs, hm]
    exact htext
  · rw [analyze_of_setupOf? hs', hm']
    exact htext'

end Revue.Analysis
