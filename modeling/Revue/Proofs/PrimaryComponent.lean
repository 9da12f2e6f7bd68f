import Revue.Proofs.ItemTraces
import Revue.Proofs.SiteExactness
import Revue.Vue.Options

/-!
# The component that a file is about

The functional components of a module are those that its items make, in their order, and the name of
the default export is that of the last item that is one. Components are told apart by their names
alone: the first component with the exported name is written as the new component, and all with that
name are left out of the helpers. So the component that is exported as the default is the one that
is written, with all others as they stand, exactly if no other component has its name.
-/

namespace Revue.Analysis
open Text Syntax Component

variable {k : Kind} {arrow : Tree} {name : String} {r : Reading} {ts : List Tree}
  {flags : FunctionFlags} {c : FunctionalComponent}

/-! ### The component of an item -/

def boundComponent? (r : Reading) (t : Tree) (span : Span) : Option FunctionalComponent :=
  match t.all .declarator with
  | [declarator] => (arrowDeclarator? declarator).map fun (name, arrow, isAsync) =>
    componentOfArrow r name arrow isAsync span
  | _ => none

def itemComponent? (r : Reading) (t : Tree) : Option FunctionalComponent :=
  match t.kind, (itemDeclaration t).kind with
  | .exportDefaultExpression, _ =>
    match (exportedValue t).kind with
    | .arrow isAsync =>
      some (componentOfArrow r anonymous (exportedValue t) isAsync (exportedValue t).span)
    | _ => none
  | _, .function _ =>
    componentOfFunction? r (nameOrAnonymous (itemDeclaration t)) (itemDeclaration t)
      (declaredSpan t)
  | _, .variables _ =>
    if isDefault t then none else boundComponent? r (itemDeclaration t) t.span
  | _, _ => none

/-- The item that is exported as the default, the last one if there are more. -/
def defaultItem? (ts : List Tree) : Option Tree :=
  (ts.filter fun t => (exportOf? t).isSome).getLast?

def roots (m : Model) : Option ClassComponent × List FunctionalComponent × Option String :=
  (m.classComponent, m.functionalComponents, m.exportName)

section Items
variable {s : Setup} {d d' : Draft} {t : Tree}

theorem itemComponent?_of_declaresValue (r : Reading) (h : declaresValue t = false) :
    itemComponent? r t = none := by
  unfold declaresValue at h
  unfold itemComponent?
  split at h
  · cases h
  · cases h
  · simp_all
  · simp_all

theorem declaresValue_of_kind (hkind : t.kind = k) (hself : itemDeclaration t = t)
    (hvalue : k ≠ .exportDefaultExpression) (hfunction : ∀ flags, k ≠ .function flags)
    (hvariables : ∀ keyword, k ≠ .variables keyword) : declaresValue t = false := by
  subst hkind
  unfold declaresValue
  rw [hself]
  split <;> simp_all

theorem functional_addExpression (r : Reading) (d : Draft) (t : Tree) :
    (d.addExpression r t).model.functionalComponents = d.model.functionalComponents := by
  rcases addExpression_cases r d t with heq | ⟨component, field, value, m', -, hrecord, heq⟩
  · rw [heq]
    rfl
  · rw [heq]
    exact (components_recordStatic? hrecord).2

theorem functional_addType (s : Setup) (d : Draft) (t : Tree) (span : Span) :
    (d.addType s t span).model.functionalComponents = d.model.functionalComponents := by
  refine addType_induction
    (P := fun d' => d'.model.functionalComponents = d.model.functionalComponents) rfl rfl
    fun _ members _ d' component hd' => ?_
  unfold Draft.addContract
  dsimp only [Draft.update]
  split <;> exact hd'

theorem functional_addVariables (r : Reading) (d : Draft) (t : Tree) (span : Span) :
    (d.addVariables r t span).model.functionalComponents =
      d.model.functionalComponents ++ (boundComponent? r t span).toList := by
  unfold Draft.addVariables
  split
  · rename_i declarator hsingle
    rw [boundComponent?, hsingle]
    dsimp only
    split
    · rename_i name arrow isAsync harrow
      rw [harrow]
      rfl
    · rename_i hnone
      rw [hnone]
      exact (List.append_nil _).symm
  · rename_i hmany
    rw [boundComponent?]
    split
    · rename_i declarator hsingle
      exact (hmany declarator hsingle).elim
    · exact (List.append_nil _).symm

theorem kind_ne_of_itemDeclaration (hkind : (itemDeclaration t).kind = k)
    (hne : k ≠ .exportDefaultExpression) : t.kind ≠ .exportDefaultExpression := by
  intro hvalue
  have hself : itemDeclaration t = t :=
    itemDeclaration_of_kind (by simp [hvalue]) (by simp [hvalue])
  rw [hself, hvalue] at hkind
  exact hne hkind.symm

theorem itemComponent?_of_function (r : Reading)
    (hkind : (itemDeclaration t).kind = .function flags) :
    itemComponent? r t = componentOfFunction? r (nameOrAnonymous (itemDeclaration t))
      (itemDeclaration t) (declaredSpan t) := by
  have hvalue := kind_ne_of_itemDeclaration hkind (by simp)
  simp [itemComponent?, hkind]

theorem exportOf?_of_function (hkind : (itemDeclaration t).kind = .function flags) :
    exportOf? t =
      if isDefault t then some (nameOrAnonymous (itemDeclaration t)) else none := by
  have hvalue := kind_ne_of_itemDeclaration hkind (by simp)
  unfold exportOf? isDefault
  split
  · rename_i hdefault
    simp [hkind, hdefault]
  · contradiction
  · rename_i hdefault _
    rw [if_neg]
    simpa using hdefault

theorem functional_addDefaultExpression (r : Reading) (d : Draft)
    (hkind : t.kind = .exportDefaultExpression) :
    (d.addDefaultExpression r ((t.get? .value).getD t) t.span).model.functionalComponents =
      d.model.functionalComponents ++ (itemComponent? r t).toList := by
  have hvalue : ((t.get? .value).getD t).withoutParens = exportedValue t := rfl
  simp only [Draft.addDefaultExpression, itemComponent?, hkind, hvalue]
  split
  · rename_i hname
    simp [hname, Draft.setExport, Draft.update]
  · rename_i harrow
    simp [harrow, Draft.setExport, Draft.addFunctional, Draft.update]
  · simp [Draft.update, Model.addCaveat]

/-- An item that declares no class adds the component that it makes. -/
theorem ItemStep.functional_eq (h : ItemStep s d t d')
    (hclass : (itemDeclaration t).kind ≠ .classDef) :
    d'.model.functionalComponents =
      d.model.functionalComponents ++ (itemComponent? s.reading t).toList := by
  have hplain : declaresValue t = false →
      d'.model.functionalComponents = d.model.functionalComponents →
      d'.model.functionalComponents =
        d.model.functionalComponents ++ (itemComponent? s.reading t).toList := by
    intro hvalue hsame
    rw [itemComponent?_of_declaresValue _ hvalue, Option.toList_none, List.append_nil, hsame]
  have hself : ∀ {k : Kind}, t.kind = k → k ≠ .exportDeclaration → k ≠ .exportDefaultDeclaration →
      itemDeclaration t = t :=
    fun hkind hexport hdefault => itemDeclaration_of_kind (hkind ▸ hexport) (hkind ▸ hdefault)
  cases h with
  | classDef hkind => exact absurd hkind hclass
  | empty hkind =>
    exact hplain (declaresValue_of_kind hkind (hself hkind (by simp) (by simp)) (by simp) (by simp)
      (by simp)) rfl
  | importing hkind =>
    refine hplain (declaresValue_of_kind hkind (hself hkind (by simp) (by simp)) (by simp)
      (by simp) (by simp)) ?_
    rw [addImport_eq]
    split <;> rfl
  | expression hkind =>
    exact hplain (declaresValue_of_kind hkind (hself hkind (by simp) (by simp)) (by simp) (by simp)
      (by simp)) (functional_addExpression s.reading d t)
  | defaultExpression hkind => exact functional_addDefaultExpression s.reading d hkind
  | function hkind hcomponent =>
    rw [itemComponent?_of_function s.reading hkind, hcomponent]
    unfold exported
    split <;> rfl
  | signature hkind hbody =>
    rw [itemComponent?_of_function s.reading hkind, componentOfFunction?, hbody]
    unfold exported
    split <;> simp [Draft.setExport, Draft.update]
  | bindings hkind hdefault =>
    have hvalue := kind_ne_of_itemDeclaration hkind (by simp)
    rw [functional_addVariables, itemComponent?]
    simp [hkind, hdefault]
  | type _ _ hvalue => exact hplain hvalue (functional_addType s d _ _)
  | declaration _ _ hvalue | untransferred _ _ hvalue => exact hplain hvalue rfl

theorem defaultItem?_cons (t : Tree) (ts : List Tree) :
    defaultItem? (t :: ts) =
      (defaultItem? ts).or (if (exportOf? t).isSome then some t else none) := by
  unfold defaultItem?
  rw [List.filter_cons]
  by_cases hexport : (exportOf? t).isSome = true
  · rw [if_pos hexport, if_pos hexport, List.getLast?_cons]
    cases (ts.filter fun t => (exportOf? t).isSome).getLast? <;> rfl
  · rw [if_neg hexport, if_neg hexport, Option.or_none]

theorem exists_exportOf?_of_defaultItem? {u : Tree} (h : defaultItem? ts = some u) :
    ∃ name, exportOf? u = some name := by
  have hmem := (List.mem_filter.1 (List.mem_of_getLast? h)).2
  exact Option.isSome_iff_exists.1 hmem

theorem roots_of_walk (h : ts.foldlM (Draft.addItem s) d = .ok d')
    (hclass : ∀ t ∈ ts, (itemDeclaration t).kind ≠ .classDef) :
    roots d'.model = (d.model.classComponent,
      d.model.functionalComponents ++ ts.filterMap (itemComponent? s.reading),
      ((defaultItem? ts).bind exportOf?).or d.model.exportName) := by
  induction ts generalizing d with
  | nil =>
    obtain rfl : d = d' := Except.ok.inj h
    rw [List.filterMap_nil, List.append_nil]
    rfl
  | cons t ts ih =>
    obtain ⟨d₁, hitem, hrest⟩ := walk_cons h
    have hstep := addItem_step hitem
    have hclass₁ := (hstep.sameClass (hclass t (by simp))).2
    have hcomponents₁ := hstep.functional_eq (hclass t (by simp))
    have hexport₁ := (notes_of_addItem hitem).1
    rw [ih hrest fun u hu => hclass u (by simp [hu]), hclass₁, hcomponents₁, hexport₁,
      defaultItem?_cons, List.append_assoc]
    congr 2
    · cases hcomponent : itemComponent? s.reading t <;> simp [hcomponent]
    · cases hdefault : defaultItem? ts with
      | none => cases hexport : exportOf? t <;> simp [hexport]
      | some u =>
        obtain ⟨name, hname⟩ := exists_exportOf?_of_defaultItem? hdefault
        simp [hname]

theorem itemDeclaration_mem_subtrees (t : Tree) : itemDeclaration t ∈ t.subtrees := by
  unfold itemDeclaration
  split
  · exact t.getD_get?_mem_subtrees .declaration
  · exact t.getD_get?_mem_subtrees .declaration
  · exact t.mem_subtrees_self

/-- Without a class a model has the components of all items, and the name of the default export. -/
theorem roots_modelOf {m : Model} (hmodel : modelOf s = .ok m)
    (hclass : ∀ n ∈ s.reading.module.tree.subtrees, n.kind ≠ .classDef) :
    roots m = (none, s.reading.module.items.filterMap (itemComponent? s.reading),
      (defaultItem? s.reading.module.items).bind exportOf?) := by
  obtain ⟨d, hwalk, rfl⟩ := modelOf_walk hmodel
  have hitems : ∀ t ∈ s.reading.module.items, (itemDeclaration t).kind ≠ .classDef :=
    fun t ht => hclass _ (Tree.mem_subtrees_of_part ht (itemDeclaration_mem_subtrees t))
  have hroots := roots_of_walk hwalk hitems
  have htop : d.topClass = none := (topClass_of_walk hwalk rfl).2 hitems
  have hnested : d.nestedClasses s.reading.module = [] := by
    refine List.filter_eq_nil_iff.2 fun n hn => ?_
    simp [hclass n hn]
  have hsame : roots ((d.addNested s.reading).addMissingValidation s.reading).model =
      roots d.model := by
    simp only [Draft.addNested, hnested, htop, Draft.addMissingValidation]
    split <;> rfl
  rw [hsame, hroots]
  simp

theorem name_of_itemComponent? (hcomponent : itemComponent? r t = some c)
    (hexport : exportOf? t = some name) :
    c.name = name := by
  unfold itemComponent? at hcomponent
  split at hcomponent
  · rename_i hkind
    simp only [exportOf?, hkind] at hexport
    split at hcomponent
    · rename_i harrow
      rw [harrow] at hexport
      obtain rfl := Option.some.inj hcomponent
      exact Option.some.inj hexport
    · cases hcomponent
  · rename_i hkind _
    rw [exportOf?_of_function hkind] at hexport
    obtain ⟨body, -, rfl⟩ := Option.map_eq_some_iff.1 hcomponent
    split at hexport
    · exact Option.some.inj hexport
    · cases hexport
  · rename_i hkind hvalue
    split at hcomponent
    · cases hcomponent
    · rename_i hdefault
      simp only [exportOf?] at hexport
      split at hexport <;> simp_all [isDefault]
  · cases hcomponent

theorem exportedValue_mem_subtrees (t : Tree) : exportedValue t ∈ t.subtrees :=
  Tree.mem_subtrees_trans (t.getD_get?_mem_subtrees .value) (Tree.withoutParens_mem_subtrees _)

theorem arrowDeclarator?_eq_some {isAsync : Bool}
    (h : arrowDeclarator? t = some (name, arrow, isAsync)) :
    ∃ value, t.get? .initializer = some value ∧ arrow = value.withoutParens ∧
      arrow.kind = .arrow isAsync := by
  unfold arrowDeclarator? at h
  obtain ⟨name', -, h⟩ := Option.bind_eq_some_iff.1 h
  obtain ⟨value, hvalue, h⟩ := Option.bind_eq_some_iff.1 h
  dsimp only at h
  split at h
  · rename_i hkind
    obtain ⟨-, rfl, rfl⟩ : name' = name ∧ value.withoutParens = arrow ∧ _ = isAsync := by
      simpa using h
    exact ⟨value, hvalue, rfl, hkind⟩
  · cases h

def HasBodyIn (r : Reading) (t : Tree) (c : FunctionalComponent) : Prop :=
  ∃ setting, ∃ body ∈ t.subtrees, c.body.fragment = fragmentOf r setting body

theorem hasBodyIn_componentOfArrow (r : Reading) (name : String) (isAsync : Bool) (span : Span)
    (h : arrow ∈ t.subtrees) :
    HasBodyIn r t (componentOfArrow r name arrow isAsync span) := by
  refine ⟨functionalSetting (arrow.all .param).head?, (arrow.get? .body).getD arrow,
    Tree.mem_subtrees_trans h (arrow.getD_get?_mem_subtrees .body), ?_⟩
  unfold componentOfArrow functionalComponent
  dsimp only
  split <;> rfl

theorem hasBodyIn_of_itemComponent? (h : itemComponent? r t = some c) : HasBodyIn r t c := by
  unfold itemComponent? at h
  split at h
  · split at h
    · obtain rfl := Option.some.inj h
      exact hasBodyIn_componentOfArrow _ _ _ _ (exportedValue_mem_subtrees t)
    · cases h
  · obtain ⟨body, hbody, rfl⟩ := Option.map_eq_some_iff.1 h
    exact ⟨_, body, Tree.mem_subtrees_trans (itemDeclaration_mem_subtrees t)
      (Tree.mem_subtrees_of_get? hbody), rfl⟩
  · split at h
    · cases h
    · unfold boundComponent? at h
      split at h
      · rename_i declarator hsingle
        obtain ⟨⟨name, arrow, isAsync⟩, harrow, rfl⟩ := Option.map_eq_some_iff.1 h
        obtain ⟨value, hvalue, rfl, -⟩ := arrowDeclarator?_eq_some harrow
        have hdeclarator : declarator ∈ (itemDeclaration t).subtrees :=
          Tree.mem_subtrees_of_all (r := .declarator) (by rw [hsingle]; exact List.mem_cons_self)
        apply hasBodyIn_componentOfArrow
        refine Tree.mem_subtrees_trans (itemDeclaration_mem_subtrees t) ?_
        refine Tree.mem_subtrees_trans hdeclarator ?_
        exact Tree.mem_subtrees_trans (Tree.mem_subtrees_of_get? hvalue)
          (Tree.withoutParens_mem_subtrees value)
      · cases h
  · cases h

theorem exists_functionalRender (hbody : HasBodyIn r t c) (hlaid : Laid r.source t) :
    ∃ text, Vue.functionalRender c = some text := by
  have hout : ∃ out, Vue.replaceSites c.body.fragment = some out := by
    obtain ⟨setting, body, hmem, hfragment⟩ := hbody
    rw [hfragment]
    obtain ⟨hwithin, hpair⟩ := fragmentOf_ordered setting (hlaid.subtree hmem)
    obtain ⟨-, out, -, hout⟩ := replaceSites_uses hwithin hpair
    exact ⟨out, hout⟩
  obtain ⟨out, hout⟩ := hout
  unfold Vue.functionalRender
  dsimp only
  split <;> rename_i hkind <;> rw [hkind, Body.fragment] at hout <;> rw [hout] <;> exact ⟨_, rfl⟩

end Items

/-! ### The component that is written -/

section Primary
variable {m : Model} {before after : List FunctionalComponent} {c : FunctionalComponent}

theorem primaryFunctional_eq (hcomponents : m.functionalComponents = before ++ c :: after)
    (hexport : m.exportName = some c.name) (hunique : ∀ c' ∈ before, c'.name ≠ c.name) :
    m.primaryFunctional = some c := by
  have hbefore : before.find? (·.name == c.name) = none :=
    List.find?_eq_none.2 fun c' hc' => by simpa using hunique c' hc'
  simp [Model.primaryFunctional, hcomponents, hexport, List.find?_append, hbefore]

theorem helperBlocks_eq_iff (hcomponents : m.functionalComponents = before ++ c :: after) :
    Vue.helperBlocks m (some c.name) = (before ++ after).map (·.source.toList) ↔
      ∀ c' ∈ before ++ after, c'.name ≠ c.name := by
  have hhelpers : Vue.helperBlocks m (some c.name) =
      ((before ++ after).filter fun c' => some c'.name != some c.name).map (·.source.toList) := by
    simp [Vue.helperBlocks, hcomponents]
  rw [hhelpers]
  constructor
  · intro heq
    have hlength := congrArg List.length heq
    rw [List.length_map, List.length_map] at hlength
    intro c' hc'
    simpa using List.length_filter_eq_length_iff.1 hlength c' hc'
  · intro hunique
    rw [List.filter_eq_self.2 fun c' hc' => by simpa using hunique c' hc']

def fileOf (m : Model) (helpers sections : List (List Char)) : String :=
  String.ofList (joinWith "\n\n".toList
    (Vue.importBlock m ++ m.declarations.map (·.toList) ++ helpers ++ [Vue.exportDefault sections])
      ++ ['\n'])

theorem generate_eq (hclass : m.classComponent = none) (hprimary : m.primaryFunctional = some c) :
    Vue.generate m =
      (Vue.functionalSections m c).map (fileOf m (Vue.helperBlocks m (some c.name))) := by
  rw [Vue.generate, Vue.primarySections, hclass, hprimary]
  dsimp only
  cases Vue.functionalSections m c <;> rfl

end Primary

/-- The item whose component is exported as the default: the default export itself, or the one that
it names. -/
inductive IsDefaultExport (ts : List Tree) (t : Tree) (c : FunctionalComponent) : Prop
  | itself (h : defaultItem? ts = some t)
  | named {u : Tree} (h : defaultItem? ts = some u) (hkind : u.kind = .exportDefaultExpression)
      (hname : (exportedValue u).name? = some c.name)

theorem exportOf?_of_isDefaultExport {t : Tree} (h : IsDefaultExport ts t c)
    (hcomponent : itemComponent? r t = some c) :
    (defaultItem? ts).bind exportOf? = some c.name := by
  cases h with
  | itself h =>
    obtain ⟨name, hname⟩ := exists_exportOf?_of_defaultItem? h
    rw [h, Option.bind_some, hname, name_of_itemComponent? hcomponent hname]
  | named h hkind hname =>
    rw [h, Option.bind_some, exportOf?, hkind]
    dsimp only
    rw [kind_of_name? hname]

/-- Without a class, the component that is exported as the default is written as the new component,
with all others in front of it as they stand and in their order, exactly if no other component has
its name. -/
theorem generate_default_iff {s : Setup} {m : Model} {before after : List Tree} {t : Tree}
    {c : FunctionalComponent} (hmodel : modelOf s = .ok m)
    (hclass : ∀ n ∈ s.reading.module.tree.subtrees, n.kind ≠ .classDef)
    (hitems : s.reading.module.items = before ++ t :: after)
    (hcomponent : itemComponent? s.reading t = some c)
    (hdefault : IsDefaultExport s.reading.module.items t c) :
    let others := (before ++ after).filterMap (itemComponent? s.reading)
    m.functionalComponents = before.filterMap (itemComponent? s.reading) ++
        c :: after.filterMap (itemComponent? s.reading) ∧
      ((m.primaryFunctional = some c ∧
          Vue.helperBlocks m (some c.name) = others.map (·.source.toList)) ↔
        ∀ c' ∈ others, c'.name ≠ c.name) ∧
      ((∀ c' ∈ others, c'.name ≠ c.name) →
        Vue.generate m =
            (Vue.functionalSections m c).map (fileOf m (others.map (·.source.toList))) ∧
          (Laid s.reading.source t → (Vue.generate m).isSome)) := by
  intro others
  have hroots := roots_modelOf hmodel hclass
  simp only [roots, Prod.mk.injEq] at hroots
  obtain ⟨hnoclass, hall, hname⟩ := hroots
  rw [exportOf?_of_isDefaultExport hdefault hcomponent] at hname
  have hcomponents : m.functionalComponents = before.filterMap (itemComponent? s.reading) ++
      c :: after.filterMap (itemComponent? s.reading) := by
    rw [hall, hitems, List.filterMap_append, List.filterMap_cons_some hcomponent]
  have hothers : others = before.filterMap (itemComponent? s.reading) ++
      after.filterMap (itemComponent? s.reading) := List.filterMap_append
  have hprimary : (∀ c' ∈ others, c'.name ≠ c.name) → m.primaryFunctional = some c := by
    intro hunique
    refine primaryFunctional_eq hcomponents hname fun c' hc' => hunique c' ?_
    rw [hothers]
    exact List.mem_append_left _ hc'
  have hhelpers := helperBlocks_eq_iff hcomponents
  rw [← hothers] at hhelpers
  refine ⟨hcomponents, ⟨fun h => hhelpers.1 h.2, fun h => ⟨hprimary h, hhelpers.2 h⟩⟩,
    fun hunique => ?_⟩
  have hgenerate := generate_eq hnoclass (hprimary hunique)
  rw [hhelpers.2 hunique] at hgenerate
  refine ⟨hgenerate, fun hlaid => ?_⟩
  obtain ⟨text, htext⟩ := exists_functionalRender (hasBodyIn_of_itemComponent? hcomponent) hlaid
  rw [hgenerate, Vue.functionalSections, htext]
  rfl

def namedDefault : String :=
  "const A = p => p.x;\nfunction B() \x7b\x7d\nexport default B;\nconst D = () => 1;"

set_option maxRecDepth 100000 in
/-- The named function is written as the component, behind the two others. -/
theorem generate_default_namedDefault :
    ∃ s m c, setupOf? {} namedDefault = some s ∧ modelOf s = .ok m ∧ c.name = "B" ∧
      m.primaryFunctional = some c ∧ Vue.helperBlocks m (some c.name) =
        ["const A = p => p.x;".toList, "const D = () => 1;".toList] := by
  obtain ⟨s, m, hsetup, hmodel, hclass, hcomponents, hexports, hvalues⟩ :=
    exists_of_analysis? {} namedDefault
      (fun s m => (∀ n ∈ s.reading.module.tree.subtrees, n.kind ≠ .classDef) ∧
        s.reading.module.items.map (fun t =>
            (itemComponent? s.reading t).map fun c => (c.name, c.source)) =
          [some ("A", "const A = p => p.x;"), some ("B", "function B() \x7b\x7d"), none,
            some ("D", "const D = () => 1;")] ∧
        s.reading.module.items.map exportOf? = [none, none, some "B", none] ∧
        s.reading.module.items.map (fun t =>
            if t.kind = .exportDefaultExpression then (exportedValue t).name? else none) =
          [none, none, some "B", none]) (by decide +kernel)
  obtain ⟨a, ts, hitems, ha, hrest⟩ := List.map_eq_cons_iff.1 hcomponents
  obtain ⟨b, ts, rfl, hb, hrest⟩ := List.map_eq_cons_iff.1 hrest
  obtain ⟨u, ts, rfl, hu, hrest⟩ := List.map_eq_cons_iff.1 hrest
  obtain ⟨d, ts, rfl, hd, hrest⟩ := List.map_eq_cons_iff.1 hrest
  obtain rfl := List.map_eq_nil_iff.1 hrest
  rw [hitems] at hexports hvalues
  simp only [List.map_cons, List.map_nil, List.cons.injEq, and_true] at hexports hvalues
  obtain ⟨-, -, hexport, hlater⟩ := hexports
  have hkind : u.kind = .exportDefaultExpression := by
    refine Classical.byContradiction fun hother => ?_
    simp [hother] at hvalues
  have hvalue : (exportedValue u).name? = some "B" := by simpa [hkind] using hvalues.2.2.1
  obtain ⟨c, hc, hpair⟩ := Option.map_eq_some_iff.1 hb
  obtain ⟨hname, -⟩ := Prod.mk.inj hpair
  have hlast : defaultItem? s.reading.module.items = some u := by
    rw [hitems, defaultItem?_cons, defaultItem?_cons, defaultItem?_cons, defaultItem?_cons, hlater,
      hexport]
    rfl
  obtain ⟨-, hiff, -⟩ := @generate_default_iff s m [a] [u, d] b c hmodel hclass hitems hc
    (.named hlast hkind (hname ▸ hvalue))
  obtain ⟨first, hfirst, hfirstPair⟩ := Option.map_eq_some_iff.1 ha
  obtain ⟨last, hlastComponent, hlastPair⟩ := Option.map_eq_some_iff.1 hd
  have hothers : ([a] ++ [u, d]).filterMap (itemComponent? s.reading) = [first, last] := by
    simp [hfirst, hlastComponent, Option.map_eq_none_iff.1 hu]
  obtain ⟨hfirstName, hfirstSource⟩ := Prod.mk.inj hfirstPair
  obtain ⟨hlastName, hlastSource⟩ := Prod.mk.inj hlastPair
  rw [hothers] at hiff
  obtain ⟨hprimary, hhelpers⟩ := hiff.2 (by simp [hname, hfirstName, hlastName])
  refine ⟨s, m, c, hsetup, hmodel, hname, hprimary, hhelpers.trans ?_⟩
  simp [hfirstSource, hlastSource]

def namelessDefault : String :=
  "function Component() \x7b return 1; \x7d\nexport default () => 2;\n"

set_option maxRecDepth 100000 in
/-- The function is written in place of the default export, which is lost. No caveat says so. -/
theorem generate_default_namelessDefault :
    ∃ s m, setupOf? {} namelessDefault = some s ∧ modelOf s = .ok m ∧
      m.functionalComponents.map (·.source) =
        ["function Component() \x7b return 1; \x7d", "() => 2"] ∧
      m.primaryFunctional = m.functionalComponents.head? ∧
      Vue.helperBlocks m (some anonymous) = [] ∧ m.caveats.toList = [] ∧
      Vue.generate m = some ("export default \x7b\n  name: 'Component',\n  functional: true,\n" ++
        "  render(h, context) \x7b\n    return 1;\n  \x7d\n\x7d;\n") :=
  exists_of_analysis? {} namelessDefault _ (by decide +kernel)

end Revue.Analysis
