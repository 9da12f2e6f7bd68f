import Mathlib.Data.List.Infix
import Revue.Proofs.ItemNotes
import Revue.Proofs.Tables

/-!
# What the items of a module leave in its model

Models only grow on the walk through a module, so that what an item leaves is found in the end. An
item leaves an entry or a caveat, with four exceptions: an empty statement, an import of a framework
package, the signature of a function, and a default export that is only a name and is replaced by a
later one. A signature changes nothing at all, and no caveat says so.
-/

namespace Revue.Analysis
open Text Syntax Component

def StaticField.keys (m : Model) : StaticField → List String
  | .propTypes => m.propTypes.keys
  | .defaultProps => m.defaultProps.keys
  | .displayName => m.displayNames.keys

structure Grows (m m' : Model) : Prop where
  imports : m.imports <+: m'.imports
  declarations : m.declarations <+: m'.declarations
  functionalComponents : m.functionalComponents <+: m'.functionalComponents
  caveats : m.caveats.toList <+: m'.caveats.toList
  keys : ∀ field : StaticField, field.keys m <+: field.keys m'

namespace Grows
variable {m m₁ m' : Model}

theorem refl (m : Model) : Grows m m :=
  ⟨List.prefix_rfl, List.prefix_rfl, List.prefix_rfl, List.prefix_rfl, fun _ => List.prefix_rfl⟩

theorem trans (h : Grows m m₁) (h' : Grows m₁ m') : Grows m m' where
  imports := h.imports.trans h'.imports
  declarations := h.declarations.trans h'.declarations
  functionalComponents := h.functionalComponents.trans h'.functionalComponents
  caveats := h.caveats.trans h'.caveats
  keys field := (h.keys field).trans (h'.keys field)

theorem addCaveats (m : Model) (cs : List Caveat) : Grows m (m.addCaveats cs) :=
  { refl m with caveats := List.prefix_append _ _ }

theorem addCaveat (m : Model) (c : Caveat) : Grows m (m.addCaveat c) := addCaveats m [c]

theorem insertPropTypes (m : Model) (component : String) (props : PropTable) :
    Grows m { m with propTypes := m.propTypes.insert component props } := by
  refine { refl m with keys := ?_ }
  intro field
  cases field with
  | propTypes => exact Table.keys_prefix_insert component props m.propTypes
  | defaultProps => exact List.prefix_rfl
  | displayName => exact List.prefix_rfl

end Grows

section Static
variable {r : Reading} {m m' : Model} {component : String} {field : StaticField} {value : Tree}

theorem recordPropTypes_grows (m : Model) (component : String) (object : Tree) :
    Grows m (recordPropTypes m component object) := by
  unfold recordPropTypes
  dsimp only
  split
  · exact .addCaveat m _
  · exact (Grows.addCaveats m _).trans (.insertPropTypes _ component _)

theorem recordStatic?_grows (h : recordStatic? r m component field value = some m') :
    Grows m m' := by
  rcases recordStatic?_cases h with ⟨rfl, -, rfl⟩ | ⟨rfl, rfl⟩ | ⟨rfl, name, rfl⟩
  · exact recordPropTypes_grows m component _
  · refine { Grows.refl m with keys := ?_ }
    intro field
    cases field with
    | propTypes => exact List.prefix_rfl
    | defaultProps => exact Table.keys_prefix_insert component _ m.defaultProps
    | displayName => exact List.prefix_rfl
  · refine { Grows.refl m with keys := ?_ }
    intro field
    cases field with
    | propTypes => exact List.prefix_rfl
    | defaultProps => exact List.prefix_rfl
    | displayName => exact Table.keys_prefix_insert component _ m.displayNames

/-- What is recorded is found with its component. Validators that are ignored behind a type are
found with what the type declares. -/
theorem mem_keys_of_recordStatic? (h : recordStatic? r m component field value = some m') :
    component ∈ field.keys m' := by
  rcases recordStatic?_cases h with ⟨rfl, -, rfl⟩ | ⟨rfl, rfl⟩ | ⟨rfl, name, rfl⟩
  · unfold recordPropTypes
    dsimp only
    split
    · rename_i htyped
      cases hget : m.propTypes.get? component with
      | none =>
        rw [hget] at htyped
        cases htyped
      | some props => exact Table.mem_keys (Table.mem_of_get? hget)
    · exact Table.mem_keys_insert component _ _
  · exact Table.mem_keys_insert component _ _
  · exact Table.mem_keys_insert component _ _

theorem ClassRun.grows {statics : List (StaticField × Tree)}
    (h : ClassRun r component statics m m') : Grows m m' := by
  induction h with
  | nil m => exact .refl m
  | caveats _ _ ih => exact (Grows.addCaveats _ _).trans ih
  | static hrecord _ ih => exact (recordStatic?_grows hrecord).trans ih

theorem addClass_grows (r : Reading) (m : Model) (name : String) (t : Tree) (isNested : Bool) :
    Grows m (addClass r m name t isNested) := by
  obtain ⟨m', c, hrun, -, -, heq⟩ := run_addClass r m name t isNested
  rw [heq]
  have hgrows := hrun.grows
  exact { hgrows with }

end Static

section Items
variable {s : Setup} {d d' : Draft} {t : Tree}

/-- A function without a body. -/
def isSignature (t : Tree) : Bool :=
  match (itemDeclaration t).kind with
  | .function _ => ((itemDeclaration t).get? .body).isNone
  | _ => false

def isFrameworkImport (t : Tree) : Bool :=
  t.kind = .importDef && frameworkPackages.contains (importedFrom t)

/-- An item that leaves the name of a default export and nothing else. -/
def isNameOnly (t : Tree) : Bool :=
  match t.kind with
  | .exportDefaultDeclaration => isSignature t
  | .exportDefaultExpression => (exportedValue t).name?.isSome
  | _ => false

/-- What an item leaves in a model: an import or a declaration as it stands, a component, props of
the components that a type is correlated with, a static field, the name of the default export if the
item is nothing else, or a caveat about the item. -/
inductive Traced (s : Setup) (t : Tree) (m : Model) : Prop
  | importing (hkind : t.kind = .importDef) (h : s.reading.text t.span ∈ m.imports)
  | declaration
      (h : s.reading.withTrailing (s.reading.text t.span) t.span.stop ∈ m.declarations)
  | functional (c : FunctionalComponent) (h : c ∈ m.functionalComponents)
      (hspan : c.span = declaredSpan t ∨ c.span = (exportedValue t).span)
      (hsource : c.source = s.reading.text c.span)
  | classComponent (c : ClassComponent) (hkind : (itemDeclaration t).kind = .classDef)
      (h : m.classComponent = some c) (hspan : c.span = (itemDeclaration t).span)
  | contract (name : String) (members : List Tree)
      (hmembers : contractMembers? (itemDeclaration t) = some (name, members))
      (hsome : componentsFor s.correlations name ≠ [])
      (h : componentsFor s.correlations name ⊆ m.propTypes.keys)
  | static (component : String) (field : StaticField) (value : Tree)
      (hassigned : (t.get? .operand).bind staticAssignment? = some (component, field, value))
      (h : component ∈ field.keys m)
  | exportName (name : String) (honly : isNameOnly t = true) (hname : exportOf? t = some name)
      (h : m.exportName = some name)
  | caveat (c : Caveat) (h : c ∈ m.caveats.toList) (hspan : c.span? = some t.span)

theorem exported_grows (d : Draft) (t : Tree) : Grows d.model (exported d t).model := by
  unfold exported
  split
  · exact { Grows.refl d.model with }
  · exact .refl _

theorem addFunctional_grows (d : Draft) (c : FunctionalComponent) :
    Grows d.model (d.addFunctional c).model :=
  { Grows.refl d.model with functionalComponents := List.prefix_append _ _ }

theorem addDeclaration_grows (r : Reading) (d : Draft) (span : Span) :
    Grows d.model (d.addDeclaration r span).model :=
  { Grows.refl d.model with declarations := List.prefix_append _ _ }

theorem addVariables_grows (r : Reading) (d : Draft) (t : Tree) (span : Span) :
    Grows d.model (d.addVariables r t span).model := by
  unfold Draft.addVariables
  split
  · split
    · exact addFunctional_grows d _
    · exact addDeclaration_grows r d span
  · exact addDeclaration_grows r d span

theorem addDefaultExpression_grows (r : Reading) (d : Draft) (value : Tree) (span : Span) :
    Grows d.model (d.addDefaultExpression r value span).model := by
  unfold Draft.addDefaultExpression
  dsimp only
  split
  · exact { Grows.refl d.model with }
  · exact { Grows.refl d.model with functionalComponents := List.prefix_append _ _ }
  · exact .addCaveat d.model _

theorem addExpression_grows (r : Reading) (d : Draft) (t : Tree) :
    Grows d.model (d.addExpression r t).model := by
  unfold Draft.addExpression
  dsimp only
  split
  · rename_i model hrecord
    obtain ⟨e, -, hassigned⟩ := Option.bind_eq_some_iff.1 hrecord
    obtain ⟨⟨component, field, value⟩, -, hstatic⟩ := Option.bind_eq_some_iff.1 hassigned
    exact recordStatic?_grows hstatic
  · exact .addCaveat d.model _

theorem addContract_grows (s : Setup) (members : List Tree) (span : Span) (d : Draft)
    (component : String) : Grows d.model (d.addContract s members span component).model := by
  unfold Draft.addContract
  dsimp only [Draft.update]
  refine Grows.trans ?_ (.insertPropTypes _ component _)
  split
  · exact (Grows.addCaveats d.model _).trans (.addCaveat _ _)
  · exact .addCaveats d.model _

theorem addContracts_grows (s : Setup) (members : List Tree) (span : Span)
    (components : List String) (d : Draft) :
    Grows d.model (components.foldl (Draft.addContract s members span) d).model := by
  induction components generalizing d with
  | nil => exact .refl _
  | cons component components ih =>
    exact (addContract_grows s members span d component).trans (ih _)

theorem addType_grows (s : Setup) (d : Draft) (t : Tree) (span : Span) :
    Grows d.model (d.addType s t span).model :=
  addType_induction (P := fun d' => Grows d.model d'.model) (.refl _)
    (addDeclaration_grows s.reading d span)
    fun _ members _ d' component hd' => hd'.trans (addContract_grows s members span d' component)

theorem ItemStep.grows (h : ItemStep s d t d') : Grows d.model d'.model := by
  cases h with
  | empty => exact .refl _
  | importing =>
    rw [addImport_eq]
    split
    · exact .refl _
    · exact { Grows.refl d.model with imports := List.prefix_append _ _ }
  | expression => exact addExpression_grows s.reading d t
  | defaultExpression => exact addDefaultExpression_grows s.reading d _ _
  | classDef => exact (exported_grows d t).trans (addClass_grows _ _ _ _ _)
  | function => exact (exported_grows d t).trans (addFunctional_grows _ _)
  | signature => exact exported_grows d t
  | bindings => exact addVariables_grows s.reading d _ _
  | type => exact addType_grows s d _ _
  | declaration => exact addDeclaration_grows s.reading d _
  | untransferred => exact .addCaveat d.model _

theorem exportName_of_walk {ts : List Tree} (h : ts.foldlM (Draft.addItem s) d = .ok d')
    (hnone : ∀ t ∈ ts, exportOf? t = none) : d'.model.exportName = d.model.exportName :=
  (notes_of_walk h).1.trans (exportAfter_of_none hnone _)

theorem grows_of_walk {ts : List Tree} (h : ts.foldlM (Draft.addItem s) d = .ok d') :
    Grows d.model d'.model :=
  walk_induction (R := fun d d' => Grows d.model d'.model) (fun d => .refl d.model)
    (fun hstep hrest => hstep.grows.trans hrest) h

theorem addNested_grows (r : Reading) (d : Draft) : Grows d.model (d.addNested r).model := by
  unfold Draft.addNested
  dsimp only
  refine Grows.trans ?_ (.addCaveats _ _)
  split
  · exact addClass_grows r d.model _ _ true
  · exact .refl _

theorem addNested_keeps (r : Reading) (d : Draft) :
    (d.addNested r).model.exportName = d.model.exportName ∧
      (d.topClass ≠ none → (d.addNested r).model.classComponent = d.model.classComponent) := by
  refine ⟨congrArg (·.model.exportName) (addNested_withNotes d.model.exportName
    d.model.declarations d r), fun hsome => ?_⟩
  unfold Draft.addNested
  dsimp only
  split
  · contradiction
  · rfl

theorem addMissingValidation_grows (r : Reading) (d : Draft) :
    Grows d.model (d.addMissingValidation r).model := by
  unfold Draft.addMissingValidation
  split
  · exact .addCaveat d.model _
  · exact .refl _

theorem addMissingValidation_keeps (r : Reading) (d : Draft) :
    (d.addMissingValidation r).model.exportName = d.model.exportName ∧
      (d.addMissingValidation r).model.classComponent = d.model.classComponent := by
  unfold Draft.addMissingValidation
  split <;> exact ⟨rfl, rfl⟩

theorem mem_keys_of_addContracts (s : Setup) (members : List Tree) (span : Span)
    (components : List String) (d : Draft) :
    components ⊆
      (components.foldl (Draft.addContract s members span) d).model.propTypes.keys := by
  induction components generalizing d with
  | nil => exact List.nil_subset _
  | cons component components ih =>
    have hself : component ∈ (d.addContract s members span component).model.propTypes.keys :=
      Table.mem_keys_insert component _ _
    have hgrows := addContracts_grows s members span components
      (d.addContract s members span component)
    exact List.cons_subset.2 ⟨(hgrows.keys .propTypes).subset hself, ih _⟩

/-- The signature of a function that is not the default export changes nothing. -/
theorem addItem_of_signature (hsignature : isSignature t = true) (hdefault : isDefault t = false) :
    d.addItem s t = .ok d := by
  have hkind : ∃ flags, (itemDeclaration t).kind = .function flags := by
    unfold isSignature at hsignature
    split at hsignature
    · exact ⟨_, by assumption⟩
    · cases hsignature
  obtain ⟨flags, hkind⟩ := hkind
  have hbody : (itemDeclaration t).get? .body = none := by
    simpa [isSignature, hkind] using hsignature
  have hdeclared : d.addTopDeclaration s (itemDeclaration t) t.span = .ok d := by
    simp [Draft.addTopDeclaration, hkind, componentOfFunction?, hbody]
  by_cases hexport : t.kind = .exportDeclaration
  · simpa [Draft.addItem, hexport, itemDeclaration] using hdeclared
  · have hself : itemDeclaration t = t :=
      itemDeclaration_of_kind hexport (by simpa [isDefault] using hdefault)
    rw [hself] at hkind hdeclared
    simpa [Draft.addItem, hkind] using hdeclared

theorem exportName_exported (h : isDefault t = true) {flags : FunctionFlags}
    (hkind : (itemDeclaration t).kind = .function flags) :
    exportOf? t = some (nameOrAnonymous (itemDeclaration t)) ∧
      (exported d t).model.exportName = some (nameOrAnonymous (itemDeclaration t)) := by
  have hdefault : t.kind = .exportDefaultDeclaration := by simpa [isDefault] using h
  refine ⟨by simp [exportOf?, hdefault, hkind], ?_⟩
  rw [exported, if_pos h]
  rfl

/-- An item leaves its trace at once, unless it is one of those that leave none. -/
theorem ItemStep.traced (h : ItemStep s d t d') :
    Traced s t d'.model ∨ t.kind = .empty ∨ isFrameworkImport t = true ∨
      isSignature t = true ∧ isDefault t = false := by
  cases h with
  | empty hkind => exact Or.inr (Or.inl hkind)
  | importing hkind =>
    rw [addImport_eq]
    by_cases hframework : frameworkPackages.contains (importedFrom t) = true
    · have himport : isFrameworkImport t = true := by rw [isFrameworkImport, hkind, hframework]; rfl
      exact Or.inr (Or.inr (Or.inl himport))
    · rw [if_neg hframework]
      exact Or.inl (.importing hkind (List.mem_append_right _ (List.mem_singleton_self _)))
  | expression hkind =>
    left
    rcases addExpression_cases s.reading d t with
      heq | ⟨component, field, value, m', hassigned, hstatic, heq⟩
    · rw [heq]
      exact .caveat _ (List.mem_append_right _ (List.mem_singleton_self _)) rfl
    · rw [heq]
      exact .static component field value hassigned (mem_keys_of_recordStatic? hstatic)
  | defaultExpression hkind =>
    left
    unfold Draft.addDefaultExpression
    dsimp only
    split
    · rename_i text hname
      have hname : (exportedValue t).kind = .name text := hname
      exact .exportName text (by simp [isNameOnly, hkind, Tree.name?, hname])
        (by simp [exportOf?, hkind, hname]) rfl
    · exact .functional _ (List.mem_append_right _ (List.mem_singleton_self _)) (Or.inr rfl) rfl
    · exact .caveat _ (List.mem_append_right _ (List.mem_singleton_self _)) rfl
  | classDef hkind =>
    left
    obtain ⟨m', c, -, -, hspan, heq⟩ := run_addClass s.reading (exported d t).model
      (nameOrAnonymous (itemDeclaration t)) (itemDeclaration t) false
    exact .classComponent c hkind (by rw [heq]) hspan
  | function hkind hcomponent =>
    left
    obtain ⟨body, -, rfl⟩ := Option.map_eq_some_iff.1 hcomponent
    exact .functional _ (List.mem_append_right _ (List.mem_singleton_self _)) (Or.inl rfl) rfl
  | signature hkind hbody =>
    have hsignature : isSignature t = true := by simp [isSignature, hkind, hbody]
    by_cases hdefault : isDefault t = true
    · obtain ⟨hname, hexport⟩ := exportName_exported (d := d) hdefault hkind
      have honly : isNameOnly t = true := by
        have hitem : t.kind = .exportDefaultDeclaration := by simpa [isDefault] using hdefault
        simp [isNameOnly, hitem, hsignature]
      exact Or.inl (.exportName _ honly hname hexport)
    · exact Or.inr (Or.inr (Or.inr ⟨hsignature, by simpa using hdefault⟩))
  | bindings _ hdefault =>
    left
    have hspan : declaredSpan t = t.span := by simp [declaredSpan, hdefault]
    unfold Draft.addVariables
    have hdeclaration : Traced s t (d.addDeclaration s.reading t.span).model :=
      .declaration (List.mem_append_right _ (List.mem_singleton_self _))
    split
    · split
      · exact .functional _ (List.mem_append_right _ (List.mem_singleton_self _))
          (Or.inl hspan.symm) rfl
      · exact hdeclaration
    · exact hdeclaration
  | type =>
    left
    rcases addType_cases s d (itemDeclaration t) t.span with
      ⟨heq, -⟩ | ⟨name, members, hmembers, hsome, heq⟩
    · rw [heq]
      exact .declaration (List.mem_append_right _ (List.mem_singleton_self _))
    · rw [heq]
      exact .contract name members hmembers hsome (mem_keys_of_addContracts s members _ _ d)
  | declaration => exact Or.inl (.declaration (List.mem_append_right _ (List.mem_singleton_self _)))
  | untransferred =>
    exact Or.inl (.caveat _ (List.mem_append_right _ (List.mem_singleton_self _)) rfl)

/-- What an item has left is found in every model that has grown from there, if the class component
and the name of the default export have not changed since. -/
theorem Traced.mono {m m' : Model} (h : Traced s t m) (hgrows : Grows m m')
    (hclass : (itemDeclaration t).kind = .classDef → m'.classComponent = m.classComponent)
    (hexport : isNameOnly t = true → m'.exportName = m.exportName) : Traced s t m' := by
  cases h with
  | importing hkind h => exact .importing hkind (hgrows.imports.subset h)
  | declaration h => exact .declaration (hgrows.declarations.subset h)
  | functional c h hspan hsource =>
    exact .functional c (hgrows.functionalComponents.subset h) hspan hsource
  | classComponent c hkind h hspan => exact .classComponent c hkind ((hclass hkind).trans h) hspan
  | contract name members hmembers hsome h =>
    have hkeys := List.Subset.trans h (hgrows.keys .propTypes).subset
    exact .contract name members hmembers hsome hkeys
  | static component field value hassigned h =>
    exact .static component field value hassigned ((hgrows.keys field).subset h)
  | exportName name honly hname h => exact .exportName name honly hname ((hexport honly).trans h)
  | caveat c h hspan => exact .caveat c (hgrows.caveats.subset h) hspan

/-- Every item of a module leaves a trace in the model, except for an empty statement, an import of
a framework package, a signature that is not the default export, and a default export that is only a
name and is followed by another one. Such a signature is passed over. -/
theorem item_traced_or_dropped {m : Model} {before after : List Tree} (h : modelOf s = .ok m)
    (hitems : s.reading.module.items = before ++ t :: after) :
    Traced s t m ∨ t.kind = .empty ∨ isFrameworkImport t = true ∨
      (isSignature t = true ∧ isDefault t = false ∧ ∀ d : Draft, d.addItem s t = .ok d) ∨
      isNameOnly t = true ∧ ∃ other ∈ after, (exportOf? other).isSome := by
  obtain ⟨last, hwalk, rfl⟩ := modelOf_walk h
  rw [hitems] at hwalk
  obtain ⟨d, -, hwalk⟩ := walk_append hwalk
  obtain ⟨d₁, hitem, hafter⟩ := walk_cons hwalk
  have hstep := addItem_step hitem
  rcases hstep.traced with htraced | hempty | himport | ⟨hsignature, hdefault⟩
  · have hgrows := (grows_of_walk hafter).trans
      ((addNested_grows s.reading last).trans (addMissingValidation_grows s.reading _))
    have hclass : (itemDeclaration t).kind = .classDef →
        ((last.addNested s.reading).addMissingValidation s.reading).model.classComponent =
          d₁.model.classComponent := by
      intro hkind
      have hsome : d₁.topClass ≠ none := by simp [(hstep.topClass_of_classDef hkind).2]
      obtain ⟨hlast, hkept⟩ := sameClass_of_walk hafter hsome
      rw [(addMissingValidation_keeps s.reading _).2,
        (addNested_keeps s.reading last).2 (hlast ▸ hsome), hkept]
    by_cases hreplaced : isNameOnly t = true ∧ ∃ other ∈ after, (exportOf? other).isSome
    · exact Or.inr (Or.inr (Or.inr (Or.inr hreplaced)))
    · refine Or.inl (htraced.mono hgrows hclass ?_)
      intro honly
      have hnone : ∀ other ∈ after, exportOf? other = none := by
        intro other hother
        cases hexport : exportOf? other with
        | none => rfl
        | some name => exact absurd ⟨honly, other, hother, by simp [hexport]⟩ hreplaced
      rw [(addMissingValidation_keeps s.reading _).1, (addNested_keeps s.reading last).1,
        exportName_of_walk hafter hnone]
  · exact Or.inr (Or.inl hempty)
  · exact Or.inr (Or.inr (Or.inl himport))
  · exact Or.inr (Or.inr (Or.inr (Or.inl
      ⟨hsignature, hdefault, fun d => addItem_of_signature hsignature hdefault⟩)))

def sixItems : String :=
  "import a from 'a';\nconst b = 1;\nf.displayName = 'F';\nb();\nexport function f() \x7b\x7d\n" ++
    "export default class C \x7b\x7d"

set_option maxRecDepth 100000 in
theorem item_traced_sixItems :
    ∃ s m, setupOf? {} sixItems = some s ∧ modelOf s = .ok m ∧
      s.reading.module.items.length = 6 ∧ ∀ t ∈ s.reading.module.items, Traced s t m := by
  obtain ⟨s, m, hsetup, hmodel, hlength, hall⟩ := exists_of_analysis? {} sixItems
    (fun s _ => s.reading.module.items.length = 6 ∧
      ∀ t ∈ s.reading.module.items, t.kind ≠ .empty ∧ isFrameworkImport t = false ∧
        isSignature t = false ∧ isNameOnly t = false)
    (by decide +kernel)
  refine ⟨s, m, hsetup, hmodel, hlength, ?_⟩
  intro t ht
  obtain ⟨before, after, hitems⟩ := List.append_of_mem ht
  obtain ⟨hempty, himport, hsignature, hname⟩ := hall t ht
  have htraced := item_traced_or_dropped hmodel hitems
  simpa [hempty, himport, hsignature, hname] using htraced

set_option maxRecDepth 100000 in
/-- A signature leaves nothing in the model. -/
theorem signature_not_traced :
    ∃ s m t, setupOf? { isTyped := true } "declare function f(a: number): number;" = some s ∧
      modelOf s = .ok m ∧ s.reading.module.items = [t] ∧ t.kind ≠ .empty ∧ t.kind ≠ .importDef ∧
      ¬ Traced s t m := by
  obtain ⟨s, m, hsetup, hmodel, hmodel', hlength, hall⟩ := exists_of_analysis? { isTyped := true }
    "declare function f(a: number): number;"
    (fun s m => m = {} ∧ s.reading.module.items.length = 1 ∧
      ∀ t ∈ s.reading.module.items, t.kind ≠ .empty ∧ t.kind ≠ .importDef ∧
        (itemDeclaration t).kind ≠ .classDef ∧ isNameOnly t = false)
    (by decide +kernel)
  obtain ⟨t, hitems⟩ := List.length_eq_one_iff.1 hlength
  have hmem : t ∈ s.reading.module.items := by
    rw [hitems]
    exact List.mem_singleton_self t
  obtain ⟨hempty, himport, hclass, hname⟩ := hall t hmem
  refine ⟨s, m, t, hsetup, hmodel, hitems, hempty, himport, ?_⟩
  rintro htraced
  subst hmodel'
  cases htraced with
  | importing _ h => cases h
  | declaration h => cases h
  | functional _ h => cases h
  | classComponent _ hkind => exact hclass hkind
  | contract _ _ _ hsome h => exact hsome (List.subset_nil.1 h)
  | static _ field _ _ h => cases field <;> cases h
  | exportName _ honly => simp [hname] at honly
  | caveat _ h => cases h

end Items

end Revue.Analysis
