import Revue.Proofs.DeclaredProps

/-!
# The entries of recorded objects

An object of validators or of default values is recorded entry by entry. An entry that is read adds
its name to the component, and the name stays there to the end; only a type may take validators
away, and a caveat says so. Properties and shorthands with a name are read, and methods among
validators. Of all other entries (spread objects, accessors, keys in brackets, methods among default
values) nothing is left: the object is recorded as if they were not there, and without a caveat.
-/

namespace Revue.Analysis
open Text Syntax Component

variable {object : Tree} {m m' : Model} {s : Setup} {x : Static} {component name : String}
  {st : Standing} {xs : List Static} {field : StaticField} {cs : List Contract}

/-! ### Entries -/

/-- The name under which an entry of an object is recorded for a static field. -/
def entryName? (field : StaticField) (e : Tree) : Option String :=
  (e.get? .key).bind fun key =>
    match field, e.kind with
    | .displayName, _ => none
    | _, .property => (e.get? .value).bind fun _ => keyName? key
    | _, .shorthand => key.name?
    | .propTypes, .objectMethod _ => keyName? key
    | _, _ => none

theorem validatedProp?_name (e : Tree) :
    (validatedProp? e).map (·.1) = entryName? .propTypes e := by
  unfold validatedProp? entryName?
  cases e.get? .key with
  | none => rfl
  | some key =>
    dsimp only [Option.bind_some, bind]
    cases e.kind with
    | property => cases keyName? key <;> cases e.get? .value <;> rfl
    | shorthand => cases key.name? <;> rfl
    | objectMethod flags => cases keyName? key <;> rfl
    | _ => rfl

theorem defaultValue?_name (r : Reading) (e : Tree) :
    (defaultValue? r e).map (·.1) = entryName? .defaultProps e := by
  unfold defaultValue? entryName?
  cases e.get? .key with
  | none => rfl
  | some key =>
    dsimp only [Option.bind_some, bind]
    cases e.kind with
    | property => cases keyName? key <;> cases e.get? .value <;> rfl
    | shorthand => cases key.name? <;> rfl
    | _ => rfl

theorem mem_keys_validatedProps :
    name ∈ (validatedProps component object).table.keys ↔
      ∃ e ∈ object.parts, entryName? .propTypes e = some name := by
  rw [validatedProps_eq, Table.mem_keys_extend_iff]
  simp only [Table.keys, List.map_nil, List.not_mem_nil, false_or, List.map_filterMap,
    List.mem_filterMap, validatedProp?_name]

def withParts (parts : List Tree) : Tree → Tree
  | .node role kind span _ => .node role kind span parts

/-- Whether an object is recorded as if one of its entries was not there. -/
def LeavesNoTrace (r : Reading) (field : StaticField) (object e : Tree) : Prop :=
  ∀ before after, object.parts = before ++ e :: after → ∀ m component,
    recordStatic? r m component field object =
      recordStatic? r m component field (withParts (before ++ after) object)

/-- An entry without a name is passed over. -/
theorem leavesNoTrace_of_entryName? (r : Reading) {e : Tree} (hobject : object.kind = .object)
    (h : entryName? field e = none) :
    LeavesNoTrace r field object e := by
  obtain ⟨role, kind, span, parts⟩ := object
  obtain rfl : kind = .object := hobject
  rintro before after (rfl : parts = before ++ e :: after) m component
  cases field with
  | propTypes =>
    have hskip : validatedProp? e = none := by simpa [← validatedProp?_name] using h
    have hprops : validatedProps component (.node role .object span (before ++ e :: after)) =
        validatedProps component (.node role .object span (before ++ after)) := by
      simp [validatedProps, Tree.parts, hskip]
    simp only [recordStatic?, withParts, Tree.withoutParens, Tree.kind, recordPropTypes, hprops,
      Tree.span]
  | defaultProps =>
    have hskip : defaultValue? r e = none := by simpa [← defaultValue?_name r] using h
    have hvalues : defaultValues r (.node role .object span (before ++ e :: after)) =
        defaultValues r (.node role .object span (before ++ after)) := by
      simp [defaultValues, Tree.parts, hskip]
    simp only [recordStatic?, withParts, Tree.withoutParens, Tree.kind, recordDefaults, hvalues]
  | displayName => rfl

/-! ### Recorded fields -/

/-- A recorded static field has a form that is understood, and its contracts are recorded. -/
theorem Recording.of_mem (h : Recording s cs xs m m') (hx : x ∈ xs) :
    isUnderstood x.field x.value = true ∧ x.contracts ⊆ cs := by
  induction h with
  | nil => cases hx
  | elsewhere _ _ ih => exact ih hx
  | typed _ _ _ _ ih =>
    obtain ⟨hunderstood, hcontracts⟩ := ih hx
    exact ⟨hunderstood, List.subset_cons_of_subset _ hcontracts⟩
  | static hrecord _ ih =>
    rcases List.mem_cons.1 hx with rfl | hx
    · refine ⟨?_, List.subset_append_left _ _⟩
      rw [← isSome_recordStatic?, hrecord]
      rfl
    · obtain ⟨hunderstood, hcontracts⟩ := ih hx
      exact ⟨hunderstood, List.subset_append_of_subset_right _ hcontracts⟩

/-! ### Validators -/

namespace Standing
variable {name : String}

/-- A name that validators have declared is still known and no type is, or a caveat was noted. -/
def Keeps (name : String) (st : Standing) : Prop :=
  st.isNoted = true ∨ name ∈ st.known.keys ∧ ∀ p ∈ st.known.values, p.kind = .validated

theorem keeps_enter_validated (st : Standing) {table : PropTable} (hname : name ∈ table.keys)
    (hkinds : ∀ p ∈ table.values, p.kind = .validated) :
    Keeps name (st.enter (.validated, table)) := by
  unfold enter
  dsimp only
  split
  · exact Or.inl rfl
  · rename_i htyped
    exact Or.inr ⟨Table.mem_keys_extend_iff.2 (Or.inr hname),
      extend_kind (PropTable.kind_of_not_hasKind_typed htyped) hkinds⟩

theorem Keeps.enter (h : st.Keeps name) {c : PropKind × PropTable}
    (hkinds : ∀ p ∈ c.2.values, p.kind = c.1) : (st.enter c).Keeps name := by
  obtain ⟨kind, table⟩ := c
  rcases h with hnoted | ⟨hname, hvalidated⟩
  · left
    cases kind with
    | typed => simp [Standing.enter, hnoted]
    | validated =>
      simp only [Standing.enter]
      split
      · rfl
      · exact hnoted
  · cases kind with
    | typed =>
      have hsome : st.known ≠ [] := fun hnil => by simp [hnil] at hname
      left
      simp [Standing.enter, (PropTable.hasKind_iff_ne_nil hvalidated).2 hsome]
    | validated =>
      right
      rw [enter_validated (PropTable.hasKind_of_ne (by decide) hvalidated)]
      exact ⟨Table.mem_keys_extend_iff.2 (Or.inl hname), extend_kind hvalidated hkinds⟩

theorem Keeps.foldl_enter (h : st.Keeps name) {cs : List (PropKind × PropTable)}
    (hkinds : ∀ c ∈ cs, ∀ p ∈ c.2.values, p.kind = c.1) :
    (cs.foldl Standing.enter st).Keeps name :=
  List.foldlRecOn cs _ h fun _ hst c hc => hst.enter (hkinds c hc)

end Standing

/-- A name of validators is found in the end, or a caveat says that props were declared twice. -/
theorem mem_keys_of_validated (h : modelOf s = .ok m)
    (hcontract : Contract.validated component object ∈ moduleContracts s)
    (hname : name ∈ (validatedProps component object).table.keys) :
    name ∈ ((m.propTypes.get? component).getD []).keys ∨
      ∃ span, Caveat.duplicateContract component span ∈ m.caveats.toList := by
  have hdeclared : (PropKind.validated, (validatedProps component object).table) ∈
      declared s component :=
    List.mem_map.2 ⟨.validated component object,
      List.mem_filter.2 ⟨hcontract, decide_eq_true rfl⟩, rfl⟩
  obtain ⟨before, after, hsplit⟩ := List.append_of_mem hdeclared
  have hkinds : ∀ c ∈ declared s component, ∀ p ∈ c.2.values, p.kind = c.1 :=
    fun c hc => declared_kind hc
  have hkeeps : ((ledgerOf m).standing component).Keeps name := by
    rw [standing_modelOf h, hsplit, List.foldl_append, List.foldl_cons]
    refine (Standing.keeps_enter_validated _ hname (hkinds _ hdeclared)).foldl_enter ?_
    intro c hc
    exact hkinds c (by rw [hsplit]; simp [hc])
  rcases hkeeps with hnoted | ⟨hknown, -⟩
  · exact Or.inr (isNoted_standing_iff.1 hnoted)
  · exact Or.inl hknown

/-! ### Default values -/

def enterDefaults (r : Reading) (defaults : Table (Table String)) (x : Static) :
    Table (Table String) :=
  if x.field = .defaultProps then
    defaults.insert x.component
      (((defaults.get? x.component).getD []).extend (defaultValues r x.object))
  else defaults

theorem defaultProps_recordStatic? {r : Reading}
    (h : recordStatic? r m x.component x.field x.value = some m') :
    m'.defaultProps = enterDefaults r m.defaultProps x := by
  rcases recordStatic?_cases h with ⟨hfield, -, rfl⟩ | ⟨hfield, rfl⟩ | ⟨hfield, name, rfl⟩
  · rw [enterDefaults, if_neg (by simp [hfield]), recordPropTypes]
    dsimp only
    split <;> rfl
  · rw [enterDefaults, if_pos hfield]
    rfl
  · rw [enterDefaults, if_neg (by simp [hfield])]

/-- The default values of a component, one by one. -/
def recordedDefaults (s : Setup) (component : String) : List (String × String) :=
  ((moduleFields s).filter fun x => x.component = component ∧ x.field = .defaultProps).flatMap
    fun x => x.object.parts.filterMap (defaultValue? s.reading)

section Defaults
variable {s : Setup} {m m' : Model}

/-- The static fields of a recording are entered into the default values in their order. -/
theorem Recording.defaultProps (h : Recording s cs xs m m') :
    m'.defaultProps = xs.foldl (enterDefaults s.reading) m.defaultProps := by
  induction h with
  | nil => rfl
  | elsewhere hother _ ih => rw [ih, hother.defaultProps]
  | typed members span component _ ih =>
    rw [ih]
    unfold Draft.addContract
    dsimp only [Draft.update]
    split <;> rfl
  | static hrecord _ ih => rw [ih, defaultProps_recordStatic? hrecord, List.foldl_cons]

theorem defaultValues_lists (r : Reading) (object : Tree) :
    (defaultValues r object).Lists (object.parts.filterMap (defaultValue? r)) :=
  Table.lists_extend _

theorem foldl_enterDefaults_lists (component : String) (xs : List Static) :
    (((xs.foldl (enterDefaults s.reading) []).get? component).getD []).Lists
      ((xs.filter fun x => x.component = component ∧ x.field = .defaultProps).flatMap
        fun x => x.object.parts.filterMap (defaultValue? s.reading)) := by
  induction xs using List.reverseRecOn with
  | nil => exact ⟨rfl, fun _ => rfl⟩
  | append_singleton xs x ih =>
    rw [List.foldl_concat, enterDefaults, List.filter_append, List.flatMap_append]
    by_cases hfield : x.field = .defaultProps
    · rw [if_pos hfield]
      by_cases hcomponent : x.component = component
      · subst hcomponent
        rw [Table.get?_insert_self]
        simpa [hfield] using ih.extend (defaultValues_lists s.reading x.object)
      · rw [Table.get?_insert_of_ne (Ne.symm hcomponent)]
        simpa [hcomponent] using ih
    · rw [if_neg hfield]
      simpa [hfield] using ih

theorem defaultProps_lists (h : modelOf s = .ok m) (component : String) :
    ((m.defaultProps.get? component).getD []).Lists (recordedDefaults s component) := by
  rw [(recording_modelOf h).defaultProps]
  exact foldl_enterDefaults_lists component (moduleFields s)

end Defaults

/-! ### Entries that are kept and entries that are lost -/

def StaticField.names (m : Model) (component : String) : StaticField → List String
  | .propTypes => ((m.propTypes.get? component).getD []).keys
  | .defaultProps => ((m.defaultProps.get? component).getD []).keys
  | .displayName => []

/-- Whether a model has the name of an entry, or else a caveat: one about the entry, or for
validators one about props of the component that were declared twice. -/
def Accounted (m : Model) (component : String) (field : StaticField) (e : Tree) : Prop :=
  (∃ name, entryName? field e = some name ∧ name ∈ field.names m component) ∨
    ∃ c ∈ m.caveats.toList,
      c.span? = some e.span ∨ field = .propTypes ∧ isDuplicateOf component c = true

theorem kind_of_isUnderstood {value : Tree} (h : isUnderstood field value = true)
    (hfield : field ≠ .displayName) :
    value.withoutParens.kind = .object := by
  unfold isUnderstood at h
  split at h
  · assumption
  · assumption
  · exact absurd rfl hfield
  · cases h

/-- Each entry of a recorded object that is read is found in the end, or a caveat stands for it.
Each other entry leaves no trace, and there is no caveat about it. -/
theorem entries_accounted {s : Setup} {m : Model} (h : modelOf s = .ok m) {x : Static}
    (hx : x ∈ moduleFields s) (hfield : x.field ≠ .displayName) :
    ∀ e ∈ x.object.parts,
      ((entryName? x.field e).isSome = true → Accounted m x.component x.field e) ∧
      (entryName? x.field e = none → LeavesNoTrace s.reading x.field x.object e) := by
  obtain ⟨hunderstood, hcontracts⟩ := (recording_modelOf h).of_mem hx
  have hobject : x.object.kind = .object := kind_of_isUnderstood hunderstood hfield
  refine fun e he => ⟨fun hname => ?_, leavesNoTrace_of_entryName? s.reading hobject⟩
  obtain ⟨name, hname⟩ := Option.isSome_iff_exists.1 hname
  obtain ⟨component, field, value⟩ := x
  cases field with
  | propTypes =>
    have hcontract : Contract.validated component value.withoutParens ∈ moduleContracts s := by
      refine hcontracts ?_
      rw [Static.contracts, fieldContracts, if_pos ⟨rfl, hobject⟩]
      exact List.mem_singleton.2 rfl
    have hdeclared : name ∈ (validatedProps component value.withoutParens).table.keys :=
      mem_keys_validatedProps.2 ⟨e, he, hname⟩
    rcases mem_keys_of_validated h hcontract hdeclared with hkept | ⟨span, hspan⟩
    · exact Or.inl ⟨name, hname, hkept⟩
    · exact Or.inr ⟨_, hspan, Or.inr ⟨rfl, isDuplicateOf_iff.2 ⟨span, rfl⟩⟩⟩
  | defaultProps =>
    refine Or.inl ⟨name, hname, ?_⟩
    obtain ⟨entry, hentry, rfl⟩ :=
      Option.map_eq_some_iff.1 ((defaultValue?_name s.reading e).trans hname)
    rw [StaticField.names, (defaultProps_lists h component).keys, List.mem_eraseDups]
    refine List.mem_map.2 ⟨entry, List.mem_flatMap.2 ⟨_, List.mem_filter.2 ⟨hx, by simp⟩, ?_⟩, rfl⟩
    exact List.mem_filterMap.2 ⟨e, he, hentry⟩
  | displayName => exact absurd rfl hfield

def mixedEntries : String :=
  "class A \x7b static defaultProps = \x7b a: 1, b, c() \x7b\x7d \x7d \x7d\n" ++
    "A.propTypes = (\x7b a: x.bool, 'd-e': y, 7: z, f() \x7b\x7d, get g() \x7b\x7d, ...h \x7d);"

def Static.summary (x : Static) : String × StaticField × List (Option String) :=
  (x.component, x.field, x.object.parts.map (entryName? x.field))

set_option maxRecDepth 100000 in
/-- Among validators a method is read, and among default values it is not. -/
theorem entries_accounted_mixedEntries :
    ∃ s m x, setupOf? {} mixedEntries = some s ∧ modelOf s = .ok m ∧ x ∈ moduleFields s ∧
      x.summary = ("A", .propTypes, [some "a", some "d-e", some "7", some "f", none, none]) ∧
      ∀ e ∈ x.object.parts,
        ((entryName? x.field e).isSome = true → Accounted m x.component x.field e) ∧
        (entryName? x.field e = none → LeavesNoTrace s.reading x.field x.object e) := by
  obtain ⟨s, m, hsetup, hmodel, hfields⟩ := exists_of_analysis? {} mixedEntries
    (fun s _ => (moduleFields s).map Static.summary =
      [("A", .defaultProps, [some "a", some "b", none]),
        ("A", .propTypes, [some "a", some "d-e", some "7", some "f", none, none])])
    (by decide +kernel)
  obtain ⟨x, hx, hsummary⟩ := List.mem_map.1
    (hfields ▸ List.mem_cons_of_mem _ List.mem_cons_self)
  refine ⟨s, m, x, hsetup, hmodel, hx, hsummary, entries_accounted hmodel hx ?_⟩
  rw [show x.field = .propTypes from congrArg (fun y => y.2.1) hsummary]
  decide

def spreadValidators : String := "class A \x7b\x7d\nA.propTypes = \x7b ...B.propTypes \x7d;\n"

set_option maxRecDepth 100000 in
/-- The only entry of these validators is lost without a caveat. -/
theorem entries_accounted_fails_spreadValidators :
    ∃ s m x e, setupOf? {} spreadValidators = some s ∧ modelOf s = .ok m ∧
      x ∈ moduleFields s ∧ x.field = .propTypes ∧ x.object.parts = [e] ∧ e.kind = .spread ∧
      x.field.names m x.component = [] ∧ m.caveats.toList = [] ∧
      ¬ Accounted m x.component x.field e := by
  obtain ⟨s, m, hsetup, hmodel, hfields, hspread, hcaveats⟩ :=
    exists_of_analysis? {} spreadValidators
      (fun s m => (moduleFields s).map Static.summary = [("A", .propTypes, [none])] ∧
        ((moduleFields s).all fun x =>
          x.object.parts.all (·.kind = .spread) && (x.field.names m x.component).isEmpty) = true ∧
        m.caveats.toList.isEmpty = true)
      (by decide +kernel)
  rw [List.isEmpty_iff] at hcaveats
  obtain ⟨x, hx, hsummary⟩ := List.mem_map.1 (hfields ▸ List.mem_cons_self)
  obtain ⟨-, hfield, hnames⟩ : x.component = "A" ∧ x.field = .propTypes ∧
      x.object.parts.map (entryName? x.field) = [none] := by
    simpa [Static.summary] using hsummary
  obtain ⟨e, hparts, hname⟩ : ∃ e, x.object.parts = [e] ∧ entryName? x.field e = none := by
    simpa [List.map_eq_cons_iff] using hnames
  obtain ⟨hkind, hempty⟩ : e.kind = .spread ∧ x.field.names m x.component = [] := by
    have hall := List.all_eq_true.1 hspread x hx
    simpa [hparts] using hall
  refine ⟨s, m, x, e, hsetup, hmodel, hx, hfield, hparts, hkind, hempty, hcaveats, ?_⟩
  simp [Accounted, hname, hcaveats]

end Revue.Analysis
