import Revue.Proofs.PropContracts

/-!
# Props that no type takes away

A type may be declared in parts, and a component may name several types. Each of these parts
replaces what the parts before it have declared for the component, so that a declared prop is kept
just when the last part declares it, too. Only if the last part declares no prop at all, validators
behind it can bring a prop back.
-/

namespace Revue.Analysis
open Text Syntax Component

variable {c : Contract} {m : Model} {name : String} {t : Tree}

/-- Members of a type that declare a prop if they have a name: properties and methods. -/
def isPropSignature : Kind → Bool
  | .propertySignature _ | .methodSignature _ => true
  | _ => false

def signatureNames (members : List Tree) : List String :=
  (members.filter fun t => isPropSignature t.kind).filterMap memberName?

/-- The names that are declared by all the types of a given name at the top of a module. -/
def declaredNames (m : Syntax.Module) (typeName : String) : List String :=
  m.items.flatMap fun t =>
    ((contractMembers? (itemDeclaration t)).filter (·.1 = typeName)).elim [] fun type =>
      signatureNames type.2

def membersFor? (s : Setup) (component : String) (t : Tree) : Option (List Tree) :=
  ((contractMembers? (itemDeclaration t)).filter fun type =>
    component ∈ componentsFor s.correlations type.1).map (·.2)

def lastNames (s : Setup) (component : String) : List String :=
  ((s.reading.module.items.filterMap (membersFor? s component)).getLast?.map signatureNames).getD []

/-- The validators of a component behind its last type. -/
def tablesBehind (s : Setup) (component : String) : List PropTable :=
  ((declared s component).reverse.takeWhile (·.1 = .validated)).reverse.map (·.2)

def HasProp (m : Model) (component name : String) : Prop :=
  ∃ props, m.propTypes.get? component = some props ∧ name ∈ props.keys

section Names
variable {component name : String}

/-- A member of a type declares a prop just when it is a signature with a name. -/
theorem memberProp?_isSome_iff {r : Reading} {reader : TokenReader} {t : Tree} :
    (∃ prop, memberProp? r reader t = some (name, prop)) ↔
      isPropSignature t.kind = true ∧ memberName? t = some name := by
  unfold memberProp?
  cases memberName? t with
  | none => simp
  | some name' =>
    dsimp only [Option.bind_some, bind]
    split
    · rename_i hkind
      split <;> simp [isPropSignature, hkind]
    · rename_i hkind
      simp [isPropSignature, hkind]
    · rename_i hproperty hmethod
      have hother : isPropSignature t.kind = false := by
        unfold isPropSignature
        split <;> simp_all
      simp [hother]

theorem mem_signatureNames {members : List Tree} :
    name ∈ signatureNames members ↔
      ∃ t ∈ members, isPropSignature t.kind = true ∧ memberName? t = some name := by
  simp [signatureNames, and_assoc]

theorem mem_keys_memberProps (r : Reading) (reader : TokenReader) (members : List Tree) :
    name ∈ Table.keys (members.filterMap (memberProp? r reader)) ↔
      name ∈ signatureNames members := by
  have hread (t : Tree) := @memberProp?_isSome_iff name r reader t
  simp only [mem_signatureNames, ← hread, Table.keys, List.map_filterMap, List.mem_filterMap,
    Option.map_eq_some_iff]
  simp

theorem mem_keys_typedProps (r : Reading) (reader : TokenReader) (members : List Tree) :
    name ∈ (typedProps r reader component members).table.keys ↔ name ∈ signatureNames members := by
  rw [typedProps_eq, Table.mem_keys_extend_iff, mem_keys_memberProps]
  simp

end Names

/-! ### What is recorded in the end -/

def contractsOf (s : Setup) (component : String) : List Contract :=
  (moduleContracts s).filter (·.component = component)

def lastType? (cs : List Contract) : Option Contract := cs.reverse.find? (·.kind = .typed)

def objectsBehind (cs : List Contract) : List Contract :=
  (cs.reverse.takeWhile (·.kind = .validated)).reverse

/-- What contracts declare in the end: the members of the last type, which replaces all before it,
or the entries of all objects that are not replaced if no type declares a prop. -/
def recorded (s : Setup) (cs : List Contract) : List (String × PropSpec) :=
  match (lastType? cs).elim [] (Contract.entries s) with
  | [] => (objectsBehind cs).flatMap (Contract.entries s)
  | entries => entries

section Recorded
variable {s : Setup} {c : Contract} {cs : List Contract}

theorem recorded_concat_typed (h : c.kind = .typed) : recorded s (cs ++ [c]) = c.entries s := by
  simp only [recorded, lastType?, objectsBehind, List.reverse_concat, List.find?_cons, h,
    List.takeWhile_cons]
  cases hc : c.entries s <;> simp [hc]

theorem recorded_concat_validated (h : c.kind = .validated) :
    recorded s (cs ++ [c]) =
      if (lastType? cs).elim [] (Contract.entries s) = [] then recorded s cs ++ c.entries s
      else recorded s cs := by
  have hlast : lastType? (cs ++ [c]) = lastType? cs := by simp [lastType?, h]
  have hbehind : objectsBehind (cs ++ [c]) = objectsBehind cs ++ [c] := by
    simp [objectsBehind, h]
  rw [recorded, recorded, hlast, hbehind]
  cases (lastType? cs).elim [] (Contract.entries s) <;> simp

theorem recorded_kind {value : PropSpec} (h : value ∈ Table.values (recorded s cs)) :
    value.kind =
      if (lastType? cs).elim [] (Contract.entries s) = [] then .validated else .typed := by
  unfold recorded at h
  split at h
  · rename_i hnil
    obtain ⟨p, hp, rfl⟩ := List.mem_map.1 h
    obtain ⟨c, hc, hp⟩ := List.mem_flatMap.1 hp
    have hkind := List.all_eq_true.1 List.all_takeWhile c (List.mem_reverse.1 hc)
    rw [if_pos hnil, Contract.entries_kind _ (List.mem_map.2 ⟨p, hp, rfl⟩)]
    exact of_decide_eq_true hkind
  · rename_i hne
    rw [if_neg hne]
    cases hlast : lastType? cs with
    | none => simp [hlast, Table.values] at h
    | some c =>
      rw [hlast] at h
      exact (Contract.entries_kind _ h).trans (of_decide_eq_true (List.find?_some hlast :))

/-- What is known in the end lists what was recorded. -/
theorem foldl_enter_lists (s : Setup) (cs : List Contract) :
    ((cs.map fun c => (c.kind, c.table s)).foldl Standing.enter {}).known.Lists
      (recorded s cs) := by
  induction cs using List.reverseRecOn with
  | nil => exact ⟨rfl, fun _ => rfl⟩
  | append_singleton cs c ih =>
    rw [List.map_append, List.map_singleton, List.foldl_concat]
    generalize (cs.map fun c => (c.kind, c.table s)).foldl Standing.enter {} = st at *
    cases hkind : c.kind with
    | typed =>
      rw [recorded_concat_typed hkind]
      exact c.table_lists
    | validated =>
      rw [recorded_concat_validated hkind]
      have hkinds : ∀ p ∈ st.known.values, p.kind = _ := fun p hp =>
        recorded_kind (ih.mem_values hp)
      split at hkinds
      · rename_i hnil
        rw [if_pos hnil, Standing.enter_validated (PropTable.hasKind_of_ne (by decide) hkinds)]
        exact ih.extend c.table_lists
      · rename_i hne
        have htyped : st.known.hasKind .typed = true := by
          rw [PropTable.hasKind_iff_ne_nil hkinds, Ne, ih.eq_nil_iff]
          unfold recorded
          split
          · rename_i hnil
            exact absurd hnil hne
          · exact hne
        rw [if_neg hne, Standing.enter, if_pos htyped]
        exact ih

theorem propTypes_lists (h : modelOf s = .ok m) (component : String) :
    ((m.propTypes.get? component).getD []).Lists (recorded s (contractsOf s component)) := by
  have hstanding : (m.propTypes.get? component).getD [] = _ :=
    congrArg Standing.known (standing_modelOf h component)
  rw [hstanding]
  exact foldl_enter_lists s (contractsOf s component)

end Recorded

section Last
variable {s : Setup} {component : String}

def Contract.members? : Contract → Option (List Tree)
  | typed _ members _ => some members
  | validated _ _ => none

theorem filterMap_members?_of_validated {cs : List Contract}
    (h : ∀ c ∈ cs, c.kind = .validated) : cs.filterMap Contract.members? = [] := by
  rw [List.filterMap_eq_nil_iff]
  intro c hc
  cases c with
  | typed component members span => cases h _ hc
  | validated component object => rfl

theorem kind_of_mem_fieldContracts {field : StaticField} {value : Tree}
    (h : c ∈ fieldContracts component field value) : c.kind = .validated := by
  unfold fieldContracts at h
  split at h
  · obtain rfl := List.mem_singleton.1 h
    rfl
  · cases h

theorem kind_of_mem_classContracts (h : c ∈ classContracts component t) : c.kind = .validated := by
  obtain ⟨static, -, hstatic⟩ := List.mem_flatMap.1 h
  exact kind_of_mem_fieldContracts hstatic

theorem kind_of_mem_assignedContracts (h : c ∈ assignedContracts t) : c.kind = .validated := by
  unfold assignedContracts at h
  split at h
  · exact kind_of_mem_fieldContracts h
  · cases h

theorem kind_of_mem_nestedContracts {m : Syntax.Module} (h : c ∈ nestedContracts m) :
    c.kind = .validated := by
  unfold nestedContracts at h
  split at h
  · exact kind_of_mem_classContracts h
  · cases h

theorem kind_of_contractMembers? {type : String × List Tree} (h : contractMembers? t = some type) :
    t.kind = .interfaceDef ∨ t.kind = .aliasDef := by
  obtain ⟨name, -, h⟩ := Option.bind_eq_some_iff.1 h
  split at h
  · rename_i hkind
    exact Or.inl hkind
  · rename_i hkind
    exact Or.inr hkind
  · cases h

theorem getLast?_members?_typeContracts (t : Tree) (span : Span) :
    (((typeContracts s t span).filter (·.component = component)).filterMap
        Contract.members?).getLast? =
      ((contractMembers? t).filter fun type =>
        component ∈ componentsFor s.correlations type.1).map (·.2) := by
  unfold typeContracts
  cases contractMembers? t with
  | none => rfl
  | some type =>
    obtain ⟨name, members⟩ := type
    dsimp only
    have hmembers : (((componentsFor s.correlations name).map fun component =>
        Contract.typed component members span).filter (·.component = component)).filterMap
          Contract.members? =
        ((componentsFor s.correlations name).filter (· = component)).map fun _ => members := by
      rw [List.filter_map, List.filterMap_map]
      exact congrFun (List.filterMap_eq_map (f := fun _ : String => members)) _
    rw [hmembers, List.filter_eq, List.map_replicate, List.getLast?_replicate, Option.filter_some]
    by_cases hmem : component ∈ componentsFor s.correlations name
    · simp [hmem, List.count_eq_zero]
    · simp [hmem, List.count_eq_zero]

theorem getLast?_members?_itemContracts (t : Tree) :
    (((itemContracts s t).filter (·.component = component)).filterMap
      Contract.members?).getLast? = membersFor? s component t := by
  have hnone : ∀ {cs : List Contract}, (∀ c ∈ cs, c.kind = .validated) →
      contractMembers? (itemDeclaration t) = none →
      ((cs.filter (·.component = component)).filterMap Contract.members?).getLast? =
        membersFor? s component t := by
    intro cs hcs htype
    rw [filterMap_members?_of_validated fun c hc => hcs c (List.mem_filter.1 hc).1]
    simp [membersFor?, htype]
  have hother : (itemDeclaration t).kind ≠ .interfaceDef → (itemDeclaration t).kind ≠ .aliasDef →
      contractMembers? (itemDeclaration t) = none := by
    intro hinterface halias
    cases htype : contractMembers? (itemDeclaration t) with
    | none => rfl
    | some type =>
      rcases kind_of_contractMembers? htype with hkind | hkind
      · exact absurd hkind hinterface
      · exact absurd hkind halias
  unfold itemContracts
  split
  · rename_i hstatement
    have hself := itemDeclaration_of_kind (t := t) (by simp [hstatement]) (by simp [hstatement])
    exact hnone (fun c => kind_of_mem_assignedContracts)
      (hother (by simp [hself, hstatement]) (by simp [hself, hstatement]))
  · split
    · rename_i hclass
      exact hnone (fun c => kind_of_mem_classContracts)
        (hother (by simp [hclass]) (by simp [hclass]))
    · exact getLast?_members?_typeContracts _ _

theorem getLast?_members?_moduleContracts (s : Setup) (component : String) :
    ((contractsOf s component).filterMap Contract.members?).getLast? =
      (s.reading.module.items.filterMap (membersFor? s component)).getLast? := by
  have hnested : ((if s.reading.module.items.all fun t => (itemDeclaration t).kind ≠ .classDef then
      nestedContracts s.reading.module else []).filter (·.component = component)).filterMap
        Contract.members? = [] := by
    apply filterMap_members?_of_validated
    intro c hc
    obtain ⟨hc, -⟩ := List.mem_filter.1 hc
    split at hc
    · exact kind_of_mem_nestedContracts hc
    · cases hc
  rw [contractsOf, moduleContracts, List.filter_append, List.filterMap_append, hnested,
    List.append_nil, List.filter_flatMap, List.filterMap_flatMap, List.getLast?_flatMap,
    List.getLast?_filterMap]
  congr
  funext t
  exact getLast?_members?_itemContracts t

theorem exists_lastType? {cs : List Contract} {members : List Tree}
    (h : (cs.filterMap Contract.members?).getLast? = some members) :
    ∃ component span, lastType? cs = some (.typed component members span) := by
  rw [List.getLast?_filterMap] at h
  unfold lastType?
  generalize cs.reverse = cs at h ⊢
  induction cs with
  | nil => cases h
  | cons c cs ih =>
    cases c with
    | typed component members' span =>
      obtain rfl : members' = members := Option.some.inj h
      exact ⟨component, span, rfl⟩
    | validated component object => exact ih h

theorem tablesBehind_eq (s : Setup) (component : String) :
    tablesBehind s component = (objectsBehind (contractsOf s component)).map (·.table s) := by
  rw [tablesBehind, declared, ← List.map_reverse, List.takeWhile_map, ← List.map_reverse,
    List.map_map]
  rfl

theorem hasProp_iff_mem_keys :
    HasProp m component name ↔ name ∈ ((m.propTypes.get? component).getD []).keys := by
  unfold HasProp
  cases m.propTypes.get? component <;> simp

/-- A component with a type has the props that its last type declares. -/
theorem hasProp_iff (h : modelOf s = .ok m)
    (hsome : s.reading.module.items.filterMap (membersFor? s component) ≠ []) :
    HasProp m component name ↔ name ∈ lastNames s component ∨
      lastNames s component = [] ∧ ∃ table ∈ tablesBehind s component, name ∈ table.keys := by
  obtain ⟨members, hmembers⟩ := Option.ne_none_iff_exists'.1 (mt List.getLast?_eq_none_iff.1 hsome)
  have hlast : lastNames s component = signatureNames members := by simp [lastNames, hmembers]
  rw [← getLast?_members?_moduleContracts] at hmembers
  obtain ⟨component', span, htype⟩ := exists_lastType? hmembers
  have hnames : ∀ name, name ∈ Table.keys (Contract.entries s (.typed component' members span)) ↔
      name ∈ signatureNames members := fun _ => mem_keys_memberProps _ _ _
  have hbehind : (∃ table ∈ tablesBehind s component, name ∈ table.keys) ↔
      name ∈ Table.keys
        ((objectsBehind (contractsOf s component)).flatMap (Contract.entries s)) := by
    simp only [tablesBehind_eq, List.mem_map, exists_exists_and_eq_and,
      (Contract.table_lists _).keys, List.mem_eraseDups]
    simp [Table.keys, List.map_flatMap]
  rw [hasProp_iff_mem_keys, (propTypes_lists h component).keys, List.mem_eraseDups, hlast, hbehind,
    ← hnames, recorded, htype, Option.elim_some]
  cases hentries : Contract.entries s (.typed component' members span) with
  | nil =>
    have hnil : signatureNames members = [] :=
      List.eq_nil_iff_forall_not_mem.2 fun name hname => by simp [hentries, ← hnames] at hname
    simp [hnil]
  | cons entry entries =>
    have hsome : signatureNames members ≠ [] :=
      List.ne_nil_of_mem ((hnames entry.1).1 (hentries ▸ List.mem_cons_self))
    simp [hsome]

theorem types_ne_nil_of_mem_declaredNames {typeName : String}
    (hc : ⟨component, typeName⟩ ∈ s.correlations)
    (h : name ∈ declaredNames s.reading.module typeName) :
    s.reading.module.items.filterMap (membersFor? s component) ≠ [] := by
  obtain ⟨t, ht, hname⟩ := List.mem_flatMap.1 h
  cases htype : (contractMembers? (itemDeclaration t)).filter (·.1 = typeName) with
  | none => simp [htype] at hname
  | some type =>
    obtain ⟨htype, heq⟩ := Option.filter_eq_some_iff.1 htype
    have hfor : component ∈ componentsFor s.correlations type.1 := by
      refine List.mem_map.2 ⟨⟨component, typeName⟩, List.mem_filter.2 ⟨hc, ?_⟩, rfl⟩
      simpa [eq_comm] using heq
    intro hnil
    have hnone := List.filterMap_eq_nil_iff.1 hnil t ht
    simp [membersFor?, htype, hfor] at hnone

/-- A component that is correlated with a type has all props that are declared under the name of
the type, just when its last type declares each of them; if that type declares none at all, the
validators behind it count. -/
theorem declaredNames_kept_iff {m : Model} {typeName : String} (h : modelOf s = .ok m)
    (hc : ⟨component, typeName⟩ ∈ s.correlations) :
    (∀ name ∈ declaredNames s.reading.module typeName, HasProp m component name) ↔
      ∀ name ∈ declaredNames s.reading.module typeName,
        name ∈ lastNames s component ∨
          lastNames s component = [] ∧ ∃ table ∈ tablesBehind s component, name ∈ table.keys :=
  forall₂_congr fun _ hname => hasProp_iff h (types_ne_nil_of_mem_declaredNames hc hname)

/-- A class whose type is declared in two parts with the members that stand between the braces. -/
def twoParts (first second : String) : String :=
  "interface P \x7b " ++ first ++ " \x7d\ninterface P \x7b " ++ second ++
    " \x7d\nclass A extends C<P> \x7b\x7d"

set_option maxRecDepth 100000 in
theorem declaredNames_kept_repeated :
    ∃ s m, setupOf? { isTyped := true } (twoParts "a: string" "a: string; b(): void") = some s ∧
      modelOf s = .ok m ∧ ⟨"A", "P"⟩ ∈ s.correlations ∧
      ∀ name ∈ declaredNames s.reading.module "P", HasProp m "A" name := by
  obtain ⟨s, m, hs, hm, hc, hnames⟩ := exists_of_analysis? { isTyped := true }
    (twoParts "a: string" "a: string; b(): void")
    (fun s _ => ⟨"A", "P"⟩ ∈ s.correlations ∧
      ∀ name ∈ declaredNames s.reading.module "P", name ∈ lastNames s "A")
    (by decide +kernel)
  exact ⟨s, m, hs, hm, hc,
    (declaredNames_kept_iff hm hc).2 fun name hname => Or.inl (hnames name hname)⟩

set_option maxRecDepth 100000 in
/-- With parts that declare different props, those of the first part are lost. -/
theorem declaredNames_lost_twoParts :
    ∃ s m, setupOf? { isTyped := true } (twoParts "a: string" "b: string") = some s ∧
      modelOf s = .ok m ∧ ⟨"A", "P"⟩ ∈ s.correlations ∧
      declaredNames s.reading.module "P" = ["a", "b"] ∧
      m.propTypes = [("A", [("b", .ofToken .typed (some "string") true)])] ∧
      m.caveats.toList = [] ∧ ¬ HasProp m "A" "a" := by
  obtain ⟨s, m, hs, hm, hc, hnames, hprops, hcaveats⟩ := exists_of_analysis? { isTyped := true }
    (twoParts "a: string" "b: string")
    (fun s m => ⟨"A", "P"⟩ ∈ s.correlations ∧ declaredNames s.reading.module "P" = ["a", "b"] ∧
      m.propTypes = [("A", [("b", .ofToken .typed (some "string") true)])] ∧
      m.caveats.toList = [])
    (by decide +kernel)
  refine ⟨s, m, hs, hm, hc, hnames, hprops, hcaveats, ?_⟩
  rintro ⟨props, hget, hmem⟩
  rw [hprops] at hget
  obtain rfl := Option.some.inj hget
  simp at hmem

end Last

end Revue.Analysis
