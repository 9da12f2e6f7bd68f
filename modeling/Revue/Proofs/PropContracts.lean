import Mathlib.Logic.Relation
import Revue.Proofs.ContractLedger

/-!
# Types and validators never mix

Whatever the order in which contracts are entered, the props that are declared for a component all
come from types or all from validators: a type replaces what is known, and validators are added only
to validators. A type that declares a prop wins over validators from before and after it, with a
caveat either way. A type or an object that declares no prop leaves nothing by which a later
contract could tell, so that with these the order matters.
-/

namespace Revue.Component
open Text

variable {kind : PropKind} {t : PropTable}

theorem PropTable.hasKind_iff : t.hasKind kind = true ↔ ∃ p ∈ t.values, p.kind = kind := by
  simp [hasKind]

theorem PropTable.kind_of_not_hasKind_typed (h : ¬ t.hasKind .typed = true) :
    ∀ p ∈ t.values, p.kind = .validated := by
  intro p hp
  cases hkind : p.kind with
  | validated => rfl
  | typed => exact absurd (hasKind_iff.2 ⟨p, hp, hkind⟩) h

theorem PropTable.hasKind_iff_ne_nil (h : ∀ p ∈ t.values, p.kind = kind) :
    t.hasKind kind = true ↔ t ≠ [] := by
  cases t with
  | nil => simp [hasKind, Table.values]
  | cons entry t =>
    have hmem : entry.2 ∈ Table.values (entry :: t) := List.mem_cons_self
    simp only [ne_eq, reduceCtorEq, not_false_eq_true, iff_true]
    exact hasKind_iff.2 ⟨entry.2, hmem, h entry.2 hmem⟩

theorem PropTable.hasKind_of_ne {other : PropKind} (hne : kind ≠ other)
    (h : ∀ p ∈ t.values, p.kind = kind) : t.hasKind other = false := by
  rw [← Bool.not_eq_true, hasKind_iff]
  rintro ⟨p, hp, hkind⟩
  exact hne ((h p hp).symm.trans hkind)

end Revue.Component

namespace Revue.Analysis
open Text Syntax Component

variable {t : Tree} {m m' : Model} {s : Setup} {l : Ledger} {name : String} {kind : PropKind}
  {prop : PropSpec} {props : PropTable}

section Tables
variable {s : Setup}

theorem memberProp?_kind {r : Reading} {reader : TokenReader}
    (h : memberProp? r reader t = some (name, prop)) : prop.kind = .typed := by
  obtain ⟨isRequired, rfl | ⟨token, rfl⟩⟩ := memberProp?_cases h <;> rfl

theorem validatedProp?_kind (h : validatedProp? t = some (name, prop)) :
    prop.kind = .validated := by
  obtain ⟨token, isRequired, rfl⟩ := validatedProp?_cases h
  rfl

/-- The props that the members of a type or the entries of an object declare, one by one. -/
def Contract.entries (s : Setup) : Contract → List (String × PropSpec)
  | typed _ members _ => members.filterMap (memberProp? s.reading s.reader)
  | validated _ object => object.parts.filterMap validatedProp?

theorem Contract.entries_kind {c : Contract} :
    ∀ p ∈ Table.values (c.entries s), p.kind = c.kind := by
  intro p hp
  cases c with
  | typed component members span =>
    obtain ⟨entry, hentry, rfl⟩ := List.mem_map.1 hp
    obtain ⟨t, -, ht⟩ := List.mem_filterMap.1 hentry
    exact memberProp?_kind ht
  | validated component object =>
    obtain ⟨entry, hentry, rfl⟩ := List.mem_map.1 hp
    obtain ⟨t, -, ht⟩ := List.mem_filterMap.1 hentry
    exact validatedProp?_kind ht

theorem Contract.table_lists (c : Contract) : (c.table s).Lists (c.entries s) := by
  cases c with
  | typed component members span =>
    rw [table, typedProps_eq]
    exact Table.lists_extend _
  | validated component object =>
    rw [table, validatedProps_eq]
    exact Table.lists_extend _

theorem Contract.table_kind (c : Contract) : ∀ p ∈ (c.table s).values, p.kind = c.kind :=
  fun p hp => c.entries_kind p (c.table_lists.mem_values hp)

theorem extend_kind {known added : PropTable} (hknown : ∀ p ∈ known.values, p.kind = kind)
    (hadded : ∀ p ∈ added.values, p.kind = kind) :
    ∀ p ∈ (known.extend added).values, p.kind = kind := by
  intro p hp
  obtain ⟨entry, hentry, rfl⟩ := List.mem_map.1 hp
  rcases Table.mem_extend hentry with hold | hnew
  · exact hknown _ (List.mem_map.2 ⟨entry, hold, rfl⟩)
  · exact hadded _ (List.mem_map.2 ⟨entry, hnew, rfl⟩)

end Tables

/-- All props that stand with a component are of one kind. -/
def OneKind (t : Table PropTable) : Prop :=
  ∀ component, ∃ kind : PropKind, ∀ props, (component, props) ∈ t →
    ∀ p ∈ props.values, p.kind = kind

structure Unmixed (t : Table PropTable) : Prop where
  keys : t.keys.Nodup
  oneKind : ∀ entry ∈ t, ∃ kind : PropKind, ∀ p ∈ entry.2.values, p.kind = kind

namespace Unmixed
variable {t : Table PropTable}

theorem nil : Unmixed [] := ⟨by simp, by simp⟩

theorem insert (h : Unmixed t) {component : String} (hprops : ∀ p ∈ props.values, p.kind = kind) :
    Unmixed (t.insert component props) := by
  refine ⟨Table.nodup_keys_insert h.keys, ?_⟩
  intro entry hentry
  rcases Table.mem_insert hentry with hold | rfl
  · exact h.oneKind entry hold
  · exact ⟨kind, hprops⟩

theorem toOneKind (h : Unmixed t) : OneKind t := by
  intro component
  cases hget : t.get? component with
  | none =>
    refine ⟨.typed, ?_⟩
    intro props hmem
    rw [Table.get?_of_mem h.keys hmem] at hget
    cases hget
  | some known =>
    obtain ⟨kind, hkind⟩ := h.oneKind (component, known) (Table.mem_of_get? hget)
    refine ⟨kind, ?_⟩
    intro props hmem
    obtain rfl : props = known := by
      rw [Table.get?_of_mem h.keys hmem] at hget
      exact Option.some.inj hget
    exact hkind

/-- A contract keeps kinds apart: validators are added only where there is no type. -/
theorem enter (h : Unmixed l.propTypes) (c : Contract) : Unmixed (l.enter s c).propTypes := by
  unfold Ledger.enter
  dsimp only
  cases hkind : c.kind with
  | typed =>
    have htable := c.table_kind (s := s)
    dsimp only
    split
    · exact h.insert htable
    · exact h.insert htable
  | validated =>
    dsimp only
    split
    · exact h
    · rename_i hnot
      have hadded : ∀ p ∈ (c.table s).values, p.kind = .validated :=
        fun p hp => (c.table_kind p hp).trans hkind
      exact h.insert (extend_kind (PropTable.kind_of_not_hasKind_typed hnot) hadded)

theorem foldl_enter (h : Unmixed l.propTypes) (cs : List Contract) :
    Unmixed (cs.foldl (Ledger.enter s) l).propTypes := by
  induction cs generalizing l with
  | nil => exact h
  | cons c cs ih => exact ih (h.enter c)

end Unmixed

/-- One change of a model on the way: a type that declares props, a static field that is assigned,
a member of a class, a whole class, an item, the classes below the top level, or a change that does
not touch the declared props. -/
inductive ModelStep (s : Setup) : Model → Model → Prop
  | contract (members : List Tree) (span : Span) (component : String) (d : Draft) :
      ModelStep s d.model (d.addContract s members span component).model
  | assigned {m m' : Model} {component : String} {field : StaticField} {value : Tree}
      (h : recordStatic? s.reading m component field value = some m') : ModelStep s m m'
  | member (component : String) (d : ClassDraft) (t : Tree) :
      ModelStep s d.model (addClassMember s.reading component d t).model
  | classDef (m : Model) (name : String) (t : Tree) (isNested : Bool) :
      ModelStep s m (addClass s.reading m name t isNested)
  | item {d d' : Draft} {t : Tree} (h : d.addItem s t = .ok d') : ModelStep s d.model d'.model
  | nested (d : Draft) : ModelStep s d.model (d.addNested s.reading).model
  | elsewhere {m m' : Model} (h : m'.propTypes = m.propTypes) : ModelStep s m m'

variable {s : Setup}

/-- Whatever a step is, it does to the declared props what some contracts do. -/
theorem ModelStep.exists_contracts (h : ModelStep s m m') :
    ∃ cs : List Contract,
      m'.propTypes = (cs.foldl (Ledger.enter s) (ledgerOf m)).propTypes := by
  have hledger : ∀ {cs : List Contract}, ledgerOf m' = cs.foldl (Ledger.enter s) (ledgerOf m) →
      m'.propTypes = (cs.foldl (Ledger.enter s) (ledgerOf m)).propTypes :=
    fun heq => congrArg Ledger.propTypes heq
  cases h with
  | contract members span component d =>
    exact ⟨[.typed component members span],
      hledger (ledgerOf_addContract members span d component)⟩
  | assigned h => exact ⟨_, hledger (ledgerOf_recordStatic? h)⟩
  | member component d t =>
    exact ⟨_, hledger run_addClassMember.recording.ledger⟩
  | classDef m name t isNested =>
    exact ⟨_, hledger (recording_addClass m name t isNested).ledger⟩
  | item h => exact ⟨_, hledger (addItem_step h).recording.ledger⟩
  | nested d => exact ⟨_, hledger (recording_addNested d).ledger⟩
  | elsewhere h => exact ⟨[], h⟩

theorem unmixed_of_steps (h : Relation.ReflTransGen (ModelStep s) m m') (hm : Unmixed m.propTypes) :
    Unmixed m'.propTypes := by
  induction h with
  | refl => exact hm
  | tail _ hstep ih =>
    obtain ⟨cs, hcs⟩ := hstep.exists_contracts
    rw [hcs]
    exact Unmixed.foldl_enter ih cs

theorem steps_of_walk {ts : List Tree} {d d' : Draft}
    (h : ts.foldlM (Draft.addItem s) d = .ok d') :
    Relation.ReflTransGen (ModelStep s) d.model d'.model := by
  induction ts generalizing d with
  | nil =>
    obtain rfl : d = d' := Except.ok.inj h
    exact .refl
  | cons t ts ih =>
    obtain ⟨d₁, hitem, hrest⟩ := walk_cons h
    exact .head (.item hitem) (ih hrest)

/-- After any sequence of steps, in any order and repetition, the props of a component are of one
kind. All models on the way through a module, and the last one, are reached by such steps. -/
theorem propTypes_oneKind (s : Setup) :
    (∀ m, Relation.ReflTransGen (ModelStep s) {} m → OneKind m.propTypes) ∧
      (∀ (ts : List Tree) (d : Draft), ts.foldlM (Draft.addItem s) {} = .ok d →
        Relation.ReflTransGen (ModelStep s) {} d.model) ∧
      ∀ m, modelOf s = .ok m → Relation.ReflTransGen (ModelStep s) {} m := by
  refine ⟨fun m hm => (unmixed_of_steps hm .nil).toOneKind, fun ts d => steps_of_walk, ?_⟩
  intro m hm
  obtain ⟨d, hwalk, rfl⟩ := modelOf_walk hm
  refine ((steps_of_walk hwalk).tail (.nested d)).tail (.elsewhere ?_)
  exact (addMissingValidation_elsewhere _ s.reading).propTypes

def bothKinds : String :=
  "interface P\x7ba:string\x7d\nclass A extends C<P>\x7bstatic propTypes=\x7bb:x\x7d\x7d\n" ++
    "B.propTypes=\x7bc:x\x7d"

set_option maxRecDepth 100000 in
theorem propTypes_oneKind_bothKinds :
    ∃ s m, setupOf? { isTyped := true } bothKinds = some s ∧ modelOf s = .ok m ∧
      m.propTypes = [("A", [("a", .ofToken .typed (some "string") true)]),
        ("B", [("c", .ofToken .validated none false)])] ∧ OneKind m.propTypes := by
  obtain ⟨s, m, hsetup, hmodel, hprops⟩ := exists_of_analysis? { isTyped := true } bothKinds
    (fun _ m => m.propTypes = [("A", [("a", .ofToken .typed (some "string") true)]),
      ("B", [("c", .ofToken .validated none false)])]) (by decide +kernel)
  exact ⟨s, m, hsetup, hmodel, hprops,
    (propTypes_oneKind s).1 m ((propTypes_oneKind s).2.2 m hmodel)⟩

/-- What a ledger says about one component: its props, and whether one of its contracts was noted as
a second one. -/
structure Standing where
  props? : Option PropTable := none
  isNoted : Bool := false

namespace Standing

def known (st : Standing) : PropTable := st.props?.getD []

def enter (st : Standing) : PropKind × PropTable → Standing
  | (.typed, table) => ⟨some table, st.isNoted || st.known.hasKind .validated⟩
  | (.validated, table) =>
    if st.known.hasKind .typed then { st with isNoted := true }
    else { st with props? := some (st.known.extend table) }

end Standing

section Order
variable {s : Setup} {m : Model} {component : String}

theorem duplicateContract_component {c₁ c₂ : String} {span₁ span₂ : Span}
    (h : Caveat.duplicateContract c₁ span₁ = Caveat.duplicateContract c₂ span₂) : c₁ = c₂ := by
  have hmessage := congrArg (String.toList ∘ Caveat.message) h
  have hname : c₁.toList = c₂.toList := by
    simpa [Caveat.duplicateContract, Caveat.at_] using hmessage
  exact String.toList_inj.1 hname

def isDuplicateOf (component : String) (c : Caveat) : Bool :=
  c.span?.any fun span => c = .duplicateContract component span

theorem isDuplicateOf_iff {c : Caveat} :
    isDuplicateOf component c = true ↔ ∃ span, c = .duplicateContract component span := by
  constructor
  · intro h
    obtain ⟨span, -, hc⟩ := (Option.any_eq_true _ _).1 h
    exact ⟨span, of_decide_eq_true hc⟩
  · rintro ⟨span, rfl⟩
    simp [isDuplicateOf, Caveat.duplicateContract, Caveat.at_]

namespace Ledger
variable {l : Ledger} {c : Contract}

def standing (l : Ledger) (component : String) : Standing :=
  ⟨l.propTypes.get? component, l.duplicates.any (isDuplicateOf component)⟩

theorem standing_note : (l.note c).standing c.component =
    { l.standing c.component with isNoted := true } := by
  have hself : isDuplicateOf c.component (.duplicateContract c.component c.span) = true :=
    isDuplicateOf_iff.2 ⟨c.span, rfl⟩
  simp [standing, note, hself]

theorem standing_note_of_ne (hne : c.component ≠ component) :
    (l.note c).standing component = l.standing component := by
  have hother : isDuplicateOf component (.duplicateContract c.component c.span) = false := by
    rw [← Bool.not_eq_true, isDuplicateOf_iff]
    rintro ⟨span, hspan⟩
    exact hne (duplicateContract_component hspan)
  simp [standing, note, hother]

theorem standing_set (table : PropTable) : (l.set c table).standing c.component =
    { l.standing c.component with props? := some table } := by
  simp [standing, set]

theorem standing_set_of_ne (hne : c.component ≠ component) (table : PropTable) :
    (l.set c table).standing component = l.standing component := by
  simp [standing, set, Table.get?_insert_of_ne (Ne.symm hne)]

theorem standing_enter : (l.enter s c).standing c.component =
    (l.standing c.component).enter (c.kind, c.table s) := by
  have hknown : (l.standing c.component).known = l.known c.component := rfl
  unfold enter
  dsimp only
  cases c.kind with
  | typed =>
    dsimp only [Standing.enter]
    rw [standing_set, hknown]
    split
    · rename_i hkind
      rw [standing_note, hkind, Bool.or_true]
    · rename_i hkind
      rw [eq_false_of_ne_true hkind, Bool.or_false]
  | validated =>
    dsimp only [Standing.enter]
    rw [hknown]
    split
    · exact standing_note
    · exact standing_set _

theorem standing_enter_of_ne (hne : c.component ≠ component) :
    (l.enter s c).standing component = l.standing component := by
  unfold enter
  dsimp only
  cases c.kind with
  | typed =>
    dsimp only
    rw [standing_set_of_ne hne]
    split
    · exact standing_note_of_ne hne
    · rfl
  | validated =>
    dsimp only
    split
    · exact standing_note_of_ne hne
    · exact standing_set_of_ne hne _

/-- The standing of a component comes from its own contracts alone. -/
theorem standing_foldl_enter (cs : List Contract) (l : Ledger) :
    (cs.foldl (enter s) l).standing component =
      ((cs.filter (·.component = component)).map fun c => (c.kind, c.table s)).foldl
        Standing.enter (l.standing component) := by
  induction cs generalizing l with
  | nil => rfl
  | cons c cs ih =>
    rw [List.foldl_cons, ih]
    by_cases hc : c.component = component
    · subst hc
      simp [standing_enter]
    · simp [hc, standing_enter_of_ne hc]

end Ledger

/-- The kinds and tables of the contracts that a module has for a component, in the order in which
they are met. -/
def declared (s : Setup) (component : String) : List (PropKind × PropTable) :=
  ((moduleContracts s).filter (·.component = component)).map fun c => (c.kind, c.table s)

theorem declared_kind {table : PropTable} (h : (kind, table) ∈ declared s component) :
    ∀ p ∈ table.values, p.kind = kind := by
  obtain ⟨c, -, hc⟩ := List.mem_map.1 h
  obtain ⟨rfl, rfl⟩ := Prod.mk.inj hc
  exact c.table_kind

/-- The model has exactly some props for a component and a caveat that they were declared twice. -/
def KeepsWithCaveat (m : Model) (component : String) (props : PropTable) : Prop :=
  m.propTypes.get? component = some props ∧
    ∃ span, Caveat.duplicateContract component span ∈ m.caveats.toList

theorem isNoted_standing_iff : ((ledgerOf m).standing component).isNoted = true ↔
    ∃ span, Caveat.duplicateContract component span ∈ m.caveats.toList := by
  change (ledgerOf m).duplicates.any (isDuplicateOf component) = true ↔ _
  rw [List.any_eq_true]
  constructor
  · rintro ⟨c, hc, hdup⟩
    obtain ⟨span, rfl⟩ := isDuplicateOf_iff.1 hdup
    exact ⟨span, (List.mem_filter.1 hc).1⟩
  · rintro ⟨span, hspan⟩
    exact ⟨_, List.mem_filter.2 ⟨hspan, rfl⟩, isDuplicateOf_iff.2 ⟨span, rfl⟩⟩

theorem keepsWithCaveat_iff_standing :
    KeepsWithCaveat m component props ↔ (ledgerOf m).standing component = ⟨some props, true⟩ := by
  rw [KeepsWithCaveat, ← isNoted_standing_iff]
  exact ⟨fun ⟨hprops, hnoted⟩ => congrArg₂ Standing.mk hprops hnoted,
    fun h => ⟨congrArg Standing.props? h, congrArg Standing.isNoted h⟩⟩

theorem standing_modelOf (h : modelOf s = .ok m) (component : String) :
    (ledgerOf m).standing component = (declared s component).foldl Standing.enter {} := by
  rw [(recording_modelOf h).ledger, Ledger.standing_foldl_enter]
  rfl

namespace Standing
variable {st : Standing} {objects : List PropTable}

/-- Validators behind a type that declares a prop change nothing but the note. -/
theorem foldl_validated_of_typed (h : st.known.hasKind .typed = true) (hsome : objects ≠ []) :
    (objects.map (PropKind.validated, ·)).foldl enter st = { st with isNoted := true } := by
  induction objects generalizing st with
  | nil => exact absurd rfl hsome
  | cons object objects ih =>
    have hstep : st.enter (.validated, object) = { st with isNoted := true } := by
      simp [enter, h]
    rw [List.map_cons, List.foldl_cons, hstep]
    by_cases hrest : objects = []
    · subst hrest
      rfl
    · exact ih h hrest

theorem enter_validated (h : st.known.hasKind .typed = false) (object : PropTable) :
    st.enter (.validated, object) = { st with props? := some (st.known.extend object) } := by
  simp [enter, h]

/-- Validators that meet no type are collected, with no note. -/
theorem foldl_validated (st : Standing) (hknown : ∀ p ∈ st.known.values, p.kind = .validated)
    (hobjects : ∀ object ∈ objects, ∀ p ∈ object.values, p.kind = .validated) :
    let st' := (objects.map (PropKind.validated, ·)).foldl enter st
    st'.isNoted = st.isNoted ∧ (∀ p ∈ st'.known.values, p.kind = .validated) ∧
      (st'.known = [] ↔ st.known = [] ∧ ∀ object ∈ objects, object = []) := by
  induction objects generalizing st with
  | nil => exact ⟨rfl, hknown, by simp⟩
  | cons object objects ih =>
    have hstep := enter_validated (PropTable.hasKind_of_ne (by decide) hknown) object
    have hnext : (st.enter (.validated, object)).known = st.known.extend object := by
      rw [hstep]
      rfl
    obtain ⟨hnoted, hkinds, hnil⟩ := ih (st.enter (.validated, object))
      (hnext ▸ extend_kind hknown (hobjects object List.mem_cons_self))
      (fun other hother => hobjects other (List.mem_cons_of_mem _ hother))
    refine ⟨hnoted.trans (by rw [hstep]), hkinds, hnil.trans ?_⟩
    rw [hnext, Table.extend_eq_nil_iff, List.forall_mem_cons, and_assoc]

/-- Of several types the last one is kept, and only what was known before them is noted. -/
theorem foldl_typed (st : Standing) (types : PropTable) {earlier : List PropTable}
    (h : ∀ other ∈ earlier, ∀ p ∈ other.values, p.kind = .typed) :
    ((earlier ++ [types]).map (PropKind.typed, ·)).foldl enter st =
      ⟨some types, st.isNoted || st.known.hasKind .validated⟩ := by
  induction earlier generalizing st with
  | nil => rfl
  | cons other earlier ih =>
    have hother : (st.enter (.typed, other)).known.hasKind .validated = false :=
      PropTable.hasKind_of_ne (by decide) (h other List.mem_cons_self)
    rw [List.cons_append, List.map_cons, List.foldl_cons,
      ih _ fun t ht => h t (List.mem_cons_of_mem _ ht), hother, Bool.or_false]
    rfl

end Standing

section Modules
variable {types : PropTable} {earlier objects : List PropTable}

theorem declared_map_kind {tables : List PropTable}
    (h : tables.map (kind, ·) ⊆ declared s component) :
    ∀ table ∈ tables, ∀ p ∈ table.values, p.kind = kind := by
  intro table htable
  exact declared_kind (h (List.mem_map.2 ⟨table, htable, rfl⟩))

/-- Before all validators, the last type is kept with a caveat just when it declares a prop. -/
theorem keepsWithCaveat_types_first (h : modelOf s = .ok m) (hsome : objects ≠ [])
    (hdeclared : declared s component =
      (earlier ++ [types]).map (.typed, ·) ++ objects.map (.validated, ·)) :
    KeepsWithCaveat m component types ↔ types ≠ [] := by
  have htypes := declared_map_kind (s := s) (hdeclared ▸ List.subset_append_left _ _)
  have hobjects := declared_map_kind (s := s) (hdeclared ▸ List.subset_append_right _ _)
  rw [List.forall_mem_append, List.forall_mem_singleton] at htypes
  rw [keepsWithCaveat_iff_standing, standing_modelOf h, hdeclared, List.foldl_append,
    Standing.foldl_typed {} types htypes.1]
  constructor
  · intro hstanding hnil
    subst hnil
    -- Nothing tells the empty type from no contract, so the validators are collected silently.
    obtain ⟨hnoted, -, -⟩ := Standing.foldl_validated ⟨some [], false⟩
      (by simp [Standing.known, Table.values]) hobjects
    exact Bool.noConfusion (hnoted.symm.trans (congrArg Standing.isNoted hstanding))
  · intro hne
    exact Standing.foldl_validated_of_typed ((PropTable.hasKind_iff_ne_nil htypes.2).2 hne) hsome

/-- Behind all validators, the last type is kept, with a caveat just when they declare a prop. -/
theorem keepsWithCaveat_types_last (h : modelOf s = .ok m)
    (hdeclared : declared s component =
      objects.map (.validated, ·) ++ (earlier ++ [types]).map (.typed, ·)) :
    KeepsWithCaveat m component types ↔ ∃ object ∈ objects, object ≠ [] := by
  have hobjects := declared_map_kind (s := s) (hdeclared ▸ List.subset_append_left _ _)
  have htypes := declared_map_kind (s := s) (hdeclared ▸ List.subset_append_right _ _)
  rw [List.forall_mem_append] at htypes
  obtain ⟨hnoted, hkinds, hnil⟩ := Standing.foldl_validated {}
    (by simp [Standing.known, Table.values]) hobjects
  rw [keepsWithCaveat_iff_standing, standing_modelOf h, hdeclared, List.foldl_append,
    Standing.foldl_typed _ types htypes.1]
  generalize (objects.map (PropKind.validated, ·)).foldl Standing.enter {} = st at *
  have hkind : st.known.hasKind .validated = true ↔ ∃ object ∈ objects, object ≠ [] := by
    rw [PropTable.hasKind_iff_ne_nil hkinds, Ne, hnil]
    simp [Standing.known]
  rw [hnoted, ← hkind]
  simp

/-- A component is given types and objects of validators, in one module the types first and in
another the types last. Both models keep what the last type declares, with a caveat, just when that
type and the validators declare some prop. -/
theorem contract_order_iff {s₁ s₂ : Setup} {m₁ m₂ : Model} (h₁ : modelOf s₁ = .ok m₁)
    (h₂ : modelOf s₂ = .ok m₂) (hsome : objects ≠ [])
    (hfirst : declared s₁ component =
      (earlier ++ [types]).map (.typed, ·) ++ objects.map (.validated, ·))
    (hlast : declared s₂ component =
      objects.map (.validated, ·) ++ (earlier ++ [types]).map (.typed, ·)) :
    KeepsWithCaveat m₁ component types ∧ KeepsWithCaveat m₂ component types ↔
      types ≠ [] ∧ ∃ object ∈ objects, object ≠ [] :=
  and_congr (keepsWithCaveat_types_first h₁ hsome hfirst) (keepsWithCaveat_types_last h₂ hlast)

/-- A class with a type that declares what stands between the braces, before its validators. -/
def typeFirst (members : String) : String :=
  "interface P \x7b" ++ members ++ "\x7d\nclass A extends C<P> \x7b\x7d\n" ++
    "A.propTypes = \x7b a: PropTypes.string \x7d;"

/-- The same class with the type behind its validators. -/
def typeLast (members : String) : String :=
  "class A extends C<P> \x7b\x7d\nA.propTypes = \x7b a: PropTypes.string \x7d;\n" ++
    "interface P \x7b" ++ members ++ "\x7d"

set_option maxRecDepth 100000 in
theorem contract_order_oneMember :
    ∃ s₁ m₁ s₂ m₂, setupOf? { isTyped := true } (typeFirst "b: string") = some s₁ ∧
      modelOf s₁ = .ok m₁ ∧ setupOf? { isTyped := true } (typeLast "b: string") = some s₂ ∧
      modelOf s₂ = .ok m₂ ∧
      KeepsWithCaveat m₁ "A" [("b", .ofToken .typed (some "string") true)] ∧
      KeepsWithCaveat m₂ "A" [("b", .ofToken .typed (some "string") true)] := by
  let types : PropTable := [("b", .ofToken .typed (some "string") true)]
  let validators : PropTable := [("a", .ofToken .validated (some "string") false)]
  obtain ⟨s₁, m₁, s₂, m₂, hs₁, hm₁, hs₂, hm₂, hfirst, hlast⟩ :=
    exists_of_analyses? { isTyped := true } (typeFirst "b: string") (typeLast "b: string")
      (fun s₁ _ s₂ _ =>
        declared s₁ "A" = ([] ++ [types]).map (.typed, ·) ++ [validators].map (.validated, ·) ∧
        declared s₂ "A" = [validators].map (.validated, ·) ++ ([] ++ [types]).map (.typed, ·))
      (by decide +kernel)
  have hnonempty : types ≠ [] ∧ ∃ object ∈ [validators], object ≠ [] :=
    ⟨by simp [types], validators, List.mem_singleton_self _, by simp [validators]⟩
  exact ⟨s₁, m₁, s₂, m₂, hs₁, hm₁, hs₂, hm₂,
    (contract_order_iff hm₁ hm₂ (by simp) hfirst hlast).2 hnonempty⟩

set_option maxRecDepth 100000 in
/-- With a type that has no members, the order matters: before the validators it is lost without a
caveat. -/
theorem contract_order_noMember :
    ∃ s₁ m₁ s₂ m₂, setupOf? { isTyped := true } (typeFirst "") = some s₁ ∧ modelOf s₁ = .ok m₁ ∧
      setupOf? { isTyped := true } (typeLast "") = some s₂ ∧ modelOf s₂ = .ok m₂ ∧
      (m₁.propTypes = [("A", [("a", .ofToken .validated (some "string") false)])] ∧
        m₁.caveats.toList = []) ∧
      m₂.propTypes = [("A", [])] ∧
      m₂.caveats.toList = [.duplicateContract "A" ⟨63, 77⟩] := by
  obtain ⟨s₁, m₁, hs₁, hm₁, hfirst⟩ := exists_of_analysis? { isTyped := true } (typeFirst "")
    (fun _ m => m.propTypes = [("A", [("a", .ofToken .validated (some "string") false)])] ∧
      m.caveats.toList = [])
    (by decide +kernel)
  obtain ⟨s₂, m₂, hs₂, hm₂, hlast⟩ := exists_of_analysis? { isTyped := true } (typeLast "")
    (fun _ m => m.propTypes = [("A", [])] ∧
      m.caveats.toList = [.duplicateContract "A" ⟨63, 77⟩])
    (by decide +kernel)
  exact ⟨s₁, m₁, s₂, m₂, hs₁, hm₁, hs₂, hm₂, hfirst, hlast⟩

end Modules

end Order

end Revue.Analysis
