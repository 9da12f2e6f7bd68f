import Revue.Proofs.ItemTraces

/-!
# The ledger of prop contracts

A type that a component is correlated with, an object that is assigned to its `propTypes`, and a
static field of its class declare the props of a component; each is a `Contract`. The walk through
a module records contracts and static fields one after the other; whatever else it does is done
elsewhere. The ledger of a model is what it knows about contracts: the declared props, and the
caveats about contracts that were given twice. A recording enters its contracts into the ledger.
-/

namespace Revue.Analysis
open Text Syntax Component

variable {k : Kind} {e value : Tree} {name : String} {r : Reading} {prop : PropSpec}
  {ts : List Tree} {field : StaticField}

inductive Contract where
  /-- The members of a type, which stands in an item with a span. -/
  | typed (component : String) (members : List Tree) (span : Span)
  /-- An object of validators. -/
  | validated (component : String) (object : Tree)

namespace Contract

def component : Contract → String
  | typed component _ _ => component
  | validated component _ => component

def kind : Contract → PropKind
  | typed _ _ _ => .typed
  | validated _ _ => .validated

def table (s : Setup) : Contract → PropTable
  | typed component members _ => (typedProps s.reading s.reader component members).table
  | validated component object => (validatedProps component object).table

/-- Where a contract stands if it is given for a second time. -/
def span : Contract → Span
  | typed _ _ span => span
  | validated _ object => object.span

end Contract

structure Ledger where
  propTypes : Table PropTable := []
  duplicates : List Caveat := []

namespace Ledger

def known (l : Ledger) (component : String) : PropTable := (l.propTypes.get? component).getD []

def note (l : Ledger) (c : Contract) : Ledger :=
  { l with duplicates := l.duplicates ++ [.duplicateContract c.component c.span] }

def set (l : Ledger) (c : Contract) (table : PropTable) : Ledger :=
  { l with propTypes := l.propTypes.insert c.component table }

/-- Enters a contract. A type replaces what is known; validators are added to other validators and
are ignored behind a type. -/
def enter (s : Setup) (l : Ledger) (c : Contract) : Ledger :=
  let known := l.known c.component
  match c.kind with
  | .typed => (if known.hasKind .validated then l.note c else l).set c (c.table s)
  | .validated => if known.hasKind .typed then l.note c else l.set c (known.extend (c.table s))

end Ledger

def ledgerOf (m : Model) : Ledger :=
  ⟨m.propTypes, m.caveats.toList.filter (·.code = .duplicateContract)⟩

/-- A change of a model that touches neither declared props nor default values, and notes no second
contract. -/
structure Elsewhere (m m' : Model) : Prop where
  propTypes : m'.propTypes = m.propTypes
  defaultProps : m'.defaultProps = m.defaultProps
  caveats : ∃ cs, m'.caveats.toList = m.caveats.toList ++ cs ∧
    ∀ c ∈ cs, c.code ≠ .duplicateContract

namespace Elsewhere
variable {m m' : Model}

theorem refl (m : Model) : Elsewhere m m := ⟨rfl, rfl, [], by simp, by simp⟩

theorem addCaveats {cs : List Caveat} (h : ∀ c ∈ cs, c.code ≠ .duplicateContract) :
    Elsewhere m (m.addCaveats cs) :=
  ⟨rfl, rfl, cs, rfl, h⟩

theorem addCaveat {c : Caveat} (h : c.code ≠ .duplicateContract) : Elsewhere m (m.addCaveat c) :=
  addCaveats fun c' hc => by rwa [List.mem_singleton.1 hc]

theorem ledger (h : Elsewhere m m') : ledgerOf m' = ledgerOf m := by
  obtain ⟨cs, hcs, hcodes⟩ := h.caveats
  have hnone : cs.filter (·.code = .duplicateContract) = [] :=
    List.filter_eq_nil_iff.2 fun c hc => by simpa using hcodes c hc
  rw [ledgerOf, ledgerOf, h.propTypes, hcs, List.filter_append, hnone, List.append_nil]

end Elsewhere

section Models
variable {m : Model} {s : Setup}

theorem ledgerOf_duplicate (component : String) (span : Span) :
    ledgerOf (m.addCaveat (.duplicateContract component span)) =
      { ledgerOf m with
        duplicates := (ledgerOf m).duplicates ++ [.duplicateContract component span] } := by
  simp [ledgerOf, Model.addCaveat, CaveatLog.push, Caveat.duplicateContract, Caveat.at_]

/-- The caveat about a prop that is read, if it accepts everything. -/
def ambiguity? (read : Tree → Option (String × PropSpec)) (component : String) (t : Tree) :
    Option Caveat :=
  ((read t).filter (·.2.acceptsAll)).map fun x => .ambiguousProp x.1 component t.span

/-- Props are collected in a table, with a caveat about each that accepts everything. -/
theorem foldProps_eq (read : Tree → Option (String × PropSpec)) (component : String)
    (ts : List Tree) (ps : Props) :
    ts.foldl (fun ps t =>
      match read t with
      | some (name, prop) => ps.add component name prop t.span
      | none => ps) ps =
      ⟨ps.table.extend (ts.filterMap read),
        ps.caveats ++ ts.filterMap (ambiguity? read component)⟩ := by
  induction ts generalizing ps with
  | nil => simp [Table.extend]
  | cons t ts ih =>
    rw [List.foldl_cons, ih, List.filterMap_cons, List.filterMap_cons]
    cases hread : read t with
    | none => simp [ambiguity?, hread]
    | some entry =>
      cases haccepts : entry.2.acceptsAll <;>
        simp [ambiguity?, hread, Props.add, haccepts, Option.filter_some, Table.extend]

theorem typedProps_eq (r : Reading) (reader : TokenReader) (component : String)
    (members : List Tree) :
    typedProps r reader component members =
      ⟨Table.extend [] (members.filterMap (memberProp? r reader)),
        members.filterMap (ambiguity? (memberProp? r reader) component)⟩ :=
  foldProps_eq _ component members {}

theorem validatedProps_eq (component : String) (object : Tree) :
    validatedProps component object =
      ⟨Table.extend [] (object.parts.filterMap validatedProp?),
        object.parts.filterMap (ambiguity? validatedProp? component)⟩ :=
  foldProps_eq _ component object.parts {}

theorem ambiguity?_code {read : Tree → Option (String × PropSpec)} {component : String} :
    ∀ c ∈ ts.filterMap (ambiguity? read component), c.code = .ambiguousProp := by
  intro c hc
  obtain ⟨t, -, ht⟩ := List.mem_filterMap.1 hc
  obtain ⟨x, -, rfl⟩ := Option.map_eq_some_iff.1 ht
  rfl

/-- A member of a type declares a function, or what its type token says. -/
theorem memberProp?_cases {reader : TokenReader} {t : Tree}
    (h : memberProp? r reader t = some (name, prop)) :
    ∃ isRequired, prop = .function .typed isRequired ∨
      ∃ token, prop = .ofToken .typed token isRequired := by
  obtain ⟨name', -, h⟩ := Option.bind_eq_some_iff.1 h
  split at h
  · split at h
    · obtain ⟨-, rfl⟩ := Prod.mk.inj (Option.some.inj h)
      exact ⟨_, .inl rfl⟩
    · obtain ⟨-, rfl⟩ := Prod.mk.inj (Option.some.inj h)
      exact ⟨_, .inr ⟨_, rfl⟩⟩
  · obtain ⟨-, rfl⟩ := Prod.mk.inj (Option.some.inj h)
    exact ⟨_, .inl rfl⟩
  · cases h

def entryValue? (e : Tree) : Option Tree := if e.kind = .property then e.get? .value else none

/-- An entry of validators declares what its value says, or nothing that is known. -/
theorem validatedProp?_value (h : validatedProp? e = some (name, prop)) :
    (∃ value, entryValue? e = some value ∧ prop = validatorProp value) ∨
      entryValue? e = none ∧ prop = .ofToken .validated none false := by
  obtain ⟨key, -, h⟩ := Option.bind_eq_some_iff.1 h
  split at h
  · rename_i hkind
    obtain ⟨name', -, h⟩ := Option.bind_eq_some_iff.1 h
    obtain ⟨value, hvalue, h⟩ := Option.bind_eq_some_iff.1 h
    obtain ⟨-, rfl⟩ := Prod.mk.inj (Option.some.inj h)
    exact Or.inl ⟨value, by rw [entryValue?, if_pos hkind, hvalue], rfl⟩
  · rename_i hkind
    obtain ⟨name', -, h⟩ := Option.bind_eq_some_iff.1 h
    obtain ⟨-, rfl⟩ := Prod.mk.inj (Option.some.inj h)
    exact Or.inr ⟨if_neg (by simp [hkind]), rfl⟩
  · rename_i hkind
    obtain ⟨name', -, h⟩ := Option.bind_eq_some_iff.1 h
    obtain ⟨-, rfl⟩ := Prod.mk.inj (Option.some.inj h)
    exact Or.inr ⟨if_neg (by simp [hkind]), rfl⟩
  · cases h

theorem validatedProp?_cases (h : validatedProp? e = some (name, prop)) :
    ∃ token isRequired, prop = .ofToken .validated token isRequired := by
  rcases validatedProp?_value h with ⟨value, -, rfl⟩ | ⟨-, rfl⟩ <;> exact ⟨_, _, rfl⟩

theorem typedProps_caveats (r : Reading) (reader : TokenReader) (component : String)
    (members : List Tree) :
    ∀ c ∈ (typedProps r reader component members).caveats, c.code = .ambiguousProp := by
  rw [typedProps_eq]
  exact ambiguity?_code

theorem validatedProps_caveats (component : String) (object : Tree) :
    ∀ c ∈ (validatedProps component object).caveats, c.code = .ambiguousProp := by
  rw [validatedProps_eq]
  exact ambiguity?_code

theorem ledgerOf_addContract (members : List Tree) (span : Span) (d : Draft) (component : String) :
    ledgerOf (d.addContract s members span component).model =
      (ledgerOf d.model).enter s (.typed component members span) := by
  let props := typedProps s.reading s.reader component members
  have hcaveats : ledgerOf (d.model.addCaveats props.caveats) = ledgerOf d.model := by
    refine (Elsewhere.addCaveats fun c hc => ?_).ledger
    simp [typedProps_caveats _ _ _ _ c hc]
  have hset : ∀ m : Model,
      ledgerOf { m with propTypes := m.propTypes.insert component props.table } =
      (ledgerOf m).set (.typed component members span) props.table := fun _ => rfl
  have hknown : (ledgerOf d.model).known component =
      (d.model.propTypes.get? component).getD [] := rfl
  unfold Draft.addContract Ledger.enter
  dsimp only [Draft.update, Contract.kind, Contract.component]
  rw [hset, hknown]
  congr 1
  split
  · rw [ledgerOf_duplicate, hcaveats]
    rfl
  · exact hcaveats

theorem ledgerOf_recordPropTypes (m : Model) (component : String) (object : Tree) :
    ledgerOf (recordPropTypes m component object) =
      (ledgerOf m).enter s (.validated component object) := by
  let props := validatedProps component object
  have hcaveats : ledgerOf (m.addCaveats props.caveats) = ledgerOf m := by
    refine (Elsewhere.addCaveats fun c hc => ?_).ledger
    simp [validatedProps_caveats _ _ c hc]
  have hset : ∀ m' : Model, m'.propTypes = m.propTypes → ∀ table : PropTable,
      ledgerOf { m' with propTypes := m.propTypes.insert component table } =
        (ledgerOf m').set (.validated component object) table := by
    intro m' hsame table
    simp only [ledgerOf, Ledger.set, Contract.component, hsame]
  have hknown : (ledgerOf m).known component = (m.propTypes.get? component).getD [] := rfl
  unfold recordPropTypes Ledger.enter
  dsimp only [Contract.kind, Contract.component]
  rw [hknown]
  split
  · exact ledgerOf_duplicate component object.span
  · rw [← hcaveats]
    exact hset (m.addCaveats props.caveats) rfl _

def fieldContracts (component : String) (field : StaticField) (value : Tree) : List Contract :=
  if field = .propTypes ∧ value.withoutParens.kind = .object then
    [.validated component value.withoutParens]
  else []

theorem ledgerOf_recordStatic? {component : String} {m' : Model}
    (h : recordStatic? r m component field value = some m') :
    ledgerOf m' = (fieldContracts component field value).foldl (Ledger.enter s) (ledgerOf m) := by
  rcases recordStatic?_cases h with ⟨rfl, hkind, rfl⟩ | ⟨rfl, rfl⟩ | ⟨rfl, name, rfl⟩
  · simp only [fieldContracts, hkind, and_self, if_true, List.foldl_cons, List.foldl_nil]
    exact ledgerOf_recordPropTypes m component _
  · simp [fieldContracts, recordDefaults, ledgerOf]
  · simp [fieldContracts, ledgerOf]

theorem fieldContracts_of_recordStatic? {component : String}
    (h : recordStatic? r m component field value = none) :
    fieldContracts component field value = [] := by
  by_cases hcontract : field = .propTypes ∧ value.withoutParens.kind = .object
  · obtain ⟨rfl, hkind⟩ := hcontract
    simp [recordStatic?, hkind] at h
  · simp [fieldContracts, hcontract]

end Models

/-! ### Static fields -/

/-- A static field of a component with its value. -/
structure Static where
  component : String
  field : StaticField
  value : Tree

namespace Static

/-- The value of a static field behind any parentheses. -/
def object (x : Static) : Tree := x.value.withoutParens

def contracts (x : Static) : List Contract := fieldContracts x.component x.field x.value

end Static

def classFields (t : Tree) : List Static :=
  (classStatics t).map fun (field, value) => ⟨nameOrAnonymous t, field, value⟩

def assignedField? (t : Tree) : Option Static :=
  ((t.get? .operand).bind staticAssignment?).bind fun (component, field, value) =>
    if isUnderstood field value then some ⟨component, field, value⟩ else none

def itemFields (t : Tree) : List Static :=
  if t.kind = .expressionStatement then (assignedField? t).toList
  else if (itemDeclaration t).kind = .classDef then classFields (itemDeclaration t)
  else []

/-- The static fields of the class below the top level that stands in for one at the top level. -/
def nestedFields (m : Syntax.Module) : List Static :=
  (m.tree.subtrees.find? (·.kind = .classDef)).elim [] classFields

def moduleFields (s : Setup) : List Static :=
  s.reading.module.items.flatMap itemFields ++
    if s.reading.module.items.all fun t => (itemDeclaration t).kind ≠ .classDef then
      nestedFields s.reading.module
    else []

/-! ### Contracts of a module -/

def staticContracts (component : String) (statics : List (StaticField × Tree)) : List Contract :=
  statics.flatMap fun (field, value) => fieldContracts component field value

def classContracts (component : String) (t : Tree) : List Contract :=
  staticContracts component (classStatics t)

def typeContracts (s : Setup) (t : Tree) (span : Span) : List Contract :=
  match contractMembers? t with
  | some (name, members) =>
    (componentsFor s.correlations name).map fun component => .typed component members span
  | none => []

def assignedContracts (t : Tree) : List Contract :=
  match (t.get? .operand).bind staticAssignment? with
  | some (component, field, value) => fieldContracts component field value
  | none => []

def itemContracts (s : Setup) (t : Tree) : List Contract :=
  if t.kind = .expressionStatement then assignedContracts t
  else if (itemDeclaration t).kind = .classDef then
    classContracts (nameOrAnonymous (itemDeclaration t)) (itemDeclaration t)
  else typeContracts s (itemDeclaration t) t.span

def nestedContracts (m : Syntax.Module) : List Contract :=
  match m.tree.subtrees.find? (·.kind = .classDef) with
  | some t => classContracts (nameOrAnonymous t) t
  | none => []

def moduleContracts (s : Setup) : List Contract :=
  s.reading.module.items.flatMap (itemContracts s) ++
    if s.reading.module.items.all fun t => (itemDeclaration t).kind ≠ .classDef then
      nestedContracts s.reading.module
    else []

/-! ### Recordings -/

/-- What is done to a model on the way through a module, with the contracts and the static fields
that are recorded one after the other. -/
inductive Recording (s : Setup) : List Contract → List Static → Model → Model → Prop
  | nil (m : Model) : Recording s [] [] m m
  | elsewhere {cs : List Contract} {xs : List Static} {m m₁ m' : Model} (h : Elsewhere m m₁)
      (hrest : Recording s cs xs m₁ m') : Recording s cs xs m m'
  | typed {cs : List Contract} {xs : List Static} {d : Draft} {m' : Model} (members : List Tree)
      (span : Span) (component : String)
      (hrest : Recording s cs xs (d.addContract s members span component).model m') :
      Recording s (.typed component members span :: cs) xs d.model m'
  | static {cs : List Contract} {xs : List Static} {x : Static} {m m₁ m' : Model}
      (h : recordStatic? s.reading m x.component x.field x.value = some m₁)
      (hrest : Recording s cs xs m₁ m') : Recording s (x.contracts ++ cs) (x :: xs) m m'

namespace Recording
variable {s : Setup} {cs cs' : List Contract} {xs xs' : List Static} {m m₁ m' : Model}

theorem append (h : Recording s cs xs m m₁) (h' : Recording s cs' xs' m₁ m') :
    Recording s (cs ++ cs') (xs ++ xs') m m' := by
  induction h with
  | nil => exact h'
  | elsewhere hother _ ih => exact .elsewhere hother (ih h')
  | typed members span component _ ih => exact .typed members span component (ih h')
  | static hrecord _ ih =>
    rw [List.append_assoc]
    exact .static hrecord (ih h')

theorem of_elsewhere (h : Elsewhere m m') : Recording s [] [] m m' := .elsewhere h (.nil _)

theorem behind (h : Recording s cs xs m m₁) (hother : Elsewhere m₁ m') :
    Recording s cs xs m m' := by
  simpa using h.append (of_elsewhere hother)

/-- The contracts of a recording are entered into the ledger in their order. -/
theorem ledger (h : Recording s cs xs m m') :
    ledgerOf m' = cs.foldl (Ledger.enter s) (ledgerOf m) := by
  induction h with
  | nil => rfl
  | elsewhere hother _ ih => rw [ih, hother.ledger]
  | typed members span component _ ih => rw [ih, ledgerOf_addContract, List.foldl_cons]
  | static hrecord _ ih => rw [ih, ledgerOf_recordStatic? hrecord, Static.contracts,
      List.foldl_append]

end Recording

section Items
variable {s : Setup} {m m' : Model} {d d' : Draft} {t : Tree}

theorem ClassRun.recording {component : String} {statics : List (StaticField × Tree)}
    (h : ClassRun s.reading component statics m m') :
    Recording s (staticContracts component statics)
      (statics.map fun x => ⟨component, x.1, x.2⟩) m m' := by
  induction h with
  | nil m => exact .nil m
  | caveats hcodes _ ih => exact .elsewhere (.addCaveats hcodes) ih
  | static hrecord _ ih => exact .static (x := ⟨component, _, _⟩) hrecord ih

theorem recording_addClass (m : Model) (name : String) (t : Tree) (isNested : Bool) :
    Recording s (classContracts name t) ((classStatics t).map fun x => ⟨name, x.1, x.2⟩) m
      (addClass s.reading m name t isNested) := by
  obtain ⟨m', c, hrun, -, -, heq⟩ := run_addClass s.reading m name t isNested
  rw [heq]
  exact hrun.recording.behind { Elsewhere.refl m' with }

theorem typeContracts_of_kind {span : Span} (h : isClassOrType t.kind = false) :
    typeContracts s t span = [] := by
  have hnone : contractMembers? t = none := by
    unfold contractMembers?
    cases declaredName? t with
    | none => rfl
    | some name =>
      dsimp only [Option.bind_some, bind]
      split <;> simp_all [isClassOrType]
  simp [typeContracts, hnone]

def IsPlain (t : Tree) : Prop :=
  isClassOrType (itemDeclaration t).kind = false ∧ t.kind ≠ .expressionStatement

theorem isPlain_of_kind (hkind : t.kind = k) (hother : isClassOrType k = false)
    (hexport : k ≠ .exportDeclaration) (hdefault : k ≠ .exportDefaultDeclaration)
    (hstatement : k ≠ .expressionStatement) : IsPlain t := by
  refine ⟨?_, hkind ▸ hstatement⟩
  rw [itemDeclaration_of_kind (hkind ▸ hexport) (hkind ▸ hdefault), hkind]
  exact hother

theorem kind_ne_of_declared (hkind : (itemDeclaration t).kind = k)
    (hstatement : k ≠ .expressionStatement) : t.kind ≠ .expressionStatement := by
  intro hexpression
  rw [itemDeclaration_of_kind (by simp [hexpression]) (by simp [hexpression])] at hkind
  exact hstatement (hkind.symm.trans hexpression)

theorem isPlain_of_declared (hkind : (itemDeclaration t).kind = k)
    (hother : isClassOrType k = false) (hstatement : k ≠ .expressionStatement) : IsPlain t :=
  ⟨hkind ▸ hother, kind_ne_of_declared hkind hstatement⟩

theorem IsPlain.ne_classDef (h : IsPlain t) : (itemDeclaration t).kind ≠ .classDef := by
  intro hclass
  simp [IsPlain, hclass, isClassOrType] at h

theorem IsPlain.itemContracts_eq (h : IsPlain t) : itemContracts s t = [] := by
  simp [itemContracts, h.2, h.ne_classDef, typeContracts_of_kind h.1]

theorem itemFields_eq_nil (hstatement : t.kind ≠ .expressionStatement)
    (hclass : (itemDeclaration t).kind ≠ .classDef) : itemFields t = [] := by
  rw [itemFields, if_neg hstatement, if_neg hclass]

theorem exported_elsewhere (d : Draft) (t : Tree) : Elsewhere d.model (exported d t).model := by
  unfold exported
  split
  · exact { Elsewhere.refl d.model with }
  · exact .refl _

theorem recording_addType (t : Tree) (span : Span) :
    Recording s (typeContracts s t span) [] d.model (d.addType s t span).model := by
  have hfold : ∀ (members : List Tree) (components : List String) (d : Draft),
      Recording s (components.map fun component => Contract.typed component members span) []
        d.model (components.foldl (Draft.addContract s members span) d).model := by
    intro members components
    induction components with
    | nil => exact fun d => .nil d.model
    | cons component components ih => exact fun d => .typed members span component (ih _)
  unfold typeContracts
  rcases addType_cases s d t span with ⟨heq, hnone⟩ | ⟨name, members, hmembers, -, heq⟩
  · rw [heq]
    have hother : Elsewhere d.model (d.addDeclaration s.reading span).model :=
      { Elsewhere.refl d.model with }
    split
    · rename_i name members hmembers
      rw [hnone name members hmembers]
      exact .of_elsewhere hother
    · exact .of_elsewhere hother
  · rw [heq, hmembers]
    exact hfold _ _ _

theorem addUntransferred_elsewhere (r : Reading) (span : Span) :
    Elsewhere d.model (d.addUntransferred r span).model :=
  .addCaveat (by simp [Caveat.statement, Caveat.at_])

theorem recording_addExpression (t : Tree) :
    Recording s (assignedContracts t) (assignedField? t).toList d.model
      (d.addExpression s.reading t).model := by
  have huntransferred := addUntransferred_elsewhere (d := d) s.reading t.span
  unfold Draft.addExpression assignedContracts assignedField?
  rw [← Option.bind_assoc]
  cases (t.get? .operand).bind staticAssignment? with
  | none => exact .of_elsewhere huntransferred
  | some assigned =>
    obtain ⟨component, field, value⟩ := assigned
    have hsome := isSome_recordStatic? s.reading d.model component field value
    dsimp only [Option.bind_some]
    cases hrecord : recordStatic? s.reading d.model component field value with
    | none =>
      rw [hrecord] at hsome
      rw [← hsome, fieldContracts_of_recordStatic? hrecord]
      exact .of_elsewhere huntransferred
    | some m' =>
      rw [hrecord] at hsome
      rw [← hsome, ← List.append_nil (fieldContracts component field value)]
      exact .static (x := ⟨component, field, value⟩) hrecord (.nil m')

theorem addDefaultExpression_elsewhere (r : Reading) (value : Tree) (span : Span) :
    Elsewhere d.model (d.addDefaultExpression r value span).model := by
  unfold Draft.addDefaultExpression
  dsimp only
  split
  · exact { Elsewhere.refl d.model with }
  · exact { Elsewhere.refl d.model with }
  · exact .addCaveat (by simp [Caveat.higherOrder, Caveat.at_])

theorem addVariables_elsewhere (r : Reading) (span : Span) :
    Elsewhere d.model (d.addVariables r t span).model := by
  unfold Draft.addVariables
  split
  · split <;> exact { Elsewhere.refl d.model with }
  · exact { Elsewhere.refl d.model with }

/-- An item records its contracts and its static fields. -/
theorem ItemStep.recording (h : ItemStep s d t d') :
    Recording s (itemContracts s t) (itemFields t) d.model d'.model := by
  have hplain : IsPlain t → Elsewhere d.model d'.model →
      Recording s (itemContracts s t) (itemFields t) d.model d'.model := by
    intro hplain hother
    rw [hplain.itemContracts_eq, itemFields_eq_nil hplain.2 hplain.ne_classDef]
    exact .of_elsewhere hother
  cases h with
  | empty hkind =>
    exact hplain (isPlain_of_kind hkind rfl (by simp) (by simp) (by simp)) (.refl _)
  | importing hkind =>
    refine hplain (isPlain_of_kind hkind rfl (by simp) (by simp) (by simp)) ?_
    rw [addImport_eq]
    split <;> exact { Elsewhere.refl d.model with }
  | expression hkind =>
    rw [itemContracts, itemFields, if_pos hkind, if_pos hkind]
    exact recording_addExpression t
  | defaultExpression hkind =>
    exact hplain (isPlain_of_kind hkind rfl (by simp) (by simp) (by simp))
      (addDefaultExpression_elsewhere s.reading _ _)
  | classDef hkind =>
    have hstatement := kind_ne_of_declared hkind (by simp)
    rw [itemContracts, itemFields, if_neg hstatement, if_pos hkind, if_neg hstatement,
      if_pos hkind]
    exact .elsewhere (exported_elsewhere d t) (recording_addClass _ _ _ false)
  | function hkind =>
    exact hplain (isPlain_of_declared hkind rfl (by simp)) { exported_elsewhere d t with }
  | signature hkind =>
    exact hplain (isPlain_of_declared hkind rfl (by simp)) (exported_elsewhere d t)
  | bindings hkind =>
    exact hplain (isPlain_of_declared hkind rfl (by simp)) (addVariables_elsewhere s.reading _)
  | type hclass hstatement =>
    rw [itemContracts, if_neg hstatement, if_neg hclass, itemFields_eq_nil hstatement hclass]
    exact recording_addType _ _
  | declaration hkind hstatement =>
    exact hplain ⟨hkind, hstatement⟩ { Elsewhere.refl d.model with }
  | untransferred hkind hstatement =>
    exact hplain ⟨hkind, hstatement⟩ (addUntransferred_elsewhere s.reading t.span)

theorem recording_of_walk (h : ts.foldlM (Draft.addItem s) d = .ok d') :
    Recording s (ts.flatMap (itemContracts s)) (ts.flatMap itemFields) d.model d'.model := by
  induction ts generalizing d with
  | nil =>
    obtain rfl : d = d' := Except.ok.inj h
    exact .nil _
  | cons t ts ih =>
    obtain ⟨d₁, hitem, hrest⟩ := walk_cons h
    exact (addItem_step hitem).recording.append (ih hrest)

theorem head?_nestedClasses {m : Syntax.Module} (hnone : d.topClass = none) :
    (d.nestedClasses m).head? = m.tree.subtrees.find? (·.kind = .classDef) := by
  have hother : ∀ span : Span, (none != some span) = true := fun _ => rfl
  rw [← List.head?_filter]
  simp [Draft.nestedClasses, hnone, hother]

theorem addCaveats_higherOrder_elsewhere (m : Model) (ts : List Tree) :
    Elsewhere m (m.addCaveats (ts.map fun t => .higherOrder t.span)) := by
  refine .addCaveats fun c hc => ?_
  obtain ⟨t, -, rfl⟩ := List.mem_map.1 hc
  simp [Caveat.higherOrder, Caveat.at_]

/-- Without a class at the top level, the first below it records its static fields. -/
theorem recording_addNested (d : Draft) :
    Recording s (if d.topClass = none then nestedContracts s.reading.module else [])
      (if d.topClass = none then nestedFields s.reading.module else []) d.model
      (d.addNested s.reading).model := by
  have hother := addCaveats_higherOrder_elsewhere
  cases htop : d.topClass with
  | some top =>
    unfold Draft.addNested
    rw [htop]
    exact .of_elsewhere (hother _ _)
  | none =>
    unfold Draft.addNested nestedContracts nestedFields
    rw [if_pos rfl, if_pos rfl, ← head?_nestedClasses htop, htop]
    cases d.nestedClasses s.reading.module with
    | nil => exact .of_elsewhere (hother _ [])
    | cons first rest => exact (recording_addClass _ _ first true).behind (hother _ rest)

theorem addMissingValidation_elsewhere (d : Draft) (r : Reading) :
    Elsewhere d.model (d.addMissingValidation r).model := by
  unfold Draft.addMissingValidation
  split
  · exact .addCaveat (by simp [Caveat.missingValidation, Caveat.unanchored])
  · exact .refl _

theorem all_ne_classDef_iff (h : ts.foldlM (Draft.addItem s) {} = .ok d) :
    (ts.all fun t => (itemDeclaration t).kind ≠ .classDef) = true ↔ d.topClass = none := by
  simpa using (topClass_of_walk h rfl).symm

/-- On the way to the model of a module its contracts and its static fields are recorded. -/
theorem recording_modelOf (h : modelOf s = .ok m) :
    Recording s (moduleContracts s) (moduleFields s) {} m := by
  obtain ⟨d, hwalk, rfl⟩ := modelOf_walk h
  rw [moduleContracts, moduleFields, if_congr (all_ne_classDef_iff hwalk) rfl rfl,
    if_congr (all_ne_classDef_iff hwalk) rfl rfl]
  exact ((recording_of_walk hwalk).append (recording_addNested d)).behind
    (addMissingValidation_elsewhere _ s.reading)

end Items

end Revue.Analysis
