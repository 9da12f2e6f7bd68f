import Revue.Proofs.ContractLedger

/-!
# Props without a type are flagged

A prop whose type is not known accepts everything, and a caveat says so. The caveat is noted in the
same step in which the prop is entered, under the name of the component for which it is entered, and
no caveat is ever taken back. So each prop of a finished model that accepts everything is named by a
caveat, however often the contracts of its component were replaced or added to.
-/

namespace Revue.Component
open Text

/-- A prop gets the validator that accepts everything exactly in place of a type. -/
def PropSpec.IsSettled (p : PropSpec) : Prop := p.acceptsAll = true ↔ p.type? = none

theorem PropSpec.isSettled_ofToken (kind : PropKind) (token : Option String) (isRequired : Bool) :
    (ofToken kind token isRequired).IsSettled :=
  Option.isNone_iff_eq_none

theorem PropSpec.isSettled_function (kind : PropKind) (isRequired : Bool) :
    (function kind isRequired).IsSettled := by
  simp [IsSettled, function]

end Revue.Component

namespace Revue.Analysis
open Text Syntax Component

variable {t : Tree} {name : String} {r : Reading} {prop : PropSpec}

/-- The props of a component are settled, and a log names those that accept everything. -/
def FlaggedIn (log : List Caveat) (component : String) (props : PropTable) : Prop :=
  ∀ name prop, (name, prop) ∈ props → prop.IsSettled ∧
    (prop.acceptsAll = true → ∃ span, Caveat.ambiguousProp name component span ∈ log)

namespace FlaggedIn
variable {log log' : List Caveat} {component : String} {props added : PropTable}

theorem nil (log : List Caveat) (component : String) : FlaggedIn log component [] := by
  intro name prop hmem
  cases hmem

theorem mono (h : FlaggedIn log component props) (hlog : log ⊆ log') :
    FlaggedIn log' component props := by
  intro name prop hmem
  obtain ⟨hsettled, hflag⟩ := h name prop hmem
  refine ⟨hsettled, fun haccepts => ?_⟩
  obtain ⟨span, hspan⟩ := hflag haccepts
  exact ⟨span, hlog hspan⟩

theorem extend (h : FlaggedIn log component props) (hadded : FlaggedIn log component added) :
    FlaggedIn log component (props.extend added) := by
  intro name prop hmem
  rcases Table.mem_extend hmem with hold | hnew
  · exact h name prop hold
  · exact hadded name prop hnew

end FlaggedIn

theorem memberProp?_isSettled {reader : TokenReader}
    (h : memberProp? r reader t = some (name, prop)) : prop.IsSettled := by
  obtain ⟨isRequired, rfl | ⟨token, rfl⟩⟩ := memberProp?_cases h
  · exact PropSpec.isSettled_function _ _
  · exact PropSpec.isSettled_ofToken _ _ _

theorem validatedProp?_isSettled (h : validatedProp? t = some (name, prop)) : prop.IsSettled := by
  obtain ⟨token, isRequired, rfl⟩ := validatedProp?_cases h
  exact PropSpec.isSettled_ofToken _ _ _

/-- Props are flagged where they are collected. -/
theorem flaggedIn_extend {read : Tree → Option (String × PropSpec)}
    (hread : ∀ {t name prop}, read t = some (name, prop) → prop.IsSettled) (component : String)
    (ts : List Tree) :
    FlaggedIn (ts.filterMap (ambiguity? read component)) component
      (Table.extend [] (ts.filterMap read)) := by
  intro name prop hmem
  rcases Table.mem_extend hmem with hnil | hmem
  · cases hnil
  · obtain ⟨t, ht, hprop⟩ := List.mem_filterMap.1 hmem
    refine ⟨hread hprop, fun haccepts => ⟨t.span, List.mem_filterMap.2 ⟨t, ht, ?_⟩⟩⟩
    simp [ambiguity?, hprop, haccepts, Option.filter_some]

def Flagged (m : Model) : Prop :=
  ∀ component props, (component, props) ∈ m.propTypes →
    FlaggedIn m.caveats.toList component props

namespace Flagged
variable {m m' : Model} {component : String}

theorem empty : Flagged {} := by
  intro component props hmem
  cases hmem

section
variable (h : Flagged m)
include h

theorem known (component : String) :
    FlaggedIn m.caveats.toList component ((m.propTypes.get? component).getD []) := by
  cases hget : m.propTypes.get? component with
  | none => exact .nil _ _
  | some props => exact h component props (Table.mem_of_get? hget)

theorem of_elsewhere (hother : Elsewhere m m') : Flagged m' := by
  intro component props hmem
  rw [hother.propTypes] at hmem
  obtain ⟨cs, hcs, -⟩ := hother.caveats
  exact (h component props hmem).mono (hcs ▸ List.subset_append_left _ _)

theorem insert {props : PropTable} (hprops : FlaggedIn m.caveats.toList component props) :
    Flagged { m with propTypes := m.propTypes.insert component props } := by
  intro component' props' hmem
  rcases Table.mem_insert hmem with hold | heq
  · exact h component' props' hold
  · obtain ⟨rfl, rfl⟩ := Prod.mk.inj heq
    exact hprops

theorem addCaveats (cs : List Caveat) : Flagged (m.addCaveats cs) :=
  fun component props hmem => (h component props hmem).mono (List.subset_append_left _ _)

theorem addCaveat (c : Caveat) : Flagged (m.addCaveat c) := h.addCaveats [c]

end

/-- A type brings its caveats along and replaces the props of the component. -/
theorem addContract {d : Draft} (h : Flagged d.model) (s : Setup) (members : List Tree)
    (span : Span) (component : String) :
    Flagged (d.addContract s members span component).model := by
  let props := typedProps s.reading s.reader component members
  have hflagged : FlaggedIn props.caveats component props.table := by
    rw [show props = _ from typedProps_eq ..]
    exact flaggedIn_extend memberProp?_isSettled component members
  have hprops : FlaggedIn (d.model.addCaveats props.caveats).caveats.toList component props.table :=
    hflagged.mono (List.subset_append_right _ _)
  have hnoted := h.addCaveats props.caveats
  unfold Draft.addContract
  dsimp only [Draft.update]
  split
  · exact (hnoted.addCaveat _).insert (hprops.mono (List.subset_append_left _ _))
  · exact hnoted.insert hprops

/-- Validators bring their caveats along and are added to those that are known. -/
theorem recordPropTypes (h : Flagged m) (component : String) (object : Tree) :
    Flagged (recordPropTypes m component object) := by
  let props := validatedProps component object
  have hflagged : FlaggedIn props.caveats component props.table := by
    rw [show props = _ from validatedProps_eq ..]
    exact flaggedIn_extend validatedProp?_isSettled component object.parts
  have hprops : FlaggedIn (m.addCaveats props.caveats).caveats.toList component props.table :=
    hflagged.mono (List.subset_append_right _ _)
  have hnoted := h.addCaveats props.caveats
  unfold Analysis.recordPropTypes
  dsimp only
  split
  · exact h.addCaveat _
  · exact hnoted.insert ((hnoted.known component).extend hprops)

theorem recordStatic? (h : Flagged m) {field : StaticField} {value : Tree}
    (hrecord : recordStatic? r m component field value = some m') : Flagged m' := by
  rcases recordStatic?_cases hrecord with ⟨rfl, -, rfl⟩ | ⟨rfl, rfl⟩ | ⟨rfl, name, rfl⟩
  · exact h.recordPropTypes component _
  · exact h
  · exact h

end Flagged

end Revue.Analysis
