import Revue.Proofs.ClassNotes
import Revue.Proofs.PrimaryComponent

/-!
# Classes that are not at the top level

A module has at most one class at the top level. Every other class, at any depth, is worth a caveat
about its place, and so is a default export that wraps what it exports. The class at the top is told
from the others by its span. If there is none, the first class of the module is its component.
-/

namespace Revue.Analysis
open Text Syntax Component

variable {span : Span} {t : Tree} {name : String} {ts : List Tree}

def classesIn (m : Syntax.Module) : List Tree := m.tree.subtrees.filter (·.kind = .classDef)

/-- The classes that items of a module declare. -/
def topClasses (ts : List Tree) : List Tree := (ts.map itemDeclaration).filter (·.kind = .classDef)

/-- An item that exports an expression as the default, other than a name or an arrow function. -/
def isWrappedExport (t : Tree) : Bool :=
  t.kind = .exportDefaultExpression &&
    match (exportedValue t).kind with
    | .name _ | .arrow _ => false
    | _ => true

def placeNote (t : Tree) : Caveat := .higherOrder t.span

def IsComponentOf (r : Reading) (t : Tree) (c : ClassComponent) : Prop :=
  ∃ m isNested, (addClass r m (nameOrAnonymous t) t isNested).classComponent = some c

theorem IsComponentOf.name_eq {r : Reading} {c : ClassComponent} (h : IsComponentOf r t c) :
    c.name = nameOrAnonymous t ∧ c.span = t.span := by
  obtain ⟨m, isNested, h⟩ := h
  obtain rfl := Option.some.inj h
  exact ⟨rfl, rfl⟩

section Items
variable {s : Setup} {d d' : Draft} {t : Tree}

theorem topClasses_cons (t : Tree) (ts : List Tree) :
    topClasses (t :: ts) =
      (if (itemDeclaration t).kind = .classDef then [itemDeclaration t] else []) ++
        topClasses ts := by
  rw [topClasses, List.map_cons, List.filter_cons]
  by_cases h : (itemDeclaration t).kind = .classDef <;> simp [h, topClasses]

theorem isWrappedExport_of_kind (h : t.kind ≠ .exportDefaultExpression) :
    isWrappedExport t = false := by
  simp [isWrappedExport, h]

theorem isWrappedExport_of_declaration
    (h : (itemDeclaration t).kind ≠ .exportDefaultExpression) : isWrappedExport t = false := by
  refine isWrappedExport_of_kind fun hkind => h ?_
  rw [itemDeclaration_of_kind (by simp [hkind]) (by simp [hkind]), hkind]

theorem isWrappedExport_of_declaresValue (h : declaresValue t = false) :
    isWrappedExport t = false := by
  refine isWrappedExport_of_kind fun hkind => ?_
  simp [declaresValue, hkind] at h

theorem coded_exported (code : CaveatCode) :
    (exported d t).model.coded code = d.model.coded code := by
  unfold exported
  split <;> rfl

theorem coded_addVariables (r : Reading) (code : CaveatCode) (span : Span) :
    (d.addVariables r t span).model.coded code = d.model.coded code := by
  unfold Draft.addVariables
  split
  · split <;> rfl
  · rfl

theorem coded_addContract (members : List Tree) (span : Span) (component : String) :
    (d.addContract s members span component).model.coded .higherOrder =
      d.model.coded .higherOrder := by
  let props := typedProps s.reading s.reader component members
  have hother : ∀ c ∈ props.caveats, c.code ≠ .higherOrder := by
    intro c hc
    simp [typedProps_caveats _ _ _ _ c hc]
  have hprops := coded_addCaveats_of_ne d.model .higherOrder hother
  unfold Draft.addContract
  dsimp only [Draft.update]
  split
  · exact (coded_addCaveat_of_ne _ _ (by simp [Caveat.duplicateContract, Caveat.at_])).trans hprops
  · exact hprops

theorem coded_addType (span : Span) :
    (d.addType s t span).model.coded .higherOrder = d.model.coded .higherOrder := by
  refine addType_induction (P := fun d' => d'.model.coded .higherOrder = d.model.coded .higherOrder)
    rfl rfl fun _ members _ _ component hd => ?_
  exact (coded_addContract members span component).trans hd

theorem coded_addExpression (r : Reading) :
    (d.addExpression r t).model.coded .higherOrder = d.model.coded .higherOrder := by
  rcases addExpression_cases r d t with heq | ⟨_, _, _, m', -, hstatic, heq⟩
  · rw [heq]
    exact coded_addCaveat_of_ne _ _ (by simp [Caveat.statement, Caveat.at_])
  · rw [heq]
    exact (follows_recordStatic? (d := ⟨d.model, none, [], []⟩) hstatic).places

/-- Of all items, only a default export that wraps something is noted for its place. -/
theorem ItemStep.places (h : ItemStep s d t d') :
    d'.model.coded .higherOrder =
      d.model.coded .higherOrder ++ if isWrappedExport t then [placeNote t] else [] := by
  have hplain : isWrappedExport t = false →
      d'.model.coded .higherOrder = d.model.coded .higherOrder →
      d'.model.coded .higherOrder =
        d.model.coded .higherOrder ++ if isWrappedExport t then [placeNote t] else [] := by
    intro hwrapped hsame
    rw [hwrapped, hsame]
    simp
  cases h with
  | empty hkind => exact hplain (isWrappedExport_of_kind (by simp [hkind])) rfl
  | importing hkind =>
    refine hplain (isWrappedExport_of_kind (by simp [hkind])) ?_
    rw [addImport_eq]
    split <;> rfl
  | expression hkind =>
    exact hplain (isWrappedExport_of_kind (by simp [hkind])) (coded_addExpression s.reading)
  | defaultExpression hkind =>
    unfold Draft.addDefaultExpression
    change (match (exportedValue t).kind with
      | .name text => d.setExport text
      | .arrow isAsync => (d.setExport anonymous).addFunctional
          (componentOfArrow s.reading anonymous (exportedValue t) isAsync (exportedValue t).span)
      | _ => d.update (·.addCaveat (.higherOrder t.span)) : Draft).model.coded .higherOrder = _
    split
    · rename_i hname
      simp [isWrappedExport, hkind, hname]
      rfl
    · rename_i harrow
      simp [isWrappedExport, hkind, harrow]
      rfl
    · rename_i hname harrow
      have hwrapped : isWrappedExport t = true := by
        unfold isWrappedExport
        split <;> simp_all
      rw [hwrapped]
      simp [Model.coded, Draft.update, Model.addCaveat, CaveatLog.push, placeNote,
        Caveat.higherOrder, Caveat.at_]
  | classDef hkind =>
    refine hplain (isWrappedExport_of_declaration (by simp [hkind])) ?_
    rw [coded_higherOrder_addClass, coded_exported]
    simp
  | function hkind | signature hkind =>
    exact hplain (isWrappedExport_of_declaration (by simp [hkind])) (coded_exported _)
  | bindings hkind =>
    exact hplain (isWrappedExport_of_declaration (by simp [hkind])) (coded_addVariables _ _ _)
  | type _ _ hvalue => exact hplain (isWrappedExport_of_declaresValue hvalue) (coded_addType _)
  | declaration _ _ hvalue => exact hplain (isWrappedExport_of_declaresValue hvalue) rfl
  | untransferred _ _ hvalue =>
    exact hplain (isWrappedExport_of_declaresValue hvalue)
      (coded_addCaveat_of_ne _ _ (by simp [Caveat.statement, Caveat.at_]))

section
variable (h : ts.foldlM (Draft.addItem s) d = .ok d')
include h

theorem places_of_walk :
    d'.model.coded .higherOrder =
      d.model.coded .higherOrder ++ (ts.filter isWrappedExport).map placeNote := by
  induction ts generalizing d with
  | nil =>
    obtain rfl : d = d' := Except.ok.inj h
    simp
  | cons t ts ih =>
    obtain ⟨d₁, hitem, hrest⟩ := walk_cons h
    rw [ih hrest, (addItem_step hitem).places, List.filter_cons, List.append_assoc]
    cases isWrappedExport t <;> rfl

theorem topClass_toList_of_walk :
    d'.topClass.toList =
      d.topClass.toList ++ (topClasses ts).map fun t => (nameOrAnonymous t, t.span) := by
  induction ts generalizing d with
  | nil =>
    obtain rfl : d = d' := Except.ok.inj h
    simp [topClasses]
  | cons t ts ih =>
    obtain ⟨d₁, hitem, hrest⟩ := walk_cons h
    rw [ih hrest, topClasses_cons, List.map_append, ← List.append_assoc]
    by_cases hclass : (itemDeclaration t).kind = .classDef
    · obtain ⟨hnone, hsome⟩ := (addItem_step hitem).topClass_of_classDef hclass
      simp [hnone, hsome, hclass]
    · simp [(addItem_step hitem).topClass_of_not_classDef hclass, hclass]

theorem component_of_walk (hnone : d.topClass = none) :
    (topClasses ts = [] ∧ d'.topClass = none ∧
        d'.model.classComponent = d.model.classComponent) ∨
      ∃ t c, topClasses ts = [t] ∧ d'.topClass = some (nameOrAnonymous t, t.span) ∧
        d'.model.classComponent = some c ∧ IsComponentOf s.reading t c := by
  induction ts generalizing d with
  | nil =>
    obtain rfl : d = d' := Except.ok.inj h
    exact Or.inl ⟨rfl, hnone, rfl⟩
  | cons t ts ih =>
    obtain ⟨d₁, hitem, hrest⟩ := walk_cons h
    have hstep := addItem_step hitem
    rw [topClasses_cons]
    by_cases hclass : (itemDeclaration t).kind = .classDef
    · right
      have hsome := (hstep.topClass_of_classDef hclass).2
      obtain ⟨hstays, hkept⟩ := sameClass_of_walk hrest (by simp [hsome])
      -- The walk holds one class at most, so no later item declares another.
      have hlist := topClass_toList_of_walk hrest
      rw [hstays, List.self_eq_append_right] at hlist
      have hlater : topClasses ts = [] := List.map_eq_nil_iff.1 hlist
      have hcomponent : ∃ c, d₁.model.classComponent = some c ∧
          IsComponentOf s.reading (itemDeclaration t) c := by
        cases hstep with
        | classDef => exact ⟨_, rfl, _, false, rfl⟩
        | empty hkind | importing hkind | expression hkind | defaultExpression hkind =>
          rw [itemDeclaration_of_kind (by simp [hkind]) (by simp [hkind]), hkind] at hclass
          cases hclass
        | function hkind | signature hkind | bindings hkind =>
          rw [hkind] at hclass
          cases hclass
        | type hne => exact absurd hclass hne
        | declaration hkind | untransferred hkind => simp [hclass, isClassOrType] at hkind
      obtain ⟨c, hc, hof⟩ := hcomponent
      exact ⟨_, c, by simp [hclass, hlater], hstays.trans hsome, hkept.trans hc, hof⟩
    · obtain ⟨htop, hsame⟩ := hstep.sameClass hclass
      have hnone₁ := htop.trans hnone
      rw [if_neg hclass, List.nil_append, ← hsame]
      exact ih hrest hnone₁

end

/-! ### The classes below the top level -/

variable {r : Reading}

theorem coded_placeNotes (m : Model) (ts : List Tree) :
    (m.addCaveats (ts.map placeNote)).coded .higherOrder =
      m.coded .higherOrder ++ ts.map placeNote := by
  rw [coded_addCaveats, List.filter_eq_self.2]
  intro c hc
  obtain ⟨t, -, rfl⟩ := List.mem_map.1 hc
  rfl

theorem nestedClasses_of_none (hnone : d.topClass = none) :
    d.nestedClasses r.module = classesIn r.module := by
  have hother : ∀ span : Span, (none != some span) = true := fun _ => rfl
  simp [Draft.nestedClasses, classesIn, hnone, hother]

theorem nestedClasses_of_some (htop : d.topClass = some (name, span)) :
    d.nestedClasses r.module = (classesIn r.module).filter (·.span ≠ span) := by
  rw [Draft.nestedClasses, classesIn, List.filter_filter, htop]
  refine List.filter_congr fun t _ => ?_
  by_cases hspan : t.span = span
  · simp [hspan]
  · simp [hspan, Ne.symm hspan]

/-- Without a class at the top, all classes are noted and the first is the component. -/
theorem addNested_of_none (hnone : d.topClass = none) :
    (d.addNested r).model.coded .higherOrder =
        d.model.coded .higherOrder ++ (classesIn r.module).map placeNote ∧
      ((classesIn r.module = [] ∧
          (d.addNested r).model.classComponent = d.model.classComponent) ∨
        ∃ t c, (classesIn r.module).head? = some t ∧
          (d.addNested r).model.classComponent = some c ∧ IsComponentOf r t c) := by
  unfold Draft.addNested
  rw [nestedClasses_of_none hnone, hnone]
  cases classesIn r.module with
  | nil => exact ⟨coded_placeNotes d.model [], Or.inl ⟨rfl, rfl⟩⟩
  | cons first rest =>
    refine ⟨?_, Or.inr ⟨first, _, rfl, rfl, _, true, rfl⟩⟩
    refine (coded_placeNotes _ rest).trans ?_
    change (addClass r d.model (nameOrAnonymous first) first true).coded .higherOrder ++ _ = _
    rw [coded_higherOrder_addClass, List.append_assoc]
    rfl

/-- With one, all classes but those with its span are noted. -/
theorem addNested_of_some (htop : d.topClass = some (name, span)) :
    (d.addNested r).model.coded .higherOrder = d.model.coded .higherOrder ++
        ((classesIn r.module).filter (·.span ≠ span)).map placeNote ∧
      (d.addNested r).model.classComponent = d.model.classComponent := by
  refine ⟨?_, (addNested_keeps r d).2 (by simp [htop])⟩
  unfold Draft.addNested
  rw [nestedClasses_of_some htop, htop]
  exact coded_placeNotes d.model _

theorem coded_addMissingValidation :
    (d.addMissingValidation r).model.coded .higherOrder = d.model.coded .higherOrder := by
  unfold Draft.addMissingValidation
  split
  · exact coded_addCaveat_of_ne _ _ (by simp [Caveat.missingValidation, Caveat.unanchored])
  · rfl

end Items

theorem topClasses_subset (m : Syntax.Module) : topClasses m.items ⊆ classesIn m := by
  intro t ht
  obtain ⟨hmem, hkind⟩ := List.mem_filter.1 ht
  obtain ⟨item, hitem, rfl⟩ := List.mem_map.1 hmem
  have hin := itemDeclaration_mem_subtrees item
  exact List.mem_filter.2 ⟨Tree.mem_subtrees_of_part hitem hin, hkind⟩

/-- A node whose span no other one has is taken out by its span. -/
theorem perm_of_nodup (hmem : t ∈ ts) (hnodup : (ts.map (·.span)).Nodup) :
    (ts.filter (·.span ≠ t.span) ++ [t]).Perm ts := by
  have hself : ts.filter (fun n => !decide (n.span ≠ t.span)) = [t] := by
    induction ts with
    | nil => cases hmem
    | cons n ts ih =>
      rw [List.map_cons, List.nodup_cons] at hnodup
      obtain ⟨hnotin, hrest⟩ := hnodup
      rcases List.mem_cons.1 hmem with rfl | hmem
      · have hnone : ts.filter (fun n => !decide (n.span ≠ t.span)) = [] := by
          refine List.filter_eq_nil_iff.2 fun n hn hspan => hnotin ?_
          exact List.mem_map.2 ⟨n, hn, by simpa using hspan⟩
        rw [List.filter_cons, if_pos (by simp), hnone]
      · have hne : n.span ≠ t.span := fun heq => hnotin (List.mem_map.2 ⟨t, hmem, heq.symm⟩)
        rw [List.filter_cons, if_neg (by simp [hne])]
        exact ih hmem hrest
  have hall := List.filter_append_perm (fun n : Tree => decide (n.span ≠ t.span)) ts
  rwa [hself] at hall

/-- The caveats about places are those of the default exports that wrap something and of all classes
but the one at the top. A module has a class component just when it has a class: the one at the top
or else the first. -/
theorem higherOrder_caveats_perm {s : Setup} {m : Model} (h : modelOf s = .ok m)
    (hspans : ((classesIn s.reading.module).map (·.span)).Nodup) :
    (topClasses s.reading.module.items).length ≤ 1 ∧
    topClasses s.reading.module.items ⊆ classesIn s.reading.module ∧
    (m.coded .higherOrder ++ (topClasses s.reading.module.items).map placeNote).Perm
      ((s.reading.module.items.filter isWrappedExport).map placeNote ++
        (classesIn s.reading.module).map placeNote) ∧
    (m.classComponent.isSome = true ↔ classesIn s.reading.module ≠ []) ∧
    ∀ c, m.classComponent = some c → ∃ t,
      (topClasses s.reading.module.items).head?.or (classesIn s.reading.module).head? = some t ∧
        IsComponentOf s.reading t c := by
  obtain ⟨d, hwalk, rfl⟩ := modelOf_walk h
  have hplaces := places_of_walk hwalk
  have hsubset := topClasses_subset s.reading.module
  rw [coded_addMissingValidation, (addMissingValidation_keeps s.reading _).2]
  rcases component_of_walk hwalk rfl with ⟨hnil, hnone, hkept⟩ | ⟨t, c, hone, htop, hc, hof⟩
  · obtain ⟨hnotes, hcomponent⟩ := addNested_of_none (r := s.reading) hnone
    rw [hnil, hnotes, hplaces]
    refine ⟨by simp, List.nil_subset _, by simp [Model.coded], ?_⟩
    rcases hcomponent with ⟨hempty, hsame⟩ | ⟨t, c, hhead, hc, hof⟩
    · rw [hsame, hkept, hempty]
      simp
    · rw [hc]
      have hmem := List.mem_of_mem_head? (Option.mem_def.2 hhead)
      refine ⟨by simp [List.ne_nil_of_mem hmem], fun c' hc' => ⟨t, hhead, ?_⟩⟩
      exact Option.some.inj hc' ▸ hof
  · obtain ⟨hnotes, hsame⟩ := addNested_of_some (r := s.reading) htop
    have hmem : t ∈ classesIn s.reading.module := hsubset (by simp [hone])
    rw [hone] at hsubset ⊢
    rw [hnotes, hplaces, hsame, hc]
    refine ⟨by simp, hsubset, ?_, by simp [List.ne_nil_of_mem hmem], fun c' hc' => ⟨t, rfl, ?_⟩⟩
    · have hperm := (perm_of_nodup hmem hspans).map placeNote
      rw [List.map_append] at hperm
      rw [List.append_assoc]
      exact List.Perm.append_left _ hperm
    · exact Option.some.inj hc' ▸ hof

def classesInClasses : String :=
  "export default f(class \x7b a = class \x7b\x7d \x7d); class A extends g(class \x7b\x7d) \x7b\x7d"

set_option maxRecDepth 100000 in
/-- Each of them is noted, but not the class at the top, which is the component. -/
theorem higherOrder_caveats_classesInClasses :
    ∃ s m, setupOf? {} classesInClasses = some s ∧ modelOf s = .ok m ∧
      ((classesIn s.reading.module).map (·.span)).Nodup ∧
      (m.coded .higherOrder ++ [Caveat.higherOrder ⟨42, 72⟩]).Perm
        ([⟨0, 41⟩, ⟨17, 39⟩, ⟨29, 37⟩, ⟨42, 72⟩, ⟨60, 68⟩].map Caveat.higherOrder) ∧
      ∃ c, m.classComponent = some c ∧ c.name = "A" ∧ c.span = ⟨42, 72⟩ := by
  obtain ⟨s, m, hsetup, hmodel, hspans, htop, hexports, hclasses, hname⟩ :=
    exists_of_analysis? {} classesInClasses (fun s _ =>
      ((classesIn s.reading.module).map (·.span)).Nodup ∧
      (topClasses s.reading.module.items).map (·.span) = [⟨42, 72⟩] ∧
      (s.reading.module.items.filter isWrappedExport).map (·.span) = [⟨0, 41⟩] ∧
      (classesIn s.reading.module).map (·.span) =
        [⟨17, 39⟩, ⟨29, 37⟩, ⟨42, 72⟩, ⟨60, 68⟩] ∧
      (topClasses s.reading.module.items).map nameOrAnonymous = ["A"]) (by decide +kernel)
  obtain ⟨-, -, hperm, hsome, hcomponent⟩ := higherOrder_caveats_perm hmodel hspans
  have hnotes : ∀ {ts : List Tree} {spans : List Span}, ts.map (·.span) = spans →
      ts.map placeNote = spans.map Caveat.higherOrder := by
    rintro ts _ rfl
    rw [List.map_map]
    rfl
  rw [hnotes htop, hnotes hexports, hnotes hclasses] at hperm
  refine ⟨s, m, hsetup, hmodel, hspans, hperm, ?_⟩
  obtain ⟨t, ht⟩ : ∃ t, topClasses s.reading.module.items = [t] :=
    List.length_eq_one_iff.1 (by simpa using congrArg List.length htop)
  have hne : classesIn s.reading.module ≠ [] := by
    intro hnil
    rw [hnil] at hclasses
    cases hclasses
  obtain ⟨c, hc⟩ := Option.isSome_iff_exists.1 (hsome.2 hne)
  obtain ⟨t', ht', hof⟩ := hcomponent c hc
  rw [ht] at ht' htop hname
  obtain rfl : t = t' := Option.some.inj ht'
  refine ⟨c, hc, hof.name_eq.1.trans (List.cons.inj hname).1, ?_⟩
  exact hof.name_eq.2.trans (List.cons.inj htop).1

set_option maxRecDepth 100000 in
/-- The caveat about a default export is anchored at the whole item, not at the expression. -/
theorem higherOrder_caveats_fails_expressionSpan :
    ∃ s m, setupOf? {} "export default f(1);" = some s ∧ modelOf s = .ok m ∧
      (s.reading.module.items.filter isWrappedExport).map (fun t => (exportedValue t).span) =
        [⟨15, 19⟩] ∧
      m.coded .higherOrder = [.higherOrder ⟨0, 20⟩] :=
  exists_of_analysis? _ _ _ (by decide +kernel)

end Revue.Analysis
