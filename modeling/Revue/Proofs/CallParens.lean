import Mathlib.Algebra.Order.BigOperators.Group.List
import Mathlib.Algebra.Order.Group.Nat
import Revue.Proofs.FieldAssignments
import Revue.Proofs.TokenTexts

/-!
# The parenthesis of a change of state

In a call that changes state the new target is put behind the parenthesis that opens the arguments.
This parenthesis is looked for in the text: the first one behind the callee is taken. Comments and
type arguments may stand in between, and where they hold a parenthesis the target is put there. All
insertions are in their places just when none of them does and no call stands in type arguments of
another; each call then reads as one that assigns to the data of the component.
-/

namespace Revue.Analysis
open Text Syntax Component

variable {a : Site} {n t : Tree} {cs source : List Char}

/-! ### The own parenthesis of a call -/

def isCloser (c : Char) : Bool := c == ',' || c == '>' || c == ')'

/-- The offset of an opening parenthesis behind blanks, comments and closing marks. -/
def parenAfter? : Nat → Nat → List Char → Option Nat
  | 0, _, _ => none
  | fuel + 1, pos, cs =>
    let gap := triviaAfter .start pos cs
    match gap.rest with
    | [] => none
    | c :: rest =>
      if c = '(' then some gap.pos
      else if isCloser c then parenAfter? fuel (gap.pos + 1) rest
      else none

/-- The parenthesis that opens the arguments of a call: the next mark behind the callee and its type
arguments. -/
def ownParen? (source : List Char) (t : Tree) : Option Nat :=
  (t.get? .callee).bind fun callee =>
    let stop := ((t.all .typeArgument).map (·.span.stop)).foldl max callee.span.stop
    (cut? stop source).bind fun (_, rest) => parenAfter? (rest.length + 1) stop rest

def callGap? (source : List Char) (t : Tree) : Option (List Char) :=
  (t.get? .callee).bind fun callee =>
    (ownParen? source t).bind fun pos => Span.slice? ⟨callee.span.stop, pos⟩ source

theorem parenAfter?_spec {fuel pos found : Nat} {cs : List Char}
    (h : parenAfter? fuel pos cs = some found) :
    ∃ skipped rest, cs = skipped ++ '(' :: rest ∧ found = pos + byteLength skipped := by
  induction fuel generalizing pos cs with
  | zero => cases h
  | succ fuel ih =>
    obtain ⟨skipped, hcs, hpos⟩ := skipTrivia_spec .start .blank ⟨false, [], [], false, pos, cs⟩
      pos cs
    change cs = skipped ++ (triviaAfter .start pos cs).rest at hcs
    change (triviaAfter .start pos cs).pos = _ at hpos
    rw [parenAfter?] at h
    split at h
    · cases h
    · rename_i c rest hrest
      rw [hrest] at hcs
      split at h
      · rename_i hparen
        subst hparen
        exact ⟨skipped, rest, hcs, by rw [← Option.some.inj h, hpos]⟩
      · split at h
        · rename_i hcloser
          obtain ⟨skipped', rest', rfl, rfl⟩ := ih h
          have hsize : c.utf8Size = 1 := by
            simp only [isCloser, Bool.or_eq_true, beq_iff_eq] at hcloser
            rcases hcloser with (rfl | rfl) | rfl <;> decide
          refine ⟨skipped ++ c :: skipped', rest', by simp [hcs], ?_⟩
          rw [hpos, byteLength_append, byteLength, hsize]
          omega
        · cases h

section Call
variable {source gap : List Char} {t callee : Tree} {pos : Nat}

/-- Behind its callee and the gap a call goes on with its parenthesis. -/
theorem callGap?_spec (hcallee : t.get? .callee = some callee)
    (h : callGap? source t = some gap) :
    ∃ before rest, source = before ++ (gap ++ '(' :: rest) ∧
      byteLength before = callee.span.stop ∧
      ownParen? source t = some (callee.span.stop + byteLength gap) := by
  rw [callGap?, hcallee, Option.bind_some] at h
  obtain ⟨pos, hpos, hslice⟩ := Option.bind_eq_some_iff.1 h
  obtain ⟨before, after, hsource, hbefore, hgap⟩ := Span.slice?_eq_some_iff.1 hslice
  dsimp only at hbefore hgap
  subst hgap
  refine ⟨before, after.tail, ?_, hbefore, hpos⟩
  rw [ownParen?, hcallee, Option.bind_some] at hpos
  obtain ⟨⟨a, rest⟩, hcut, hparen⟩ := Option.bind_eq_some_iff.1 hpos
  obtain ⟨hsource', ha⟩ := cut?_eq_some_iff.1 hcut
  obtain ⟨skipped, rest', rfl, hfound⟩ := parenAfter?_spec hparen
  -- Both splits of the source are at the same offset.
  have hsame := (cut?_append (before ++ gap) after).symm.trans
    ((congrArg₂ cut? (by simp [hbefore, hfound, ha]) (by simp [← hsource, hsource'])).trans
      (cut?_append (a ++ skipped) ('(' :: rest')))
  obtain ⟨-, rfl⟩ := Prod.mk.inj (Option.some.inj hsame)
  exact hsource

/-- The first parenthesis behind the callee is the one of the call if there is none in the gap, and
else it stands before it. -/
theorem afterParen?_of_callGap? (hcallee : t.get? .callee = some callee)
    (h : callGap? source t = some gap) :
    ∃ pos, afterParen? source callee.span.stop = some pos ∧
      pos ≤ callee.span.stop + byteLength gap + 1 ∧
      (pos = callee.span.stop + byteLength gap + 1 ↔ '(' ∉ gap) := by
  obtain ⟨before, rest, rfl, hbefore, -⟩ := callGap?_spec hcallee h
  rw [← hbefore]
  by_cases hmem : '(' ∈ gap
  · obtain ⟨first, second, rfl, hfirst⟩ := List.eq_append_cons_of_mem hmem
    refine ⟨byteLength before + byteLength first + 1, ?_, ?_, ?_⟩
    · rw [List.append_assoc, List.cons_append]
      exact afterParen?_append hfirst
    · rw [byteLength_append]
      omega
    · have hsize : Char.utf8Size '(' = 1 := by decide
      rw [byteLength_append, byteLength, hsize]
      simp only [hmem, not_true_eq_false, iff_false]
      omega
  · exact ⟨_, afterParen?_append hmem, Nat.le_refl _, by simp [hmem]⟩

end Call

/-! ### Insertions -/

/-- The site of an insertion in front of arguments. -/
def insertion (pos : Nat) : Site := ⟨⟨pos, pos⟩, .setStateArgs⟩

def insertions (as : List Site) : List Site := as.filter (·.kind = .setStateArgs)

def isUpdateCall (t : Tree) : Bool := t.kind = .call && isStateUpdate t

def updateCalls (t : Tree) : List Tree := t.subtrees.filter isUpdateCall

/-- Where the insertion of a call is made: behind the first parenthesis that follows the callee. -/
def insertedAt (source : List Char) (t : Tree) : Nat :=
  ((t.get? .callee).bind fun callee => afterParen? source callee.span.stop).getD 0

/-- Where it belongs: behind the parenthesis of the call. -/
def openedAt (source : List Char) (t : Tree) : Nat :=
  ((ownParen? source t).map (· + 1)).getD 0

theorem isUpdateCall_iff : isUpdateCall t = true ↔ t.kind = .call ∧ isStateUpdate t = true := by
  simp [isUpdateCall]

theorem mem_updateCalls :
    n ∈ updateCalls t ↔ n ∈ t.subtrees ∧ isUpdateCall n = true := List.mem_filter

theorem updateCalls_eq (t : Tree) :
    updateCalls t = (if isUpdateCall t then [t] else []) ++ t.parts.flatMap updateCalls := by
  rw [updateCalls, Tree.subtrees_eq, List.filter_cons, List.filter_flatMap]
  by_cases h : isUpdateCall t = true
  · rw [if_pos h, if_pos h]
    rfl
  · rw [if_neg h, if_neg h]
    rfl

theorem openedAt_eq {gap : List Char} {callee : Tree} (hcallee : t.get? .callee = some callee)
    (h : callGap? source t = some gap) :
    openedAt source t = callee.span.stop + byteLength gap + 1 := by
  obtain ⟨-, -, -, -, hown⟩ := callGap?_spec hcallee h
  simp [openedAt, hown]

/-- The callee of a call that changes state, and where its insertion is made. -/
theorem Laid.exists_insertedAt (hlaid : Laid source t) (h : isUpdateCall t = true) :
    ∃ callee, t.get? .callee = some callee ∧ memberOfThis? callee = some "setState" ∧
      afterParen? source callee.span.stop = some (insertedAt source t) ∧
      insertedAt source t < t.span.stop ∧
      ∀ p ∈ t.parts, p.role = .argument → insertedAt source t ≤ p.span.start := by
  obtain ⟨hkind, hupdate⟩ := isUpdateCall_iff.1 h
  obtain ⟨callee, hcallee, hthis⟩ : ∃ callee, t.get? .callee = some callee ∧
      memberOfThis? callee = some "setState" := by
    simpa [isStateUpdate, Option.any_eq_true] using hupdate
  obtain ⟨pos, hpos, hend, hargs⟩ := hlaid.node.exists_afterParen? hkind hupdate hcallee
  have hat : insertedAt source t = pos := by simp [insertedAt, hcallee, hpos]
  rw [hat]
  exact ⟨callee, hcallee, hthis, hpos, hend, hargs⟩

theorem insertions_map_relativeTo (base : Nat) (as : List Site) :
    insertions (as.map (Site.relativeTo base)) = (insertions as).map (Site.relativeTo base) := by
  rw [insertions, List.filter_map]
  rfl

section Insertions
variable {source : List Char} {binding : Option String}

theorem instanceSite?_kind {parent : Option Tree} (h : instanceSite? parent t = some a) :
    a.kind ≠ .setStateArgs := by
  unfold instanceSite? at h
  split at h <;> cases h <;> simp

theorem bindingSite?_kind (h : bindingSite? binding t = some a) : a.kind ≠ .setStateArgs := by
  unfold bindingSite? at h
  split at h
  · split at h
    · obtain rfl := Option.some.inj h
      simp
    · cases h
  · cases h

theorem attributeSites_kind (h : a ∈ attributeSites t) : a.kind ≠ .setStateArgs := by
  unfold attributeSites at h
  split at h
  · split at h
    · obtain rfl := List.mem_singleton.1 h
      simp
    · cases h
  · cases h

theorem updateSites_eq_nil (h : isStateUpdate t = false) : updateSites source t = [] := by
  unfold updateSites
  cases hcallee : t.get? .callee with
  | none => rfl
  | some callee =>
    have hne : ¬ memberOfThis? callee = some "setState" := by
      simpa [isStateUpdate, hcallee] using h
    exact if_neg hne

/-- Only a call that changes state stands for an insertion. -/
theorem insertions_expectedAt (parent : Option Tree) (hlaid : Laid source t) :
    insertions (expectedAt source (.classMember binding) parent t) =
      if isUpdateCall t then [insertion (insertedAt source t)] else [] := by
  by_cases hcall : isUpdateCall t = true
  · obtain ⟨callee, hcallee, hthis, hpos, -⟩ := hlaid.exists_insertedAt hcall
    rw [if_pos hcall]
    simp [expectedAt, (isUpdateCall_iff.1 hcall).1, updateSites, hcallee, hthis, hpos, insertions,
      insertion]
  · rw [if_neg hcall, insertions, List.filter_eq_nil_iff]
    intro a ha
    rw [decide_eq_true_eq]
    by_cases hmember : t.kind = .member
    · simp only [expectedAt, hmember] at ha
      rcases List.mem_append.1 ha with ha | ha
      · exact instanceSite?_kind (Option.mem_toList.1 ha)
      · exact bindingSite?_kind (Option.mem_toList.1 ha)
    by_cases hattribute : t.kind = .attribute
    · simp only [expectedAt, hattribute] at ha
      exact attributeSites_kind ha
    by_cases hkind : t.kind = .call
    · have hother : isStateUpdate t = false := by simpa [isUpdateCall, hkind] using hcall
      simp [expectedAt, hkind, updateSites_eq_nil hother] at ha
    · rw [expectedAt_of_kind _ hmember hkind hattribute] at ha
      cases ha

/-- Among the sites that belong into a tree there is one insertion for each call. -/
theorem insertions_expectedIn (parent : Option Tree) (hlaid : Laid source t) :
    insertions (expectedIn source (.classMember binding) parent t) =
      (updateCalls t).map fun n => insertion (insertedAt source n) := by
  induction t using Tree.induction generalizing parent with
  | h r k s ps ih =>
    have hparts : insertions (ps.flatMap
        (expectedIn source (.classMember binding) (some (.node r k s ps)))) =
        (ps.flatMap updateCalls).map fun n => insertion (insertedAt source n) := by
      rw [insertions, List.filter_flatMap, List.map_flatMap]
      exact List.flatMap_congr fun p hp => ih p hp _ (hlaid.part hp)
    rw [expectedIn_eq, insertions, List.filter_append, updateCalls_eq, List.map_append]
    refine congrArg₂ _ ((insertions_expectedAt parent hlaid).trans ?_) hparts
    by_cases hcall : isUpdateCall (.node r k s ps) = true
    · rw [if_pos hcall, if_pos hcall]
      rfl
    · rw [if_neg hcall, if_neg hcall]
      rfl

/-- The node under a laid one lies in its span. -/
theorem Laid.subtree_le (h : Laid source t) (hn : n ∈ t.subtrees) :
    t.span.start ≤ n.span.start ∧ n.span.stop ≤ t.span.stop := by
  induction t using Tree.induction with
  | h r k s ps ih =>
    rw [Tree.subtrees_eq, List.mem_cons, List.mem_flatMap] at hn
    obtain rfl | ⟨p, hp, hn⟩ := hn
    · exact ⟨Nat.le_refl _, Nat.le_refl _⟩
    · obtain ⟨hstart, hstop⟩ := nested_le h.node hp
      obtain ⟨hstart', hstop'⟩ := ih p hp (h.part hp) hn
      exact ⟨Nat.le_trans hstart hstart', Nat.le_trans hstop' hstop⟩

/-- The insertion of a call is made in front of its place, or in its place if no parenthesis stands
in between. -/
theorem Laid.insertedAt_le {n : Tree} {gap : List Char} (hlaid : Laid source n)
    (hcall : isUpdateCall n = true) (hgap : callGap? source n = some gap) :
    n.span.start ≤ insertedAt source n ∧ insertedAt source n ≤ openedAt source n ∧
      (insertedAt source n = openedAt source n ↔ '(' ∉ gap) := by
  obtain ⟨callee, hcallee, -, hpos, -⟩ := hlaid.exists_insertedAt hcall
  have hmem := (Tree.mem_parts_of_get? hcallee).1
  have hstart := (nested_le hlaid.node hmem).1
  have hordered := (hlaid.part hmem).node.within.ordered
  have hbehind := (afterParen?_spec hpos).1
  obtain ⟨pos, hpos', hle, heq⟩ := afterParen?_of_callGap? hcallee hgap
  obtain rfl : insertedAt source n = pos := Option.some.inj (hpos.symm.trans hpos')
  rw [openedAt_eq hcallee hgap]
  exact ⟨by omega, hle, heq⟩

end Insertions

section Places
variable {r : Reading} {binding : Option String} {t : Tree}

/-- The insertions that are found and those that are missed, one for each call. -/
theorem insertions_perm (binding : Option String) (hlaid : Laid r.source t) :
    (insertions (fragmentOf r (.classMember binding) t).sites ++
        (insertions (missedIn r.source (.classMember binding) t)).map
          (Site.relativeTo t.span.start)).Perm
      ((updateCalls t).map fun n => insertion (insertedAt r.source n - t.span.start)) := by
  have hperm := (sites_perm (.classMember binding) hlaid).filter (·.kind = .setStateArgs)
  rw [List.filter_append] at hperm
  change (insertions _ ++ insertions (missedSites r (.classMember binding) t)).Perm
    (insertions (expectedSites r (.classMember binding) t)) at hperm
  rw [missedSites, expectedSites, insertions_map_relativeTo, insertions_map_relativeTo,
    insertions_expectedIn none hlaid, List.map_map] at hperm
  exact hperm

/-- Of places that are all in front of others or the same, the sum tells if they are the same. -/
theorem eq_of_perm_insertions {calls : List Tree} {f g : Tree → Nat} {base : Nat}
    (hle : ∀ n ∈ calls, base ≤ f n ∧ f n ≤ g n)
    (hperm : (calls.map fun n => insertion (f n - base)).Perm
      (calls.map fun n => insertion (g n - base))) : ∀ n ∈ calls, f n = g n := by
  have hsum := (hperm.map fun a => a.range.start).sum_eq
  rw [List.map_map, List.map_map] at hsum
  intro n hn
  by_contra hne
  refine absurd hsum (Nat.ne_of_lt (List.sum_lt_sum _ _ (fun m hm => ?_) ⟨n, hn, ?_⟩))
  · exact Nat.sub_le_sub_right (hle m hm).2 base
  · obtain ⟨hbase, hfg⟩ := hle n hn
    change f n - base < g n - base
    omega

/-- All insertions are in their places just when no gap holds a parenthesis and none is missed. -/
theorem insertions_perm_iff (hlaid : Laid r.source t)
    (hopens : ∀ n ∈ updateCalls t, (callGap? r.source n).isSome = true) :
    (insertions (fragmentOf r (.classMember binding) t).sites).Perm
        ((updateCalls t).map fun n => insertion (openedAt r.source n - t.span.start)) ↔
      (∀ n ∈ updateCalls t, ∀ gap, callGap? r.source n = some gap → '(' ∉ gap) ∧
        insertions (missedIn r.source (.classMember binding) t) = [] := by
  have hall := insertions_perm binding hlaid
  have hplace : ∀ n ∈ updateCalls t, ∀ gap, callGap? r.source n = some gap →
      (t.span.start ≤ insertedAt r.source n ∧ insertedAt r.source n ≤ openedAt r.source n) ∧
        (insertedAt r.source n = openedAt r.source n ↔ '(' ∉ gap) := by
    intro n hn gap hgap
    obtain ⟨hsubtree, hcall⟩ := mem_updateCalls.1 hn
    obtain ⟨hstart, hle, heq⟩ := (hlaid.subtree hsubtree).insertedAt_le hcall hgap
    exact ⟨⟨Nat.le_trans (hlaid.subtree_le hsubtree).1 hstart, hle⟩, heq⟩
  constructor
  · intro hown
    have hmissed : insertions (missedIn r.source (.classMember binding) t) = [] := by
      have hlength := hall.length_eq
      rw [List.length_append, hown.length_eq] at hlength
      simp only [List.length_map] at hlength
      exact List.length_eq_zero_iff.1 (by omega)
    rw [hmissed, List.map_nil, List.append_nil] at hall
    have hsame := eq_of_perm_insertions (fun n hn => by
      obtain ⟨gap, hgap⟩ := Option.isSome_iff_exists.1 (hopens n hn)
      exact (hplace n hn gap hgap).1) (hall.symm.trans hown)
    exact ⟨fun n hn gap hgap => (hplace n hn gap hgap).2.1 (hsame n hn), hmissed⟩
  · rintro ⟨hgaps, hmissed⟩
    rw [hmissed, List.map_nil, List.append_nil] at hall
    refine hall.trans (List.Perm.of_eq (List.map_congr_left fun n hn => ?_))
    obtain ⟨gap, hgap⟩ := Option.isSome_iff_exists.1 (hopens n hn)
    rw [(hplace n hn gap hgap).2.2 (hgaps n hn gap hgap)]

end Places

/-! ### The text of a call -/

inductive Reaches (source : List Char) (setting : Setting) : Tree → Tree → Prop
  | self (t : Tree) : Reaches source setting t t
  | part {t p n : Tree} (hp : p ∈ t.parts)
      (hvisits : (step source setting t).visits p.role = true)
      (h : Reaches source setting p n) : Reaches source setting t n

section Reached
variable {source : List Char} {setting : Setting} {t n : Tree}

theorem Reaches.mem_subtrees (h : Reaches source setting t n) : n ∈ t.subtrees := by
  induction h with
  | self t => exact t.mem_subtrees_self
  | part hp _ _ ih => exact Tree.mem_subtrees_of_part hp ih

theorem Reaches.marks_subset (h : Reaches source setting t n) :
    marks source setting n ⊆ marks source setting t := by
  induction h with
  | self t => exact List.Subset.refl _
  | part hp hvisits _ ih =>
    intro a ha
    rw [marks_eq]
    exact List.mem_append_right _
      (List.mem_flatMap.2 ⟨_, List.mem_filter.2 ⟨hp, hvisits⟩, ih ha⟩)

theorem StopsAt.range_lt (h : StopsAt setting t a) (hlaid : Laid source t) :
    a.range.start < a.range.stop := by
  have hobject : ∀ {object : Tree} {name : String}, namedMember? t = some (object, name) →
      Laid source object := by
    intro object name hnamed
    obtain ⟨node, -, hparts, -⟩ := namedMember?_eq_some hnamed
    exact hlaid.part (by simp [hparts])
  have hthis : ∀ {u : Tree} {name : String}, memberOfThis? u = some name → Laid source u →
      u.span.start < u.span.stop := by
    intro u name hname hu
    obtain ⟨inner, hinner, -⟩ := memberOfThis?_eq_some hname
    exact hu.lt_of_namedMember? hinner
  cases h with
  | children hnamed _ => exact hlaid.lt_of_namedMember? hnamed
  | propsMember hnamed _ hprops => exact hthis hprops (hobject hnamed)
  | stateMember hnamed hstate => exact hthis hstate (hobject hnamed)
  | propsObject hprops => exact hthis hprops hlaid
  | stateObject hstate => exact hthis hstate hlaid
  | binding hnamed hsome hbinding =>
    obtain ⟨name, hname⟩ := Option.isSome_iff_exists.1 hsome
    exact (hobject hnamed).lt_of_name? (hbinding.trans hname)
  | functionalChildren hnamed _ _ => exact hlaid.lt_of_namedMember? hnamed

theorem StopsAt.kind_ne (h : StopsAt setting t a) : a.kind ≠ .setStateArgs := by
  cases h <;> simp

theorem isUpdateCall_of_isUpdateIn (h : isUpdateIn setting t = true) : isUpdateCall t = true := by
  unfold isUpdateIn at h
  split at h
  · rename_i hkind
    exact isUpdateCall_iff.2 ⟨hkind, h⟩
  · cases h

/-- The sites of a call: its callee, which is not empty, and the insertion behind it. -/
theorem Laid.updateSites_eq (hlaid : Laid source t) (hcall : isUpdateCall t = true) :
    ∃ callee, t.get? .callee = some callee ∧
      updateSites source t = [⟨callee.span, .setStateCallee⟩, insertion (insertedAt source t)] ∧
      t.span.start ≤ callee.span.start ∧ callee.span.start < callee.span.stop ∧
      callee.span.stop < insertedAt source t ∧ insertedAt source t < t.span.stop := by
  obtain ⟨callee, hcallee, hthis, hpos, hend, -⟩ := hlaid.exists_insertedAt hcall
  have hmem := (Tree.mem_parts_of_get? hcallee).1
  obtain ⟨inner, hinner, -⟩ := memberOfThis?_eq_some hthis
  exact ⟨callee, hcallee, by simp [updateSites, hcallee, hthis, hpos, insertion],
    (nested_le hlaid.node hmem).1, (hlaid.part hmem).lt_of_namedMember? hinner,
    (afterParen?_spec hpos).1, hend⟩

/-- A site stops behind the start of the node in which it is found. If it is empty, it stands right
behind a parenthesis. -/
theorem marks_stop (hlaid : Laid source t) : ∀ a ∈ marks source setting t,
    t.span.start < a.range.stop ∧ (a.range.start < a.range.stop ∨
      ∃ from_, afterParen? source from_ = some a.range.start) := by
  induction t using Tree.induction with
  | h r k s ps ih =>
    intro a ha
    rw [marks_eq] at ha
    rcases List.mem_append.1 ha with ha | ha
    · rcases step_cases source setting (.node r k s ps) with ⟨b, hstop, hstep⟩ | ⟨hstep, -⟩ |
        ⟨-, hupdate, hmarks, -⟩ | ⟨-, hmarks, -⟩
      · obtain rfl : a = b := by simpa [marksAt, hstep, Step.stop, Finding.mark?] using ha
        have hstart := (hstop.inSpan hlaid).2.start_le
        have hlt := hstop.range_lt hlaid
        exact ⟨Nat.lt_of_le_of_lt hstart hlt, Or.inl hlt⟩
      · simp [marksAt, hstep, Step.go] at ha
      · have hcall := isUpdateCall_of_isUpdateIn hupdate
        obtain ⟨callee, -, hsites, hstart, hlt, hbehind, -⟩ := hlaid.updateSites_eq hcall
        rw [hmarks, hsites] at ha
        rcases List.mem_cons.1 ha with rfl | ha
        · exact ⟨Nat.lt_of_le_of_lt hstart hlt, Or.inl hlt⟩
        · obtain rfl := List.mem_singleton.1 ha
          obtain ⟨callee', -, -, hpos, -⟩ := hlaid.exists_insertedAt hcall
          refine ⟨?_, Or.inr ⟨_, hpos⟩⟩
          change _ < insertedAt source (.node r k s ps)
          omega
      · rw [hmarks] at ha
        unfold attributeSites at ha
        split at ha
        · rename_i name hname
          have hmem := (Tree.mem_parts_of_get? hname).1
          split at ha
          · rename_i hclass
            obtain rfl := List.mem_singleton.1 ha
            have hlt := (hlaid.part hmem).lt_of_name? hclass
            exact ⟨Nat.lt_of_le_of_lt (nested_le hlaid.node hmem).1 hlt, Or.inl hlt⟩
          · cases ha
        · cases ha
    · obtain ⟨p, hp, ha⟩ := List.mem_flatMap.1 ha
      have hmem := (List.mem_filter.1 hp).1
      obtain ⟨hstop, hfilled⟩ := ih p hmem (hlaid.part hmem) a ha
      exact ⟨Nat.lt_of_le_of_lt (nested_le hlaid.node hmem).1 hstop, hfilled⟩

/-- A site that is found is one of a node that the walk comes to, or it lies outside of it. -/
theorem Reaches.marks_cases (h : Reaches source setting t n) (hlaid : Laid source t)
    (hsome : n.span.start < n.span.stop) :
    ∀ a ∈ marks source setting t, a ∈ marks source setting n ∨
      a.range.stop ≤ n.span.start ∨ n.span.stop ≤ a.range.start := by
  induction h with
  | self t => exact fun a ha => Or.inl ha
  | @part t p n hp hvisits hreach ih =>
    obtain ⟨hstart, hstop⟩ := (hlaid.part hp).subtree_le hreach.mem_subtrees
    intro a ha
    rw [marks_eq] at ha
    rcases List.mem_append.1 ha with ha | ha
    · -- The node itself is a span that a site of its own could have.
      have hnode : InSpan p.span ⟨n.span, .children⟩ :=
        ⟨hstart, hstop, Nat.lt_of_lt_of_le hsome hstop⟩
      have hsortable := (marksAt_laid setting hlaid).2 a ha p hp hvisits _ hnode
      rcases siteSortable_iff.1 hsortable with hbefore | ⟨hbehind, -⟩
      · exact Or.inr (Or.inl hbefore)
      · exact Or.inr (Or.inr hbehind)
    · obtain ⟨q, hq, ha⟩ := List.mem_flatMap.1 ha
      have hmem := (List.mem_filter.1 hq).1
      by_cases hsame : q = p
      · subst hsame
        exact ih (hlaid.part hp) hsome a ha
      · have : Std.Symm fun a b : Tree => apart a.span b.span := ⟨fun _ _ h => Or.symm h⟩
        have hin := (marks_laid setting q (hlaid.part hmem)).inSpan a ha
        have hqstart := hin.start_le
        have hqstop := hin.stop_le
        rcases hlaid.node.apart.forall hmem hp hsame with hapart | hapart
        · exact Or.inr (Or.inl (by omega))
        · exact Or.inr (Or.inr (by omega))

section ClassCode
variable {binding : Option String}

theorem step_of_isUpdateCall (source : List Char) (binding : Option String)
    (hcall : isUpdateCall t = true) :
    marksAt source (.classMember binding) t = updateSites source t ∧
      (step source (.classMember binding) t).visits = fun r => decide (r = .argument) := by
  obtain ⟨hkind, hupdate⟩ := isUpdateCall_iff.1 hcall
  have hstep : step source (.classMember binding) t = classCall source t := by
    simp [step, hkind]
  rw [marksAt, hstep]
  rcases classCall_cases source binding hkind with ⟨-, hpasses⟩ | ⟨-, hmarks⟩
  · have hnot := hpasses.notUpdate
    simp [isUpdateIn, hkind, hupdate] at hnot
  · exact hmarks

/-- Between the callee of a call and its insertion no other site is found. -/
theorem eq_of_between {callee : Site} (hlaid : Laid source t) (hcall : isUpdateCall n = true)
    (hreach : Reaches source (.classMember binding) t n)
    (hsites : updateSites source n = [callee, insertion (insertedAt source n)])
    (ha : a ∈ marks source (.classMember binding) t) (hstart : callee.range.stop ≤ a.range.start)
    (hstop : a.range.stop ≤ insertedAt source n) : a = insertion (insertedAt source n) := by
  have hn := hlaid.subtree hreach.mem_subtrees
  obtain ⟨node, -, hsites', hstart', hlt, hbehind, hend⟩ := hn.updateSites_eq hcall
  obtain ⟨rfl, -⟩ := List.cons.inj (hsites.symm.trans hsites')
  dsimp only at hstart
  have hordered := ((marks_laid (.classMember binding) t hlaid).within a ha).ordered
  rcases hreach.marks_cases hlaid (by omega) a ha with ha | ha | ha
  · obtain ⟨hmarks, hvisits⟩ := step_of_isUpdateCall source binding hcall
    rw [marks_eq, hmarks, hsites, hvisits] at ha
    rcases List.mem_append.1 ha with ha | ha
    · rcases List.mem_cons.1 ha with rfl | ha
      · dsimp only at hstart
        omega
      · exact List.mem_singleton.1 ha
    · obtain ⟨p, hp, ha⟩ := List.mem_flatMap.1 ha
      obtain ⟨hmem, hrole⟩ := List.mem_filter.1 hp
      obtain ⟨-, -, -, -, -, hargs⟩ := hn.exists_insertedAt hcall
      have hle := hargs p hmem (by simpa using hrole)
      have hbehind' := (marks_stop (hn.part hmem) a ha).1
      omega
  · omega
  · omega

theorem reaches_of_mem_updateCalls (hlaid : Laid source t)
    (hmissed : insertions (missedIn source (.classMember binding) t) = [])
    (hn : n ∈ updateCalls t) : Reaches source (.classMember binding) t n := by
  induction t using Tree.induction with
  | h r k s ps ih =>
    rw [updateCalls_eq, List.mem_append, List.mem_flatMap] at hn
    rcases hn with hn | ⟨p, hp, hn⟩
    · split at hn
      · rw [List.mem_singleton.1 hn]
        exact .self _
      · cases hn
    -- What is missed in a part that is entered is missed in the node.
    have hentered : (step source (.classMember binding) (.node r k s ps)).visits p.role = true →
        (∀ a ∈ missedIn source (.classMember binding) p,
          a ∈ missedIn source (.classMember binding) (.node r k s ps)) →
        Reaches source (.classMember binding) (.node r k s ps) n := by
      intro hvisits hsubset
      refine .part hp hvisits (ih p hp (hlaid.part hp) ?_ hn)
      rw [insertions, List.filter_eq_nil_iff] at hmissed ⊢
      exact fun a ha => hmissed a (hsubset a ha)
    have hexpected : ∀ parent, insertion (insertedAt source n) ∈
        expectedIn source (.classMember binding) parent p := by
      intro parent
      have hmem : insertion (insertedAt source n) ∈
          insertions (expectedIn source (.classMember binding) parent p) := by
        rw [insertions_expectedIn parent (hlaid.part hp)]
        exact List.mem_map_of_mem hn
      exact (List.mem_filter.1 hmem).1
    rcases step_cases source (.classMember binding) (.node r k s ps) with ⟨a, hstop, -⟩ |
      ⟨hstep, hpasses⟩ | ⟨-, hupdate, -, hvisits⟩ | ⟨hkind, -, hvisits⟩
    · have hall := (hstop.expectedIn_eq hlaid).1
      have hmem : insertion (insertedAt source n) ∈
          expectedIn source (.classMember binding) none (.node r k s ps) := by
        rw [expectedIn_eq]
        exact List.mem_append_right _ (List.mem_flatMap.2 ⟨p, hp, hexpected _⟩)
      rw [hall, List.mem_singleton] at hmem
      exact absurd (congrArg Site.kind hmem.symm) hstop.kind_ne
    · refine hentered (by rw [hstep]; rfl) fun a ha => ?_
      rw [missedIn_of_not_update _ _ hpasses.notUpdate]
      exact List.mem_flatMap.2 ⟨p, hp, ha⟩
    · by_cases hrole : p.role = .argument
      · refine hentered (by rw [hvisits]; simpa using hrole) fun a ha => ?_
        rw [missedIn_of_update _ _ hupdate]
        exact List.mem_append_right _
          (List.mem_flatMap.2 ⟨p, List.mem_filter.2 ⟨hp, by simpa using hrole⟩, ha⟩)
      · have hmem : insertion (insertedAt source n) ∈
            insertions (missedIn source (.classMember binding) (.node r k s ps)) := by
          refine List.mem_filter.2 ⟨?_, by simp [insertion]⟩
          rw [missedIn_of_update _ _ hupdate]
          exact List.mem_append_left _ (List.mem_flatMap.2
            ⟨p, List.mem_filter.2 ⟨hp, by simpa using hrole⟩, hexpected _⟩)
        rw [hmissed] at hmem
        cases hmem
    · by_cases hrole : p.role = .value
      · refine hentered (by rw [hvisits]; simpa using hrole) fun a ha => ?_
        rw [missedIn_of_not_update _ _ (isUpdateIn_of_kind _ (by simp [hkind]))]
        exact List.mem_flatMap.2 ⟨p, hp, ha⟩
      · obtain ⟨hsubtree, hcall⟩ := mem_updateCalls.1 hn
        have hname := hlaid.node.names hkind p hp hrole n hsubtree
        simp [(isUpdateCall_iff.1 hcall).1, Kind.isAttributeName] at hname

end ClassCode

end Reached

/-- What becomes of one edit among others, and what follows it. -/
theorem splice_append_cons {out : List Char} {last : Nat} {es rest : List Edit} {e : Edit}
    (h : Edit.splice cs last (es ++ e :: rest) = some out) :
    ∃ before after, out = before ++ e.replacement.toList ++ after ∧
      Edit.splice cs e.range.stop rest = some after := by
  induction es generalizing last out with
  | nil =>
    obtain ⟨piece, -, hrest⟩ := Option.bind_eq_some_iff.1 h
    obtain ⟨after, hafter, rfl⟩ := Option.map_eq_some_iff.1 hrest
    exact ⟨piece, after, rfl, hafter⟩
  | cons e' es ih =>
    obtain ⟨piece, -, hrest⟩ := Option.bind_eq_some_iff.1 h
    obtain ⟨tail, htail, rfl⟩ := Option.map_eq_some_iff.1 hrest
    obtain ⟨before, after, rfl, hafter⟩ := ih htail
    exact ⟨piece ++ e'.replacement.toList ++ before, after, by simp, hafter⟩

/-- A piece of a piece, in the offsets of the whole text. -/
theorem slice?_of_slice? {s u : Span} {text piece : List Char} (h : s.slice? cs = some text)
    (hpiece : u.slice? text = some piece) : (u.shift s.start).slice? cs = some piece := by
  obtain ⟨a, b, rfl, ha, -⟩ := Span.slice?_eq_some_iff.1 h
  rw [← ha]
  exact Span.slice?_wrapped a b hpiece

section Texts
variable {r : Reading} {binding : Option String} {t n : Tree}

/-- In a fragment the insertion of a call follows right behind its callee. -/
theorem exists_sites_eq (hlaid : Laid r.source t) (hcall : isUpdateCall n = true)
    (hreach : Reaches r.source (.classMember binding) t n) :
    ∃ callee before after, n.get? .callee = some callee ∧
      (fragmentOf r (.classMember binding) t).sites = before ++
        Site.relativeTo t.span.start ⟨callee.span, .setStateCallee⟩ ::
        insertion (insertedAt r.source n - t.span.start) :: after := by
  have hn := hlaid.subtree hreach.mem_subtrees
  have hle := hlaid.subtree_le hreach.mem_subtrees
  obtain ⟨callee, hcallee, hsites, hstart, hlt, hbehind, hend⟩ := hn.updateSites_eq hcall
  have hmarks : ∀ a ∈ updateSites r.source n, a ∈ marks r.source (.classMember binding) t := by
    intro a ha
    refine hreach.marks_subset ?_
    rw [marks_eq, (step_of_isUpdateCall _ _ hcall).1]
    exact List.mem_append_left _ ha
  have hfound : ∀ a, a ∈ (fragmentOf r (.classMember binding) t).sites ↔
      ∃ b ∈ marks r.source (.classMember binding) t, Site.relativeTo t.span.start b = a := by
    intro a
    rw [fragmentOf_sites _ hlaid, (sortOn_perm _ _).mem_iff, List.mem_map]
  have hordered := (fragmentOf_ordered (.classMember binding) hlaid).2
  rw [hsites] at hmarks
  obtain ⟨before, rest, hsplit⟩ := List.append_of_mem
    ((hfound _).2 ⟨_, hmarks _ List.mem_cons_self, rfl⟩)
  rw [hsplit, List.pairwise_append, List.pairwise_cons] at hordered
  obtain ⟨-, ⟨hbehindCallee, hrest⟩, hbefore⟩ := hordered
  have hinsertion : insertion (insertedAt r.source n - t.span.start) ∈ rest := by
    have hmem := (hfound _).2 ⟨_, hmarks _ (List.mem_cons_of_mem _ List.mem_cons_self), rfl⟩
    rw [hsplit, List.mem_append, List.mem_cons] at hmem
    rcases hmem with hmem | hmem | hmem
    · have hfront : insertedAt r.source n - t.span.start ≤ callee.span.start - t.span.start :=
        hbefore _ hmem _ List.mem_cons_self
      omega
    · cases congrArg Site.kind hmem
    · exact hmem
  obtain ⟨between, after, rfl, hfirst⟩ := List.eq_append_cons_of_mem hinsertion
  have hnone : between = [] := by
    rw [List.eq_nil_iff_forall_not_mem]
    intro a ha
    obtain ⟨b, hb, rfl⟩ := (hfound a).1 (by rw [hsplit]; simp [ha])
    have hin := ((marks_laid (.classMember binding) t hlaid).inSpan b hb).start_le
    have hstart' : callee.span.stop - t.span.start ≤ b.range.start - t.span.start :=
      hbehindCallee _ (List.mem_append_left _ ha)
    have hstop' : b.range.stop - t.span.start ≤ insertedAt r.source n - t.span.start :=
      (List.pairwise_append.1 hrest).2.2 _ ha _ List.mem_cons_self
    have heq := eq_of_between hlaid hcall hreach hsites hb (by dsimp only; omega) (by omega)
    rw [heq] at ha
    exact hfirst ha
  subst hnone
  exact ⟨callee, before, after, hcallee, hsplit⟩

/-- A call whose gap holds no parenthesis reads as a call that assigns to the data. -/
theorem exists_replaceSites_eq {gap : List Char} (hlaid : Laid r.source t)
    (hcall : isUpdateCall n = true) (hreach : Reaches r.source (.classMember binding) t n)
    (hgap : callGap? r.source n = some gap) (hfree : '(' ∉ gap) :
    ∃ before after, Vue.replaceSites (fragmentOf r (.classMember binding) t) =
      some (before ++ "Object.assign".toList ++ gap ++ "(this.$data, ".toList ++ after) := by
  have hn := hlaid.subtree hreach.mem_subtrees
  have hle := (hlaid.subtree_le hreach.mem_subtrees).1
  have hplace := hn.insertedAt_le hcall hgap
  obtain ⟨callee, first, rest, hcallee, hsites⟩ := exists_sites_eq hlaid hcall hreach
  have hmem := (Tree.mem_parts_of_get? hcallee).1
  have hstart := (nested_le hn.node hmem).1
  have hcalleeOrdered := (hn.part hmem).node.within.ordered
  obtain ⟨hwithin, hordered⟩ := fragmentOf_ordered (.classMember binding) hlaid
  obtain ⟨-, out, hsplice, hreplace⟩ := replaceSites_uses hwithin hordered
  rw [hsites, List.map_append, List.map_cons, List.map_cons] at hsplice
  obtain ⟨before, tail, rfl, htail⟩ := splice_append_cons hsplice
  obtain ⟨piece, hpiece, hrest⟩ := Option.bind_eq_some_iff.1 htail
  obtain ⟨after, -, rfl⟩ := Option.map_eq_some_iff.1 hrest
  have hpiece' : piece = gap ++ ['('] := by
    have hinner := slice?_of_slice? (fragmentOf_text (.classMember binding) hlaid) hpiece
    have hspan : Span.shift ⟨callee.span.stop - t.span.start,
        insertedAt r.source n - t.span.start⟩ t.span.start =
          ⟨callee.span.stop, insertedAt r.source n⟩ := by
      simp only [Span.shift, Span.mk.injEq]
      omega
    obtain ⟨start, rest', hsource, hstart', -⟩ := callGap?_spec hcallee hgap
    have hown : Span.slice? ⟨callee.span.stop, insertedAt r.source n⟩ r.source =
        some (gap ++ ['(']) := by
      have hsize : Char.utf8Size '(' = 1 := by decide
      refine Span.slice?_eq_some_iff.2 ⟨start, rest', by simp [hsource], hstart', ?_⟩
      rw [hplace.2.2.2 hfree, openedAt_eq hcallee hgap]
      simp only [byteLength_append, byteLength, hsize]
      omega
    change (Span.shift ⟨callee.span.stop - t.span.start,
      insertedAt r.source n - t.span.start⟩ t.span.start).slice? r.source = some piece at hinner
    rw [hspan, hown] at hinner
    exact (Option.some.inj hinner).symm
  refine ⟨before, after, ?_⟩
  rw [hreplace, hpiece']
  simp [siteEdit, Site.relativeTo, insertion, Vue.replacement]

end Texts

/-- In the code of a class all insertions are right behind the parentheses of their calls just when
no parenthesis stands between a callee and the parenthesis of its call and no call is missed. Each
call with nothing in between but such text then assigns to the data of the component. -/
theorem insertions_opened_iff {r : Reading} (binding : Option String) {t : Tree}
    (hlaid : Laid r.source t)
    (hopens : ∀ n ∈ updateCalls t, (callGap? r.source n).isSome = true) :
    ((insertions (fragmentOf r (.classMember binding) t).sites).Perm
        ((updateCalls t).map fun n => insertion (openedAt r.source n - t.span.start)) ↔
      (∀ n ∈ updateCalls t, ∀ gap, callGap? r.source n = some gap → '(' ∉ gap) ∧
        insertions (missedIn r.source (.classMember binding) t) = []) ∧
    (insertions (missedIn r.source (.classMember binding) t) = [] →
      ∀ n ∈ updateCalls t, ∀ gap, callGap? r.source n = some gap → '(' ∉ gap →
        ∃ before after, Vue.replaceSites (fragmentOf r (.classMember binding) t) =
          some (before ++ "Object.assign".toList ++ gap ++ "(this.$data, ".toList ++ after)) := by
  refine ⟨insertions_perm_iff hlaid hopens, fun hmissed n hn gap hgap hfree => ?_⟩
  exact exists_replaceSites_eq hlaid (mem_updateCalls.1 hn).2
    (reaches_of_mem_updateCalls hlaid hmissed hn) hgap hfree

def typedUpdate : String :=
  "this.setState<A, B> /* of > */ (s => (\x7b a: f(s) \x7d), () => this.setState(\x7b\x7d));"

set_option maxRecDepth 100000 in
/-- Both insertions are in their places. -/
theorem insertions_opened_typedUpdate :
    ∃ r t, firstCall? typedUpdate = some (r, t) ∧ Laid r.source t ∧
      (updateCalls t).map (callGap? r.source) =
        [some "<A, B> /* of > */ ".toList, some []] ∧
      (insertions (fragmentOf r (.classMember none) t).sites).Perm
        ((updateCalls t).map fun n => insertion (openedAt r.source n - t.span.start)) ∧
      ∃ before after, Vue.replaceSites (fragmentOf r (.classMember none) t) =
        some (before ++ "Object.assign".toList ++ "<A, B> /* of > */ ".toList ++
          "(this.$data, ".toList ++ after) := by
  obtain ⟨r, t, hcall, hlaid, hgaps, hmissed⟩ := exists_firstCall? typedUpdate
    (fun r t => Laid r.source t ∧
      (updateCalls t).map (callGap? r.source) = [some "<A, B> /* of > */ ".toList, some []] ∧
      missedIn r.source (.classMember none) t = [])
    (by decide +kernel)
  have hcases : ∀ n ∈ updateCalls t, callGap? r.source n = some "<A, B> /* of > */ ".toList ∨
      callGap? r.source n = some [] := by
    intro n hn
    have hmem := List.mem_map_of_mem (f := callGap? r.source) hn
    simpa [hgaps] using hmem
  have hfree : ∀ n ∈ updateCalls t, ∀ gap, callGap? r.source n = some gap → '(' ∉ gap := by
    intro n hn gap hgap
    rcases hcases n hn with h | h
    · rw [h] at hgap
      rw [← Option.some.inj hgap]
      decide
    · rw [h] at hgap
      rw [← Option.some.inj hgap]
      decide
  have hnone : insertions (missedIn r.source (.classMember none) t) = [] := by
    rw [hmissed]
    rfl
  obtain ⟨hplaces, htexts⟩ := insertions_opened_iff none hlaid fun n hn => by
    rcases hcases n hn with h | h <;> rw [h] <;> rfl
  obtain ⟨n, hn, hgap⟩ := List.mem_map.1 (hgaps ▸ List.mem_cons_self)
  exact ⟨r, t, hcall, hlaid, hgaps, hplaces.2 ⟨hfree, hnone⟩,
    htexts hnone n hn _ hgap (hfree n hn _ hgap)⟩

def commentedUpdate : String := "this.setState /* ( */ (\x7b a: 1 \x7d);"

set_option maxRecDepth 100000 in
/-- The insertion is made in the comment, and the call assigns to its argument alone. -/
theorem insertions_opened_fails_commentedUpdate :
    ∃ r t, firstCall? commentedUpdate = some (r, t) ∧ Laid r.source t ∧
      (updateCalls t).map (callGap? r.source) = [some " /* ( */ ".toList] ∧
      (updateCalls t).map (insertedAt r.source) = [18] ∧
      (updateCalls t).map (openedAt r.source) = [23] ∧
      Vue.replaceSites (fragmentOf r (.classMember none) t) =
        some "Object.assign /* (this.$data,  */ (\x7b a: 1 \x7d)".toList ∧
      ¬ (insertions (fragmentOf r (.classMember none) t).sites).Perm
        ((updateCalls t).map fun n => insertion (openedAt r.source n - t.span.start)) :=
  exists_firstCall? _ _ (by decide +kernel)

end Revue.Analysis
