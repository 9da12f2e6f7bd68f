import Revue.Proofs.CallParens
import Revue.Proofs.ClassNotes

/-!
# The changes of state that have to be checked

A change of state by anything else than one object is noted, at any depth of the code of a class
that is kept. The walk enters the arguments of a call that changes state and no other part of it. So
one such call in the type arguments of another goes unheard; where there is none, the notes of a
class are those calls and nothing else.
-/

namespace Revue.Analysis
open Text Syntax Component

def TakesObject (call : Tree) : Prop :=
  ∃ argument, call.all .argument = [argument] ∧ argument.withoutParens.kind = .object

theorem isPlainUpdate_iff {call : Tree} : isPlainUpdate call = true ↔ TakesObject call := by
  unfold isPlainUpdate TakesObject
  split
  · rename_i argument hargument
    simp [hargument]
  · rename_i hother
    simp only [Bool.false_eq_true, false_iff, not_exists, not_and]
    exact fun argument hargument _ => hother argument hargument

instance (call : Tree) : Decidable (TakesObject call) := decidable_of_iff _ isPlainUpdate_iff

def isAwkward (t : Tree) : Bool := isUpdateCall t && ¬ TakesObject t

/-- All such changes of state in a tree. -/
def awkwardCalls (t : Tree) : List Tree := t.subtrees.filter isAwkward

mutual

/-- Those that are heard of: of a call that changes state only the arguments are searched. -/
def heardCalls : Tree → List Tree
  | .node r k s ps =>
    (if isAwkward (.node r k s ps) then [.node r k s ps] else []) ++
      heardIn (fun role => !isUpdateCall (.node r k s ps) || role = .argument) ps

def heardIn (visits : Role → Bool) : List Tree → List Tree
  | [] => []
  | t :: ts => (if visits t.role then heardCalls t else []) ++ heardIn visits ts

end

theorem awkwardCalls_eq (t : Tree) :
    awkwardCalls t = (if isAwkward t then [t] else []) ++ t.parts.flatMap awkwardCalls := by
  rw [awkwardCalls, Tree.subtrees_eq, List.filter_cons, List.filter_flatMap]
  cases isAwkward t <;> rfl

theorem heardIn_eq (visits : Role → Bool) (ts : List Tree) :
    heardIn visits ts = ts.flatMap fun t => if visits t.role then heardCalls t else [] := by
  induction ts with
  | nil => rfl
  | cons t ts ih => rw [heardIn, ih, List.flatMap_cons]

theorem heardCalls_eq (t : Tree) :
    heardCalls t = (if isAwkward t then [t] else []) ++
      t.parts.flatMap fun p =>
        if !isUpdateCall t || p.role = .argument then heardCalls p else [] := by
  cases t with
  | node r k s ps => rw [heardCalls, heardIn_eq, Tree.parts]

theorem heardCalls_of_not_update {t : Tree} (h : isUpdateCall t = false) :
    heardCalls t = t.parts.flatMap heardCalls := by
  simp [heardCalls_eq t, h, isAwkward]

/-! ### What is heard of what there is -/

section Parts
variable {f g : Tree → List Tree} {ps : List Tree}

theorem sublist_flatMap (h : ∀ p ∈ ps, (f p).Sublist (g p)) :
    (ps.flatMap f).Sublist (ps.flatMap g) := by
  induction ps with
  | nil => exact .slnil
  | cons p ps ih =>
    rw [List.flatMap_cons, List.flatMap_cons]
    exact (h p List.mem_cons_self).append (ih fun q hq => h q (List.mem_cons_of_mem _ hq))

/-- Lists that are parts of others are equal to them together just when each one is. -/
theorem flatMap_eq_iff_of_sublist (h : ∀ p ∈ ps, (f p).Sublist (g p)) :
    ps.flatMap f = ps.flatMap g ↔ ∀ p ∈ ps, f p = g p := by
  refine ⟨fun heq => ?_, List.flatMap_congr⟩
  induction ps with
  | nil => simp
  | cons p ps ih =>
    have hhead := h p List.mem_cons_self
    have htail : ∀ q ∈ ps, (f q).Sublist (g q) := fun q hq => h q (List.mem_cons_of_mem _ hq)
    rw [List.flatMap_cons, List.flatMap_cons] at heq
    have hlength := congrArg List.length heq
    have hle := hhead.length_le
    have hle' := (sublist_flatMap htail).length_le
    rw [List.length_append, List.length_append] at hlength
    have hp : f p = g p := hhead.eq_of_length (by omega)
    rw [hp] at heq
    intro q hq
    rcases List.mem_cons.1 hq with rfl | hq
    · exact hp
    · exact ih htail (List.append_cancel_left heq) q hq

end Parts

theorem heardCalls_sublist (t : Tree) : (heardCalls t).Sublist (awkwardCalls t) := by
  induction t using Tree.induction with
  | h r k s ps ih =>
    rw [heardCalls_eq, awkwardCalls_eq]
    refine (List.Sublist.refl _).append (sublist_flatMap fun p hp => ?_)
    split
    · exact ih p hp
    · exact List.nil_sublist _

/-- No change of state that has to be checked stands in a part of another one that is not among its
arguments. -/
def HidesNone (t : Tree) : Prop :=
  ∀ call ∈ updateCalls t, ∀ p ∈ call.parts, p.role ≠ .argument → awkwardCalls p = []

instance (t : Tree) : Decidable (HidesNone t) :=
  inferInstanceAs (Decidable (∀ call ∈ updateCalls t, ∀ p ∈ call.parts, p.role ≠ .argument →
    awkwardCalls p = []))

theorem hidesNone_iff (t : Tree) :
    HidesNone t ↔
      (isUpdateCall t = true → ∀ p ∈ t.parts, p.role ≠ .argument → awkwardCalls p = []) ∧
        ∀ p ∈ t.parts, HidesNone p := by
  have hmem : ∀ call, call ∈ updateCalls t ↔
      (isUpdateCall t = true ∧ call = t) ∨ ∃ p ∈ t.parts, call ∈ updateCalls p := by
    intro call
    rw [updateCalls_eq, List.mem_append, List.mem_flatMap]
    cases isUpdateCall t <;> simp
  constructor
  · intro h
    exact ⟨fun hcall => h t ((hmem t).2 (Or.inl ⟨hcall, rfl⟩)),
      fun p hp call hin => h call ((hmem call).2 (Or.inr ⟨p, hp, hin⟩))⟩
  · rintro ⟨hself, hparts⟩ call hin
    obtain ⟨hcall, rfl⟩ | ⟨p, hp, hin⟩ := (hmem call).1 hin
    · exact hself hcall
    · exact hparts p hp call hin

theorem awkwardCalls_subtree {t n : Tree} (hn : n ∈ t.subtrees) (h : awkwardCalls t = []) :
    awkwardCalls n = [] :=
  List.filter_eq_nil_iff.2 fun n' hn' =>
    List.filter_eq_nil_iff.1 h n' (Tree.mem_subtrees_trans hn hn')

theorem hidesNone_of_awkwardCalls {t : Tree} (h : awkwardCalls t = []) : HidesNone t :=
  fun _ hcall _ hp _ => awkwardCalls_subtree (Tree.mem_subtrees_trans (mem_updateCalls.1 hcall).1
    (Tree.mem_subtrees_of_part hp (Tree.mem_subtrees_self _))) h

theorem heardCalls_eq_awkwardCalls_iff (t : Tree) :
    heardCalls t = awkwardCalls t ↔ HidesNone t := by
  induction t using Tree.induction with
  | h r k s ps ih =>
    have hsub : ∀ p ∈ ps, (if !isUpdateCall (.node r k s ps) || p.role = .argument then heardCalls p
        else []).Sublist (awkwardCalls p) := by
      intro p _
      split
      · exact heardCalls_sublist p
      · exact List.nil_sublist _
    rw [heardCalls_eq, awkwardCalls_eq, List.append_cancel_left_eq, hidesNone_iff]
    refine (flatMap_eq_iff_of_sublist hsub).trans ?_
    by_cases hcall : isUpdateCall (.node r k s ps) = true
    · simp only [hcall, Bool.not_true, Bool.false_or, decide_eq_true_eq, forall_true_left]
      constructor
      · intro h
        -- A part that is not searched holds none at all.
        refine ⟨fun p hp hrole => ((if_neg hrole).symm.trans (h p hp)).symm, fun p hp => ?_⟩
        by_cases hrole : p.role = .argument
        · exact (ih p hp).1 ((if_pos hrole).symm.trans (h p hp))
        · exact hidesNone_of_awkwardCalls ((if_neg hrole).symm.trans (h p hp)).symm
      · rintro ⟨hparts, hdeep⟩ p hp
        by_cases hrole : p.role = .argument
        · rw [if_pos hrole]
          exact (ih p hp).2 (hdeep p hp)
        · rw [if_neg hrole, hparts p hp hrole]
    · simp only [hcall, Bool.not_false, Bool.true_or, if_true, Bool.false_eq_true, false_implies,
        true_and]
      exact forall₂_congr ih

/-! ### What the walk reports -/

structure NodePlain (t : Tree) : Prop where
  access : t.kind = .member → ∀ p ∈ t.parts, p.kind.isToken = true → p.parts.isEmpty = true
  names : t.kind = .attribute → ∀ p ∈ t.parts, p.role ≠ .value →
    ∀ n ∈ p.subtrees, n.kind.isAttributeName = true

instance (t : Tree) : Decidable (NodePlain t) :=
  decidable_of_iff
    ((t.kind = .member → ∀ p ∈ t.parts, p.kind.isToken = true → p.parts.isEmpty = true) ∧
      (t.kind = .attribute → ∀ p ∈ t.parts, p.role ≠ .value →
        ∀ n ∈ p.subtrees, n.kind.isAttributeName = true))
    ⟨fun ⟨h1, h2⟩ => ⟨h1, h2⟩, fun ⟨h1, h2⟩ => ⟨h1, h2⟩⟩

/-- All nodes of a tree are so. -/
def HasPlainNames (t : Tree) : Prop := ∀ n ∈ t.subtrees, NodePlain n

instance (t : Tree) : Decidable (HasPlainNames t) :=
  inferInstanceAs (Decidable (∀ n ∈ t.subtrees, NodePlain n))

theorem Laid.hasPlainNames {source : List Char} {t : Tree} (h : Laid source t) :
    HasPlainNames t :=
  fun n hn => ⟨(h n hn).access, (h n hn).names⟩

section Walk
variable {source : List Char} {binding : Option String} {setting : Setting} {a : Site} {p t : Tree}

theorem HasPlainNames.part (h : HasPlainNames t) (hp : p ∈ t.parts) : HasPlainNames p :=
  fun n hn => h n (Tree.mem_subtrees_of_part hp hn)

theorem HasPlainNames.subtrees_of_token (h : HasPlainNames t) (hkind : t.kind = .member)
    (hp : p ∈ t.parts) (htoken : p.kind.isToken = true) : p.subtrees = [p] := by
  have hleaf := (h t t.mem_subtrees_self).access hkind p hp htoken
  rw [Tree.subtrees_eq, List.isEmpty_iff.1 hleaf, List.flatMap_nil]

theorem HasPlainNames.tokens_of_memberOfThis? {name : String} (h : HasPlainNames t)
    (hthis : memberOfThis? t = some name) :
    ∀ p ∈ t.parts, ∀ n ∈ p.subtrees, n.kind.isToken = true := by
  obtain ⟨object, hnamed, hobject⟩ := memberOfThis?_eq_some hthis
  obtain ⟨node, hkind, hparts, hname⟩ := namedMember?_eq_some hnamed
  intro p hp n hn
  have htoken : p.kind.isToken = true := by
    rw [hparts, List.mem_pair] at hp
    rcases hp with rfl | rfl
    · rw [hobject]
      rfl
    · rw [hname]
      rfl
  rw [h.subtrees_of_token hkind hp htoken, List.mem_singleton] at hn
  rwa [hn]

/-- Under a node where the walk stops there are names, `this`, and accesses to members of it. -/
theorem StopsAt.parts_plain (hstop : StopsAt setting t a) (h : HasPlainNames t) :
    ∀ p ∈ t.parts, ∀ n ∈ p.subtrees,
      n.kind.isToken = true ∨ (memberOfThis? n).isSome = true := by
  -- The name behind the dot has no parts, so all depends on the object in front of it.
  have hmember : ∀ {object : Tree} {name : String}, namedMember? t = some (object, name) →
      (∀ n ∈ object.subtrees, n.kind.isToken = true ∨ (memberOfThis? n).isSome = true) →
      ∀ p ∈ t.parts, ∀ n ∈ p.subtrees,
        n.kind.isToken = true ∨ (memberOfThis? n).isSome = true := by
    intro object name hnamed hobject p hp n hn
    obtain ⟨node, hkind, hparts, hname⟩ := namedMember?_eq_some hnamed
    have hpair := hp
    rw [hparts, List.mem_pair] at hpair
    rcases hpair with rfl | rfl
    · exact hobject n hn
    · have htoken : p.kind.isToken = true := by
        rw [hname]
        rfl
      rw [h.subtrees_of_token hkind hp htoken, List.mem_singleton] at hn
      exact Or.inl (hn ▸ htoken)
  have hthis : ∀ {object : Tree} {name property : String},
      namedMember? t = some (object, name) → memberOfThis? object = some property →
      ∀ n ∈ object.subtrees, n.kind.isToken = true ∨ (memberOfThis? n).isSome = true := by
    intro object name property hnamed hproperty n hn
    obtain ⟨node, -, hparts, -⟩ := namedMember?_eq_some hnamed
    rw [Tree.subtrees_eq, List.mem_cons, List.mem_flatMap] at hn
    rcases hn with rfl | ⟨p, hp, hn⟩
    · exact Or.inr (by simp [hproperty])
    · have hplain : HasPlainNames object := h.part (by simp [hparts])
      exact Or.inl (hplain.tokens_of_memberOfThis? hproperty p hp n hn)
  have hword : ∀ {object : Tree} {name : String} {word : Option String},
      namedMember? t = some (object, name) → word.isSome = true → object.name? = word →
      ∀ n ∈ object.subtrees, n.kind.isToken = true ∨ (memberOfThis? n).isSome = true := by
    intro object name word hnamed hsome hname n hn
    obtain ⟨text, rfl⟩ := Option.isSome_iff_exists.1 hsome
    obtain ⟨node, hkind, hparts, -⟩ := namedMember?_eq_some hnamed
    have htoken : object.kind.isToken = true := by
      rw [kind_of_name? hname]
      rfl
    rw [h.subtrees_of_token hkind (by simp [hparts]) htoken, List.mem_singleton] at hn
    exact Or.inl (hn ▸ htoken)
  cases hstop with
  | children hnamed hprops | propsMember hnamed _ hprops | stateMember hnamed hprops =>
    exact hmember hnamed (hthis hnamed hprops)
  | propsObject hprops | stateObject hprops =>
    exact fun p hp n hn => Or.inl (h.tokens_of_memberOfThis? hprops p hp n hn)
  | binding hnamed hsome hname | functionalChildren hnamed hsome hname =>
    exact hmember hnamed (hword hnamed hsome hname)

theorem StopsAt.kind_eq (hstop : StopsAt setting t a) : t.kind = .member := by
  have hnamed : ∃ access, namedMember? t = some access := by
    cases hstop with
    | children hnamed _ | propsMember hnamed _ _ | stateMember hnamed _ | binding hnamed _ _
    | functionalChildren hnamed _ _ => exact ⟨_, hnamed⟩
    | propsObject hthis | stateObject hthis =>
      obtain ⟨object, hnamed, -⟩ := memberOfThis?_eq_some hthis
      exact ⟨_, hnamed⟩
  obtain ⟨access, hnamed⟩ := hnamed
  obtain ⟨-, hkind, -⟩ := namedMember?_eq_some hnamed
  exact hkind

/-- There is nothing to be heard of where the walk stops. -/
theorem StopsAt.awkwardCalls_eq_nil (hstop : StopsAt setting t a) (h : HasPlainNames t) :
    awkwardCalls t = [] := by
  refine List.filter_eq_nil_iff.2 fun n hn => ?_
  have hkind : n.kind ≠ .call := by
    rw [Tree.subtrees_eq, List.mem_cons, List.mem_flatMap] at hn
    rcases hn with rfl | ⟨p, hp, hn⟩
    · simp [hstop.kind_eq]
    · rcases hstop.parts_plain h p hp n hn with htoken | hthis
      · intro hcall
        simp [hcall, Kind.isToken] at htoken
      · intro hcall
        simp [memberOfThis?_of_kind (t := n) (by simp [hcall])] at hthis
  simp [isAwkward, isUpdateCall, hkind]

theorem heardCalls_of_awkwardCalls (h : awkwardCalls t = []) : heardCalls t = [] :=
  List.sublist_nil.1 (h ▸ heardCalls_sublist t)

theorem heardCalls_of_attribute (hkind : t.kind = .attribute) (h : HasPlainNames t)
    (hp : p ∈ t.parts) (hrole : p.role ≠ .value) : heardCalls p = [] := by
  refine heardCalls_of_awkwardCalls (List.filter_eq_nil_iff.2 fun n hn => ?_)
  have hname := (h t t.mem_subtrees_self).names hkind p hp hrole n hn
  cases hk : n.kind <;> simp_all [isAwkward, isUpdateCall, Kind.isAttributeName]

theorem isUpdateIn_eq (binding : Option String) (t : Tree) :
    isUpdateIn (.classMember binding) t = isUpdateCall t := by
  unfold isUpdateIn isUpdateCall
  by_cases hkind : t.kind = .call
  · simp [hkind]
  · split <;> simp_all

/-- What a node itself is noted for. -/
theorem updaters_step (t : Tree) :
    (step source (.classMember binding) t).found.filterMap Finding.updater? =
      if isAwkward t then [t.span] else [] := by
  rcases step_cases source (.classMember binding) t with ⟨a, hstop, hstep⟩ | ⟨hstep, hpasses⟩ |
    ⟨hkind, hupdate, -, -⟩ | ⟨hkind, -, -⟩
  · have hmember := hstop.kind_eq
    rw [hstep, if_neg (by simp [isAwkward, isUpdateCall, hmember])]
    rfl
  · have hcall : isUpdateCall t = false := isUpdateIn_eq binding t ▸ hpasses.notUpdate
    rw [hstep, if_neg (by simp [isAwkward, hcall])]
    rfl
  · obtain ⟨callee, hcallee, hthis⟩ : ∃ callee, t.get? .callee = some callee ∧
        memberOfThis? callee = some "setState" := by
      simpa [isUpdateIn, hkind, isStateUpdate, Option.any_eq_true] using hupdate
    have hcall : isUpdateCall t = true := isUpdateIn_eq binding t ▸ hupdate
    have hawkward : isAwkward t = !isPlainUpdate t := by
      rw [isAwkward, hcall, Bool.true_and]
      cases hplain : isPlainUpdate t with
      | true => simpa using isPlainUpdate_iff.1 hplain
      | false => simpa using fun h => Bool.false_ne_true (hplain.symm.trans (isPlainUpdate_iff.2 h))
    simp only [step, hkind, classCall, hcallee, hthis, if_true, List.filterMap_cons,
      Finding.updater?, List.filterMap_append, hawkward]
    cases afterParen? source callee.span.stop <;> cases isPlainUpdate t <;> rfl
  · rw [if_neg (by simp [isAwkward, isUpdateCall, hkind])]
    simp only [step, hkind, attributeStep]
    split
    · split <;> rfl
    · rfl

/-- The walk reports the calls that are heard of, in the order of the code. -/
theorem updatersOf_eq (r : Reading) (binding : Option String) (h : HasPlainNames t) :
    updatersOf r (.classMember binding) t = (heardCalls t).map (·.span) := by
  induction t using Tree.induction with
  | h role kind span ps ih =>
    let t : Tree := .node role kind span ps
    change updatersOf r (.classMember binding) t = (heardCalls t).map (·.span)
    have hparts : ∀ visits : Tree → Bool,
        (ps.filter visits).flatMap (updatersOf r (.classMember binding)) =
          ((ps.filter visits).flatMap heardCalls).map (·.span) := by
      intro visits
      rw [List.map_flatMap]
      refine List.flatMap_congr fun p hp => ?_
      have hmem := List.mem_of_mem_filter hp
      exact ih p hmem (h.part hmem)
    have hwalk : updatersOf r (.classMember binding) t = (if isAwkward t then [t.span] else []) ++
        ((ps.filter fun p => (step r.source (.classMember binding) t).visits p.role).flatMap
          heardCalls).map (·.span) := by
      rw [← hparts, updatersOf, findings_eq, List.filterMap_append, updaters_step,
        List.filterMap_flatMap]
      rfl
    rw [hwalk]
    rcases step_cases r.source (.classMember binding) t with ⟨a, hstop, hstep⟩ |
      ⟨hstep, hpasses⟩ | ⟨hkind, hupdate, -, hvisits⟩ | ⟨hkind, -, hvisits⟩
    · have hnone := hstop.awkwardCalls_eq_nil h
      have hself : isAwkward t = false := by
        simpa using List.filter_eq_nil_iff.1 hnone t t.mem_subtrees_self
      rw [heardCalls_of_awkwardCalls hnone, hstep, hself]
      simp [Step.stop]
    · have hcall : isUpdateCall t = false := isUpdateIn_eq binding t ▸ hpasses.notUpdate
      rw [hstep, heardCalls_of_not_update hcall, if_neg (by simp [isAwkward, hcall])]
      simp [Step.go, t, Tree.parts]
    · have hcall : isUpdateCall t = true := isUpdateIn_eq binding t ▸ hupdate
      have hself : (if isAwkward t then [t] else []).map (·.span) =
          if isAwkward t then [t.span] else [] := by
        cases isAwkward t <;> rfl
      rw [hvisits, heardCalls_eq, List.map_append, hself]
      refine congrArg _ (congrArg _ ((List.flatMap_congr fun p hp => ?_).trans
        (flatMap_filter_of_nil _ fun p hp hrole => ?_)))
      · rw [if_pos (by simpa [hcall] using (List.mem_filter.1 hp).2)]
      · rw [if_neg (by simpa [hcall] using hrole)]
    · have hcall : isUpdateCall t = false := by simp [isUpdateCall, hkind]
      rw [hvisits, heardCalls_of_not_update hcall, if_neg (by simp [isAwkward, hcall]),
        List.nil_append]
      refine congrArg _ (flatMap_filter_of_nil _ fun p hp hrole => ?_)
      exact heardCalls_of_attribute hkind h hp (by simpa using hrole)

end Walk

/-! ### The notes of a class -/

/-- The code of a class that is kept: the bodies of methods, the statements of the constructor and
the values of fields. -/
def classCode (t : Tree) : List Tree := (t.all .member).flatMap keptCode

theorem classUpdaters_eq (r : Reading) {t : Tree}
    (hplain : ∀ piece ∈ classCode t, HasPlainNames piece) :
    classUpdaters r t = ((classCode t).flatMap heardCalls).map (·.span) := by
  rw [classUpdaters, classCode, List.flatMap_assoc, List.map_flatMap]
  refine List.flatMap_congr fun member hmember => ?_
  rw [List.map_flatMap]
  refine List.flatMap_congr fun piece hpiece => ?_
  have hin : piece ∈ classCode t := List.mem_flatMap.2 ⟨member, hmember, hpiece⟩
  unfold memberSetting
  split
  · exact updatersOf_eq r _ (hplain piece hin)
  · exact updatersOf_eq r _ (hplain piece hin)

/-- A class is noted for changes of state by something else than one object and for nothing else, in
the order of its code. It is noted for all of them just when none stands in a part of another change
of state that is not among the arguments. -/
theorem stateUpdaters_exact_iff (r : Reading) (m : Model) (name : String) (t : Tree)
    (isNested : Bool) (hplain : ∀ piece ∈ classCode t, HasPlainNames piece) :
    (addClass r m name t isNested).coded .stateUpdater = m.coded .stateUpdater ++
      ((classCode t).flatMap heardCalls).map (fun call => .stateUpdater call.span) ∧
    ((classCode t).flatMap heardCalls).Sublist ((classCode t).flatMap awkwardCalls) ∧
    ((addClass r m name t isNested).coded .stateUpdater = m.coded .stateUpdater ++
        ((classCode t).flatMap awkwardCalls).map (fun call => .stateUpdater call.span) ↔
      ∀ piece ∈ classCode t, HidesNone piece) := by
  have hsub : ∀ piece ∈ classCode t, (heardCalls piece).Sublist (awkwardCalls piece) :=
    fun piece _ => heardCalls_sublist piece
  have hnotes : (addClass r m name t isNested).coded .stateUpdater = m.coded .stateUpdater ++
      ((classCode t).flatMap heardCalls).map (fun call => .stateUpdater call.span) := by
    rw [coded_stateUpdater_addClass, classUpdaters_eq r hplain, List.map_map]
    rfl
  refine ⟨hnotes, sublist_flatMap hsub, ?_⟩
  have hall : (classCode t).flatMap heardCalls = (classCode t).flatMap awkwardCalls ↔
      ∀ piece ∈ classCode t, HidesNone piece :=
    (flatMap_eq_iff_of_sublist hsub).trans
      (forall₂_congr fun piece _ => heardCalls_eq_awkwardCalls_iff piece)
  rw [← hall, hnotes, List.append_cancel_left_eq]
  constructor
  · intro h
    have hlength := congrArg List.length h
    rw [List.length_map, List.length_map] at hlength
    exact (sublist_flatMap hsub).eq_of_length hlength
  · exact congrArg _

def nestedUpdates : String :=
  "class A \x7b state = \x7b a: this.setState(f) \x7d; set s(v) \x7b this.setState(g); \x7d " ++
    "m() \x7b this.setState((\x7b b: () => this.setState(...h) \x7d)); \x7d \x7d"

set_option maxRecDepth 100000 in
/-- The two that are kept and are not by one object are noted. -/
theorem stateUpdaters_exact_nestedUpdates :
    ∃ s m t, setupOf? {} nestedUpdates = some s ∧ modelOf s = .ok m ∧ firstClass? s = some t ∧
      (∀ piece ∈ classCode t, HasPlainNames piece) ∧
      ((classCode t).flatMap updateCalls).length = 3 ∧
      (addClass s.reading {} "A" t false).coded .stateUpdater =
        [.stateUpdater ⟨23, 39⟩, .stateUpdater ⟨106, 125⟩] := by
  obtain ⟨s, m, t, hsetup, hmodel, ht, hplain, hcalls, hspans, hhidden⟩ :=
    exists_found? {} nestedUpdates firstClass? (fun _ _ t =>
      (∀ piece ∈ classCode t, HasPlainNames piece) ∧
      ((classCode t).flatMap updateCalls).length = 3 ∧
      ((classCode t).flatMap awkwardCalls).map (·.span) = [⟨23, 39⟩, ⟨106, 125⟩] ∧
      ∀ piece ∈ classCode t, HidesNone piece) (by decide +kernel)
  refine ⟨s, m, t, hsetup, hmodel, ht, hplain, hcalls, ?_⟩
  have hexact := (stateUpdaters_exact_iff s.reading {} "A" t false hplain).2.2.2 hhidden
  have hcaveats := congrArg (List.map Caveat.stateUpdater) hspans
  rw [List.map_map] at hcaveats
  rw [hexact]
  exact hcaveats

def typedNestedUpdate : String :=
  "class A \x7b m() \x7b this.setState<\x7b [this.setState(f)]: 1 \x7d>(\x7b\x7d); \x7d \x7d"

set_option maxRecDepth 100000 in
/-- It goes unheard. -/
theorem stateUpdaters_exact_fails_typedNestedUpdate :
    ∃ s m t, setupOf? { isTyped := true } typedNestedUpdate = some s ∧ modelOf s = .ok m ∧
      firstClass? s = some t ∧
      ((classCode t).flatMap awkwardCalls).map (·.span) = [⟨33, 49⟩] ∧
      m.coded .stateUpdater = [] ∧
      (addClass s.reading {} "A" t false).coded .stateUpdater = [] :=
  exists_found? _ _ firstClass? _ (by decide +kernel)

end Revue.Analysis
