import Mathlib.Data.List.Perm.Basic
import Revue.Proofs.AsciiBytes
import Revue.Proofs.SiteOrder
import Revue.Vue.Options

/-!
# Sites are exact

Every node that stands for a site gets it once, of the right kind, and there are no other sites. The
one exception are the type arguments of a call that changes state, which are not looked into:
`missedIn` lists the sites that belong there. The sites of a fragment do not overlap, and so the
replacement uses every one of them.
-/

namespace Revue.Analysis
open Text Syntax Component

variable {a : Site} {object p t : Tree} {name property : String} {parent : Option Tree}
  {binding : Option String}

section
variable {source : List Char} (setting : Setting)

theorem expectedAt_of_kind (hmember : t.kind ≠ .member) (hcall : t.kind ≠ .call)
    (hattribute : t.kind ≠ .attribute) :
    expectedAt source setting parent t = [] := by
  unfold expectedAt
  split <;> simp_all

theorem isUpdateIn_of_kind (hcall : t.kind ≠ .call) : isUpdateIn setting t = false := by
  unfold isUpdateIn
  split <;> simp_all

/-- A tree of names stands for no site. -/
theorem expectedIn_of_names
    (h : ∀ n ∈ t.subtrees, n.kind.isToken = true ∨ n.kind.isAttributeName = true)
    (parent : Option Tree) :
    expectedIn source setting parent t = [] ∧ missedIn source setting t = [] := by
  induction t using Tree.induction generalizing parent with
  | h r k s ps ih =>
    have hkind := h _ (Tree.mem_subtrees_self _)
    have hmember : (Syntax.Tree.node r k s ps).kind ≠ .member := by
      intro hk
      simp [hk, Kind.isToken, Kind.isAttributeName] at hkind
    have hcall : (Syntax.Tree.node r k s ps).kind ≠ .call := by
      intro hk
      simp [hk, Kind.isToken, Kind.isAttributeName] at hkind
    have hattribute : (Syntax.Tree.node r k s ps).kind ≠ .attribute := by
      intro hk
      simp [hk, Kind.isToken, Kind.isAttributeName] at hkind
    have hparts := fun p (hp : p ∈ ps) =>
      ih p hp (fun n hn => h n (Tree.mem_subtrees_of_part hp hn))
    rw [expectedIn_eq, expectedAt_of_kind setting hmember hcall hattribute,
      missedIn_of_not_update _ _ (isUpdateIn_of_kind setting hcall)]
    refine ⟨?_, ?_⟩
    · exact List.flatMap_eq_nil_iff.2 fun p hp => (hparts p hp _).1
    · exact List.flatMap_eq_nil_iff.2 fun p hp => (hparts p hp none).2

section
variable (hlaid : Laid source t)
include hlaid

theorem expectedIn_of_token (hkind : t.kind = .member) (hp : p ∈ t.parts)
    (htoken : p.kind.isToken = true) (parent : Option Tree) :
    expectedIn source setting parent p = [] ∧ missedIn source setting p = [] := by
  apply expectedIn_of_names
  intro n hn
  have hempty : p.parts = [] := by simpa using hlaid.node.access hkind p hp htoken
  rw [Tree.subtrees_eq, hempty, List.flatMap_nil, List.mem_singleton] at hn
  subst hn
  exact Or.inl htoken

/-- Of an access to a named member only the object may stand for more sites. -/
theorem expectedIn_of_namedMember? (hnamed : namedMember? t = some (object, name))
    (parent : Option Tree) :
    expectedIn source setting parent t =
        expectedAt source setting parent t ++ expectedIn source setting (some t) object ∧
      missedIn source setting t = missedIn source setting object := by
  obtain ⟨node, hkind, hparts, hname⟩ := namedMember?_eq_some hnamed
  have hnode : node.kind.isToken = true := by simp [hname, Kind.isToken]
  have htoken := expectedIn_of_token setting hlaid hkind (p := node) (by simp [hparts]) hnode
  rw [expectedIn_eq, hparts,
    missedIn_of_not_update _ _ (isUpdateIn_of_kind setting (by simp [hkind])), hparts]
  simp [(htoken _).1, (htoken none).2]

theorem expectedIn_of_memberOfThis? (hthis : memberOfThis? t = some name) (parent : Option Tree) :
    expectedIn source setting parent t = expectedAt source setting parent t ∧
      missedIn source setting t = [] := by
  obtain ⟨object, hnamed, hobject⟩ := memberOfThis?_eq_some hthis
  obtain ⟨node, hkind, hparts, -⟩ := namedMember?_eq_some hnamed
  obtain ⟨hexpected, hmissed⟩ := expectedIn_of_namedMember? setting hlaid hnamed parent
  have htoken := expectedIn_of_token setting hlaid hkind (p := object)
    (by simp [hparts]) (by simp [hobject, Kind.isToken]) (some t)
  rw [hexpected, hmissed, htoken.1, htoken.2]
  simp

/-- A site of the object, with an access that stands for none itself. -/
theorem expectedIn_of_object (hnamed : namedMember? t = some (object, name))
    (hthis : memberOfThis? object = some property)
    (hsite : instanceSite? (some t) object = some a) :
    expectedIn source (.classMember binding) none t = [a] ∧
      missedIn source (.classMember binding) t = [] := by
  obtain ⟨node, hkind, hparts, -⟩ := namedMember?_eq_some hnamed
  obtain ⟨inner, hinner, hinnerThis⟩ := memberOfThis?_eq_some hthis
  obtain ⟨-, hobjectKind, -⟩ := namedMember?_eq_some hinner
  obtain ⟨hexpected, hmissed⟩ :=
    expectedIn_of_namedMember? (.classMember binding) hlaid hnamed none
  have hmem : object ∈ t.parts := by simp [hparts]
  obtain ⟨hexpected', hmissed'⟩ :=
    expectedIn_of_memberOfThis? (.classMember binding) (hlaid.part hmem) hthis (some t)
  have hself : expectedAt source (.classMember binding) none t = [] := by
    have hnot : memberOfThis? t = none := by simp [memberOfThis?, hnamed, hobjectKind]
    have hname : object.name? = none := by simp [Tree.name?, hobjectKind]
    cases binding <;> simp [expectedAt, hkind, instanceSite?, bindingSite?, hnot, hnamed, hname]
  have hobject : expectedAt source (.classMember binding) (some t) object = [a] := by
    have hinnerName : inner.name? = none := by simp [Tree.name?, hinnerThis]
    cases binding <;> simp [expectedAt, hobjectKind, hsite, bindingSite?, hinner, hinnerName]
  rw [hexpected, hmissed, hexpected', hmissed', hself, hobject]
  exact ⟨rfl, rfl⟩

/-- A site of an access to `this`. -/
theorem expectedIn_of_instance (hthis : memberOfThis? t = some property)
    (hsite : instanceSite? none t = some a) :
    expectedIn source (.classMember binding) none t = [a] ∧
      missedIn source (.classMember binding) t = [] := by
  obtain ⟨object, hnamed, hobject⟩ := memberOfThis?_eq_some hthis
  obtain ⟨-, hkind, -⟩ := namedMember?_eq_some hnamed
  obtain ⟨hexpected, hmissed⟩ :=
    expectedIn_of_memberOfThis? (.classMember binding) hlaid hthis none
  have hname : object.name? = none := by simp [Tree.name?, hobject]
  rw [hexpected, hmissed]
  cases binding <;> simp [expectedAt, hkind, hsite, bindingSite?, hnamed, hname]

/-- A site of an access to a plain name is one of the access itself. -/
theorem expectedIn_of_name? (hnamed : namedMember? t = some (object, name))
    (hobject : object.name? = some property) :
    expectedIn source setting none t = expectedAt source setting none t ∧
      missedIn source setting t = [] := by
  obtain ⟨node, hkind, hparts, -⟩ := namedMember?_eq_some hnamed
  obtain ⟨hexpected, hmissed⟩ := expectedIn_of_namedMember? setting hlaid hnamed none
  have hleaf := expectedIn_of_token setting hlaid hkind (p := object) (by simp [hparts])
    (by simp [kind_of_name? hobject, Kind.isToken])
  rw [hexpected, hmissed, (hleaf (some t)).1, (hleaf none).2, List.append_nil]
  exact ⟨rfl, rfl⟩

end

/-- Where the walk stops, the tree stands for the one site that is found. -/
theorem StopsAt.expectedIn_eq {setting : Setting} (h : StopsAt setting t a)
    (hlaid : Laid source t) :
    expectedIn source setting none t = [a] ∧ missedIn source setting t = [] := by
  cases h with
  | children hnamed hprops =>
    exact expectedIn_of_object hlaid hnamed hprops (by simp [instanceSite?, hprops, hnamed])
  | propsMember hnamed hname hprops =>
    exact expectedIn_of_object hlaid hnamed hprops
      (by simp [instanceSite?, hprops, hnamed, hname])
  | stateMember hnamed hstate =>
    exact expectedIn_of_object hlaid hnamed hstate (by simp [instanceSite?, hstate, hnamed])
  | propsObject hprops =>
    exact expectedIn_of_instance hlaid hprops (by simp [instanceSite?, hprops])
  | stateObject hstate =>
    exact expectedIn_of_instance hlaid hstate (by simp [instanceSite?, hstate])
  | @binding binding _ object name hnamed hsome hbinding =>
    obtain ⟨property, rfl⟩ := Option.isSome_iff_exists.1 hsome
    obtain ⟨hexpected, hmissed⟩ :=
      expectedIn_of_name? (.classMember (some property)) hlaid hnamed hbinding
    obtain ⟨-, hkind, -⟩ := namedMember?_eq_some hnamed
    have hnot : memberOfThis? t = none := by
      simp [memberOfThis?, hnamed, kind_of_name? hbinding]
    rw [hexpected, hmissed]
    simp [expectedAt, hkind, instanceSite?, bindingSite?, hnot, hnamed, hbinding]
  | @functionalChildren props _ object hnamed hsome hprops =>
    obtain ⟨property, rfl⟩ := Option.isSome_iff_exists.1 hsome
    obtain ⟨hexpected, hmissed⟩ :=
      expectedIn_of_name? (.functional (some property)) hlaid hnamed hprops
    obtain ⟨-, hkind, -⟩ := namedMember?_eq_some hnamed
    rw [hexpected, hmissed]
    simp [expectedAt, hkind, childrenSite?, hnamed, hprops]

theorem expectedIn_congr
    (h : expectedAt source setting parent p = expectedAt source setting none p) :
    expectedIn source setting parent p = expectedIn source setting none p := by
  rw [Analysis.expectedIn_eq, Analysis.expectedIn_eq, h]

/-- Parts that are entered and parts that are not: what is found and missed in the first, and all
that belongs into the others. -/
theorem parts_perm {found missed expected : Tree → List Site} {ps : List Tree} (q : Tree → Bool)
    (h : ∀ p ∈ ps, q p = true → (found p ++ missed p).Perm (expected p)) :
    ((ps.filter q).flatMap found ++
        ((ps.filter fun p => !q p).flatMap expected ++ (ps.filter q).flatMap missed)).Perm
      (ps.flatMap expected) := by
  have hentered : ((ps.filter q).flatMap found ++ (ps.filter q).flatMap missed).Perm
      ((ps.filter q).flatMap expected) := by
    refine (List.flatMap_append_perm _ _ _).trans (List.Perm.flatMap_left _ fun p hp => ?_)
    obtain ⟨hmem, hq⟩ := List.mem_filter.1 hp
    exact h p hmem hq
  have hall : ((ps.filter q).flatMap expected ++ (ps.filter fun p => !q p).flatMap expected).Perm
      (ps.flatMap expected) := by
    rw [← List.flatMap_append]
    exact (List.filter_append_perm q ps).flatMap_right expected
  refine (List.perm_append_comm.append_left _).trans ?_
  rw [← List.append_assoc]
  exact (hentered.append_right _).trans hall

theorem flatMap_filter_of_nil {α β : Type} {f : α → List β} {ps : List α} (q : α → Bool)
    (h : ∀ p ∈ ps, q p = false → f p = []) : (ps.filter q).flatMap f = ps.flatMap f := by
  induction ps with
  | nil => rfl
  | cons p ps ih =>
    have hps := ih fun p' hp' => h p' (List.mem_cons_of_mem _ hp')
    rw [List.filter_cons, List.flatMap_cons, ← hps]
    split
    · rw [List.flatMap_cons]
    · rename_i hq
      rw [h p List.mem_cons_self (by simpa using hq), List.nil_append]

/-- One step: a node at which the walk finds what the node stands for and whose parts stand for the
same sites as they would alone. -/
theorem node_perm (hself : marksAt source setting t = expectedAt source setting none t)
    (hcongr : ∀ p ∈ t.parts,
      expectedAt source setting (some t) p = expectedAt source setting none p)
    (hmissed : missedIn source setting t =
      (t.parts.filter fun p => !(step source setting t).visits p.role).flatMap
          (expectedIn source setting (some t)) ++
        (t.parts.filter fun p => (step source setting t).visits p.role).flatMap
          (missedIn source setting))
    (hparts : ∀ p ∈ t.parts, (marks source setting p ++ missedIn source setting p).Perm
      (expectedIn source setting none p)) :
    (marks source setting t ++ missedIn source setting t).Perm
      (expectedIn source setting none t) := by
  rw [marks_eq, Analysis.expectedIn_eq, hself, hmissed, List.append_assoc]
  refine List.Perm.append_left _ (parts_perm _ fun p hp _ => ?_)
  rw [expectedIn_congr setting (hcongr p hp)]
  exact hparts p hp

theorem missedIn_of_attribute (hlaid : Laid source t) (hkind : t.kind = .attribute)
    (hvisits : (step source setting t).visits = fun r => decide (r = .value)) :
    missedIn source setting t =
      (t.parts.filter fun p => !(step source setting t).visits p.role).flatMap
          (expectedIn source setting (some t)) ++
        (t.parts.filter fun p => (step source setting t).visits p.role).flatMap
          (missedIn source setting) := by
  have hnames : ∀ p ∈ t.parts, p.role ≠ .value → ∀ parent,
      expectedIn source setting parent p = [] ∧ missedIn source setting p = [] :=
    fun p hp hrole => expectedIn_of_names setting fun n hn =>
      Or.inr (hlaid.node.names hkind p hp hrole n hn)
  have hother : (t.parts.filter fun p => !decide (p.role = .value)).flatMap
      (expectedIn source setting (some t)) = [] := by
    refine List.flatMap_eq_nil_iff.2 fun p hp => ?_
    obtain ⟨hmem, hrole⟩ := List.mem_filter.1 hp
    exact (hnames p hmem (by simpa using hrole) _).1
  have hvalue : (t.parts.filter fun p => decide (p.role = .value)).flatMap
      (missedIn source setting) = t.parts.flatMap (missedIn source setting) :=
    flatMap_filter_of_nil _ fun p hp hrole => (hnames p hp (by simpa using hrole) none).2
  have hupdate := isUpdateIn_of_kind setting (t := t) (by simp [hkind])
  rw [missedIn_of_not_update _ _ hupdate, hvisits, hother, hvalue, List.nil_append]

/-- The sites that are found and those that are missed are the sites that belong into a tree. -/
theorem marks_perm (t : Tree) (hlaid : Laid source t) :
    (marks source setting t ++ missedIn source setting t).Perm
      (expectedIn source setting none t) := by
  induction t using Tree.induction with
  | h r k s ps ih =>
    have hparts := fun p (hp : p ∈ ps) => ih p hp (hlaid.part hp)
    -- Only an access to a named member changes what its parts stand for.
    have hcongr : ∀ {k'}, (Syntax.Tree.node r k s ps).kind = k' → k' ≠ .member → ∀ p ∈ ps,
        expectedAt source setting (some (.node r k s ps)) p = expectedAt source setting none p :=
      fun hkind hne p _ =>
        expectedAt_of_namedMember?_eq_none (namedMember?_of_kind (hkind ▸ hne)) p
    rcases step_cases source setting (.node r k s ps) with ⟨a, hstop, hstep⟩ | ⟨hstep, hpasses⟩ |
      ⟨hkind, hupdate, hmarks, hvisits⟩ | ⟨hkind, hmarks, hvisits⟩
    · obtain ⟨hexpected, hmissed⟩ := hstop.expectedIn_eq hlaid
      rw [hexpected, hmissed, marks_eq, marksAt, hstep]
      simp [Step.stop, Finding.mark?]
    · refine node_perm setting ?_ hpasses.parts ?_ hparts
      · rw [hpasses.unmarked, marksAt, hstep]
        rfl
      · rw [missedIn_of_not_update _ _ hpasses.notUpdate, hstep]
        simp [Step.go]
    · refine node_perm setting ?_ (hcongr hkind (by simp)) ?_ hparts
      · rw [hmarks]
        cases setting with
        | classMember binding => simp [expectedAt, hkind]
        | functional props => simp [isUpdateIn, hkind] at hupdate
      · rw [missedIn_of_update _ _ hupdate, hvisits]
        simp
    · refine node_perm setting ?_ (hcongr hkind (by simp))
        (missedIn_of_attribute setting hlaid hkind hvisits) hparts
      rw [hmarks]
      simp [expectedAt, hkind]

end

def siteEdit (a : Site) : Edit := ⟨a.range, Vue.replacement a.kind⟩

/-- The sites that belong into a node, in the offsets of its fragment. -/
def expectedSites (r : Reading) (setting : Setting) (t : Tree) : List Site :=
  (expectedIn r.source setting none t).map (Site.relativeTo t.span.start)

/-- Those of them in the type arguments of calls that change state. -/
def missedSites (r : Reading) (setting : Setting) (t : Tree) : List Site :=
  (missedIn r.source setting t).map (Site.relativeTo t.span.start)

theorem sites_perm {r : Reading} (setting : Setting) (hlaid : Laid r.source t) :
    ((fragmentOf r setting t).sites ++ missedSites r setting t).Perm
      (expectedSites r setting t) := by
  rw [fragmentOf_sites setting hlaid]
  refine ((sortOn_perm _ _).append_right _).trans ?_
  rw [missedSites, ← List.map_append]
  exact (marks_perm setting t hlaid).map _

/-- Sites one behind the other are all replaced. -/
theorem replaceSites_uses {f : Fragment} (hwithin : ∀ a ∈ f.sites, a.range.Within f.text.toList)
    (hpair : f.sites.Pairwise fun a b => a.range.stop ≤ b.range.start) :
    Edit.select f.text.toList 0 (sortOn (·.range.start) (f.sites.map siteEdit)) =
        f.sites.map siteEdit ∧
      ∃ out, Edit.splice f.text.toList 0 (f.sites.map siteEdit) = some out ∧
        Vue.replaceSites f = some out := by
  have hwithin' : ∀ e ∈ f.sites.map siteEdit, e.range.Within f.text.toList := by
    intro e he
    obtain ⟨a, ha, rfl⟩ := List.mem_map.1 he
    exact hwithin a ha
  have haligned : ∀ e ∈ f.sites.map siteEdit, e.range.Aligned f.text.toList :=
    fun e he => (hwithin' e he).aligned
  have hpair' : (f.sites.map siteEdit).Pairwise fun a b => a.range.stop ≤ b.range.start :=
    List.pairwise_map.2 hpair
  have hsorted : sortOn (·.range.start) (f.sites.map siteEdit) = f.sites.map siteEdit :=
    sortOn_eq_self (hpair'.imp_of_mem fun ha _ hab => Nat.le_trans (hwithin' _ ha).ordered hab)
  have hselect : Edit.select f.text.toList 0 (f.sites.map siteEdit) = f.sites.map siteEdit :=
    Edit.select_eq_self haligned hpair' fun _ _ => Nat.zero_le _
  have hcuts := Edit.isSome_splice_select (fun e he => (haligned e he).stop_boundary)
    (isBoundary_zero _)
  rw [hselect] at hcuts
  obtain ⟨out, hout⟩ := Option.isSome_iff_exists.1 hcuts
  refine ⟨by rw [hsorted, hselect], out, hout, ?_⟩
  change (applyEdits f.text (f.sites.map siteEdit)).map (·.toList) = some out
  simp [applyEdits, hsorted, hselect, hout]

/-- The sites of a fragment are in order, inside of its text and apart, so that each of them is
replaced. Together with the missed ones they are the sites that belong there, each once, and
without them exactly if none is missed. -/
theorem fragmentOf_sites_exact {r : Reading} {setting : Setting} {t : Tree}
    (hlaid : Laid r.source t) :
    let f := fragmentOf r setting t
    (∀ a ∈ f.sites, a.range.Within f.text.toList) ∧
      (f.sites.Pairwise fun a b =>
        a.range.start ≤ b.range.start ∧ a.range.stop ≤ b.range.start) ∧
      Edit.select f.text.toList 0 (sortOn (·.range.start) (f.sites.map siteEdit)) =
        f.sites.map siteEdit ∧
      (∃ out, Edit.splice f.text.toList 0 (f.sites.map siteEdit) = some out ∧
        Vue.replaceSites f = some out) ∧
      (f.sites ++ missedSites r setting t).Perm (expectedSites r setting t) ∧
      (f.sites.Perm (expectedSites r setting t) ↔ missedIn r.source setting t = []) := by
  intro f
  obtain ⟨hwithin, hpair⟩ := fragmentOf_ordered setting hlaid
  obtain ⟨hselect, hout⟩ := replaceSites_uses hwithin hpair
  have hperm := sites_perm setting hlaid
  have hsorted : f.sites.Pairwise fun a b =>
      a.range.start ≤ b.range.start ∧ a.range.stop ≤ b.range.start :=
    hpair.imp_of_mem fun ha _ hab => ⟨Nat.le_trans (hwithin _ ha).ordered hab, hab⟩
  refine ⟨hwithin, hsorted, hselect, hout, hperm, fun hexact => ?_, fun hnone => ?_⟩
  · have hlength := hperm.length_eq.trans (List.Perm.length_eq hexact).symm
    simp only [List.length_append, missedSites, List.length_map, f] at hlength
    exact List.length_eq_zero_iff.1 (by omega)
  · simpa [missedSites, hnone] using hperm

def firstCall? (source : String) : Option (Reading × Tree) :=
  match parse source.toList with
  | .ok m => (m.tree.subtrees.find? (·.kind = .call)).map fun t => (⟨source.toList, m⟩, t)
  | .error _ => none

def firstCallIn? (source : List Char) : Option (Reading × Tree) :=
  match parse source with
  | .ok m => (m.tree.subtrees.find? (·.kind = .call)).map fun t => (⟨source, m⟩, t)
  | .error _ => none

theorem exists_firstCall? (source : String) (P : Reading → Tree → Prop)
    [∀ r t, Decidable (P r t)]
    (h : (firstCallIn? (Source.readChars source)).any fun (r, t) => P r t) :
    ∃ r t, firstCall? source = some (r, t) ∧ P r t := by
  have heq : firstCallIn? (Source.readChars source) = firstCall? source := by
    rw [Source.readChars_eq]
    rfl
  rw [heq] at h
  obtain ⟨⟨r, t⟩, hcall, hP⟩ := (Option.any_eq_true _ _).1 h
  exact ⟨r, t, hcall, of_decide_eq_true hP⟩

def nestedUpdate : String :=
  "this.setState(s => (\x7b a: props.a, b: this.props.b \x7d), () => " ++
    "this.setState(\x7b c: <i className=\x7bthis.state.c\x7d>" ++
    "\x7bthis.props.children\x7d</i> \x7d));"

set_option maxRecDepth 100000 in
/-- All sites of the changes of state inside each other are found. -/
theorem fragmentOf_sites_nestedUpdate :
    ∃ r t, firstCall? nestedUpdate = some (r, t) ∧ Laid r.source t ∧
      (fragmentOf r (.classMember (some "props")) t).sites.Perm
        (expectedSites r (.classMember (some "props")) t) := by
  obtain ⟨r, t, hcall, hlaid, hnone⟩ := exists_firstCall? nestedUpdate
    (fun r t => Laid r.source t ∧ missedIn r.source (.classMember (some "props")) t = [])
    (by decide +kernel)
  exact ⟨r, t, hcall, hlaid, (fragmentOf_sites_exact hlaid).2.2.2.2.2.2 hnone⟩

set_option maxRecDepth 100000 in
/-- A site in the type arguments of a change of state is not found. -/
theorem fragmentOf_sites_typeArguments :
    ∃ r t, firstCall? "this.setState<\x7b [this.props.a]: 1 \x7d>(\x7b\x7d);" = some (r, t) ∧
      Laid r.source t ∧ missedSites r (.classMember none) t = [⟨⟨17, 27⟩, .propsMember⟩] ∧
      ¬ (fragmentOf r (.classMember none) t).sites.Perm
        (expectedSites r (.classMember none) t) :=
  exists_firstCall? _ _ (by decide +kernel)

end Revue.Analysis
