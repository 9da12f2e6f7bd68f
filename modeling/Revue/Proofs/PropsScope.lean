import Revue.Proofs.ItemSteps
import Revue.Proofs.Scopes
import Revue.Proofs.SiteExactness

/-!
# The parameter that holds the props, and other bindings of its name

The code of a constructor and of a functional component reads props by the name of a parameter. The
walk that records such places goes by the name alone: every access that it reaches gets a site, also
where an inner scope has given the name another meaning. So all sites belong to the parameter just
when no access that is reached is captured.
-/

namespace Revue.Analysis
open Text Syntax Component

variable {a : Site} {fn object p t : Tree} {name : String} {r : Reading} {chain : List Tree}

def Setting.parameterKind : Setting → SiteKind
  | .classMember _ => .constructorPropsMember
  | .functional _ => .functionalChildren

def Setting.parameterSite? : Setting → Tree → Option Site
  | .classMember binding => bindingSite? binding
  | .functional props => childrenSite? props

def isReached (source : List Char) (setting : Setting) : List Tree → Bool
  | t :: p :: rest =>
    (step source setting t).visits p.role && isReached source setting (p :: rest)
  | _ => true

def siteAtEnd? (setting : Setting) (chain : List Tree) : Option Site :=
  chain.getLast?.bind setting.parameterSite?

section
variable {source : List Char} {setting : Setting}

theorem parameterSite?_of_namedMember? (h : namedMember? t = none) :
    setting.parameterSite? t = none := by
  cases setting <;> simp [Setting.parameterSite?, bindingSite?, childrenSite?, h]

theorem parameterSite?_of_name? (hnamed : namedMember? t = some (object, name))
    (hobject : object.name? = none) :
    setting.parameterSite? t = none := by
  cases setting with
  | classMember binding =>
    cases binding <;> simp [Setting.parameterSite?, bindingSite?, hnamed, hobject]
  | functional props =>
    unfold Setting.parameterSite? childrenSite?
    dsimp only
    split
    · rename_i object' hnamed'
      obtain ⟨rfl, -⟩ := Prod.mk.inj (Option.some.inj (hnamed.symm.trans hnamed'))
      cases props <;> simp [hobject]
    · rfl

theorem parameterSite?_of_memberOfThis? (h : memberOfThis? t = some name) :
    setting.parameterSite? t = none := by
  obtain ⟨object, hnamed, hobject⟩ := memberOfThis?_eq_some h
  exact parameterSite?_of_name? hnamed (by simp [Tree.name?, hobject])

theorem parameterSite?_of_object {property : String}
    (hnamed : namedMember? t = some (object, name)) (h : memberOfThis? object = some property) :
    setting.parameterSite? t = none := by
  obtain ⟨inner, hinner, -⟩ := memberOfThis?_eq_some h
  obtain ⟨-, hkind, -⟩ := namedMember?_eq_some hinner
  exact parameterSite?_of_name? hnamed (by simp [Tree.name?, hkind])

/-- Where the walk stops, it has found an access to the parameter or nothing of that kind. -/
theorem StopsAt.filter_eq (h : StopsAt setting t a) :
    [a].filter (·.kind = setting.parameterKind) = (setting.parameterSite? t).toList := by
  cases h with
  | children hnamed hprops | propsMember hnamed _ hprops | stateMember hnamed hprops =>
    simp [parameterSite?_of_object hnamed hprops, Setting.parameterKind]
  | propsObject h | stateObject h =>
    simp [parameterSite?_of_memberOfThis? h, Setting.parameterKind]
  | binding hnamed hsome hbinding =>
    simp [Setting.parameterSite?, bindingSite?, hnamed, hsome, hbinding, Setting.parameterKind]
  | functionalChildren hnamed hsome hprops =>
    simp [Setting.parameterSite?, childrenSite?, hnamed, hsome, hprops, Setting.parameterKind]

theorem Passes.parameterSite? (h : Passes source setting t) : setting.parameterSite? t = none := by
  by_cases hkind : t.kind = .member
  · have hunmarked := h.unmarked
    cases setting <;> simp_all [expectedAt, Setting.parameterSite?]
  · exact parameterSite?_of_namedMember? (namedMember?_of_kind hkind)

theorem kind_of_mem_updateSites (h : a ∈ updateSites source t) :
    a.kind = .setStateCallee ∨ a.kind = .setStateArgs := by
  unfold updateSites at h
  split at h
  · split at h
    · simp only [List.mem_cons, List.mem_map] at h
      rcases h with rfl | ⟨pos, -, rfl⟩
      · exact Or.inl rfl
      · exact Or.inr rfl
    · cases h
  · cases h

theorem kind_of_mem_attributeSites (h : a ∈ attributeSites t) : a.kind = .classNameAttr := by
  unfold attributeSites at h
  split at h
  · split at h
    · rw [List.mem_singleton.1 h]
    · cases h
  · cases h

/-- At a node itself, an access to the parameter is all that is found of its kind. -/
theorem marksAt_filter (t : Tree) :
    (marksAt source setting t).filter (·.kind = setting.parameterKind) =
      (setting.parameterSite? t).toList := by
  have hnone : t.kind ≠ .member → setting.parameterSite? t = none := fun hkind =>
    parameterSite?_of_namedMember? (namedMember?_of_kind hkind)
  rcases step_cases source setting t with ⟨a, hstop, hstep⟩ | ⟨hstep, hpasses⟩ |
    ⟨hkind, -, hmarks, -⟩ | ⟨hkind, hmarks, -⟩
  · rw [← hstop.filter_eq, marksAt, hstep]
    rfl
  · rw [hpasses.parameterSite?, marksAt, hstep]
    rfl
  · rw [hmarks, hnone (by simp [hkind])]
    refine List.filter_eq_nil_iff.2 fun a ha => ?_
    rcases kind_of_mem_updateSites ha with h | h <;> cases setting <;>
      simp [h, Setting.parameterKind]
  · rw [hmarks, hnone (by simp [hkind])]
    refine List.filter_eq_nil_iff.2 fun a ha => ?_
    cases setting <;> simp [kind_of_mem_attributeSites ha, Setting.parameterKind]

theorem isReached_cons (h : chain ∈ chains p) :
    isReached source setting (t :: chain) =
      ((step source setting t).visits p.role && isReached source setting chain) := by
  obtain ⟨rest, rfl⟩ := exists_eq_cons_of_mem_chains h
  rfl

theorem siteAtEnd?_cons (h : chain ∈ chains p) :
    siteAtEnd? setting (t :: chain) = siteAtEnd? setting chain := by
  obtain ⟨rest, rfl⟩ := exists_eq_cons_of_mem_chains h
  simp [siteAtEnd?]

/-- The chains through a part that the walk looks into, and no others, are reached. -/
theorem filterMap_reached_part (t p : Tree) :
    (((chains p).map (t :: ·)).filter (isReached source setting)).filterMap (siteAtEnd? setting) =
      if (step source setting t).visits p.role then
        ((chains p).filter (isReached source setting)).filterMap (siteAtEnd? setting)
      else [] := by
  rw [List.filter_map, List.filterMap_map]
  split
  · rename_i hvisits
    have hfilter : (chains p).filter (isReached source setting ∘ (t :: ·)) =
        (chains p).filter (isReached source setting) :=
      List.filter_congr fun chain hchain => by simp [isReached_cons hchain, hvisits]
    rw [hfilter]
    exact List.filterMap_congr fun chain hchain =>
      siteAtEnd?_cons (List.mem_of_mem_filter hchain)
  · rename_i hvisits
    have hfilter : (chains p).filter (isReached source setting ∘ (t :: ·)) = [] :=
      List.filter_eq_nil_iff.2 fun chain hchain => by simp [isReached_cons hchain, hvisits]
    rw [hfilter, List.filterMap_nil]

theorem marks_filter (t : Tree) :
    (marks source setting t).filter (·.kind = setting.parameterKind) =
      ((chains t).filter (isReached source setting)).filterMap (siteAtEnd? setting) := by
  induction t using Tree.induction with
  | h r k s ps ih =>
    have hparts : ((ps.flatMap fun p => (chains p).map (.node r k s ps :: ·)).filter
          (isReached source setting)).filterMap (siteAtEnd? setting) =
        (ps.filter fun p => (step source setting (.node r k s ps)).visits p.role).flatMap fun p =>
          (marks source setting p).filter (·.kind = setting.parameterKind) := by
      rw [List.filter_flatMap, List.filterMap_flatMap, ← flatMap_filter_of_nil]
      · refine List.flatMap_congr fun p hp => ?_
        obtain ⟨hmem, hvisits⟩ := List.mem_filter.1 hp
        rw [filterMap_reached_part, if_pos hvisits, ih p hmem]
      · intro p hp hvisits
        rw [filterMap_reached_part, if_neg (by simp [hvisits])]
    have hself : ([[(.node r k s ps : Tree)]].filter (isReached source setting)).filterMap
        (siteAtEnd? setting) = (setting.parameterSite? (.node r k s ps)).toList := by
      have hend : siteAtEnd? setting [(.node r k s ps : Tree)] =
          setting.parameterSite? (.node r k s ps) := rfl
      change [[(.node r k s ps : Tree)]].filterMap (siteAtEnd? setting) = _
      cases h : setting.parameterSite? (.node r k s ps) <;> simp [hend, h]
    rw [marks_eq, List.filter_append, marksAt_filter, List.filter_flatMap, chains_eq,
      ← List.singleton_append, List.filter_append, List.filterMap_append, hself]
    exact congrArg _ hparts.symm

end

def Site.within? (base : Span) (a : Site) : Option Site :=
  Finding.site? base (.site a.range a.kind)

def siteInFragment? (setting : Setting) (piece : Tree) (chain : List Tree) : Option Site :=
  (siteAtEnd? setting chain).bind (Site.within? piece.span)

def parameterReads (r : Reading) (setting : Setting) (piece : Tree) : List (List Tree) :=
  (chains piece).filter fun chain =>
    isReached r.source setting chain && (siteInFragment? setting piece chain).isSome

section
variable {r : Reading} {setting : Setting} {piece : Tree}

theorem Site.filter_within? (base : Span) (kind : SiteKind) (a : Site) :
    (Site.within? base a).filter (·.kind = kind) =
      if a.kind = kind then Site.within? base a else none := by
  unfold Site.within? Finding.site?
  by_cases hkind : a.kind = kind <;> by_cases hbase : base.containsSpan a.range <;>
    simp [hkind, hbase]

/-- The sites of the parameter in a fragment are those of the accesses by its name. -/
theorem parameterSites_perm (r : Reading) (setting : Setting) (piece : Tree) :
    ((fragmentOf r setting piece).sites.filter (·.kind = setting.parameterKind)).Perm
      ((parameterReads r setting piece).filterMap (siteInFragment? setting piece)) := by
  have hmark : Finding.site? piece.span =
      fun f : Finding => f.mark?.bind (Site.within? piece.span) := by
    funext f
    cases f <;> rfl
  have hfound : (findings r.source setting piece).filterMap (Finding.site? piece.span) =
      (marks r.source setting piece).filterMap (Site.within? piece.span) := by
    rw [hmark, marks, List.filterMap_filterMap]
  refine ((sortOn_perm _ _).filter _).trans (List.Perm.of_eq ?_)
  calc ((findings r.source setting piece).filterMap (Finding.site? piece.span)).filter
        (·.kind = setting.parameterKind)
      = ((marks r.source setting piece).filter (·.kind = setting.parameterKind)).filterMap
          (Site.within? piece.span) := by
        rw [hfound, List.filter_filterMap, List.filterMap_filter]
        simp only [Site.filter_within?, decide_eq_true_eq]
    _ = ((chains piece).filter (isReached r.source setting)).filterMap
          (siteInFragment? setting piece) := by
        rw [marks_filter, List.filterMap_filterMap]
        rfl
    _ = (parameterReads r setting piece).filterMap (siteInFragment? setting piece) := by
        rw [parameterReads, List.filterMap_filter, List.filterMap_filter]
        refine List.filterMap_congr fun chain _ => ?_
        cases isReached r.source setting chain <;> cases siteInFragment? setting piece chain <;> rfl

/-- The accesses of a piece of a function that mean its parameter. -/
def ownReads (r : Reading) (setting : Setting) (name : String) (fn piece : Tree) :
    List (List Tree) :=
  (parameterReads r setting piece).filter fun chain => !isCaptured name fn chain

/-- The accesses of a piece of a function that mean another binding of the parameter's name. -/
def capturedReads (r : Reading) (setting : Setting) (name : String) (fn piece : Tree) :
    List (List Tree) :=
  (parameterReads r setting piece).filter (isCaptured name fn)

/-- The sites of the parameter in the fragment of a piece are recorded for the parameter only. -/
def RespectsScope (r : Reading) (setting : Setting) (name : String) (fn piece : Tree) : Prop :=
  ((fragmentOf r setting piece).sites.filter (·.kind = setting.parameterKind)).Subperm
    ((ownReads r setting name fn piece).filterMap (siteInFragment? setting piece))

theorem length_filterMap_reads {chains : List (List Tree)}
    (h : chains ⊆ parameterReads r setting piece) :
    (chains.filterMap (siteInFragment? setting piece)).length = chains.length := by
  rw [List.length_filterMap_eq_countP, List.countP_eq_length]
  intro chain hchain
  have hread := (List.mem_filter.1 (h hchain)).2
  exact (Bool.and_eq_true_iff.1 hread).2

/-- The sites of a piece belong to the parameter just when no access is captured. -/
theorem respectsScope_iff (name : String) (fn : Tree) :
    RespectsScope r setting name fn piece ↔ capturedReads r setting name fn piece = [] := by
  have hperm := parameterSites_perm r setting piece
  have hreads : ownReads r setting name fn piece ⊆ parameterReads r setting piece :=
    fun _ => List.mem_of_mem_filter
  have hsplit : (parameterReads r setting piece).length =
      (capturedReads r setting name fn piece).length +
        (ownReads r setting name fn piece).length :=
    List.length_eq_length_filter_add (isCaptured name fn)
  constructor
  · intro hsub
    have hle := hsub.length_le
    rw [hperm.length_eq, length_filterMap_reads (List.Subset.refl _),
      length_filterMap_reads hreads] at hle
    exact List.length_eq_zero_iff.1 (by omega)
  · intro hnone
    have hown : ownReads r setting name fn piece = parameterReads r setting piece := by
      refine List.filter_eq_self.2 fun chain hchain => ?_
      simpa using List.filter_eq_nil_iff.1 hnone chain hchain
    rw [RespectsScope, hown]
    exact hperm.subperm

/-- When the sites of a piece belong to the parameter: just when no access is captured, and in
particular if the name is bound nowhere else. -/
structure ScopeLaw (r : Reading) (setting : Setting) (name : String) (fn piece : Tree) : Prop where
  exact : RespectsScope r setting name fn piece ↔ capturedReads r setting name fn piece = []
  plain : BindsNowhereElse name fn piece → RespectsScope r setting name fn piece

theorem scopeLaw (r : Reading) (setting : Setting) (name : String) (fn piece : Tree) :
    ScopeLaw r setting name fn piece := by
  refine ⟨respectsScope_iff name fn, fun hplain => (respectsScope_iff name fn).2 ?_⟩
  refine List.filter_eq_nil_iff.2 fun chain hchain => ?_
  simp [hplain.isCaptured (List.mem_of_mem_filter hchain)]

end

def stateValue? (t : Tree) : Option Tree :=
  (statementExpr? t).bind stateAssignment?

def createdAmong (ts : List Tree) : List Tree :=
  ts.filter fun t => !isBoilerplate t && (stateValue? t).isNone

def stateAmong? (ts : List Tree) : Option Tree :=
  (ts.filterMap fun t => if isBoilerplate t then none else stateValue? t).getLast?

def constructorStatements (t : Tree) : List Tree :=
  (t.get? .body).toList.flatMap (·.all .statement)

def constructorPieces (t : Tree) : List Tree :=
  createdAmong (constructorStatements t) ++ (stateAmong? (constructorStatements t)).toList

def keptStatement (r : Reading) (setting : Setting) (t : Tree) : Fragment :=
  let f := fragmentOf r setting t
  { f with text := r.withTrailing f.text t.span.stop }

/-- What statements add to a class: the fragments of those that are kept, and the state. -/
structure Adds (r : Reading) (setting : Setting) (ts : List Tree) (d d' : ClassDraft) : Prop where
  created : d'.created = d.created ++ (createdAmong ts).map (keptStatement r setting)
  state : d'.state = ((stateAmong? ts).map (fragmentOf r setting)).or d.state

theorem adds_addStatement (r : Reading) (setting : Setting) (d : ClassDraft) (t : Tree) :
    Adds r setting [t] d (addStatement r setting d t) := by
  unfold addStatement
  by_cases hboilerplate : isBoilerplate t = true
  · constructor <;> simp [hboilerplate, createdAmong, stateAmong?]
  · cases hvalue : (statementExpr? t).bind stateAssignment? with
    | none =>
      constructor <;>
        simp [hboilerplate, hvalue, createdAmong, stateAmong?, stateValue?, keptStatement,
          ClassDraft.addUpdaters]
    | some value =>
      constructor <;>
        simp [hboilerplate, hvalue, createdAmong, stateAmong?, stateValue?, ClassDraft.addUpdaters]

theorem Adds.trans {setting : Setting} {ts us : List Tree} {d d' d'' : ClassDraft}
    (h : Adds r setting ts d d') (h' : Adds r setting us d' d'') :
    Adds r setting (ts ++ us) d d'' where
  created := by simp [h'.created, h.created, createdAmong]
  state := by
    rw [h'.state, h.state, stateAmong?, stateAmong?, stateAmong?, List.filterMap_append,
      List.getLast?_append, Option.map_or, Option.or_assoc]

theorem adds_foldl (r : Reading) (setting : Setting) (ts : List Tree) (d : ClassDraft) :
    Adds r setting ts d (ts.foldl (addStatement r setting) d) := by
  induction ts generalizing d with
  | nil => exact ⟨by simp [createdAmong], rfl⟩
  | cons t ts ih => exact (adds_addStatement r setting d t).trans (ih _)

theorem adds_addConstructor (r : Reading) (d : ClassDraft) (t : Tree) :
    Adds r (.classMember (constructorProps? t)) (constructorStatements t) d
      (addConstructor r d t) := by
  unfold addConstructor constructorStatements
  cases t.get? .body with
  | none => exact adds_foldl r _ [] d
  | some body =>
    rw [Option.toList_some, List.flatMap_singleton]
    exact adds_foldl r _ _ d

def functionParameter? (t : Tree) : Option String :=
  ((t.all .param).filterMap parameterPattern?).head?.bind (·.name?)

/-- The plain first parameter of an arrow function. -/
def arrowParameter? (t : Tree) : Option String :=
  (t.all .param).head?.bind (·.name?)

theorem fragment_of_componentOfFunction? {label : String} {span : Span} {c : FunctionalComponent}
    (hname : functionParameter? fn = some name)
    (h : componentOfFunction? r label fn span = some c) :
    ∃ body, fn.get? .body = some body ∧
      c.body.fragment = fragmentOf r (.functional (some name)) body := by
  obtain ⟨body, hbody, rfl⟩ := Option.map_eq_some_iff.1 h
  refine ⟨body, hbody, ?_⟩
  rw [← hname]
  rfl

theorem fragment_of_componentOfArrow (hname : arrowParameter? fn = some name) (label : String)
    (isAsync : Bool) (span : Span) :
    (componentOfArrow r label fn isAsync span).body.fragment =
      fragmentOf r (.functional (some name)) ((fn.get? .body).getD fn) := by
  rw [← hname]
  unfold componentOfArrow functionalComponent
  dsimp only
  split <;> rfl

/-- The code of a constructor and of a functional component, and the fragments that are made of it.
A site for the first parameter is recorded for each access that goes by its name. So each fragment
has such sites for the parameter alone just when none of its accesses is captured. -/
theorem respectsScope_iff_not_captured (r : Reading) (fn : Tree) (name : String) :
    (constructorProps? fn = some name →
      (∀ d, Adds r (.classMember (some name)) (constructorStatements fn) d
        (addConstructor r d fn)) ∧
      ∀ piece ∈ constructorPieces fn, ScopeLaw r (.classMember (some name)) name fn piece) ∧
    (functionParameter? fn = some name →
      ∀ label span c, componentOfFunction? r label fn span = some c →
        ∃ body, fn.get? .body = some body ∧
          c.body.fragment = fragmentOf r (.functional (some name)) body ∧
          ScopeLaw r (.functional (some name)) name fn body) ∧
    (arrowParameter? fn = some name →
      ∀ label isAsync span, ∃ body, (fn.get? .body).getD fn = body ∧
        (componentOfArrow r label fn isAsync span).body.fragment =
          fragmentOf r (.functional (some name)) body ∧
        ScopeLaw r (.functional (some name)) name fn body) := by
  refine ⟨fun hname => ⟨fun d => hname ▸ adds_addConstructor r d fn, fun piece _ =>
    scopeLaw r _ name fn piece⟩, fun hname label span c hc => ?_, fun hname label isAsync span =>
    ⟨_, rfl, fragment_of_componentOfArrow hname label isAsync span, scopeLaw r _ name fn _⟩⟩
  obtain ⟨body, hbody, hfragment⟩ := fragment_of_componentOfFunction? hname hc
  exact ⟨body, hbody, hfragment, scopeLaw r _ name fn body⟩

def firstFunction? (s : Setup) : Option Tree :=
  s.reading.module.tree.subtrees.find? (·.kind.isFunction)

theorem exists_firstFunction? (text : String) (P : Setup → Model → Tree → Prop)
    [∀ s m t, Decidable (P s m t)]
    (h : (analysisOfChars? {} (Source.readChars text)).any fun (s, m) =>
      (firstFunction? s).any fun t => P s m t) :
    ∃ s m fn, setupOf? {} text = some s ∧ modelOf s = .ok m ∧ firstFunction? s = some fn ∧
      P s m fn :=
  exists_found? {} text firstFunction? P h

def nestedReads : String :=
  "class A \x7b constructor(props) \x7b super(props); this.x = [1].map(p => p + props.a); " ++
    "try \x7b f(props.b); \x7d catch (e) \x7b g(e.props, props => 1); \x7d \x7d \x7d"

set_option maxRecDepth 100000 in
/-- A second binding of the name does no harm if nothing is read by it. -/
theorem respectsScope_nestedReads :
    ∃ s m fn, setupOf? {} nestedReads = some s ∧ modelOf s = .ok m ∧ firstFunction? s = some fn ∧
      constructorProps? fn = some "props" ∧
      ((constructorPieces fn).map fun piece =>
        (ownReads s.reading (.classMember (some "props")) "props" fn piece).length) = [1, 1] ∧
      ∀ piece ∈ constructorPieces fn,
        RespectsScope s.reading (.classMember (some "props")) "props" fn piece := by
  obtain ⟨s, m, fn, hsetup, hmodel, hfn, hname, hreads, hnone⟩ :=
    exists_firstFunction? nestedReads (fun s _ fn => constructorProps? fn = some "props" ∧
      ((constructorPieces fn).map fun piece =>
        (ownReads s.reading (.classMember (some "props")) "props" fn piece).length) = [1, 1] ∧
      ∀ piece ∈ constructorPieces fn,
        (capturedReads s.reading (.classMember (some "props")) "props" fn piece).isEmpty = true)
      (by decide +kernel)
  refine ⟨s, m, fn, hsetup, hmodel, hfn, hname, hreads, fun piece hpiece => ?_⟩
  have hlaw := ((respectsScope_iff_not_captured s.reading fn "props").1 hname).2 piece hpiece
  exact hlaw.exact.2 (List.isEmpty_iff.1 (hnone piece hpiece))

set_option maxRecDepth 100000 in
/-- The parameter of an inner function is taken for the one of the constructor. -/
theorem respectsScope_fails_innerParameter :
    ∃ s m fn, setupOf? {} "class A \x7b constructor(props) \x7b f(props => props.id); \x7d \x7d" =
        some s ∧
      modelOf s = .ok m ∧ firstFunction? s = some fn ∧ constructorProps? fn = some "props" ∧
      (m.classComponent.map (·.created)) =
        some [⟨"f(props => props.id);", [⟨⟨11, 16⟩, .constructorPropsMember⟩]⟩] ∧
      ∀ piece ∈ constructorPieces fn,
        (ownReads s.reading (.classMember (some "props")) "props" fn piece = [] ∧
        ¬ RespectsScope s.reading (.classMember (some "props")) "props" fn piece) := by
  obtain ⟨s, m, fn, hsetup, hmodel, hfn, hname, hcreated, hpieces⟩ :=
    exists_firstFunction? "class A \x7b constructor(props) \x7b f(props => props.id); \x7d \x7d"
      (fun s m fn => constructorProps? fn = some "props" ∧
        (m.classComponent.map (·.created)) =
          some [⟨"f(props => props.id);", [⟨⟨11, 16⟩, .constructorPropsMember⟩]⟩] ∧
        ∀ piece ∈ constructorPieces fn,
          (ownReads s.reading (.classMember (some "props")) "props" fn piece).isEmpty = true ∧
            (capturedReads s.reading (.classMember (some "props")) "props" fn piece).isEmpty =
              false)
      (by decide +kernel)
  refine ⟨s, m, fn, hsetup, hmodel, hfn, hname, hcreated, fun piece hpiece => ?_⟩
  obtain ⟨hown, hcaptured⟩ := hpieces piece hpiece
  refine ⟨List.isEmpty_iff.1 hown, fun hrespects => ?_⟩
  rw [(respectsScope_iff "props" fn).1 hrespects] at hcaptured
  cases hcaptured

end Revue.Analysis
