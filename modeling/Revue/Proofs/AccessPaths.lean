import Revue.Proofs.AnalysisSlices
import Revue.Proofs.StateUpdaters

/-!
# Access paths that survive

In the body of a method a path `this.props.x` or `this.state.x` becomes `this.x`, if the walk comes
by it as an access. It does not come by the parts of a change of state beside the arguments, and a
path that is a name with dots, of an element or in a type, is no access. The parameters of a method
are not looked into at all. Those are the paths that survive, and all others are rewritten.
-/

namespace Revue.Text

/-! ### Text between edits -/

section
variable {cs out piece : List Char} {last p q : Nat} {es xs ys : List Edit}

theorem Edit.isBoundary_of_splice (h : splice cs last es = some out) :
    isBoundary cs last = true := by
  cases es with
  | nil =>
    obtain ⟨⟨a, rest⟩, hcut, -⟩ := Option.map_eq_some_iff.1 h
    exact isBoundary_iff.2 ⟨a, rest, cut?_eq_some_iff.1 hcut⟩
  | cons e es =>
    obtain ⟨piece, hpiece, -⟩ := Option.bind_eq_some_iff.1 h
    obtain ⟨a, b, rfl, ha, -⟩ := Span.slice?_eq_some_iff.1 hpiece
    exact isBoundary_iff.2 ⟨a, piece ++ b, rfl, ha⟩

/-- Text in front of all edits is kept. -/
theorem Edit.exists_append_of_splice (h : splice cs last es = some out)
    (hes : ∀ e ∈ es, q ≤ e.range.start) (hpiece : Span.slice? ⟨last, q⟩ cs = some piece) :
    ∃ after, out = piece ++ after := by
  rw [splice_of_le hpiece hes] at h
  obtain ⟨after, -, rfl⟩ := Option.map_eq_some_iff.1 h
  exact ⟨after, rfl⟩

/-- Text that all edits are in front of or behind is kept. -/
theorem Edit.infix_of_splice (h : splice cs last (xs ++ ys) = some out) (hlast : last ≤ p)
    (hxs : ∀ e ∈ xs, e.range.stop ≤ p) (hys : ∀ e ∈ ys, q ≤ e.range.start)
    (hpiece : Span.slice? ⟨p, q⟩ cs = some piece) : piece <:+: out := by
  induction xs generalizing last out with
  | nil =>
    obtain ⟨a, b, rfl, ha, hlength⟩ := Span.slice?_eq_some_iff.1 hpiece
    dsimp only at ha hlength
    obtain ⟨c, d, hcd, hc⟩ := isBoundary_iff.1 (isBoundary_of_splice h)
    obtain ⟨e, rfl, -⟩ := exists_append_of_byteLength_le hcd.symm (by omega)
    have hlonger : Span.slice? ⟨last, q⟩ (c ++ e ++ (piece ++ b)) = some (e ++ piece) := by
      refine Span.slice?_eq_some_iff.2 ⟨c, b, by simp, hc, ?_⟩
      rw [byteLength_append] at ha ⊢
      dsimp only
      omega
    obtain ⟨after, rfl⟩ := exists_append_of_splice h hys hlonger
    exact ⟨e, after, rfl⟩
  | cons x xs ih =>
    obtain ⟨first, -, hrest⟩ := Option.bind_eq_some_iff.1 h
    obtain ⟨tail, htail, rfl⟩ := Option.map_eq_some_iff.1 hrest
    have hstop := hxs x List.mem_cons_self
    have hin := ih htail hstop fun e he => hxs e (List.mem_cons_of_mem _ he)
    exact hin.trans (List.suffix_append _ _).isInfix

end

end Revue.Text

namespace Revue.Analysis
open Text Syntax Component

variable {a : Site} {body n q t : Tree} {x : Member} {name : String} {setting : Setting}
  {text : List Char}

/-! ### Paths -/

/-- An access `this.props.x` or `this.state.x`. -/
def isAccess (t : Tree) : Bool :=
  (namedMember? t).any fun access =>
    memberOfThis? access.1 = some "props" || memberOfThis? access.1 = some "state"

/-- The same path as a name with dots: of an element, or of a value in a type. -/
def isPathName (t : Tree) : Bool :=
  (t.kind = .memberTag || t.kind = .qualifiedName) &&
    t.parts.all (fun p => p.name?.isSome && p.parts.isEmpty) &&
    match t.parts.map (·.name?) with
    | some "this" :: some word :: some _ :: _ => word = "props" || word = "state"
    | _ => false

def accessPaths (t : Tree) : List Tree := t.subtrees.filter fun n => isAccess n || isPathName n

/-- What becomes of an access: the props and the state are members of the component itself, and the
children are in a slot. -/
def rewrittenPath (source : List Char) (t : Tree) : List Char :=
  match namedMember? t with
  | some (object, name) =>
    if memberOfThis? object = some "props" ∧ name = "children" then "this.$slots.default".toList
    else "this".toList ++ (Span.slice? ⟨object.span.stop, t.span.stop⟩ source).getD []
  | none => []

theorem isAccess_iff : isAccess t = true ↔ ∃ object name,
    namedMember? t = some (object, name) ∧
      (memberOfThis? object = some "props" ∨ memberOfThis? object = some "state") := by
  simp [isAccess, Option.any_eq_true]

theorem mem_accessPaths :
    n ∈ accessPaths t ↔ n ∈ t.subtrees ∧ (isAccess n = true ∨ isPathName n = true) := by
  simp [accessPaths]

theorem mem_accessPaths_cases (h : n ∈ accessPaths t) :
    n = t ∨ ∃ p ∈ t.parts, n ∈ accessPaths p := by
  obtain ⟨hmem, hpath⟩ := mem_accessPaths.1 h
  rw [Tree.subtrees_eq, List.mem_cons, List.mem_flatMap] at hmem
  rcases hmem with rfl | ⟨p, hp, hmem⟩
  · exact Or.inl rfl
  · exact Or.inr ⟨p, hp, mem_accessPaths.2 ⟨hmem, hpath⟩⟩

theorem not_isPath_of_kind (h : t.kind.isToken = true ∨ t.kind.isAttributeName = true) :
    ¬ (isAccess t = true ∨ isPathName t = true) := by
  have hmember : namedMember? t = none := namedMember?_of_kind fun hkind => by
    simp [hkind, Kind.isToken, Kind.isAttributeName] at h
  rintro (haccess | hname)
  · simp [isAccess, hmember] at haccess
  · cases hkind : t.kind <;> simp_all [isPathName, Kind.isToken, Kind.isAttributeName]

theorem not_isPath_of_memberOfThis? (h : (memberOfThis? t).isSome = true) :
    ¬ (isAccess t = true ∨ isPathName t = true) := by
  obtain ⟨name, hthis⟩ := Option.isSome_iff_exists.1 h
  obtain ⟨object, hnamed, hobject⟩ := memberOfThis?_eq_some hthis
  obtain ⟨-, hkind, -⟩ := namedMember?_eq_some hnamed
  have hnone : memberOfThis? object = none := memberOfThis?_of_kind (by simp [hobject])
  simp [isAccess, isPathName, hnamed, hnone, hkind]

section Laid
variable {source : List Char} {t n p : Tree}

/-- Where the walk stops, there is no path below. -/
theorem StopsAt.accessPaths_eq_nil (hstop : StopsAt setting t a) (hlaid : Laid source t)
    (hp : p ∈ t.parts) : accessPaths p = [] := by
  refine List.filter_eq_nil_iff.2 fun n hn => ?_
  rcases hstop.parts_plain hlaid.hasPlainNames p hp n hn with htoken | hthis
  · simpa using not_isPath_of_kind (.inl htoken)
  · simpa using not_isPath_of_memberOfThis? hthis

theorem accessPaths_of_memberOfThis? (h : memberOfThis? t = some name) (hlaid : Laid source t) :
    accessPaths t = [] := by
  rw [List.eq_nil_iff_forall_not_mem]
  intro n hn
  rcases mem_accessPaths_cases hn with rfl | ⟨p, hp, hn⟩
  · exact not_isPath_of_memberOfThis? (by simp [h]) (mem_accessPaths.1 hn).2
  · obtain ⟨hmem, hpath⟩ := mem_accessPaths.1 hn
    have htoken := hlaid.hasPlainNames.tokens_of_memberOfThis? h p hp n hmem
    exact not_isPath_of_kind (.inl htoken) hpath

theorem accessPaths_of_attribute (hlaid : Laid source t) (hkind : t.kind = .attribute)
    (hp : p ∈ t.parts) (hrole : p.role ≠ .value) : accessPaths p = [] := by
  refine List.filter_eq_nil_iff.2 fun n hn => ?_
  simpa using not_isPath_of_kind (.inr (hlaid.node.names hkind p hp hrole n hn))

/-- A name with dots is made of names. -/
theorem tokens_of_isPathName (h : isPathName n = true) (hp : p ∈ n.parts) :
    p.kind.isToken = true ∧ p.subtrees = [p] := by
  unfold isPathName at h
  simp only [Bool.and_eq_true, List.all_eq_true] at h
  obtain ⟨hname, hleaf⟩ := h.1.2 p hp
  obtain ⟨word, hword⟩ := Option.isSome_iff_exists.1 hname
  refine ⟨?_, ?_⟩
  · rw [kind_of_name? hword]
    rfl
  · rw [Tree.subtrees_eq, List.isEmpty_iff.1 hleaf, List.flatMap_nil]

/-- A path covers some text. -/
theorem Laid.lt_of_isPath (hlaid : Laid source n) (h : isAccess n = true ∨ isPathName n = true) :
    n.span.start < n.span.stop := by
  rcases h with haccess | hname
  · obtain ⟨object, name, hnamed, -⟩ := isAccess_iff.1 haccess
    exact hlaid.lt_of_namedMember? hnamed
  · have hmem : ∃ p, p ∈ n.parts := by
      by_contra hempty
      have hparts : n.parts = [] := List.eq_nil_iff_forall_not_mem.2 fun p hp => hempty ⟨p, hp⟩
      simp [isPathName, hparts] at hname
    obtain ⟨p, hp⟩ := hmem
    have hlt := (hlaid.part hp).node.token (tokens_of_isPathName hname hp).1
    have hle := nested_le hlaid.node hp
    omega

/-- Two parts of a node have no node with text in common. -/
theorem Laid.eq_of_mem_subtrees (hlaid : Laid source t) (hp : p ∈ t.parts) (hq : q ∈ t.parts)
    (hnp : n ∈ p.subtrees) (hnq : n ∈ q.subtrees) (hlt : n.span.start < n.span.stop) : p = q := by
  by_contra hne
  have : Std.Symm fun a b : Tree => apart a.span b.span := ⟨fun _ _ h => Or.symm h⟩
  have hinp := (hlaid.part hp).subtree_le hnp
  have hinq := (hlaid.part hq).subtree_le hnq
  rcases hlaid.node.apart.forall hp hq hne with h | h <;> omega

/-! ### The walk and the paths -/

/-- A path in a part of a change of state that is not among the arguments. -/
def IsHidden (t n : Tree) : Prop :=
  ∃ call ∈ updateCalls t, ∃ p ∈ call.parts, p.role ≠ .argument ∧ n ∈ accessPaths p

theorem IsHidden.of_part (hp : p ∈ t.parts) (h : IsHidden p n) : IsHidden t n := by
  obtain ⟨call, hcall, hrest⟩ := h
  obtain ⟨hmem, hupdate⟩ := mem_updateCalls.1 hcall
  exact ⟨call, mem_updateCalls.2 ⟨Tree.mem_subtrees_of_part hp hmem, hupdate⟩, hrest⟩

/-- The walk comes by every path that is not hidden. -/
theorem reaches_or_isHidden (hlaid : Laid source t) (hn : n ∈ accessPaths t) :
    Reaches source (.classMember none) t n ∨ IsHidden t n := by
  induction t using Tree.induction with
  | h r k s ps ih =>
    rcases mem_accessPaths_cases hn with rfl | ⟨p, hp, hn⟩
    · exact Or.inl (.self _)
    have hpart := ih p hp (hlaid.part hp) hn
    have hentered : (step source (.classMember none) (.node r k s ps)).visits p.role = true →
        Reaches source (.classMember none) (.node r k s ps) n ∨ IsHidden (.node r k s ps) n := by
      intro hvisits
      rcases hpart with hreach | hhidden
      · exact Or.inl (.part hp hvisits hreach)
      · exact Or.inr (hhidden.of_part hp)
    have hnone : accessPaths p = [] → Reaches source (.classMember none) (.node r k s ps) n ∨
        IsHidden (.node r k s ps) n := by
      intro hempty
      rw [hempty] at hn
      cases hn
    rcases step_cases source (.classMember none) (.node r k s ps) with ⟨a, hstop, -⟩ |
      ⟨hstep, -⟩ | ⟨-, hupdate, -, hvisits⟩ | ⟨hkind, -, hvisits⟩
    · exact hnone (hstop.accessPaths_eq_nil hlaid hp)
    · exact hentered (by rw [hstep]; rfl)
    · by_cases hrole : p.role = .argument
      · exact hentered (by rw [hvisits]; simpa using hrole)
      · have hcall : (.node r k s ps : Tree) ∈ updateCalls (.node r k s ps) :=
          mem_updateCalls.2 ⟨Tree.mem_subtrees_self _, isUpdateIn_eq none _ ▸ hupdate⟩
        exact Or.inr ⟨_, hcall, p, hp, hrole, hn⟩
    · by_cases hrole : p.role = .value
      · exact hentered (by rw [hvisits]; simpa using hrole)
      · exact hnone (accessPaths_of_attribute hlaid hkind hp hrole)

theorem exists_stopsAt (h : isAccess n = true) : ∃ a, StopsAt (.classMember none) n a := by
  obtain ⟨object, name, hnamed, hprops | hstate⟩ := isAccess_iff.1 h
  · by_cases hchildren : name = "children"
    · exact ⟨_, .children (hchildren ▸ hnamed) hprops⟩
    · exact ⟨_, .propsMember hnamed hchildren hprops⟩
  · exact ⟨_, .stateMember hnamed hstate⟩

/-- No change of state stands in a path. -/
theorem updateCalls_of_isPath (hlaid : Laid source n)
    (h : isAccess n = true ∨ isPathName n = true) : updateCalls n = [] := by
  refine List.filter_eq_nil_iff.2 fun m hm hcall => ?_
  have hkind := (isUpdateCall_iff.1 hcall).1
  have hself : n.kind ≠ .call := by
    rcases h with haccess | hname
    · obtain ⟨a, hstop⟩ := exists_stopsAt haccess
      simp [hstop.kind_eq]
    · intro hcall
      simp [isPathName, hcall] at hname
  rw [Tree.subtrees_eq, List.mem_cons, List.mem_flatMap] at hm
  rcases hm with rfl | ⟨p, hp, hm⟩
  · exact hself hkind
  · have htoken : m.kind.isToken = true ∨ (memberOfThis? m).isSome = true := by
      rcases h with haccess | hname
      · obtain ⟨a, hstop⟩ := exists_stopsAt haccess
        exact hstop.parts_plain hlaid.hasPlainNames p hp m hm
      · obtain ⟨htoken, hleaf⟩ := tokens_of_isPathName hname hp
        rw [hleaf, List.mem_singleton] at hm
        exact Or.inl (hm ▸ htoken)
    rcases htoken with htoken | hthis
    · simp [hkind, Kind.isToken] at htoken
    · simp [memberOfThis?_of_kind (t := m) (by simp [hkind])] at hthis

/-- The walk does not come by a path that is hidden. -/
theorem IsHidden.not_reaches (hhidden : IsHidden t n) (hlaid : Laid source t)
    (hreach : Reaches source (.classMember none) t n) : False := by
  induction hreach with
  | self t =>
    obtain ⟨call, hcall, p, hp, -, hn⟩ := hhidden
    have hpath := (mem_accessPaths.1 hn).2
    rw [updateCalls_of_isPath hlaid hpath] at hcall
    cases hcall
  | @part t q n hq hvisits hreach ih =>
    have hnq := hreach.mem_subtrees
    obtain ⟨call, hcall, p, hp, hrole, hn⟩ := hhidden
    obtain ⟨hnp, hpath⟩ := mem_accessPaths.1 hn
    obtain ⟨hmem, hupdate⟩ := mem_updateCalls.1 hcall
    have hlt := ((hlaid.part hq).subtree hnq).lt_of_isPath hpath
    rw [Tree.subtrees_eq, List.mem_cons, List.mem_flatMap] at hmem
    rcases hmem with rfl | ⟨q', hq', hmem⟩
    · -- The part that is entered is an argument, and the other one is not.
      obtain rfl := hlaid.eq_of_mem_subtrees hp hq hnp hnq hlt
      rw [(step_of_isUpdateCall source none hupdate).2] at hvisits
      exact hrole (by simpa using hvisits)
    · have hnq' : n ∈ q'.subtrees :=
        Tree.mem_subtrees_trans hmem (Tree.mem_subtrees_of_part hp hnp)
      obtain rfl := hlaid.eq_of_mem_subtrees hq' hq hnq' hnq hlt
      exact ih ⟨call, mem_updateCalls.2 ⟨hmem, hupdate⟩, p, hp, hrole, hn⟩ (hlaid.part hq)

/-! ### Sites and paths -/

theorem NodeLaid.apart_of_ne (h : NodeLaid source t) (hp : p ∈ t.parts) (hq : q ∈ t.parts)
    (hne : p ≠ q) : Analysis.apart p.span q.span := by
  have : Std.Symm fun a b : Tree => Analysis.apart a.span b.span := ⟨fun _ _ h => Or.symm h⟩
  exact h.apart.forall hp hq hne

theorem apart_of_mem_subtrees {a : Span} (hlaid : Laid source p) (h : apart a p.span)
    (hn : n ∈ p.subtrees) : apart a n.span := by
  have hle := hlaid.subtree_le hn
  unfold apart at h ⊢
  omega

/-- A site of a node itself does not touch the paths in its parts. -/
theorem apart_of_mem_marksAt (hlaid : Laid source t)
    (ha : a ∈ marksAt source (.classMember none) t) (hsome : a.range.start < a.range.stop)
    (hp : p ∈ t.parts) (hn : n ∈ accessPaths p) : apart a.range n.span := by
  have hmem := (mem_accessPaths.1 hn).1
  have hnone : accessPaths p = [] → apart a.range n.span := by
    intro hempty
    rw [hempty] at hn
    cases hn
  have hother : ∀ {q : Tree}, q ∈ t.parts → a.range = q.span → (p = q → accessPaths p = []) →
      apart a.range n.span := by
    intro q hq hrange hsame
    by_cases hne : p = q
    · exact hnone (hsame hne)
    · have hapart := hlaid.node.apart_of_ne hq hp (Ne.symm hne)
      exact apart_of_mem_subtrees (hlaid.part hp) (hrange ▸ hapart) hmem
  rcases step_cases source (.classMember none) t with ⟨b, hstop, -⟩ | ⟨hstep, -⟩ |
    ⟨-, hupdate, hmarks, -⟩ | ⟨hkind, hmarks, -⟩
  · exact hnone (hstop.accessPaths_eq_nil hlaid hp)
  · simp [marksAt, hstep, Step.go] at ha
  · have hcall : isUpdateCall t = true := isUpdateIn_eq none t ▸ hupdate
    obtain ⟨callee, hcallee, hsites, -⟩ := hlaid.updateSites_eq hcall
    obtain ⟨callee', hcallee', hthis, -⟩ := hlaid.exists_insertedAt hcall
    obtain rfl := Option.some.inj (hcallee.symm.trans hcallee')
    have hin := (Tree.mem_parts_of_get? hcallee).1
    rw [hmarks, hsites, List.mem_pair] at ha
    rcases ha with rfl | rfl
    · exact hother hin rfl fun heq =>
        heq ▸ accessPaths_of_memberOfThis? hthis (hlaid.part hin)
    · simp [insertion] at hsome
  · rw [hmarks] at ha
    unfold attributeSites at ha
    split at ha
    · rename_i name hname
      split at ha
      · obtain rfl := List.mem_singleton.1 ha
        obtain ⟨hin, hrole⟩ := Tree.mem_parts_of_get? hname
        exact hother hin rfl fun heq =>
          accessPaths_of_attribute hlaid hkind hp (by simp [heq, hrole])
      · cases ha
    · cases ha

/-- A site that touches a path is one of the path itself. -/
theorem apart_or_mem_marks (hlaid : Laid source t) (hn : n ∈ accessPaths t)
    (ha : a ∈ marks source (.classMember none) t) (hsome : a.range.start < a.range.stop) :
    apart a.range n.span ∨
      Reaches source (.classMember none) t n ∧ a ∈ marks source (.classMember none) n := by
  induction t using Tree.induction with
  | h r k s ps ih =>
    rcases mem_accessPaths_cases hn with rfl | ⟨p, hp, hn⟩
    · exact Or.inr ⟨.self _, ha⟩
    have hmarks := ha
    rw [marks_eq, List.mem_append, List.mem_flatMap] at hmarks
    rcases hmarks with hself | ⟨q, hq, hpart⟩
    · exact Or.inl (apart_of_mem_marksAt hlaid hself hsome hp hn)
    · obtain ⟨hq, hvisits⟩ := List.mem_filter.1 hq
      by_cases hsame : q = p
      · subst hsame
        rcases ih q hp (hlaid.part hp) hn hpart with hapart | ⟨hreach, hmem⟩
        · exact Or.inl hapart
        · exact Or.inr ⟨.part hp hvisits hreach, hmem⟩
      · have hin := (marks_laid (.classMember none) q (hlaid.part hq)).inSpan a hpart
        have hapart := hlaid.node.apart_of_ne hq hp hsame
        have hle := (hlaid.part hp).subtree_le (mem_accessPaths.1 hn).1
        have hstart := hin.start_le
        have hstop := hin.stop_le
        unfold apart at hapart ⊢
        omega

theorem marks_of_stop (h : step source setting n = .stop [.site a.range a.kind]) :
    marks source setting n = [a] := by
  rw [marks_eq, marksAt, h]
  simp [Step.stop, Finding.mark?]

theorem step_of_isToken (h : n.kind.isToken = true) : step source setting n = .go := by
  unfold step
  split <;> simp_all [Kind.isToken]

theorem marks_of_isPathName (h : isPathName n = true) : marks source setting n = [] := by
  have hstep : step source setting n = .go := by
    unfold isPathName at h
    simp only [Bool.and_eq_true, Bool.or_eq_true, decide_eq_true_eq] at h
    rcases h.1.1 with hkind | hkind <;> simp [step, hkind]
  rw [marks_eq, marksAt, hstep]
  refine List.append_eq_nil_iff.2 ⟨rfl, List.flatMap_eq_nil_iff.2 fun p hp => ?_⟩
  have hmem := List.mem_of_mem_filter hp
  obtain ⟨htoken, hleaf⟩ := tokens_of_isPathName h hmem
  have hparts : p.parts.flatMap Tree.subtrees = [] := by
    rw [Tree.subtrees_eq] at hleaf
    exact (List.cons.inj hleaf).2
  have hempty : p.parts = [] := by
    rw [List.eq_nil_iff_forall_not_mem]
    intro q hq
    have hin := List.flatMap_eq_nil_iff.1 hparts q hq
    rw [Tree.subtrees_eq] at hin
    cases hin
  rw [marks_eq, marksAt, step_of_isToken htoken, hempty]
  rfl

/-- The one site of an access, and what stands behind it up to the end of the access. -/
theorem Laid.access_site (hlaid : Laid source n) (h : isAccess n = true) :
    ∃ a piece, marks source (.classMember none) n = [a] ∧ StopsAt (.classMember none) n a ∧
      Span.slice? ⟨a.range.stop, n.span.stop⟩ source = some piece ∧
      rewrittenPath source n = (Vue.replacement a.kind).toList ++ piece := by
  obtain ⟨object, name, hnamed, hthis⟩ := isAccess_iff.1 h
  obtain ⟨node, hkind, hparts, -⟩ := namedMember?_eq_some hnamed
  have hobject : object ∈ n.parts := by simp [hparts]
  have hstep : step source (.classMember none) n = classAccess none n := by simp [step, hkind]
  have hbehind : ∀ {stop : Nat}, isBoundary source stop = true → stop ≤ n.span.stop →
      ∃ piece, Span.slice? ⟨stop, n.span.stop⟩ source = some piece := by
    intro stop hboundary hle
    exact Span.exists_slice? hle hboundary hlaid.node.within.stop_boundary
  obtain ⟨piece, hpiece⟩ := hbehind (hlaid.part hobject).node.within.stop_boundary
    (nested_le hlaid.node hobject).2
  have hmember : ¬ (memberOfThis? object = some "props" ∧ name = "children") →
      rewrittenPath source n = "this".toList ++ piece := by
    intro hother
    unfold rewrittenPath
    rw [hnamed]
    dsimp only
    rw [if_neg hother, hpiece, Option.getD_some]
  rcases hthis with hprops | hstate
  · by_cases hchildren : name = "children"
    · subst hchildren
      have hempty : Span.slice? ⟨n.span.stop, n.span.stop⟩ source = some [] := by
        obtain ⟨a, b, heq, ha⟩ := isBoundary_iff.1 hlaid.node.within.stop_boundary
        exact Span.slice?_eq_some_iff.2 ⟨a, b, by simpa using heq, ha, rfl⟩
      refine ⟨⟨n.span, .children⟩, [], marks_of_stop ?_, .children hnamed hprops, hempty, ?_⟩
      · rw [hstep]
        simp [classAccess, hnamed, hprops]
      · unfold rewrittenPath
        rw [hnamed]
        dsimp only
        rw [if_pos ⟨hprops, rfl⟩, List.append_nil]
        rfl
    · refine ⟨⟨object.span, .propsMember⟩, piece, marks_of_stop ?_,
        .propsMember hnamed hchildren hprops, hpiece, hmember (by simp [hchildren])⟩
      rw [hstep]
      simp [classAccess, hnamed, hprops, hchildren]
  · refine ⟨⟨object.span, .stateMember⟩, piece, marks_of_stop ?_, .stateMember hnamed hstate,
      hpiece, hmember (by simp [hstate])⟩
    rw [hstep]
    simp [classAccess, hnamed, hstate]

/-- A path survives in a piece of code if no text of it is replaced. -/
def Survives (source : List Char) (t n : Tree) : Prop :=
  ∀ a ∈ marks source (.classMember none) t, a.range.start < a.range.stop → apart a.range n.span

instance (source : List Char) (t n : Tree) : Decidable (Survives source t n) :=
  inferInstanceAs (Decidable (∀ a ∈ marks source (.classMember none) t,
    a.range.start < a.range.stop → apart a.range n.span))

theorem survives_iff (hlaid : Laid source t) (hn : n ∈ accessPaths t) :
    Survives source t n ↔ isPathName n = true ∨ IsHidden t n := by
  obtain ⟨hmem, hpath⟩ := mem_accessPaths.1 hn
  constructor
  · intro hsurvives
    rcases reaches_or_isHidden hlaid hn with hreach | hhidden
    · rcases hpath with haccess | hname
      · -- The site of an access that the walk comes by lies in it.
        obtain ⟨a, piece, hmarks, hstop, -⟩ := (hlaid.subtree hmem).access_site haccess
        have ha : a ∈ marks source (.classMember none) t :=
          hreach.marks_subset (hmarks ▸ List.mem_singleton_self a)
        have hlt := hstop.range_lt (hlaid.subtree hmem)
        have hin := (hstop.inSpan (hlaid.subtree hmem)).2
        have hstart := hin.start_le
        have hend := hin.stop_le
        rcases hsurvives a ha hlt with hbefore | hbehind <;> omega
      · exact Or.inl hname
    · exact Or.inr hhidden
  · intro hcases a ha hsome
    rcases apart_or_mem_marks hlaid hn ha hsome with hapart | ⟨hreach, ha⟩
    · exact hapart
    · rcases hcases with hname | hhidden
      · rw [marks_of_isPathName hname] at ha
        cases ha
      · exact (hhidden.not_reaches hlaid hreach).elim

/-- A site that covers no text stands right behind a parenthesis. -/
theorem paren_of_mem_marks {setting : Setting} {a : Site} (hlaid : Laid source t)
    (ha : a ∈ marks source setting t) (hempty : a.range.stop ≤ a.range.start) :
    ∃ before rest, source = before ++ '(' :: rest ∧ byteLength before + 1 = a.range.start := by
  obtain ⟨-, hlt | ⟨from_, hfrom⟩⟩ := marks_stop hlaid a ha
  · omega
  · obtain ⟨before, rest, hsource, hbefore, -⟩ := exists_paren_of_afterParen? hfrom
    exact ⟨before, rest, hsource, hbefore⟩

/-- Sites in front of a place and sites behind it. -/
theorem exists_split {as : List Site} {p q : Nat}
    (hpair : as.Pairwise fun a b => a.range.stop ≤ b.range.start)
    (hordered : ∀ a ∈ as, a.range.start ≤ a.range.stop)
    (hapart : ∀ a ∈ as, a.range.stop ≤ p ∨ q ≤ a.range.start) :
    ∃ xs ys, as = xs ++ ys ∧ (∀ a ∈ xs, a.range.stop ≤ p) ∧ ∀ a ∈ ys, q ≤ a.range.start := by
  induction as with
  | nil => exact ⟨[], [], rfl, by simp, by simp⟩
  | cons a as ih =>
    obtain ⟨hnext, hpair⟩ := List.pairwise_cons.1 hpair
    have hle := hordered a List.mem_cons_self
    rcases hapart a List.mem_cons_self with hbefore | hbehind
    · obtain ⟨xs, ys, rfl, hxs, hys⟩ := ih hpair
        (fun b hb => hordered b (List.mem_cons_of_mem _ hb))
        (fun b hb => hapart b (List.mem_cons_of_mem _ hb))
      refine ⟨a :: xs, ys, rfl, ?_, hys⟩
      intro b hb
      rcases List.mem_cons.1 hb with rfl | hb
      · exact hbefore
      · exact hxs b hb
    · refine ⟨[], a :: as, rfl, by simp, fun b hb => ?_⟩
      rcases List.mem_cons.1 hb with rfl | hb
      · exact hbehind
      · have hfollows := hnext b hb
        omega

end Laid

/-! ### What is written -/

section Texts
variable {r : Reading} {t n : Tree}

theorem mem_sites_iff (hlaid : Laid r.source t) :
    a ∈ (fragmentOf r (.classMember none) t).sites ↔
      ∃ b ∈ marks r.source (.classMember none) t, Site.relativeTo t.span.start b = a := by
  rw [fragmentOf_sites _ hlaid, (sortOn_perm _ _).mem_iff, List.mem_map]

theorem slice?_of_mem_subtrees {u : Span} (hlaid : Laid r.source t)
    (hstart : t.span.start ≤ u.start) (hstop : u.stop ≤ t.span.stop)
    (htext : u.slice? r.source = some text) :
    (u.relativeTo t.span.start).slice? (fragmentOf r (.classMember none) t).text.toList =
      some text :=
  Span.slice?_of_containsSpan (fragmentOf_text (.classMember none) hlaid)
    (by simp [Span.containsSpan, hstart, hstop]) htext

/-- A path that survives is written as it stood. -/
theorem infix_of_survives {text : List Char} (hlaid : Laid r.source t) (hn : n ∈ accessPaths t)
    (hsurvives : Survives r.source t n) (htext : n.span.slice? r.source = some text)
    (hparen : '(' ∉ text) :
    ∃ out, Vue.replaceSites (fragmentOf r (.classMember none) t) = some out ∧ text <:+: out := by
  have hle := hlaid.subtree_le (mem_accessPaths.1 hn).1
  obtain ⟨x, y, hsource, hx, hlength⟩ := Span.slice?_eq_some_iff.1 htext
  -- An insertion in the path would stand behind a parenthesis of it.
  have hapart : ∀ a ∈ marks r.source (.classMember none) t, apart a.range n.span := by
    intro a ha
    by_cases hsome : a.range.start < a.range.stop
    · exact hsurvives a ha hsome
    · by_contra hinside
      have hordered := ((marks_laid (.classMember none) t hlaid).within a ha).ordered
      obtain ⟨before, rest, hsplit, hbefore⟩ := paren_of_mem_marks hlaid ha (by omega)
      have hplace : byteLength x ≤ byteLength before ∧
          byteLength before < byteLength x + byteLength text := by
        unfold apart at hinside
        omega
      obtain ⟨e, rfl, he⟩ := exists_append_of_byteLength_le (hsource.symm.trans hsplit) hplace.1
      obtain ⟨f, rfl, hf⟩ := exists_append_of_byteLength_le he.symm (by
        rw [byteLength_append] at hplace
        omega)
      cases f with
      | nil =>
        rw [byteLength_append, List.append_nil] at hplace
        omega
      | cons c f =>
        obtain ⟨rfl, -⟩ := List.cons.inj hf
        exact hparen (by simp)
  obtain ⟨hwithin, hordered⟩ := fragmentOf_ordered (.classMember none) hlaid
  obtain ⟨-, out, hsplice, hreplace⟩ := replaceSites_uses hwithin hordered
  obtain ⟨xs, ys, hsplit, hxs, hys⟩ := exists_split
    (p := n.span.start - t.span.start) (q := n.span.stop - t.span.start) hordered
    (fun a ha => (hwithin a ha).ordered) (by
      intro a ha
      obtain ⟨b, hb, rfl⟩ := (mem_sites_iff hlaid).1 ha
      have hside := hapart b hb
      unfold apart at hside
      change b.range.stop - t.span.start ≤ _ ∨ _ ≤ b.range.start - t.span.start
      omega)
  refine ⟨out, hreplace, ?_⟩
  rw [hsplit, List.map_append] at hsplice
  have hbefore : ∀ e ∈ xs.map siteEdit, e.range.stop ≤ n.span.start - t.span.start := by
    intro e he
    obtain ⟨a, ha, rfl⟩ := List.mem_map.1 he
    exact hxs a ha
  have hbehind : ∀ e ∈ ys.map siteEdit, n.span.stop - t.span.start ≤ e.range.start := by
    intro e he
    obtain ⟨a, ha, rfl⟩ := List.mem_map.1 he
    exact hys a ha
  exact Edit.infix_of_splice hsplice (Nat.zero_le _) hbefore hbehind
    (slice?_of_mem_subtrees hlaid hle.1 hle.2 htext)

/-- An access that the walk comes by is rewritten. -/
theorem infix_of_reaches (hlaid : Laid r.source t) (haccess : isAccess n = true)
    (hreach : Reaches r.source (.classMember none) t n) :
    ∃ out, Vue.replaceSites (fragmentOf r (.classMember none) t) = some out ∧
      rewrittenPath r.source n <:+: out := by
  have hmem := hreach.mem_subtrees
  have hn := hlaid.subtree hmem
  have hle := hlaid.subtree_le hmem
  obtain ⟨a, piece, hmarks, hstop, hpiece, hrewritten⟩ := hn.access_site haccess
  have hlt := hstop.range_lt hn
  have hin := (hstop.inSpan hn).2
  have hstart := hin.start_le
  have hend := hin.stop_le
  have ha : a ∈ marks r.source (.classMember none) t :=
    hreach.marks_subset (hmarks ▸ List.mem_singleton_self a)
  obtain ⟨hwithin, hordered⟩ := fragmentOf_ordered (.classMember none) hlaid
  obtain ⟨-, out, hsplice, hreplace⟩ := replaceSites_uses hwithin hordered
  obtain ⟨before, after, hsplit⟩ := List.append_of_mem ((mem_sites_iff hlaid).2 ⟨a, ha, rfl⟩)
  rw [hsplit, List.pairwise_append, List.pairwise_cons] at hordered
  -- Any site behind the one of the access lies behind the access.
  have hbehind : ∀ e ∈ after.map siteEdit, n.span.stop - t.span.start ≤ e.range.start := by
    intro e he
    obtain ⟨b', hb', rfl⟩ := List.mem_map.1 he
    have hnext : a.range.stop - t.span.start ≤ b'.range.start := hordered.2.1.1 b' hb'
    have hmem' : b' ∈ (fragmentOf r (.classMember none) t).sites := by
      rw [hsplit]
      simp [hb']
    obtain ⟨b, hb, rfl⟩ := (mem_sites_iff hlaid).1 hmem'
    have hbordered := ((marks_laid (.classMember none) t hlaid).within b hb).ordered
    change a.range.stop - t.span.start ≤ b.range.start - t.span.start at hnext
    change n.span.stop - t.span.start ≤ b.range.start - t.span.start
    rcases hreach.marks_cases hlaid (by omega) b hb with hsame | hfront | hback
    · rw [hmarks, List.mem_singleton] at hsame
      subst hsame
      omega
    · omega
    · omega
  rw [hsplit, List.map_append, List.map_cons] at hsplice
  obtain ⟨front, tail, rfl, htail⟩ := splice_append_cons hsplice
  have hslice := slice?_of_mem_subtrees (u := ⟨a.range.stop, n.span.stop⟩) hlaid
    (by dsimp only; omega) hle.2 hpiece
  obtain ⟨rest, rfl⟩ := Edit.exists_append_of_splice htail hbehind hslice
  refine ⟨_, hreplace, front, rest, ?_⟩
  rw [hrewritten]
  simp [siteEdit, Site.relativeTo]

theorem exists_infix_methodBody (hlaid : Laid r.source (bodyCode body))
    (h : ∃ out, Vue.replaceSites (fragmentOf r (.classMember none) (bodyCode body)) = some out ∧
      text <:+: out) :
    ∃ out, Vue.replaceSites (methodBody r body) = some out ∧ text <:+: out := by
  obtain ⟨out, hout, hin⟩ := h
  unfold methodBody
  cases hconcise : conciseBody? body with
  | none =>
    rw [bodyCode, hconcise, Option.getD_none] at hout
    exact ⟨out, hout, hin⟩
  | some value =>
    rw [bodyCode, hconcise, Option.getD_some] at hout hlaid
    obtain ⟨hwithin, -⟩ := fragmentOf_ordered (.classMember none) hlaid
    rw [Vue.replaceSites_wrapped _ _ fun a ha => (hwithin a ha).inside, hout]
    exact ⟨_, rfl,
      hin.trans ((List.prefix_append _ _).isInfix.trans (List.suffix_append _ _).isInfix)⟩

theorem infix_intercalate {text : String} {texts : List String} (h : text ∈ texts) :
    text.toList <:+: (", ".intercalate texts).toList := by
  induction texts with
  | nil => cases h
  | cons first texts ih =>
    cases texts with
    | nil =>
      obtain rfl := List.mem_singleton.1 h
      simp
    | cons second texts =>
      rw [String.intercalate_cons_cons, String.toList_append, String.toList_append]
      rcases List.mem_cons.1 h with rfl | h
      · rw [List.append_assoc]
        exact (List.prefix_append _ _).isInfix
      · exact (ih h).trans (List.suffix_append _ _).isInfix

/-- A path of a parameter stands in front of the body. -/
theorem infix_memberHeader {p : Tree} (hparams : x.params = paramsText r t)
    (hp : p ∈ t.all .param) (hlaid : Laid r.source p) (hn : n ∈ accessPaths p)
    (htext : n.span.slice? r.source = some text) (name : List Char) :
    text <:+: Vue.memberHeader x name := by
  have hle := hlaid.subtree_le (mem_accessPaths.1 hn).1
  obtain ⟨whole, hwhole⟩ := hlaid.node.within.exists_slice?
  have hin : text <:+: whole := by
    have hslice := Span.slice?_of_containsSpan hwhole
      (by simp [Span.containsSpan, hle.1, hle.2]) htext
    obtain ⟨a, b, rfl, -⟩ := Span.slice?_eq_some_iff.1 hslice
    exact ⟨a, b, by simp⟩
  have hparam : r.text p.span ∈ (t.all .param).map fun p => r.text p.span :=
    List.mem_map_of_mem hp
  have hall := infix_intercalate hparam
  rw [Reading.text, hwhole, Option.getD_some, String.toList_ofList] at hall
  refine (hin.trans hall).trans ?_
  unfold Vue.memberHeader
  rw [hparams]
  have hopen := List.suffix_cons '(' (paramsText r t).toList
  exact (hopen.trans (List.suffix_append _ _)).isInfix.trans (List.prefix_append _ _).isInfix

theorem infix_functionBlock (header : List Char) (before : List (List Char)) (body : List Char) :
    header <:+: Vue.functionBlock header before body := by
  unfold Vue.functionBlock
  split
  · exact (List.prefix_append _ _).isInfix
  · split
    · exact (List.prefix_append _ _).isInfix
    · unfold Vue.braced
      rw [List.append_assoc, List.append_assoc]
      exact (List.prefix_append _ _).isInfix

theorem infix_withComments (comments : List String) (text : List Char) :
    text <:+: Vue.withComments comments text := by
  unfold Vue.withComments
  induction comments.map (fun c => Vue.dedentTail c.toList) with
  | nil => exact List.infix_rfl
  | cons first rest ih =>
    cases rest with
    | nil => exact ((List.suffix_append _ _).isInfix)
    | cons second rest => exact ih.trans (List.suffix_append _ _).isInfix

end Texts

/-! ### The methods of a class -/

/-- A path of a method that is written as it stood: in a parameter, unless the method renders and
has no parameters any more, or in the body. -/
inductive SurvivesIn (r : Reading) (t body : Tree) (x : Member) : Tree → Prop
  | param {p n : Tree} (hrole : x.role ≠ .render) (hp : p ∈ t.all .param)
      (hn : n ∈ accessPaths p) : SurvivesIn r t body x n
  | body {n : Tree} (hn : n ∈ accessPaths (bodyCode body))
      (hsurvives : Survives r.source (bodyCode body) n) : SurvivesIn r t body x n

/-- No path is the name of an element or of a value in a type, and none stands in a part of a change
of state beside the arguments. -/
def HasPlainPaths (code : Tree) : Prop :=
  (∀ n ∈ accessPaths code, isPathName n = false) ∧
    ∀ call ∈ updateCalls code, ∀ p ∈ call.parts, p.role ≠ .argument → accessPaths p = []

instance (code : Tree) : Decidable (HasPlainPaths code) :=
  inferInstanceAs (Decidable (_ ∧ _))

/-- What becomes of the paths of a method. -/
structure PathLaw (r : Reading) (t body : Tree) (x : Member) : Prop where
  none_iff : (∀ n, ¬ SurvivesIn r t body x n) ↔
    (x.role = .render ∨ ∀ p ∈ t.all .param, accessPaths p = []) ∧ HasPlainPaths (bodyCode body)
  params : ∀ p ∈ t.all .param, ∀ n ∈ accessPaths p, ∀ text name out,
    n.span.slice? r.source = some text → Vue.memberAs name x = some out → text <:+: out
  kept : ∀ n ∈ accessPaths (bodyCode body), Survives r.source (bodyCode body) n →
    ∀ text, n.span.slice? r.source = some text → '(' ∉ text →
      ∃ out, Vue.replaceSites x.body = some out ∧ text <:+: out
  rewritten : ∀ n ∈ accessPaths (bodyCode body), ¬ Survives r.source (bodyCode body) n →
    ∃ out, Vue.replaceSites x.body = some out ∧ rewrittenPath r.source n <:+: out

theorem bodyCode_mem_subtrees (body : Tree) : bodyCode body ∈ body.subtrees := by
  unfold bodyCode
  cases hconcise : conciseBody? body with
  | none => exact body.mem_subtrees_self
  | some value => exact mem_subtrees_of_conciseBody? hconcise

theorem get?_body_of_keptMethod? {role : MemberRole} (h : keptMethod? t = some (name, role, body)) :
    t.get? .body = some body := by
  unfold keptMethod? at h
  split at h
  · obtain ⟨name', -, h⟩ := Option.bind_eq_some_iff.1 h
    obtain ⟨body', hbody, h⟩ := Option.bind_eq_some_iff.1 h
    obtain ⟨role', -, h⟩ := Option.bind_eq_some_iff.1 h
    obtain ⟨-, heq⟩ := Prod.mk.inj (Option.some.inj h)
    obtain ⟨-, rfl⟩ := Prod.mk.inj heq
    exact hbody
  · cases h

theorem pathLaw {r : Reading} (hparams : x.params = paramsText r t)
    (hkept : keptMethod? t = some (x.name, x.role, body)) (hbody : x.body = methodBody r body)
    (hlaid : Laid r.source t) : PathLaw r t body x := by
  have hcode : Laid r.source (bodyCode body) :=
    hlaid.subtree (Tree.mem_subtrees_trans
      (Tree.mem_subtrees_of_get? (get?_body_of_keptMethod? hkept)) (bodyCode_mem_subtrees body))
  refine ⟨⟨fun hnone => ⟨?_, fun n hn => ?_, fun call hcall p hp hrole => ?_⟩, ?_⟩, ?_, ?_, ?_⟩
  · by_cases hrole : x.role = .render
    · exact Or.inl hrole
    · refine Or.inr fun p hp => List.eq_nil_iff_forall_not_mem.2 fun n hn => ?_
      exact hnone n (.param hrole hp hn)
  · by_contra hname
    have hsurvives := (survives_iff hcode hn).2 (Or.inl (by simpa using hname))
    exact hnone n (.body hn hsurvives)
  · refine List.eq_nil_iff_forall_not_mem.2 fun n hn => ?_
    have hmem : n ∈ accessPaths (bodyCode body) := by
      obtain ⟨hin, hpath⟩ := mem_accessPaths.1 hn
      exact mem_accessPaths.2 ⟨Tree.mem_subtrees_trans (mem_updateCalls.1 hcall).1
        (Tree.mem_subtrees_of_part hp hin), hpath⟩
    have hsurvives := (survives_iff hcode hmem).2 (Or.inr ⟨call, hcall, p, hp, hrole, hn⟩)
    exact hnone n (.body hmem hsurvives)
  · rintro ⟨hplain, hnames, hclear⟩ n hsurvives
    cases hsurvives with
    | param hrole hp hn =>
      rcases hplain with hrender | hempty
      · exact hrole hrender
      · rw [hempty _ hp] at hn
        cases hn
    | body hn hsurvives =>
      rcases (survives_iff hcode hn).1 hsurvives with hname | ⟨call, hcall, p, hp, hrole, hin⟩
      · simp [hnames n hn] at hname
      · rw [hclear call hcall p hp hrole] at hin
        cases hin
  · intro p hp n hn text name out htext hout
    obtain ⟨written, -, hwritten⟩ := Option.bind_eq_some_iff.1 hout
    obtain rfl := Option.some.inj hwritten
    have hheader := infix_memberHeader hparams hp (hlaid.part (Tree.mem_all.1 hp).1) hn htext name
    exact hheader.trans ((infix_functionBlock _ _ _).trans (infix_withComments _ _))
  · intro n hn hsurvives text htext hparen
    rw [hbody]
    exact exists_infix_methodBody hcode (infix_of_survives hcode hn hsurvives htext hparen)
  · intro n hn hgone
    have hcases := (survives_iff hcode hn).not.1 hgone
    rw [not_or] at hcases
    have haccess : isAccess n = true := (mem_accessPaths.1 hn).2.resolve_right hcases.1
    have hreach := (reaches_or_isHidden hcode hn).resolve_right hcases.2
    rw [hbody]
    exact exists_infix_methodBody hcode (infix_of_reaches hcode haccess hreach)

/-- In every member of a component, an access `this.props.x` or `this.state.x` of its method is
rewritten, and no path survives just when none stands in a parameter that is written again and those
of the body are plain. A path that survives is written as it stood. -/
theorem accessPaths_survive_iff (r : Reading) (m : Model) (name : String) (t : Tree)
    (isNested : Bool) {component : ClassComponent}
    (hcomponent : (addClass r m name t isNested).classComponent = some component)
    (hlaid : ∀ method ∈ keptMethods t, Laid r.source method) :
    List.Forall₂ (fun method x => ∃ body,
      keptMethod? method = some (x.name, x.role, body) ∧ PathLaw r method body x)
      (keptMethods t) component.members := by
  have hmembers := members_addClass r m name t isNested hcomponent
  refine ((List.forall₂_and_left _ _).2 ⟨hlaid, hmembers⟩).imp ?_
  rintro method x ⟨hmethod, ⟨body, hkept, hbody⟩, hparams⟩
  exact ⟨body, hkept, pathLaw hparams hkept hbody hmethod⟩

/-- Paths as the target of an assignment, in a template, in an attribute and in a getter. -/
def plainPaths : String :=
  "class A \x7b m(a) \x7b this.props.x = `$\x7bthis.state.y\x7d`; " ++
    "return <i b=\x7bthis.props.children\x7d/>; \x7d get g() \x7b return this.props.h.i; \x7d \x7d"

set_option maxRecDepth 100000 in
/-- None of them survives. -/
theorem accessPaths_survive_plainPaths :
    ∃ s m t component, setupOf? {} plainPaths = some s ∧ modelOf s = .ok m ∧
      firstClass? s = some t ∧
      (addClass s.reading {} "A" t false).classComponent = some component ∧
      (∀ method ∈ keptMethods t, Laid s.reading.source method) ∧
      ((keptMethods t).map fun method => (accessPaths method).length) = [3, 1] ∧
      List.Forall₂ (fun method x => ∃ body, keptMethod? method = some (x.name, x.role, body) ∧
        ∀ n, ¬ SurvivesIn s.reading method body x n) (keptMethods t) component.members := by
  obtain ⟨s, m, t, hsetup, hmodel, ht, hpaths, hclear, hlaid⟩ :=
    exists_found? {} plainPaths firstClass? (fun s _ t =>
      ((keptMethods t).map fun method => (accessPaths method).length) = [3, 1] ∧
      (∀ method ∈ keptMethods t, (∀ p ∈ method.all .param, accessPaths p = []) ∧
        ∀ kept ∈ keptMethod? method, HasPlainPaths (bodyCode kept.2.2)) ∧
      ∀ method ∈ keptMethods t, Laid s.reading.source method) (by decide +kernel)
  refine ⟨s, m, t, _, hsetup, hmodel, ht, rfl, hlaid, hpaths, ?_⟩
  have hlaw := accessPaths_survive_iff s.reading {} "A" t false rfl hlaid
  refine ((List.forall₂_and_left _ _).2 ⟨hclear, hlaw⟩).imp ?_
  rintro method x ⟨⟨hparams, hbody⟩, body, hkept, hpath⟩
  exact ⟨body, hkept, hpath.none_iff.2 ⟨Or.inr hparams, hbody _ hkept⟩⟩

def keptPaths : String :=
  "class A \x7b m(a = this.props.x) \x7b " ++
    "return <this.props.c>\x7bthis.props.y\x7d</this.props.c>; \x7d \x7d"

set_option maxRecDepth 100000 in
/-- They survive, and only the access between them is rewritten. -/
theorem accessPaths_survive_fails_keptPaths :
    ∃ s m t, setupOf? {} keptPaths = some s ∧ modelOf s = .ok m ∧ firstClass? s = some t ∧
      ((keptMethods t).map fun method => (accessPaths method).map (·.span)) =
        [[⟨16, 28⟩, ⟨40, 52⟩, ⟨54, 66⟩, ⟨69, 81⟩]] ∧
      (m.classComponent.map fun c => c.members.map Vue.member) =
        some [some ("m(a = this.props.x) \x7b\n" ++
          "  return <this.props.c>\x7bthis.y\x7d</this.props.c>;\n\x7d").toList] ∧
      ∀ method ∈ keptMethods t, Laid s.reading.source method :=
  exists_found? _ _ firstClass? _ (by decide +kernel)

end Revue.Analysis
