import Revue.Proofs.ContractLedger
import Revue.Proofs.PrimaryComponent
import Revue.Proofs.Reindentation
import Revue.Proofs.SourceSlices

/-!
# Models are made of slices

What a model keeps of its source is cut out of it: imports, declarations, components and what they
are made of. The only texts that are added are comments, which are cut out as well, and what is
written around the value of a field and around a body that is an expression. Every caveat stands at
a node. A model stays like this when props, declarations and functional components are added.
-/

namespace Revue.Analysis
open Text Syntax Component

variable {role : Role} {span : Span} {p : Tree} {component name : String} {members : List Tree}
  {c : FunctionalComponent}

def Reading.nodes (r : Reading) : List Tree := r.module.tree.subtrees

structure Anchored (r : Reading) (s : Span) : Prop where
  node : ∃ n ∈ r.nodes, n.span = s
  located : s.Located r.source

def patternsOf (t : Tree) : List Tree :=
  match t.kind with
  | .function _ => (t.all .param).filterMap parameterPattern?
  | _ => t.all .param

def untypedSpan (t : Tree) : Span :=
  match t.get? .type with
  | some type => ⟨t.span.start, max t.span.start (min type.span.start t.span.stop)⟩
  | none => t.span

/-- The name that a pattern is, or the text in front of its type up to blanks and a colon. -/
def IsBinding (r : Reading) (t : Tree) (text : String) : Prop :=
  t.name? = some text ∨
    t.kind = .objectPattern ∧ ∃ gap, (untypedSpan t).slice? r.source = some (text.toList ++ gap) ∧
      ∀ c ∈ gap, isBlank c = true ∨ c = ':'

structure FunctionalSliced (r : Reading) (t : Tree) (c : FunctionalComponent) : Prop where
  source : c.span.slice? r.source = some c.source.toList
  params : SlicesAt r ((patternsOf t).map (·.span)) c.params
  propsBinding : ∀ text ∈ c.propsBinding, ∃ n ∈ t.subtrees, IsBinding r n text
  body : Cutout r ((t.get? .body).getD t).span [] [] c.body.fragment

inductive CreatedSliced (r : Reading) (f : Fragment) : Prop
  | statement {t : Tree} {comments : List String} (ht : t ∈ r.nodes)
      (hcomments : SlicesAt r (r.module.comments.trailingAt t.span.stop) comments)
      (h : Cutout r t.span [] (spaced comments) f)
  | field {value : Tree} {name : String} (hvalue : value ∈ r.nodes)
      (h : Cutout r value.span ("this." ++ name ++ " = ").toList ";".toList f)

structure MemberSliced (r : Reading) (t : Tree) (x : Member) : Prop where
  params : ∃ texts, SlicesAt r ((t.all .param).map (·.span)) texts ∧
    x.params = ", ".intercalate texts
  body : ∃ n ∈ r.nodes, Cutout r n.span [] [] x.body ∨
    Cutout r n.span "\x7b return ".toList "; \x7d".toList x.body
  leadingComments : SlicesAt r (r.module.comments.leadingAt t.span.start) x.leadingComments

structure ClassSliced (r : Reading) (c : ClassComponent) : Prop where
  span : Anchored r c.span
  state : ∀ f ∈ c.state, ∃ n ∈ r.nodes, Cutout r n.span [] [] f
  created : ∀ f ∈ c.created, CreatedSliced r f
  members : ∀ x ∈ c.members, ∃ t ∈ r.nodes, MemberSliced r t x

/-- A model whose texts are cut out of the source and whose caveats stand in it. -/
structure Sliced (r : Reading) (m : Model) : Prop where
  imports : ∀ text ∈ m.imports, ∃ t ∈ r.module.items, t.kind = .importDef ∧
    t.span.slice? r.source = some text.toList
  declarations : ∀ text ∈ m.declarations, ∃ t ∈ r.module.items, ∃ piece comments,
    t.span.slice? r.source = some piece ∧
      SlicesAt r (r.module.comments.trailingAt t.span.stop) comments ∧
      text.toList = piece ++ spaced comments
  functional : ∀ c ∈ m.functionalComponents, ∃ t ∈ r.nodes, FunctionalSliced r t c
  classComponent : ∀ c ∈ m.classComponent, ClassSliced r c
  defaults : ∀ entry ∈ m.defaultProps, ∀ prop ∈ entry.2, prop.2 = prop.1 ∨
    ∃ n ∈ r.nodes, n.span.slice? r.source = some prop.2.toList
  caveats : ∀ c ∈ m.caveats.toList, ∀ s ∈ c.span?, Anchored r s

section Models
variable {r : Reading} {m m' : Model} {t : Tree}

theorem mem_nodes_of_item (ht : t ∈ r.module.items) : t ∈ r.nodes :=
  Tree.mem_subtrees_of_part ht t.mem_subtrees_self

section
variable (ht : t ∈ r.nodes)
include ht

theorem mem_nodes_trans {n : Tree} (hn : n ∈ t.subtrees) : n ∈ r.nodes :=
  Tree.mem_subtrees_trans ht hn

theorem mem_nodes_of_part (hp : p ∈ t.parts) : p ∈ r.nodes :=
  mem_nodes_trans ht (Tree.mem_subtrees_of_part hp p.mem_subtrees_self)

theorem mem_nodes_of_get? (hp : t.get? role = some p) : p ∈ r.nodes :=
  mem_nodes_trans ht (Tree.mem_subtrees_of_get? hp)

theorem mem_nodes_of_all (hp : p ∈ t.all role) : p ∈ r.nodes :=
  mem_nodes_trans ht (Tree.mem_subtrees_of_all hp)

end

namespace Reading.InBounds

section
variable (hr : r.InBounds) (ht : t ∈ r.nodes)
include hr ht

theorem anchored : Anchored r t.span :=
  ⟨⟨t, ht, rfl⟩, (hr.nodes t ht).located⟩

theorem text_of_node : t.span.slice? r.source = some (r.text t.span).toList :=
  r.text_of_within (hr.nodes t ht)

theorem fragment (setting : Setting) : Cutout r t.span [] [] (fragmentOf r setting t) :=
  cutout_fragmentOf setting fun n hn => hr.nodes n (mem_nodes_trans ht hn)

theorem updaters (setting : Setting) : ∀ s ∈ updatersOf r setting t, Anchored r s := by
  intro s hs
  obtain ⟨n, hn, rfl⟩ := mem_updatersOf hs
  exact hr.anchored (mem_nodes_trans ht hn)

end

theorem params (hr : r.InBounds) {ps : List Tree} (hps : ∀ p ∈ ps, p ∈ r.nodes) :
    SlicesAt r (ps.map (·.span)) (ps.map fun p => r.text p.span) := by
  have hwithin : ∀ s ∈ ps.map (·.span), s.Within r.source := by
    intro s hs
    obtain ⟨p, hp, rfl⟩ := List.mem_map.1 hs
    exact hr.nodes p (hps p hp)
  have hslices := slicesAt_text hwithin
  rwa [List.map_map] at hslices

end Reading.InBounds

namespace Sliced

theorem empty (r : Reading) : Sliced r {} := by
  constructor <;> simp

theorem addCaveats (h : Sliced r m) {cs : List Caveat}
    (hcs : ∀ c ∈ cs, ∀ s ∈ c.span?, Anchored r s) : Sliced r (m.addCaveats cs) :=
  { h with
    caveats := by
      intro c hc
      rcases List.mem_append.1 hc with hc | hc
      · exact h.caveats c hc
      · exact hcs c hc }

theorem addCaveat (h : Sliced r m) {c : Caveat} {s : Span} (hspan : c.span? = some s)
    (hs : Anchored r s) : Sliced r (m.addCaveat c) := by
  have hall : ∀ c' ∈ [c], ∀ s' ∈ c'.span?, Anchored r s' := by
    intro c' hc' s' hs'
    obtain rfl := List.mem_singleton.1 hc'
    obtain rfl : s = s' := Option.some.inj (hspan.symm.trans hs')
    exact hs
  exact h.addCaveats hall

theorem addFunctional (h : Sliced r m) (ht : t ∈ r.nodes) (hc : FunctionalSliced r t c) :
    Sliced r { m with functionalComponents := m.functionalComponents ++ [c] } :=
  { h with
    functional := by
      intro c' hc'
      rcases List.mem_append.1 hc' with hc' | hc'
      · exact h.functional c' hc'
      · obtain rfl := List.mem_singleton.1 hc'
        exact ⟨t, ht, hc⟩ }

theorem addDeclaration (hr : r.InBounds) (h : Sliced r m) (ht : t ∈ r.module.items) :
    Sliced r { m with
      declarations := m.declarations ++ [r.withTrailing (r.text t.span) t.span.stop] } :=
  { h with
    declarations := by
      intro text htext
      rcases List.mem_append.1 htext with htext | htext
      · exact h.declarations text htext
      · obtain rfl := List.mem_singleton.1 htext
        exact ⟨t, ht, (r.text t.span).toList, r.trailingComments t.span.stop,
          hr.text_of_node (mem_nodes_of_item ht), hr.trailingComments t.span.stop,
          toList_withTrailing r _ _⟩ }

end Sliced

/-! ### Props -/

theorem ambiguity?_anchored {read : Tree → Option (String × PropSpec)} {ts : List Tree}
    (hts : ∀ t ∈ ts, Anchored r t.span) :
    ∀ c ∈ ts.filterMap (ambiguity? read component), ∀ s ∈ c.span?, Anchored r s := by
  intro c hc s hs
  obtain ⟨t, ht, hread⟩ := List.mem_filterMap.1 hc
  obtain ⟨x, -, rfl⟩ := Option.map_eq_some_iff.1 hread
  obtain rfl : t.span = s := Option.some.inj hs
  exact hts t ht

theorem eq_all_of_contractMembers? (h : contractMembers? t = some (name, members)) :
    ∃ u ∈ t.subtrees, members = u.all .member := by
  obtain ⟨name', -, h⟩ := Option.bind_eq_some_iff.1 h
  split at h
  · obtain ⟨-, rfl⟩ := Prod.mk.inj (Option.some.inj h)
    exact ⟨t, Tree.mem_subtrees_self t, rfl⟩
  · obtain ⟨type, htype, h⟩ := Option.bind_eq_some_iff.1 h
    split at h
    · obtain ⟨-, rfl⟩ := Prod.mk.inj (Option.some.inj h)
      exact ⟨type, Tree.mem_subtrees_of_get? htype, rfl⟩
    · cases h
  · cases h

theorem mem_subtrees_of_contractMembers? (h : contractMembers? t = some (name, members)) :
    ∀ u ∈ members, u ∈ t.subtrees := by
  obtain ⟨v, hv, rfl⟩ := eq_all_of_contractMembers? h
  exact fun u hu => Tree.mem_subtrees_trans hv (Tree.mem_subtrees_of_all hu)

theorem defaultValue?_slice (hr : r.InBounds) (ht : t ∈ r.nodes) {prop : String × String}
    (h : defaultValue? r t = some prop) :
    prop.2 = prop.1 ∨ ∃ n ∈ r.nodes, n.span.slice? r.source = some prop.2.toList := by
  obtain ⟨key, -, h⟩ := Option.bind_eq_some_iff.1 h
  split at h
  · obtain ⟨name, -, h⟩ := Option.bind_eq_some_iff.1 h
    obtain ⟨value, hvalue, h⟩ := Option.bind_eq_some_iff.1 h
    obtain rfl := Option.some.inj h
    have hnode := mem_nodes_of_get? ht hvalue
    exact .inr ⟨value, hnode, hr.text_of_node hnode⟩
  · obtain ⟨name, -, h⟩ := Option.bind_eq_some_iff.1 h
    obtain rfl := Option.some.inj h
    exact .inl rfl
  · cases h

namespace Sliced

section
variable (hr : r.InBounds) (h : Sliced r m) (ht : t ∈ r.nodes)
include hr h ht

theorem recordPropTypes (component : String) : Sliced r (recordPropTypes m component t) := by
  unfold Analysis.recordPropTypes
  dsimp only
  split
  · exact h.addCaveat rfl (hr.anchored ht)
  · have hparts : ∀ p ∈ t.parts, Anchored r p.span := fun p hp =>
      hr.anchored (mem_nodes_of_part ht hp)
    have hcaveats : ∀ c ∈ (validatedProps component t).caveats, ∀ s ∈ c.span?, Anchored r s := by
      rw [validatedProps_eq]
      exact ambiguity?_anchored hparts
    exact { h.addCaveats hcaveats with }

theorem recordDefaults (component : String) : Sliced r (recordDefaults r m component t) := by
  have hvalues : ∀ prop ∈ defaultValues r t, prop.2 = prop.1 ∨
      ∃ n ∈ r.nodes, n.span.slice? r.source = some prop.2.toList := by
    intro prop hprop
    rcases Table.mem_extend hprop with hprop | hprop
    · cases hprop
    · obtain ⟨p, hp, hread⟩ := List.mem_filterMap.1 hprop
      exact defaultValue?_slice hr (mem_nodes_of_part ht hp) hread
  refine { h with defaults := ?_ }
  intro entry hentry prop hprop
  rcases Table.mem_insert hentry with hentry | rfl
  · exact h.defaults entry hentry prop hprop
  · rcases Table.mem_extend hprop with hprop | hprop
    · cases hknown : m.defaultProps.get? component with
      | none =>
        rw [hknown] at hprop
        cases hprop
      | some known =>
        rw [hknown] at hprop
        exact h.defaults _ (Table.mem_of_get? hknown) prop hprop
    · exact hvalues prop hprop

theorem recordStatic? {field : StaticField}
    (hrecord : recordStatic? r m component field t = some m') :
    Sliced r m' := by
  have hvalue : t.withoutParens ∈ r.nodes := mem_nodes_trans ht t.withoutParens_mem_subtrees
  rcases recordStatic?_cases hrecord with ⟨rfl, -, rfl⟩ | ⟨rfl, rfl⟩ | ⟨rfl, name, rfl⟩
  · exact h.recordPropTypes hr hvalue component
  · exact h.recordDefaults hr hvalue component
  · exact { h with }

end

end Sliced

end Models

/-! ### Functional components -/

section Functional
variable {r : Reading} {t : Tree}

theorem text_max (r : Reading) (start stop : Nat) :
    r.text ⟨start, stop⟩ = r.text ⟨start, max start stop⟩ := by
  by_cases hle : start ≤ stop
  · rw [Nat.max_eq_right hle]
  · rw [Nat.max_eq_left (by omega)]
    have hnone : Span.slice? ⟨start, stop⟩ r.source = none := if_neg hle
    have hempty : (Span.slice? ⟨start, start⟩ r.source).getD [] = [] := by
      unfold Span.slice?
      cases cut? start r.source <;> simp [cut?]
    simp [Reading.text, hnone, hempty]

theorem Reading.InBounds.untypedSpan (hr : r.InBounds) (ht : t ∈ r.nodes) :
    (untypedSpan t).Within r.source := by
  have hself := hr.nodes t ht
  unfold Analysis.untypedSpan
  split
  · rename_i type htype
    have htype' := hr.nodes type (mem_nodes_of_get? ht htype)
    refine ⟨Nat.le_max_left _ _, hself.start_boundary, ?_⟩
    dsimp only
    rcases Nat.le_total (min type.span.start t.span.stop) t.span.start with hle | hle
    · rw [Nat.max_eq_left hle]
      exact hself.start_boundary
    · rw [Nat.max_eq_right hle]
      rcases Nat.le_total type.span.start t.span.stop with hle' | hle'
      · rw [Nat.min_eq_left hle']
        exact htype'.start_boundary
      · rw [Nat.min_eq_right hle']
        exact hself.stop_boundary
  · exact hself

/-- A text without blanks and colons at its end. -/
theorem exists_gap (cs : List Char) :
    ∃ gap, cs = trimEnd ((trimEnd cs).reverse.dropWhile (· == ':')).reverse ++ gap ∧
      ∀ c ∈ gap, isBlank c = true ∨ c = ':' := by
  obtain ⟨outer, houter, hblank⟩ := Vue.exists_trimEnd cs
  obtain ⟨inner, hinner, hblank'⟩ :=
    Vue.exists_trimEnd ((trimEnd cs).reverse.dropWhile (· == ':')).reverse
  have hcolons : trimEnd cs = ((trimEnd cs).reverse.dropWhile (· == ':')).reverse ++
      ((trimEnd cs).reverse.takeWhile (· == ':')).reverse := by
    rw [← List.reverse_append, List.takeWhile_append_dropWhile, List.reverse_reverse]
  refine ⟨inner ++ (((trimEnd cs).reverse.takeWhile (· == ':')).reverse ++ outer), ?_, ?_⟩
  · rw [← List.append_assoc, ← hinner, ← List.append_assoc, ← hcolons]
    exact houter
  · intro c hc
    simp only [List.mem_append, List.mem_reverse] at hc
    obtain hc | hc | hc := hc
    · exact .inl (hblank' c hc)
    · exact .inr (by simpa using List.mem_takeWhile_imp hc)
    · exact .inl (hblank c hc)

theorem patternText?_binding (hr : r.InBounds) (ht : t ∈ r.nodes) {text : String}
    (h : patternText? r t = some text) : ∃ n ∈ t.subtrees, IsBinding r n text := by
  fun_induction patternText? r t with
  | case1 role s left rest ih =>
    have hleft : left ∈ (.node role .defaultPattern s (left :: rest) : Tree).subtrees :=
      Tree.mem_subtrees_of_part (p := left) List.mem_cons_self left.mem_subtrees_self
    obtain ⟨n, hn, hbinding⟩ := ih (mem_nodes_trans ht hleft) h
    exact ⟨n, Tree.mem_subtrees_trans hleft hn, hbinding⟩
  | case2 t _ name hname =>
    obtain rfl := Option.some.inj h
    exact ⟨t, t.mem_subtrees_self, .inl (by simp [Tree.name?, hname])⟩
  | case3 t _ hkind stop trimmed bare =>
    obtain rfl := Option.some.inj h
    have htext : (r.text ⟨t.span.start, stop⟩).toList = (r.text (untypedSpan t)).toList := by
      unfold untypedSpan
      dsimp only [stop]
      cases t.get? .type with
      | none => rfl
      | some type => rw [text_max]
    obtain ⟨gap, hgap, hblank⟩ := exists_gap (r.text ⟨t.span.start, stop⟩).toList
    refine ⟨t, t.mem_subtrees_self, .inr ⟨hkind, gap, ?_, hblank⟩⟩
    rw [String.toList_ofList, r.text_of_within (hr.untypedSpan ht), ← htext]
    exact congrArg some hgap
  | case4 => cases h

theorem mem_subtrees_of_patternsOf (hp : p ∈ patternsOf t) : p ∈ t.subtrees := by
  unfold patternsOf at hp
  split at hp
  · obtain ⟨q, hq, hpattern⟩ := List.mem_filterMap.1 hp
    refine Tree.mem_subtrees_trans (Tree.mem_subtrees_of_all hq) ?_
    unfold parameterPattern? at hpattern
    split at hpattern
    · exact Tree.mem_subtrees_of_get? hpattern
    · exact Tree.mem_subtrees_of_get? hpattern
    · obtain rfl := Option.some.inj hpattern
      exact q.mem_subtrees_self
  · exact Tree.mem_subtrees_of_all hp

section
variable (hr : r.InBounds) (ht : t ∈ r.nodes)
include hr ht

theorem functionalSliced (hspan : span.Within r.source) {body : Body} {setting : Setting}
    (hbody : body.fragment = fragmentOf r setting ((t.get? .body).getD t)) (name : String)
    (origin : Origin) (isAsync : Bool) :
    FunctionalSliced r t
      (functionalComponent r name (patternsOf t) body origin isAsync span) where
  source := r.text_of_within hspan
  params := hr.params fun p hp => mem_nodes_trans ht (mem_subtrees_of_patternsOf hp)
  propsBinding := by
    intro text htext
    obtain ⟨p, hp, hpattern⟩ := Option.bind_eq_some_iff.1 htext
    have hp' := mem_subtrees_of_patternsOf (List.mem_of_head? hp)
    obtain ⟨n, hn, hbinding⟩ := patternText?_binding hr (mem_nodes_trans ht hp') hpattern
    exact ⟨n, Tree.mem_subtrees_trans hp' hn, hbinding⟩
  body := by
    dsimp only [functionalComponent]
    rw [hbody]
    exact hr.fragment (mem_nodes_trans ht (t.getD_get?_mem_subtrees .body)) setting

theorem functionalSliced_function {flags : FunctionFlags} (hkind : t.kind = .function flags)
    (hspan : span.Within r.source) (h : componentOfFunction? r name t span = some c) :
    FunctionalSliced r t c := by
  obtain ⟨body, hbody, rfl⟩ := Option.map_eq_some_iff.1 h
  have hpatterns : (t.all .param).filterMap parameterPattern? = patternsOf t := by
    simp [patternsOf, hkind]
  rw [hpatterns]
  apply functionalSliced hr ht hspan
  rw [hbody]
  rfl

theorem functionalSliced_arrow {isAsync : Bool} (hkind : t.kind = .arrow isAsync)
    (hspan : span.Within r.source) (name : String) :
    FunctionalSliced r t (componentOfArrow r name t isAsync span) := by
  have hpatterns : t.all .param = patternsOf t := by simp [patternsOf, hkind]
  unfold componentOfArrow
  dsimp only
  rw [hpatterns]
  apply functionalSliced hr ht hspan
  split <;> rfl

end

end Functional

end Revue.Analysis
