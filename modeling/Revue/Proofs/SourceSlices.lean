import Revue.Proofs.FieldAssignments
import Revue.Proofs.ItemShapes
import Revue.Proofs.ItemSteps
import Revue.Proofs.RepairRuns

/-!
# Texts that are cut out of the source

A node of the repaired tree covers what some node covers that was read. If the spans of all nodes
and comments that were read lie in the source, then no text of the analysis is empty for want of a
place: texts of nodes and comments are slices, and so are the two kinds of text whose span is put
together from two nodes. A fragment is such a slice with its sites, also after text has been put
in front of it or behind it.
-/

namespace Revue.Text

variable {cs : List Char} {s : Span}

/-- What a span covers in a text it covers in a part of the text that it lies in. -/
theorem Span.slice?_of_containsSpan {u : Span} {text piece : List Char}
    (h : s.slice? cs = some text) (hin : s.containsSpan u = true) (hu : u.slice? cs = some piece) :
    (u.relativeTo s.start).slice? text = some piece := by
  obtain ⟨a, b, rfl, ha, htext⟩ := slice?_eq_some_iff.1 h
  obtain ⟨c, d, hcd, hc, hpiece⟩ := slice?_eq_some_iff.1 hu
  obtain ⟨hstart, hstop⟩ : s.start ≤ u.start ∧ u.stop ≤ s.stop := by
    simpa [containsSpan] using hin
  obtain ⟨e, rfl, he⟩ := exists_append_of_byteLength_le hcd (by omega)
  rw [byteLength_append] at hc
  have hsplit : (e ++ piece) ++ d = text ++ b := by
    rw [List.append_assoc]
    exact he.symm
  have hle : byteLength (e ++ piece) ≤ byteLength text := by
    rw [byteLength_append]
    omega
  obtain ⟨e', rfl, -⟩ := exists_append_of_byteLength_le hsplit hle
  refine slice?_eq_some_iff.2 ⟨e, e', List.append_assoc _ _ _, ?_, ?_⟩
  · dsimp only [relativeTo]
    omega
  · dsimp only [relativeTo]
    omega

theorem Span.Within.exists_slice? (h : s.Within cs) : ∃ piece, s.slice? cs = some piece :=
  Span.exists_slice? h.ordered h.start_boundary h.stop_boundary

theorem LineIndex.isSome_lineCol? {pos : Nat} (h : isBoundary cs pos = true) :
    ((ofText cs).lineCol? pos).isSome = true := by
  have hle : pos ≤ (ofText cs).length := isBoundary.le_byteLength h
  simp [lineCol?, hle]

structure Span.Located (cs : List Char) (s : Span) : Prop where
  slice : (s.slice? cs).isSome = true
  start : ((LineIndex.ofText cs).lineCol? s.start).isSome = true
  stop : ((LineIndex.ofText cs).lineCol? s.stop).isSome = true

theorem Span.Within.located (h : s.Within cs) : s.Located cs := by
  obtain ⟨piece, hpiece⟩ := h.exists_slice?
  exact ⟨by rw [hpiece]; rfl, LineIndex.isSome_lineCol? h.start_boundary,
    LineIndex.isSome_lineCol? h.stop_boundary⟩

end Revue.Text

namespace Revue.Syntax
open Text

variable {s : Span} {t : Tree}

/-! ### Spans of the repaired tree -/

namespace Tree

def spans (t : Tree) : List Span := t.subtrees.map (·.span)

theorem mem_spans : s ∈ t.spans ↔ ∃ n ∈ t.subtrees, n.span = s :=
  List.mem_map

theorem mem_spans_iff_parts : s ∈ t.spans ↔ s = t.span ∨ ∃ p ∈ t.parts, s ∈ p.spans := by
  rw [spans, subtrees_eq, List.map_cons, List.map_flatMap, List.mem_cons, List.mem_flatMap]
  rfl

theorem spans_as (t : Tree) (r : Role) : (t.as r).spans = t.spans := by
  cases t with
  | node r' k s ps => rfl

theorem span_mem_spans (t : Tree) : t.span ∈ t.spans := mem_spans_iff_parts.2 (.inl rfl)

theorem mem_spans_of_part {p : Tree} (hp : p ∈ t.parts) (hs : s ∈ p.spans) : s ∈ t.spans :=
  mem_spans_iff_parts.2 (.inr ⟨p, hp, hs⟩)

theorem mem_spans_blockOf {body : Tree} (h : s ∈ (blockOf body).spans) : s ∈ body.spans := by
  unfold blockOf at h
  split at h
  · exact h
  · simp only [mem_spans_iff_parts (t := .node _ _ _ _), parts, span, List.mem_singleton,
      exists_eq_left, spans_as] at h
    obtain rfl | rfl | h := h
    · exact body.span_mem_spans
    · exact body.span_mem_spans
    · exact h

theorem mem_spans_methodOfArrow {span : Span} {flags : MemberFlags} {key arrow : Tree}
    {isAsync : Bool} (h : s ∈ (methodOfArrow span flags key arrow isAsync).spans) :
    s = span ∨ s ∈ key.spans ∨ s ∈ arrow.spans := by
  have harrow : ∀ r, ∀ p ∈ arrow.all r, s ∈ p.spans → s ∈ arrow.spans :=
    fun r p hp hs => mem_spans_of_part (mem_all.1 hp).1 hs
  rw [mem_spans_iff_parts] at h
  simp only [methodOfArrow, Tree.span, parts, List.mem_cons, List.mem_append, List.mem_map] at h
  obtain rfl | ⟨p, rfl | ((⟨q, hq, rfl⟩ | ⟨q, hq, rfl⟩) | hp) | hp, hs⟩ := h
  · exact .inl rfl
  · exact .inr (.inl hs)
  · simp only [asParameter, mem_spans_iff_parts (t := .node _ _ _ _), parts, Tree.span,
      List.mem_singleton, exists_eq_left, spans_as] at hs
    refine .inr (.inr (harrow _ q hq ?_))
    obtain rfl | hs := hs
    · exact q.span_mem_spans
    · exact hs
  · exact .inr (.inr (harrow _ q hq (mem_spans_blockOf hs)))
  · exact .inr (.inr (harrow _ p hp hs))
  · exact .inr (.inr (harrow _ p hp hs))

/-- A repair puts no node where none was. -/
theorem mem_spans_arrowFieldsAsMethods (h : s ∈ t.arrowFieldsAsMethods.spans) : s ∈ t.spans := by
  induction t using Tree.induction with
  | h r k u ps ih =>
    have hpart : ∀ p ∈ ps.map arrowFieldsAsMethods, s ∈ p.spans → s ∈ (node r k u ps).spans := by
      intro p hp hs
      obtain ⟨q, hq, rfl⟩ := List.mem_map.1 hp
      exact mem_spans_of_part hq (ih q hq hs)
    rw [arrowFieldsAsMethods_node] at h
    obtain ⟨-, hsame⟩ | ⟨flags, key, arrow, isAsync, -, hkey, harrow, -, hmethod⟩ :=
      arrowFieldAsMethod_cases (node r k u (ps.map arrowFieldsAsMethods))
    · rw [hsame, mem_spans_iff_parts] at h
      obtain rfl | ⟨p, hp, hs⟩ := h
      · exact span_mem_spans _
      · exact hpart p hp hs
    · rw [hmethod] at h
      obtain rfl | hs | hs := mem_spans_methodOfArrow h
      · exact span_mem_spans _
      · exact hpart key (mem_parts_of_get? hkey).1 hs
      · exact hpart arrow (mem_parts_of_get? harrow).1 hs

end Tree

theorem EndsWithDeclaration.arrowFieldsAsMethods (h : EndsWithDeclaration t) :
    EndsWithDeclaration t.arrowFieldsAsMethods := by
  intro hkind d hd
  obtain ⟨hspan, -, ⟨_, -, _, _, _, hmethod⟩ | ⟨hsame, hparts⟩⟩ := t.arrowFieldsAsMethods_shape
  · rw [hmethod] at hkind
    cases hkind
  · rw [hparts] at hd
    obtain ⟨p, hp, rfl⟩ := List.mem_map.1 hd
    rw [hspan, p.arrowFieldsAsMethods_shape.1]
    exact h (hsame.symm.trans hkind) p hp

/-- The repairs leave the module a module, and default exports end where they did. -/
theorem endsWithDeclaration_of_repair {source : List Char} {m : Module}
    (hparse : parse source = .ok m) :
    (m.repair source).tree.kind = .module ∧
      ∀ t ∈ (m.repair source).items, EndsWithDeclaration t := by
  obtain ⟨hmodule, hexports⟩ := endsWithDeclaration_of_parse hparse
  obtain ⟨-, -, ⟨_, hfield, -⟩ | ⟨hkind, hparts⟩⟩ := m.tree.arrowFieldsAsMethods_shape
  · rw [hmodule] at hfield
    cases hfield
  · refine ⟨hkind.trans hmodule, fun t ht => ?_⟩
    have ht' : t ∈ m.tree.arrowFieldsAsMethods.parts := ht
    rw [hparts] at ht'
    obtain ⟨u, hu, rfl⟩ := List.mem_map.1 ht'
    exact (hexports u hu).arrowFieldsAsMethods

end Revue.Syntax

namespace Revue.Analysis
open Text Syntax Component

variable {t : Tree}

/-! ### Sources whose nodes and comments lie in them -/

/-- All nodes and comments lie in the source, and default exports end with what they declare. -/
structure Reading.InBounds (r : Reading) : Prop where
  nodes : ∀ n ∈ r.module.tree.subtrees, n.span.Within r.source
  leading : ∀ c ∈ r.module.comments.leading, c.2.Within r.source
  trailing : ∀ c ∈ r.module.comments.trailing, c.2.Within r.source
  exports : ∀ t ∈ r.module.items, EndsWithDeclaration t

theorem inBounds_repair {source : List Char} {m : Syntax.Module} (hparse : parse source = .ok m)
    (hnodes : ∀ n ∈ m.tree.subtrees, n.span.Within source)
    (hleading : ∀ c ∈ m.comments.leading, c.2.Within source)
    (htrailing : ∀ c ∈ m.comments.trailing, c.2.Within source) :
    (⟨source, m.repair source⟩ : Reading).InBounds where
  nodes := by
    intro n hn
    obtain ⟨n', hn', hspan⟩ := Tree.mem_spans.1
      (Tree.mem_spans_arrowFieldsAsMethods (Tree.mem_spans.2 ⟨n, hn, rfl⟩))
    rw [← hspan]
    exact hnodes n' hn'
  leading := hleading
  trailing := fun c hc => htrailing c (List.mem_filter.1 hc).1
  exports := (endsWithDeclaration_of_repair hparse).2

section Texts
variable {r : Reading}

theorem Reading.text_of_within {s : Span} (h : s.Within r.source) :
    s.slice? r.source = some (r.text s).toList := by
  obtain ⟨piece, hpiece⟩ := h.exists_slice?
  simp [Reading.text, hpiece]

def SlicesAt (r : Reading) (spans : List Span) (texts : List String) : Prop :=
  spans.map (·.slice? r.source) = texts.map fun text => some text.toList

theorem slicesAt_text {spans : List Span} (h : ∀ s ∈ spans, s.Within r.source) :
    SlicesAt r spans (spans.map r.text) := by
  unfold SlicesAt
  rw [List.map_map]
  exact List.map_congr_left fun s hs => r.text_of_within (h s hs)

theorem Reading.InBounds.leadingComments (h : r.InBounds) (pos : Nat) :
    SlicesAt r (r.module.comments.leadingAt pos) (r.leadingComments pos) := by
  apply slicesAt_text
  intro s hs
  obtain ⟨c, hc, rfl⟩ := List.mem_map.1 hs
  exact h.leading c (List.mem_filter.1 hc).1

theorem Reading.InBounds.trailingComments (h : r.InBounds) (pos : Nat) :
    SlicesAt r (r.module.comments.trailingAt pos) (r.trailingComments pos) := by
  apply slicesAt_text
  intro s hs
  obtain ⟨c, hc, rfl⟩ := List.mem_map.1 hs
  exact h.trailing c (List.mem_filter.1 hc).1

def spaced (comments : List String) : List Char :=
  comments.flatMap fun comment => ' ' :: comment.toList

theorem toList_withTrailing (r : Reading) (text : String) (pos : Nat) :
    (r.withTrailing text pos).toList = text.toList ++ spaced (r.trailingComments pos) := by
  have hjoin : ∀ (comment : String) (comments : List String),
      ' ' :: (" ".intercalate (comment :: comments)).toList = spaced (comment :: comments) := by
    intro comment comments
    induction comments generalizing comment with
    | nil => simp [spaced]
    | cons next comments ih =>
      rw [String.intercalate_cons_cons]
      have hnext := ih next
      simp only [spaced, List.flatMap_cons, String.toList_append] at hnext ⊢
      simp [← hnext]
  unfold Reading.withTrailing
  split
  · rename_i hnone
    simp [hnone, spaced]
  · rename_i comments hsome
    cases hcomments : r.trailingComments pos with
    | nil => exact absurd hcomments hsome
    | cons comment comments =>
      rw [← hjoin]
      simp

end Texts

/-! ### What is found in code -/

inductive FoundIn (source : List Char) (t : Tree) : Finding → Prop
  | site {n : Tree} (hn : n ∈ t.subtrees) (kind : SiteKind) : FoundIn source t (.site n.span kind)
  | behindParen {pos : Nat} (hpos : isBoundary source pos = true) :
      FoundIn source t (.site ⟨pos, pos⟩ .setStateArgs)
  | updater {n : Tree} (hn : n ∈ t.subtrees) : FoundIn source t (.updater n.span)

theorem FoundIn.of_part {source : List Char} {p : Tree} {f : Finding} (hp : p ∈ t.parts)
    (h : FoundIn source p f) : FoundIn source t f := by
  cases h with
  | site hn kind => exact .site (Tree.mem_subtrees_of_part hp hn) kind
  | behindParen hpos => exact .behindParen hpos
  | updater hn => exact .updater (Tree.mem_subtrees_of_part hp hn)

theorem object_mem_subtrees {object : Tree} {property : String}
    (h : namedMember? t = some (object, property)) : object ∈ t.subtrees := by
  obtain ⟨name, -, hparts, -⟩ := namedMember?_eq_some h
  refine Tree.mem_subtrees_of_part (p := object) ?_ object.mem_subtrees_self
  rw [hparts]
  exact List.mem_cons_self

section
variable (source : List Char)
include source

theorem foundIn_classAccess (constructorProps : Option String) (t : Tree) :
    ∀ f ∈ (classAccess constructorProps t).found, FoundIn source t f := by
  unfold classAccess
  split
  · simp [Step.go]
  · rename_i object property hnamed
    have hobject : ∀ kind, ∀ f ∈ (Step.stop [.site object.span kind]).found,
        FoundIn source t f := by
      intro kind f hf
      obtain rfl := List.mem_singleton.1 hf
      exact .site (object_mem_subtrees hnamed) kind
    have hself : ∀ kind, ∀ f ∈ (Step.stop [.site t.span kind]).found, FoundIn source t f := by
      intro kind f hf
      obtain rfl := List.mem_singleton.1 hf
      exact .site t.mem_subtrees_self kind
    split
    · split
      · exact hself _
      · exact hobject _
    · exact hobject _
    · simp [Step.go]
    · exact hself _
    · exact hself _
    · split
      · exact hobject _
      · simp [Step.go]

theorem foundIn_functionalAccess (props : Option String) (t : Tree) :
    ∀ f ∈ (functionalAccess props t).found, FoundIn source t f := by
  unfold functionalAccess
  split
  · split
    · intro f hf
      obtain rfl := List.mem_singleton.1 hf
      exact .site t.mem_subtrees_self _
    · simp [Step.go]
  · simp [Step.go]

theorem foundIn_classCall (t : Tree) : ∀ f ∈ (classCall source t).found, FoundIn source t f := by
  unfold classCall
  split
  · rename_i callee hcallee
    split
    · intro f hf
      simp only [List.mem_cons, List.mem_append] at hf
      obtain rfl | hf | hf := hf
      · exact .site (Tree.mem_subtrees_of_get? hcallee) _
      · split at hf
        · rename_i pos hpos
          obtain rfl := List.mem_singleton.1 hf
          exact .behindParen (afterParen?_spec hpos).2
        · cases hf
      · split at hf
        · cases hf
        · obtain rfl := List.mem_singleton.1 hf
          exact .updater t.mem_subtrees_self
    · simp [Step.go]
  · simp [Step.go]

theorem foundIn_attributeStep (t : Tree) : ∀ f ∈ (attributeStep t).found, FoundIn source t f := by
  unfold attributeStep
  split
  · rename_i name hname
    intro f hf
    dsimp only at hf
    split at hf
    · obtain rfl := List.mem_singleton.1 hf
      exact .site (Tree.mem_subtrees_of_get? hname) _
    · cases hf
  · simp [Step.go]

theorem foundIn_step (setting : Setting) (t : Tree) :
    ∀ f ∈ (step source setting t).found, FoundIn source t f := by
  unfold step
  split
  · exact foundIn_classAccess source _ t
  · exact foundIn_functionalAccess source _ t
  · exact foundIn_classCall source t
  · exact foundIn_attributeStep source t
  · simp [Step.go]

theorem foundIn_findings (setting : Setting) (t : Tree) :
    ∀ f ∈ findings source setting t, FoundIn source t f := by
  induction t using Tree.induction with
  | h r k s ps ih =>
    intro f hf
    rw [findings_eq, List.mem_append, List.mem_flatMap] at hf
    obtain hf | ⟨p, hp, hf⟩ := hf
    · exact foundIn_step source setting _ f hf
    · have hpart : p ∈ ps := (List.mem_filter.1 hp).1
      exact (ih p hpart f hf).of_part hpart

end

theorem mem_updatersOf {r : Reading} {setting : Setting} {s : Span}
    (h : s ∈ updatersOf r setting t) : ∃ n ∈ t.subtrees, n.span = s := by
  obtain ⟨f, hf, hs⟩ := List.mem_filterMap.1 h
  cases foundIn_findings r.source setting t f hf with
  | site => cases hs
  | behindParen => cases hs
  | updater hn => exact ⟨_, hn, Option.some.inj hs⟩

/-! ### Fragments -/

/-- A fragment that is what a span covers, with text in front and behind. What a site covers in it
is what some part of the span covers. -/
structure Cutout (r : Reading) (s : Span) (before after : List Char) (f : Fragment) : Prop where
  text : ∃ piece, s.slice? r.source = some piece ∧ f.text.toList = before ++ (piece ++ after)
  sites : ∀ a ∈ f.sites, ∃ u piece, s.containsSpan u = true ∧ u.slice? r.source = some piece ∧
    a.range.slice? f.text.toList = some piece

section Fragments
variable {r : Reading} {s : Span} {f : Fragment}

theorem cutout_fragmentOf (setting : Setting) (h : ∀ n ∈ t.subtrees, n.span.Within r.source) :
    Cutout r t.span [] [] (fragmentOf r setting t) := by
  have htext := r.text_of_within (h t t.mem_subtrees_self)
  refine ⟨⟨(r.text t.span).toList, htext, by simp [fragmentOf]⟩, ?_⟩
  intro a ha
  obtain ⟨found, hfound, hsite⟩ :=
    List.mem_filterMap.1 ((sortOn_perm _ _).mem_iff.1 ha)
  -- Both kinds of places are slices of the source, and only those inside the node are sites.
  obtain ⟨u, kind, rfl, hwithin⟩ :
      ∃ u kind, found = .site u kind ∧ u.Within r.source := by
    cases foundIn_findings r.source setting t found hfound with
    | site hn kind => exact ⟨_, kind, rfl, h _ hn⟩
    | behindParen hpos => exact ⟨_, _, rfl, Nat.le_refl _, hpos, hpos⟩
    | updater => cases hsite
  dsimp only [Finding.site?] at hsite
  split at hsite
  · rename_i hin
    obtain rfl := Option.some.inj hsite
    obtain ⟨piece, hpiece⟩ := hwithin.exists_slice?
    exact ⟨u, piece, hin, hpiece, Span.slice?_of_containsSpan htext hin hpiece⟩
  · cases hsite

/-- Sites stay where they are when text is put behind a fragment. -/
theorem Cutout.extended (h : Cutout r s [] [] f) {text : String} {after : List Char}
    (htext : text.toList = f.text.toList ++ after) :
    Cutout r s [] after { f with text := text } := by
  obtain ⟨⟨piece, hpiece, hplain⟩, hsites⟩ := h
  refine ⟨⟨piece, hpiece, by simpa [hplain] using htext⟩, ?_⟩
  intro a ha
  obtain ⟨u, part, hin, hpart, hcovers⟩ := hsites a ha
  refine ⟨u, part, hin, hpart, ?_⟩
  rw [htext]
  exact Span.slice?_wrapped [] after hcovers

theorem Cutout.wrapped (h : Cutout r s [] [] f) (before after : String) :
    Cutout r s before.toList after.toList (f.wrapped before after) := by
  obtain ⟨⟨piece, hpiece, hplain⟩, hsites⟩ := h
  have htext : (f.wrapped before after).text.toList =
      before.toList ++ (f.text.toList ++ after.toList) := by
    simp [Fragment.wrapped]
  refine ⟨⟨piece, hpiece, by simpa [hplain] using htext⟩, ?_⟩
  intro a ha
  obtain ⟨b, hb, rfl⟩ := List.mem_map.1 ha
  obtain ⟨u, part, hin, hpart, hcovers⟩ := hsites b hb
  refine ⟨u, part, hin, hpart, ?_⟩
  rw [htext, ← byteLength_toList]
  exact Span.slice?_wrapped before.toList after.toList hcovers

end Fragments

end Revue.Analysis
