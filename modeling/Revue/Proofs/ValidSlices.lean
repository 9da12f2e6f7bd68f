import Revue.Proofs.BaseMargin
import Revue.Vue.Options

/-!
# Slices that are taken

Every cut of a text or of a list of lines is written here as one that may fail: past the end, in the
wrong order or inside a character. No cut of a layout fails, whatever the text is: what is taken
from a line that is not blank are spaces and tabs of its own, a byte each, and these stay when the
line is trimmed at its end. The edits of a fragment do not fail if its sites lie on character
boundaries, since an edit that overlaps another one is skipped.
-/

namespace Revue.Vue
open Text Component

variable {α β : Type} {m : Model}

/-! ### Cuts of a layout -/

namespace Line
variable {l : Line}

def isIndent (c : Char) : Bool := c == ' ' || c == '\t'

/-- The bytes of the spaces and tabs in front of a line. -/
def marginBytes (l : Line) : Nat := byteLength l.text - byteLength (l.text.dropWhile isIndent)

def outdent? (common : Nat) (l : Line) : Option (List Char) :=
  if l.inLiteral then some l.trimmed
  else if l.isBlank then some []
  else Span.slice? ⟨common, byteLength l.trimmed⟩ l.trimmed

theorem byteLength_of_isIndent {w : List Char} (h : ∀ c ∈ w, isIndent c = true) :
    byteLength w = w.length := by
  refine Source.byteLength_of_all (List.all_eq_true.2 fun c hc => ?_)
  rcases Bool.or_eq_true_iff.1 (h c hc) with heq | heq <;> rw [beq_iff_eq.1 heq] <;> decide

theorem marginBytes_eq (l : Line) : l.marginBytes = l.margin := by
  have hsplit := congrArg byteLength (List.takeWhile_append_dropWhile (p := isIndent) (l := l.text))
  rw [byteLength_append, byteLength_of_isIndent fun c => List.mem_takeWhile_imp] at hsplit
  rw [marginBytes, ← hsplit, Nat.add_sub_cancel]
  rfl

/-- The bytes to take are characters of the line's own margin. -/
theorem outdent?_eq {common : Nat} (hcommon : l.isPlain = true → common ≤ l.margin) :
    l.outdent? common = some (l.outdent common) := by
  unfold outdent? outdent
  split
  · rfl
  rename_i hlit
  split
  · rfl
  rename_i hblank
  have hplain : l.isPlain = true := by simp [isPlain, hlit, hblank]
  have hle := hcommon hplain
  obtain ⟨w, c, rest, htrimmed, hmargin, hw, -⟩ := exists_trimmed_margin hplain
  have htake : byteLength (l.trimmed.take common) = common := by
    rw [htrimmed, List.take_append_of_le_length (by omega),
      byteLength_of_isIndent fun d hd => hw d (List.mem_of_mem_take hd), List.length_take]
    omega
  have hsplit := List.take_append_drop common l.trimmed
  refine Span.slice?_eq_some_iff.2 ⟨l.trimmed.take common, [], by simp, htake, ?_⟩
  have hlength := congrArg byteLength hsplit
  rwa [byteLength_append, htake] at hlength

end Line

def commonBytes (ls : List Line) : Nat :=
  ((ls.filter fun l => !l.isBlank && !l.inLiteral).map Line.marginBytes).min?.getD 0

theorem outdent?_commonBytes {ls : List Line} {l : Line} (hl : l ∈ ls) :
    l.outdent? (commonBytes ls) = some (l.outdent (commonMargin ls)) := by
  rw [commonBytes, funext Line.marginBytes_eq]
  exact Line.outdent?_eq (commonMargin_le_of_isPlain hl)

/-- The lines from the first one that is not blank to the last one. -/
def bodyLines? (ls : List Line) : Option (List Line) :=
  match ls.findIdx? fun l => !l.isBlank with
  | none => some []
  | some first =>
    let last := ((ls.reverse.findIdx? fun l => !l.isBlank).map (ls.length - 1 - ·)).getD first
    if first ≤ last + 1 ∧ last < ls.length then some ((ls.take (last + 1)).drop first) else none

theorem bodyLines?_eq (ls : List Line) : bodyLines? ls = some (dropBlankEnds ls) := by
  unfold bodyLines? dropBlankEnds
  split
  · rename_i hnone
    have hblank : ls.dropWhile Line.isBlank = [] := by
      simpa [List.dropWhile_eq_nil_iff, List.findIdx?_eq_none_iff] using hnone
    rw [hblank]
    rfl
  · rename_i first hfirst
    obtain ⟨hlt, hfirst⟩ := List.findIdx?_eq_some_iff_findIdx_eq.1 hfirst
    -- seen from behind, a line that is not blank comes no later than the first one
    have hback : ls.reverse.findIdx (fun l => !l.isBlank) < ls.length - first := by
      have hmem : ls[first] ∈ (ls.drop first).reverse := by
        rw [List.drop_eq_getElem_cons hlt]
        exact List.mem_reverse.2 List.mem_cons_self
      have hink := List.findIdx_lt_length.2 ⟨_, hmem, by subst hfirst; exact List.findIdx_getElem⟩
      rw [List.length_reverse, List.length_drop, List.reverse_drop, List.findIdx_take] at hink
      omega
    have hlast : (ls.reverse.findIdx? fun l => !l.isBlank) =
        some (ls.reverse.findIdx fun l => !l.isBlank) :=
      List.findIdx?_eq_some_iff_findIdx_eq.2 ⟨by rw [List.length_reverse]; omega, rfl⟩
    have hdrop : ls.dropWhile Line.isBlank = ls.drop (ls.findIdx fun l => !l.isBlank) :=
      List.dropWhile_eq_drop_findIdx_not
    rw [hlast, hdrop, hfirst, List.dropWhile_eq_drop_findIdx_not, List.drop_reverse,
      List.reverse_reverse, List.reverse_drop, List.findIdx_take, Nat.min_eq_right hback.le,
      List.take_drop, List.length_drop]
    generalize ls.reverse.findIdx (fun l => !l.isBlank) = j at hback ⊢
    rw [Option.map_some, Option.getD_some, if_pos (by omega)]
    congr 3
    omega

/-! ### Fragments -/

def classFragments (c : ClassComponent) : List Fragment :=
  c.state.toList ++ c.created ++ c.members.map (·.body)

def fragmentsOf (m : Model) : List Fragment :=
  m.classComponent.toList.flatMap classFragments ++ m.functionalComponents.map (·.body.fragment)

theorem isSome_replaceSites {f : Fragment} (h : ∀ a ∈ f.sites, a.range.Within f.text.toList) :
    (replaceSites f).isSome = true := by
  rw [replaceSites, Option.isSome_map, applyEdits, Option.isSome_map]
  refine Edit.isSome_splice_select (fun e he => ?_) (isBoundary_zero _)
  obtain ⟨a, ha, rfl⟩ := List.mem_map.1 ((sortOn_perm _ _).mem_iff.1 he)
  exact (h a ha).stop_boundary

theorem isSome_bind {x : Option α} {f : α → Option β} (hx : x.isSome = true)
    (hf : ∀ a, (f a).isSome = true) : (x >>= f).isSome = true := by
  obtain ⟨a, rfl⟩ := Option.isSome_iff_exists.1 hx
  exact hf a

theorem isSome_mapM {f : α → Option β} {as : List α} (h : ∀ a ∈ as, (f a).isSome = true) :
    (as.mapM f).isSome = true := by
  induction as with
  | nil => rfl
  | cons a as ih =>
    obtain ⟨ha, has⟩ := List.forall_mem_cons.1 h
    rw [List.mapM_cons]
    exact isSome_bind ha fun _ => isSome_bind (ih has) fun _ => rfl

theorem isSome_methodsSection {xs : List Member}
    (h : ∀ x ∈ xs, (replaceSites x.body).isSome = true) (name : String) :
    (methodsSection name xs).isSome = true := by
  have hentries : (xs.mapM member).isSome = true :=
    isSome_mapM fun x hx => isSome_bind (h x hx) fun _ => rfl
  refine isSome_bind hentries fun entries => ?_
  cases entries <;> rfl

theorem isSome_classSections {c : ClassComponent}
    (h : ∀ f ∈ classFragments c, (replaceSites f).isSome = true) :
    (classSections m c).isSome = true := by
  have hmembers : ∀ x ∈ c.members, (replaceSites x.body).isSome = true := fun x hx =>
    h _ (List.mem_append_right _ (List.mem_map_of_mem hx))
  have hfiltered : ∀ p : Member → Bool, ∀ x ∈ c.members.filter p,
      (replaceSites x.body).isSome = true := fun p x hx => hmembers x (List.mem_filter.1 hx).1
  have hstate : (stateSection c).isSome = true := by
    unfold stateSection
    split
    · rfl
    · rename_i f hf
      exact isSome_bind (h f (by simp [classFragments, hf])) fun _ => rfl
  have hhooks : (hookSections c).isSome = true := by
    refine isSome_mapM fun text? htext => ?_
    obtain ⟨x, hx, hhook⟩ := List.mem_filterMap.1 htext
    unfold hookSection? at hhook
    split at hhook
    · obtain rfl := Option.some.inj hhook
      exact isSome_bind (hmembers x hx) fun _ => rfl
    · cases hhook
  have hcreated : (createdSection c).isSome = true := by
    refine isSome_bind (isSome_mapM fun f hf => ?_) fun statements => ?_
    · rw [Option.isSome_map]
      exact h f (by simp [classFragments, hf])
    · cases statements <;> rfl
  have hrender : (renderSection c).isSome = true := by
    unfold renderSection
    split
    · rfl
    · rename_i x hx
      exact isSome_bind (hmembers x (List.mem_of_find?_eq_some hx)) fun _ => rfl
  exact isSome_bind hstate fun _ => isSome_bind (isSome_methodsSection (hfiltered _) _) fun _ =>
    isSome_bind (isSome_methodsSection (hfiltered _) _) fun _ => isSome_bind hhooks fun _ =>
      isSome_bind hcreated fun _ => isSome_bind hrender fun _ => rfl

theorem mem_of_primaryFunctional {c : FunctionalComponent} (h : m.primaryFunctional = some c) :
    c ∈ m.functionalComponents := by
  rcases Option.or_eq_some_iff.1 h with hexported | ⟨-, hfirst⟩
  · obtain ⟨name, -, hfind⟩ := Option.bind_eq_some_iff.1 hexported
    exact List.mem_of_find?_eq_some hfind
  · exact List.mem_of_head? hfirst

theorem isSome_generate (h : ∀ f ∈ fragmentsOf m, (replaceSites f).isSome = true) :
    (generate m).isSome = true := by
  refine isSome_bind ?_ fun _ => rfl
  unfold primarySections
  split
  · rename_i c hclass
    rw [Option.isSome_map]
    refine isSome_classSections fun f hf => h f (List.mem_append_left _ ?_)
    rw [hclass]
    simpa using hf
  · split
    · rename_i c hprimary
      have hc := h _ (List.mem_append_right _
        (List.mem_map_of_mem (mem_of_primaryFunctional hprimary)))
      rw [Option.isSome_map]
      refine isSome_bind ?_ fun _ => rfl
      unfold functionalRender
      cases hbody : c.body <;> rw [hbody] at hc <;> rw [Option.isSome_map] <;> exact hc
    · rfl

/-- A model whose sites are in order and lie on character boundaries, overlapping or not, is written
out: no cut of an edit fails. Nor does a cut of a line or of lines, whatever they are. -/
theorem generate_slices_valid {m : Model}
    (h : ∀ f ∈ fragmentsOf m, ∀ a ∈ f.sites, a.range.Within f.text.toList) :
    (∃ output, generate m = some output) ∧
      (∀ (ls : List Line), ∀ l ∈ ls,
        l.outdent? (commonBytes ls) = some (l.outdent (commonMargin ls))) ∧
      ∀ ls, bodyLines? ls = some (dropBlankEnds ls) :=
  ⟨Option.isSome_iff_exists.1 (isSome_generate fun f hf => isSome_replaceSites (h f hf)),
    fun _ _ => outdent?_commonBytes, bodyLines?_eq⟩

/-- Two sites overlap behind a tab and a character of two bytes, and the line ends in a blank of
two. -/
def overlappingModel : Model :=
  { functionalComponents :=
      [{ name := "A", params := [], propsBinding := none, origin := .arrow, isAsync := false
         source := "", span := ⟨0, 0⟩
         body := .expr ⟨"(é,\n\t this.props.ü\u00a0\n)",
           [⟨⟨7, 20⟩, .children⟩, ⟨⟨7, 17⟩, .propsMember⟩, ⟨⟨1, 3⟩, .stateObject⟩]⟩ }] }

theorem generate_slices_valid_overlappingModel :
    (∀ f ∈ fragmentsOf overlappingModel, ∀ a ∈ f.sites, a.range.Within f.text.toList) ∧
      ∃ output, generate overlappingModel = some output := by
  have h : ∀ f ∈ fragmentsOf overlappingModel, ∀ a ∈ f.sites, a.range.Within f.text.toList := by
    decide +kernel
  exact ⟨h, (generate_slices_valid h).1⟩

end Revue.Vue
