import Revue.Proofs.EditOrder
import Revue.Vue.Options

/-!
# Text in front and behind

Text in front of another one moves all its offsets to the right, and text behind it moves none. The
offsets of the inner text are boundaries in the whole just when they were, so that each edit is used
or skipped as before, and what becomes of the inner text stands between the two. Edits may overlap,
be reversed or split a character, but they have to stay inside the inner text: one that reaches past
it may find its end in the text behind.
-/

namespace Revue.Text

variable {es : List Edit} {n : Nat} {s : Span}

theorem byteLength_toList (s : String) : byteLength s.toList = s.utf8ByteSize := by
  have hlist : ∀ cs : List Char, byteLength cs = (String.ofList cs).utf8ByteSize := by
    intro cs
    induction cs with
    | nil => simp [byteLength]
    | cons c cs ih =>
      have hcons : String.ofList (c :: cs) = String.singleton c ++ String.ofList cs := by
        rw [String.singleton_eq_ofList, ← String.ofList_append, List.singleton_append]
      rw [byteLength, ih, hcons, String.utf8ByteSize_append, String.utf8ByteSize_singleton]
  rw [hlist, String.ofList_toList]

/-- The ends of a span lie in a text, in either order and on boundaries or not. -/
structure Span.Inside (cs : List Char) (s : Span) : Prop where
  start_le : s.start ≤ byteLength cs
  stop_le : s.stop ≤ byteLength cs

instance (cs : List Char) (s : Span) : Decidable (s.Inside cs) :=
  decidable_of_iff (s.start ≤ byteLength cs ∧ s.stop ≤ byteLength cs)
    ⟨fun ⟨h₁, h₂⟩ => ⟨h₁, h₂⟩, fun ⟨h₁, h₂⟩ => ⟨h₁, h₂⟩⟩

theorem Span.Within.inside {cs : List Char} (h : s.Within cs) : s.Inside cs :=
  ⟨isBoundary.le_byteLength h.start_boundary, isBoundary.le_byteLength h.stop_boundary⟩

section Wrapping
variable {cs : List Char} (before after : List Char)

/-! ### Offsets -/

theorem isBoundary_wrapped (hn : n ≤ byteLength cs) :
    isBoundary (before ++ (cs ++ after)) (n + byteLength before) = isBoundary cs n := by
  rw [Bool.eq_iff_iff, isBoundary_iff, isBoundary_iff]
  constructor
  · rintro ⟨a, b, heq, hlength⟩
    obtain ⟨e, rfl, hinner⟩ := exists_append_of_byteLength_le heq (by omega)
    rw [byteLength_append] at hlength
    obtain ⟨f, rfl, -⟩ := exists_append_of_byteLength_le hinner.symm (by omega)
    exact ⟨e, f, rfl, by omega⟩
  · rintro ⟨a, b, rfl, rfl⟩
    refine ⟨before ++ a, b ++ after, by simp, ?_⟩
    rw [byteLength_append, Nat.add_comm]

theorem cut?_wrapped {a b : List Char} (h : cut? n cs = some (a, b)) :
    cut? (n + byteLength before) (before ++ (cs ++ after)) = some (before ++ a, b ++ after) := by
  obtain ⟨rfl, rfl⟩ := cut?_eq_some_iff.1 h
  refine cut?_eq_some_iff.2 ⟨by simp, ?_⟩
  rw [byteLength_append, Nat.add_comm]

theorem Span.slice?_wrapped {piece : List Char} (h : s.slice? cs = some piece) :
    (s.shift (byteLength before)).slice? (before ++ (cs ++ after)) = some piece := by
  obtain ⟨a, b, rfl, hstart, hstop⟩ := Span.slice?_eq_some_iff.1 h
  refine Span.slice?_eq_some_iff.2 ⟨before ++ a, b ++ after, by simp, ?_, ?_⟩
  · simp only [byteLength_append, Span.shift]
    omega
  · simp only [Span.shift]
    omega

theorem Span.Inside.within_wrapped_iff (h : s.Inside cs) :
    (s.shift (byteLength before)).Within (before ++ (cs ++ after)) ↔ s.Within cs := by
  have hstart := isBoundary_wrapped before after h.start_le
  have hstop := isBoundary_wrapped before after h.stop_le
  constructor
  · rintro ⟨hordered, h₁, h₂⟩
    exact ⟨Nat.le_of_add_le_add_right hordered, hstart ▸ h₁, hstop ▸ h₂⟩
  · rintro ⟨hordered, h₁, h₂⟩
    exact ⟨Nat.add_le_add_right hordered _, hstart.trans h₁, hstop.trans h₂⟩

theorem Span.Within.wrapped (h : s.Within cs) :
    (s.shift (byteLength before)).Within (before ++ (cs ++ after)) :=
  (h.inside.within_wrapped_iff before after).2 h

theorem Span.Inside.slice?_shift (h : s.Inside cs) :
    (s.shift (byteLength before)).slice? (before ++ (cs ++ after)) = s.slice? cs := by
  cases hpiece : s.slice? cs with
  | some piece => exact slice?_wrapped before after hpiece
  | none =>
    rw [← Option.not_isSome_iff_eq_none, isSome_slice?_iff, h.within_wrapped_iff,
      ← isSome_slice?_iff, hpiece]
    simp

/-! ### Edits -/

def Edit.shift (n : Nat) (e : Edit) : Edit := ⟨e.range.shift n, e.replacement⟩

theorem Edit.usable_shift {e : Edit} (h : e.range.Inside cs) (last : Nat) :
    (e.shift (byteLength before)).usable (before ++ (cs ++ after)) (last + byteLength before) =
      e.usable cs last := by
  have hstop : e.range.stop + byteLength before ≤ byteLength (before ++ (cs ++ after)) := by
    have := h.stop_le
    simp only [byteLength_append]
    omega
  have hboundary := isBoundary_wrapped before after h.start_le
  simp only [usable, shift, Span.shift, hboundary, hstop, h.stop_le, Nat.add_le_add_iff_right]

theorem Edit.select_shift (h : ∀ e ∈ es, e.range.Inside cs) (last : Nat) :
    select (before ++ (cs ++ after)) (last + byteLength before)
        (es.map (shift (byteLength before))) =
      (select cs last es).map (shift (byteLength before)) := by
  induction es generalizing last with
  | nil => rfl
  | cons e es ih =>
    have hes : ∀ f ∈ es, f.range.Inside cs := fun f hf => h f (List.mem_cons_of_mem e hf)
    rw [List.map_cons, select, select, usable_shift before after (h e List.mem_cons_self)]
    split
    · rw [List.map_cons, ← ih hes]
      rfl
    · exact ih hes last

/-- Where the first edit in use has to start does not matter in front of all edits. -/
theorem Edit.select_of_le (h : ∀ e ∈ es, n ≤ e.range.start) : select cs 0 es = select cs n es := by
  induction es with
  | nil => rfl
  | cons e es ih =>
    have husable : e.usable cs 0 = e.usable cs n := by
      simp [usable, h e List.mem_cons_self]
    rw [select, select, husable, ih fun f hf => h f (List.mem_cons_of_mem e hf)]

theorem Edit.select_subset (cs : List Char) (last : Nat) (es : List Edit) :
    select cs last es ⊆ es := by
  induction es generalizing last with
  | nil => exact List.Subset.refl _
  | cons e es ih =>
    rw [select]
    split
    · exact List.cons_subset_cons e (ih _)
    · exact List.subset_cons_of_subset e (ih last)

theorem Edit.splice_shift (h : ∀ e ∈ es, e.range.Inside cs) {last : Nat}
    (hlast : last ≤ byteLength cs) :
    splice (before ++ (cs ++ after)) (last + byteLength before)
      (es.map (shift (byteLength before))) = (splice cs last es).map (· ++ after) := by
  induction es generalizing last with
  | nil =>
    cases hcut : cut? last cs with
    | some pieces =>
      rw [List.map_nil, splice, splice, cut?_wrapped before after hcut, hcut]
      rfl
    | none =>
      have houter := (isBoundary_wrapped before after hlast).trans (cut?_eq_none_iff.1 hcut)
      rw [List.map_nil, splice, splice, cut?_eq_none_iff.2 houter, hcut]
      rfl
  | cons e es ih =>
    have he := h e List.mem_cons_self
    have hgap : Span.slice? ⟨last + byteLength before, e.range.start + byteLength before⟩
        (before ++ (cs ++ after)) = Span.slice? ⟨last, e.range.start⟩ cs :=
      Span.Inside.slice?_shift before after (s := ⟨last, e.range.start⟩) ⟨hlast, he.start_le⟩
    have hrest := ih (fun f hf => h f (List.mem_cons_of_mem e hf)) he.stop_le
    have hstep : splice (before ++ (cs ++ after)) (last + byteLength before)
        ((e :: es).map (shift (byteLength before))) =
        (Span.slice? ⟨last, e.range.start⟩ cs).bind fun piece =>
          ((splice cs e.range.stop es).map (· ++ after)).map fun rest =>
            piece ++ e.replacement.toList ++ rest := by
      rw [← hgap, ← hrest]
      rfl
    rw [hstep, splice]
    simp [Option.map_bind, Function.comp_def]

end Wrapping

/-! ### Batches and fragments -/

/-- Edits inside of a text do the same to it with text in front and behind. -/
theorem applyEdits_wrapped (before after text : String) {edits : List Edit}
    (h : ∀ e ∈ edits, e.range.Inside text.toList) :
    applyEdits (before ++ text ++ after) (edits.map (Edit.shift before.utf8ByteSize)) =
      (applyEdits text edits).map fun out => before ++ out ++ after := by
  let size := byteLength before.toList
  let whole := before.toList ++ (text.toList ++ after.toList)
  let sorted := sortOn (·.range.start) edits
  let used := Edit.select text.toList 0 sorted
  have htext : (before ++ text ++ after).toList = whole := by simp [whole]
  have hsorted : sortOn (·.range.start) (edits.map (Edit.shift size)) =
      sorted.map (Edit.shift size) := sortOn_map (fun _ _ => Nat.add_le_add_iff_right) edits
  have hinside : ∀ e ∈ sorted, e.range.Inside text.toList :=
    fun e he => h e ((sortOn_perm _ _).mem_iff.1 he)
  have hused : ∀ e ∈ used, e.range.Inside text.toList :=
    fun e he => hinside e (Edit.select_subset _ _ _ he)
  have hstart : ∀ es : List Edit, ∀ e ∈ es.map (Edit.shift size), size ≤ e.range.start := by
    intro es e he
    obtain ⟨inner, -, rfl⟩ := List.mem_map.1 he
    exact Nat.le_add_left _ _
  have hselect : Edit.select whole 0 (sorted.map (Edit.shift size)) =
      used.map (Edit.shift size) := by
    have hshift := Edit.select_shift before.toList after.toList hinside 0
    rw [Nat.zero_add] at hshift
    rw [Edit.select_of_le (hstart sorted), hshift]
  have hfront : Span.slice? ⟨0, size⟩ whole = some before.toList :=
    Span.slice?_zero rfl rfl
  have hsplice := Edit.splice_shift before.toList after.toList hused (Nat.zero_le _)
  rw [Nat.zero_add] at hsplice
  rw [← byteLength_toList, applyEdits, htext, hsorted, hselect,
    Edit.splice_of_le hfront (hstart used), hsplice, applyEdits]
  simp [used, sorted, Function.comp_def, String.ofList_append, String.append_assoc]

end Revue.Text

namespace Revue.Vue
open Text Component

theorem replaceSites_wrapped {f : Fragment} (before after : String)
    (h : ∀ s ∈ f.sites, s.range.Inside f.text.toList) :
    replaceSites (f.wrapped before after) =
      (replaceSites f).map fun out => before.toList ++ (out ++ after.toList) := by
  have hedits : (f.wrapped before after).sites.map
      (fun s => (⟨s.range, replacement s.kind⟩ : Edit)) =
        (f.sites.map fun s => ⟨s.range, replacement s.kind⟩).map
          (Edit.shift before.utf8ByteSize) := by
    simp [Fragment.wrapped, Edit.shift]
  have hinside : ∀ e ∈ f.sites.map (fun s => (⟨s.range, replacement s.kind⟩ : Edit)),
      e.range.Inside f.text.toList := by
    intro e he
    obtain ⟨s, hs, rfl⟩ := List.mem_map.1 he
    exact h s hs
  have htext : (f.wrapped before after).text = before ++ f.text ++ after := rfl
  rw [replaceSites, hedits, htext, applyEdits_wrapped before after f.text hinside, replaceSites]
  simp [Function.comp_def]

/-- A fragment whose sites lie in its text can be wrapped if they stay in bounds. Its sites are then
replaced as before, between the two texts, and if they could not be they still cannot. -/
theorem replaceSites_commutes_wrapped (f : Fragment) (before after : String)
    (hinside : ∀ s ∈ f.sites, s.range.Inside f.text.toList)
    (hbound : ∀ s ∈ f.sites, s.range.start + before.utf8ByteSize < Span.offsetBound ∧
      s.range.stop + before.utf8ByteSize < Span.offsetBound) :
    ∃ wrapped, f.wrapped? before after = some wrapped ∧
      replaceSites wrapped =
        (replaceSites f).map fun out => before.toList ++ (out ++ after.toList) := by
  refine ⟨f.wrapped before after, ?_, replaceSites_wrapped before after hinside⟩
  apply if_pos
  rw [List.all_eq_true]
  intro s hs
  simp [Span.shift?, hbound s hs]

def crossedSites : Fragment where
  text := "aéb"
  sites := [⟨⟨3, 1⟩, .stateObject⟩, ⟨⟨0, 1⟩, .propsMember⟩, ⟨⟨0, 2⟩, .children⟩]

def splitSite : Fragment where
  text := "aéb"
  sites := [⟨⟨1, 2⟩, .children⟩]

theorem replaceSites_commutes_crossedSites :
    (∃ wrapped, crossedSites.wrapped? "«" "»;" = some wrapped ∧
      replaceSites wrapped = some "«thiséthis.$dataéb»;".toList) ∧
    ∃ wrapped, splitSite.wrapped? "«" "»;" = some wrapped ∧ replaceSites wrapped = none := by
  have hcrossed : replaceSites crossedSites = some "thiséthis.$dataéb".toList := by
    decide +kernel
  have hsplit : replaceSites splitSite = none := by decide +kernel
  constructor
  · obtain ⟨wrapped, hwrapped, hresult⟩ :=
      replaceSites_commutes_wrapped crossedSites "«" "»;" (by decide +kernel) (by decide +kernel)
    refine ⟨wrapped, hwrapped, ?_⟩
    rw [hresult, hcrossed]
    decide +kernel
  · obtain ⟨wrapped, hwrapped, hresult⟩ :=
      replaceSites_commutes_wrapped splitSite "«" "»;" (by decide +kernel) (by decide +kernel)
    refine ⟨wrapped, hwrapped, ?_⟩
    rw [hresult, hsplit, Option.map_none]

end Revue.Vue
