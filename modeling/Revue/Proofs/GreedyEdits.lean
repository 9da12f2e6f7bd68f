import Revue.Proofs.EditOrder

/-!
# Which edits of a batch are used

A batch is looked at in the order of start offsets, and edits that start at one offset in the order
given: `InOrder` says so with the place of each edit in the batch as a number. On the way an edit is
used if it starts at or behind the end of the last one used, ends inside the text and starts on a
character boundary. A range may be reversed, so the end of the last one used can lie further to the
left than the one before. Only the edits in use decide on the result, and it is missing just when
one of them ends inside a character.
-/

namespace Revue.Text

variable {last : Nat} {cs : List Char} {edits : List Edit} {ordered used : List (Edit × Nat)}

/-! ### Stable sorting -/

section Sorting
variable {α : Type} {key : α → Nat} {Q : α → α → Prop}

theorem insertOn_pairwise_of {a : α} {l : List α} (ha : ∀ b ∈ l, Q a b)
    (hl : l.Pairwise fun b c => key b < key c ∨ key b = key c ∧ Q b c) :
    (insertOn key a l).Pairwise fun b c => key b < key c ∨ key b = key c ∧ Q b c := by
  induction l with
  | nil => simp [insertOn]
  | cons b l ih =>
    obtain ⟨hb, hl'⟩ := List.pairwise_cons.1 hl
    rw [insertOn]
    split
    · rename_i hle
      apply List.pairwise_cons.2
      refine ⟨fun c hc => ?_, hl⟩
      have hbc : key b ≤ key c := by
        rcases List.mem_cons.1 hc with rfl | hc
        · exact Nat.le_refl _
        · have := hb c hc
          omega
      by_cases hlt : key a < key c
      · exact Or.inl hlt
      · exact Or.inr ⟨by omega, ha c hc⟩
    · rename_i hlt
      apply List.pairwise_cons.2
      refine ⟨fun c hc => ?_, ih (fun c hc => ha c (List.mem_cons_of_mem b hc)) hl'⟩
      rcases List.mem_cons.1 ((insertOn_perm key a l).mem_iff.1 hc) with rfl | hc
      · exact Or.inl (by omega)
      · exact hb c hc

/-- Elements with equal keys stay in an order in which they all were. -/
theorem sortOn_pairwise_of {l : List α} (h : l.Pairwise Q) :
    (sortOn key l).Pairwise fun a b => key a < key b ∨ key a = key b ∧ Q a b := by
  induction l with
  | nil => exact .nil
  | cons a l ih =>
    obtain ⟨ha, hl⟩ := List.pairwise_cons.1 h
    apply insertOn_pairwise_of _ (ih hl)
    intro b hb
    exact ha b ((sortOn_perm key l).mem_iff.1 hb)

theorem sortOn_pairwise_le (key : α → Nat) (l : List α) :
    (sortOn key l).Pairwise fun a b => key a ≤ key b := by
  have hall : l.Pairwise fun _ _ => True := List.pairwise_of_forall fun _ _ => trivial
  have hsorted : (sortOn key l).Pairwise fun a b => key a < key b ∨ key a = key b ∧ True :=
    sortOn_pairwise_of hall
  apply hsorted.imp
  intro a b hab
  omega

theorem insertOn_of_le {a : α} {l : List α} (h : ∀ b ∈ l, key a ≤ key b) :
    insertOn key a l = a :: l := by
  cases l with
  | nil => rfl
  | cons b l => rw [insertOn, if_pos (h b List.mem_cons_self)]

theorem filter_insertOn_of_neg {p : α → Bool} {a : α} (ha : ¬ p a = true) (l : List α) :
    (insertOn key a l).filter p = l.filter p := by
  induction l with
  | nil => simp [insertOn, ha]
  | cons b l ih =>
    rw [insertOn]
    split
    · rw [List.filter_cons_of_neg ha]
    · rw [List.filter_cons, List.filter_cons, ih]

theorem filter_insertOn_of_pos {p : α → Bool} {a : α} (ha : p a = true) {l : List α}
    (hl : l.Pairwise fun b c => key b ≤ key c) :
    (insertOn key a l).filter p = insertOn key a (l.filter p) := by
  induction l with
  | nil => simp [insertOn, ha]
  | cons b l ih =>
    obtain ⟨hb, hl'⟩ := List.pairwise_cons.1 hl
    by_cases hle : key a ≤ key b
    · have hfirst : ∀ c ∈ b :: l, key a ≤ key c := by
        intro c hc
        rcases List.mem_cons.1 hc with rfl | hc
        · exact hle
        · exact Nat.le_trans hle (hb c hc)
      rw [insertOn_of_le hfirst, insertOn_of_le fun c hc => hfirst c (List.mem_filter.1 hc).1,
        List.filter_cons_of_pos ha]
    · rw [insertOn, if_neg hle]
      by_cases hp : p b = true
      · rw [List.filter_cons_of_pos hp, List.filter_cons_of_pos hp, ih hl', insertOn, if_neg hle]
      · rw [List.filter_cons_of_neg hp, List.filter_cons_of_neg hp, ih hl']

theorem sortOn_filter (key : α → Nat) (p : α → Bool) (l : List α) :
    sortOn key (l.filter p) = (sortOn key l).filter p := by
  induction l with
  | nil => rfl
  | cons a l ih =>
    rw [sortOn]
    by_cases hp : p a = true
    · rw [List.filter_cons_of_pos hp, sortOn, ih,
        filter_insertOn_of_pos hp (sortOn_pairwise_le key l)]
    · rw [List.filter_cons_of_neg hp, ih, filter_insertOn_of_neg hp]

end Sorting

/-! ### The order of a batch -/

/-- One edit of a batch comes before another: it starts earlier, or at the same offset and was given
earlier. -/
def Precedes (a b : Edit × Nat) : Prop :=
  a.1.range.start < b.1.range.start ∨ a.1.range.start = b.1.range.start ∧ a.2 < b.2

instance (a b : Edit × Nat) : Decidable (Precedes a b) :=
  inferInstanceAs (Decidable (_ ∨ _))

/-- The edits of a batch with their places, in the order in which they are looked at. -/
structure InOrder (edits : List Edit) (ordered : List (Edit × Nat)) : Prop where
  perm : ordered.Perm edits.zipIdx
  pairwise : ordered.Pairwise Precedes

def startOf (e : Edit × Nat) : Nat := e.1.range.start

theorem zipIdx_pairwise (edits : List Edit) : edits.zipIdx.Pairwise fun a b => a.2 < b.2 := by
  have hplaces := List.pairwise_lt_range' (s := 0) (n := edits.length)
  rw [← List.zipIdx_map_snd 0 edits] at hplaces
  exact List.pairwise_map.1 hplaces

theorem inOrder_sortOn (edits : List Edit) : InOrder edits (sortOn startOf edits.zipIdx) :=
  ⟨sortOn_perm _ _, sortOn_pairwise_of (zipIdx_pairwise edits)⟩

theorem InOrder.eq_sortOn (h : InOrder edits ordered) : ordered = sortOn startOf edits.zipIdx := by
  have hsorted := inOrder_sortOn edits
  apply List.Perm.eq_of_pairwise _ h.pairwise hsorted.pairwise (h.perm.trans hsorted.perm.symm)
  intro a b _ _ hab hba
  unfold Precedes at hab hba
  omega

theorem sortOn_map_fst (l : List (Edit × Nat)) :
    sortOn (·.range.start) (l.map Prod.fst) = (sortOn startOf l).map Prod.fst :=
  sortOn_map (fun _ _ => Iff.rfl) l

theorem InOrder.map_fst (h : InOrder edits ordered) :
    ordered.map Prod.fst = sortOn (·.range.start) edits := by
  rw [h.eq_sortOn, ← sortOn_map_fst, List.zipIdx_map_fst]

/-! ### The greedy selection -/

structure Edit.Fits (cs : List Char) (last : Nat) (e : Edit) : Prop where
  behind : last ≤ e.range.start
  inside : e.range.stop ≤ byteLength cs
  boundary : isBoundary cs e.range.start = true

theorem Edit.usable_iff {e : Edit} : e.usable cs last = true ↔ e.Fits cs last := by
  simp only [usable, Bool.and_eq_true, decide_eq_true_eq]
  constructor
  · rintro ⟨⟨hbehind, hinside⟩, hboundary⟩
    exact ⟨hbehind, hinside, hboundary⟩
  · rintro ⟨hbehind, hinside, hboundary⟩
    exact ⟨⟨hbehind, hinside⟩, hboundary⟩

/-- Every edit that can be used is used, from the left to the right. -/
inductive Greedy (cs : List Char) : Nat → List (Edit × Nat) → List (Edit × Nat) → Prop
  | nil (last : Nat) : Greedy cs last [] []
  | use {last : Nat} {e : Edit × Nat} {es used : List (Edit × Nat)} (hfits : e.1.Fits cs last)
      (hrest : Greedy cs e.1.range.stop es used) : Greedy cs last (e :: es) (e :: used)
  | skip {last : Nat} {e : Edit × Nat} {es used : List (Edit × Nat)} (hfits : ¬ e.1.Fits cs last)
      (hrest : Greedy cs last es used) : Greedy cs last (e :: es) used

namespace Greedy
variable {cs : List Char} {last : Nat} {es used : List (Edit × Nat)}

theorem select_eq (h : Greedy cs last es used) :
    Edit.select cs last (es.map Prod.fst) = used.map Prod.fst := by
  induction h with
  | nil => rfl
  | use hfits _ ih => rw [List.map_cons, Edit.select, if_pos (Edit.usable_iff.2 hfits), ih]; rfl
  | skip hfits _ ih => rw [List.map_cons, Edit.select, if_neg (mt Edit.usable_iff.1 hfits), ih]

theorem exists_used (cs : List Char) (last : Nat) (es : List (Edit × Nat)) :
    ∃ used, Greedy cs last es used := by
  induction es generalizing last with
  | nil => exact ⟨[], .nil last⟩
  | cons e es ih =>
    by_cases hfits : e.1.Fits cs last
    · obtain ⟨used, hused⟩ := ih e.1.range.stop
      exact ⟨e :: used, .use hfits hused⟩
    · obtain ⟨used, hused⟩ := ih last
      exact ⟨used, .skip hfits hused⟩

theorem unique (h : Greedy cs last es used) {other : List (Edit × Nat)}
    (hother : Greedy cs last es other) : other = used := by
  induction h generalizing other with
  | nil =>
    cases hother
    rfl
  | use hfits _ ih =>
    cases hother with
    | use _ hrest => rw [ih hrest]
    | skip hnot => exact absurd hfits hnot
  | skip hnot _ ih =>
    cases hother with
    | use hfits => exact absurd hfits hnot
    | skip _ hrest => exact ih hrest

/-- Edits that are not in use can be left out, each for itself. -/
theorem filter (h : Greedy cs last es used) {keeps : Edit × Nat → Bool}
    (hkeeps : ∀ e ∈ used, keeps e = true) : Greedy cs last (es.filter keeps) used := by
  induction h with
  | nil => exact .nil _
  | use hfits _ ih =>
    rw [List.filter_cons_of_pos (hkeeps _ List.mem_cons_self)]
    exact .use hfits (ih fun e he => hkeeps e (List.mem_cons_of_mem _ he))
  | @skip last e es used hfits _ ih =>
    by_cases hkept : keeps e = true
    · rw [List.filter_cons_of_pos hkept]
      exact .skip hfits (ih hkeeps)
    · rw [List.filter_cons_of_neg hkept]
      exact ih hkeeps

end Greedy

/-! ### The text that comes out -/

theorem Span.slice?_eq_none_iff {a b : Nat} (hle : a ≤ b) (hb : isBoundary cs b = true) :
    Span.slice? ⟨a, b⟩ cs = none ↔ isBoundary cs a = false := by
  rw [← Option.not_isSome_iff_eq_none, isSome_slice?_iff, ← Bool.not_eq_true]
  constructor
  · intro hnot ha
    exact hnot ⟨hle, ha, hb⟩
  · intro ha hwithin
    exact ha hwithin.start_boundary

/-- There is no text just when the first piece or the one behind an edit in use starts inside a
character. -/
theorem Greedy.splice_eq_none_iff {es : List (Edit × Nat)} (h : Greedy cs last es used) :
    Edit.splice cs last (used.map Prod.fst) = none ↔
      isBoundary cs last = false ∨ ∃ e ∈ used, isBoundary cs e.1.range.stop = false := by
  induction h with
  | nil last => simp [Edit.splice, cut?_eq_none_iff]
  | skip _ _ ih => exact ih
  | @use last e es used hfits _ ih =>
    -- The piece in front of the edit ends on a boundary, so only its start can be amiss.
    have hpiece := Span.slice?_eq_none_iff hfits.behind hfits.boundary
    rw [List.map_cons, Edit.splice, Option.bind_eq_none_iff]
    simp only [List.mem_cons, exists_eq_or_imp]
    constructor
    · intro hnone
      cases hslice : Span.slice? ⟨last, e.1.range.start⟩ cs with
      | none => exact Or.inl (hpiece.1 hslice)
      | some piece => exact Or.inr (ih.1 (Option.map_eq_none_iff.1 (hnone piece hslice)))
    · rintro (hlast | hrest) piece hslice
      · rw [hpiece.2 hlast] at hslice
        cases hslice
      · rw [ih.2 hrest]
        rfl

/-- A text is made up of the pieces between edits, from `last` on, and of the replacements. -/
inductive Assembles (cs : List Char) : Nat → List Edit → List Char → Prop
  | rest {last : Nat} {before after : List Char} (htext : cs = before ++ after)
      (hlast : byteLength before = last) : Assembles cs last [] after
  | edit {last : Nat} {before gap after out : List Char} {e : Edit} {es : List Edit}
      (htext : cs = before ++ (gap ++ after)) (hlast : byteLength before = last)
      (hstart : last + byteLength gap = e.range.start)
      (hrest : Assembles cs e.range.stop es out) :
      Assembles cs last (e :: es) (gap ++ e.replacement.toList ++ out)

theorem assembles_of_splice {es : List Edit} {out : List Char}
    (h : Edit.splice cs last es = some out) : Assembles cs last es out := by
  induction es generalizing last out with
  | nil =>
    obtain ⟨⟨before, after⟩, hcut, rfl⟩ := Option.map_eq_some_iff.1 h
    obtain ⟨htext, hlast⟩ := cut?_eq_some_iff.1 hcut
    exact .rest htext hlast
  | cons e es ih =>
    obtain ⟨gap, hgap, hrest⟩ := Option.bind_eq_some_iff.1 h
    obtain ⟨tail, htail, rfl⟩ := Option.map_eq_some_iff.1 hrest
    obtain ⟨before, after, htext, hlast, hstart⟩ := Span.slice?_eq_some_iff.1 hgap
    exact .edit htext hlast hstart (ih htail)

/-! ### Batches -/

/-- The edits of a batch that are in use, with their places in it. -/
def Selected (cs : List Char) (edits : List Edit) (used : List (Edit × Nat)) : Prop :=
  ∃ ordered, InOrder edits ordered ∧ Greedy cs 0 ordered used

theorem applyEdits_map_fst {text : String} {l : List (Edit × Nat)}
    (h : Greedy text.toList 0 (sortOn startOf l) used) :
    applyEdits text (l.map Prod.fst) =
      (Edit.splice text.toList 0 (used.map Prod.fst)).map String.ofList := by
  rw [applyEdits, sortOn_map_fst, h.select_eq]

/-- A batch is worth as much as the greedy selection from it. There is no result just when an edit
in use ends inside a character, and no edit beside those in use matters. -/
theorem applyEdits_greedy (text : String) (edits : List Edit) :
    ∃ used, Selected text.toList edits used ∧
      (∀ other, Selected text.toList edits other → other = used) ∧
      (applyEdits text edits = none ↔
        ∃ e ∈ used, isBoundary text.toList e.1.range.stop = false) ∧
      (∀ out, applyEdits text edits = some out →
        Assembles text.toList 0 (used.map Prod.fst) out.toList) ∧
      ∀ keeps : Edit × Nat → Bool, (∀ e ∈ used, keeps e = true) →
        applyEdits text ((edits.zipIdx.filter keeps).map Prod.fst) = applyEdits text edits := by
  obtain ⟨used, hused⟩ := Greedy.exists_used text.toList 0 (sortOn startOf edits.zipIdx)
  have hresult := applyEdits_map_fst hused
  rw [List.zipIdx_map_fst] at hresult
  refine ⟨used, ⟨_, inOrder_sortOn edits, hused⟩, ?_, ?_, ?_, ?_⟩
  · rintro other ⟨ordered, horder, hother⟩
    rw [horder.eq_sortOn] at hother
    exact hused.unique hother
  · rw [hresult, Option.map_eq_none_iff, hused.splice_eq_none_iff]
    simp [isBoundary_zero]
  · intro out hout
    obtain ⟨cs, hcs, rfl⟩ := Option.map_eq_some_iff.1 (hresult.symm.trans hout)
    rw [String.toList_ofList]
    exact assembles_of_splice hcs
  · intro keeps hkeeps
    have hkept := hused.filter hkeeps
    rw [← sortOn_filter] at hkept
    rw [hresult]
    exact applyEdits_map_fst hkept

-- The second and the third overlap the first, and the reversed range repeats text.
example : applyEdits "abcdef" [⟨⟨5, 3⟩, "Z"⟩, ⟨⟨0, 4⟩, "X"⟩, ⟨⟨2, 3⟩, "Y"⟩, ⟨⟨3, 4⟩, "W"⟩] =
    some "XeZdef" := by decide +kernel

end Revue.Text
