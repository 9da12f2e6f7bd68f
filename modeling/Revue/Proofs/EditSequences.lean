import Revue.Proofs.GreedyEdits

/-!
# Edits one at a time

Edits one behind the other can be applied in a batch or one at a time. From the last to the first,
each leaves the text in front of it as it was, so that the offsets of the next one still count. It
does not matter how a batch is shuffled, as long as edits that start at one offset stay in their
order.
-/

namespace Revue.Text

/-- Applies edits one at a time, the last one first. -/
def applyBackwards (text : String) : List Edit → Option String
  | [] => some text
  | e :: es => (applyBackwards text es).bind fun edited => applyEdits edited [e]

/-- One edit keeps the text in front of its range and behind it. -/
theorem applyEdits_singleton {text : String} {a b c d : List Char} {e : Edit}
    (htext : text.toList = a ++ b) (hstart : byteLength a = e.range.start)
    (htext' : text.toList = c ++ d) (hstop : byteLength c = e.range.stop) :
    applyEdits text [e] = some (String.ofList (a ++ e.replacement.toList ++ d)) := by
  have haligned : e.range.Aligned text.toList :=
    ⟨isBoundary_iff.2 ⟨a, b, htext, hstart⟩, isBoundary_iff.2 ⟨c, d, htext', hstop⟩⟩
  have hselect : Edit.select text.toList 0 [e] = [e] :=
    Edit.select_eq_self (by simpa using haligned) (List.pairwise_singleton _ _) (by simp)
  have hfront : Span.slice? ⟨0, e.range.start⟩ text.toList = some a :=
    Span.slice?_zero htext hstart
  have hback : cut? e.range.stop text.toList = some (c, d) := cut?_eq_some_iff.2 ⟨htext', hstop⟩
  have hsorted : sortOn (·.range.start) [e] = [e] := rfl
  rw [applyEdits, hsorted, hselect]
  simp [Edit.splice, hfront, hback]

section Sequence
variable {text : String} {es : List Edit}

/-- One at a time, edits make of a text what they make of it together. -/
theorem applyBackwards_eq_splice (haligned : ∀ e ∈ es, e.range.Aligned text.toList)
    (hsorted : es.Pairwise fun a b => a.range.start ≤ b.range.start)
    (hapart : es.Pairwise fun a b => a.range.stop ≤ b.range.start) :
    ∃ out, Edit.splice text.toList 0 es = some out ∧
      applyBackwards text es = some (String.ofList out) := by
  -- What the later edits have made of the text begins with all that stands in front of them.
  induction es with
  | nil =>
    refine ⟨text.toList, by simp [Edit.splice, cut?], ?_⟩
    rw [applyBackwards, String.ofList_toList]
  | cons e es ih =>
    obtain ⟨hstarts, hsorted'⟩ := List.pairwise_cons.1 hsorted
    obtain ⟨hstops, hapart'⟩ := List.pairwise_cons.1 hapart
    obtain ⟨edited, hsplice, hbackwards⟩ :=
      ih (fun f hf => haligned f (List.mem_cons_of_mem e hf)) hsorted' hapart'
    have he := haligned e List.mem_cons_self
    obtain ⟨a, b, hab, hstart⟩ := isBoundary_iff.1 he.start_boundary
    obtain ⟨c, d, hcd, hstop⟩ := isBoundary_iff.1 he.stop_boundary
    have hfront : Span.slice? ⟨0, e.range.start⟩ text.toList = some a :=
      Span.slice?_zero hab hstart
    have hback : Span.slice? ⟨0, e.range.stop⟩ text.toList = some c :=
      Span.slice?_zero hcd hstop
    obtain ⟨_, -, hstart_kept⟩ :=
      Option.map_eq_some_iff.1 ((Edit.splice_of_le hfront hstarts).symm.trans hsplice)
    obtain ⟨rest, hrest, hstop_kept⟩ :=
      Option.map_eq_some_iff.1 ((Edit.splice_of_le hback hstops).symm.trans hsplice)
    have hedited : (String.ofList edited).toList = edited := String.toList_ofList
    refine ⟨a ++ e.replacement.toList ++ rest, by simp [Edit.splice, hfront, hrest], ?_⟩
    rw [applyBackwards, hbackwards, Option.bind_some]
    exact applyEdits_singleton (hedited.trans hstart_kept.symm) hstart
      (hedited.trans hstop_kept.symm) hstop

end Sequence

/-! ### Batches -/

theorem InOrder.sorted {edits : List Edit} {ordered : List (Edit × Nat)}
    (h : InOrder edits ordered) :
    (ordered.map Prod.fst).Pairwise fun a b => a.range.start ≤ b.range.start := by
  apply List.pairwise_map.2
  apply h.pairwise.imp
  intro a b hab
  unfold Precedes at hab
  omega

/-- A batch in which ties stay in their order is sorted in the same way. -/
theorem inOrder_of_ties {edits : List Edit} {shuffled : List (Edit × Nat)}
    (hperm : shuffled.Perm edits.zipIdx)
    (hties : shuffled.Pairwise fun a b => a.1.range.start = b.1.range.start → a.2 < b.2) :
    InOrder edits (sortOn startOf shuffled) := by
  refine ⟨(sortOn_perm _ _).trans hperm, ?_⟩
  apply (sortOn_pairwise_of hties).imp
  rintro a b (hlt | ⟨heq, htie⟩)
  · exact Or.inl hlt
  · exact Or.inr ⟨heq, htie heq⟩

/-- Edits that are one behind the other in the order of a batch can be applied one at a time, from
the last to the first, and a batch can be shuffled in any way that keeps the order of ties. -/
theorem applyEdits_one_at_a_time {text : String} {edits : List Edit}
    {ordered : List (Edit × Nat)} (horder : InOrder edits ordered)
    (haligned : ∀ e ∈ edits, e.range.Aligned text.toList)
    (hapart : ordered.Pairwise fun a b => a.1.range.stop ≤ b.1.range.start) :
    (∃ out, applyEdits text edits = some out ∧
      applyBackwards text (ordered.map Prod.fst) = some out) ∧
    ∀ shuffled : List (Edit × Nat), shuffled.Perm edits.zipIdx →
      (shuffled.Pairwise fun a b => a.1.range.start = b.1.range.start → a.2 < b.2) →
      applyEdits text (shuffled.map Prod.fst) = applyEdits text edits := by
  constructor
  · have haligned' : ∀ e ∈ ordered.map Prod.fst, e.range.Aligned text.toList := by
      intro e he
      rw [horder.map_fst] at he
      exact haligned e ((sortOn_perm _ _).mem_iff.1 he)
    have hapart' : (ordered.map Prod.fst).Pairwise fun a b => a.range.stop ≤ b.range.start :=
      List.pairwise_map.2 hapart
    have hselect := Edit.select_eq_self haligned' hapart' fun _ _ => Nat.zero_le _
    obtain ⟨out, hsplice, hbackwards⟩ :=
      applyBackwards_eq_splice haligned' horder.sorted hapart'
    refine ⟨String.ofList out, ?_, hbackwards⟩
    rw [applyEdits, ← horder.map_fst, hselect, hsplice]
    rfl
  · intro shuffled hperm hties
    rw [applyEdits, applyEdits, sortOn_map_fst, (inOrder_of_ties hperm hties).map_fst]

def mixedEdits : List Edit :=
  [⟨⟨5, 4⟩, "R"⟩, ⟨⟨3, 4⟩, "Y"⟩, ⟨⟨1, 1⟩, "i"⟩, ⟨⟨1, 1⟩, "j"⟩, ⟨⟨1, 3⟩, "X"⟩]

def mixedOrder : List (Edit × Nat) :=
  [(⟨⟨1, 1⟩, "i"⟩, 2), (⟨⟨1, 1⟩, "j"⟩, 3), (⟨⟨1, 3⟩, "X"⟩, 4), (⟨⟨3, 4⟩, "Y"⟩, 1),
    (⟨⟨5, 4⟩, "R"⟩, 0)]

def mixedShuffle : List (Edit × Nat) :=
  [(⟨⟨1, 1⟩, "i"⟩, 2), (⟨⟨3, 4⟩, "Y"⟩, 1), (⟨⟨1, 1⟩, "j"⟩, 3), (⟨⟨5, 4⟩, "R"⟩, 0),
    (⟨⟨1, 3⟩, "X"⟩, 4)]

theorem applyEdits_one_at_a_time_mixedEdits :
    InOrder mixedEdits mixedOrder ∧ (∀ e ∈ mixedEdits, e.range.Aligned "aébc".toList) ∧
      (mixedOrder.Pairwise fun a b => a.1.range.stop ≤ b.1.range.start) ∧
      applyEdits "aébc" mixedEdits = some "aijXYcRc" ∧
      applyBackwards "aébc" (mixedOrder.map Prod.fst) = some "aijXYcRc" ∧
      applyEdits "aébc" (mixedShuffle.map Prod.fst) = some "aijXYcRc" := by
  have horder : InOrder mixedEdits mixedOrder := ⟨by decide +kernel, by decide +kernel⟩
  have haligned : ∀ e ∈ mixedEdits, e.range.Aligned "aébc".toList := by decide +kernel
  have hapart : mixedOrder.Pairwise fun a b => a.1.range.stop ≤ b.1.range.start := by
    decide +kernel
  have hbatch : applyEdits "aébc" mixedEdits = some "aijXYcRc" := by decide +kernel
  obtain ⟨⟨out, hout, hbackwards⟩, hshuffle⟩ :=
    applyEdits_one_at_a_time horder haligned hapart
  refine ⟨horder, haligned, hapart, hbatch, ?_, ?_⟩
  · rw [hbackwards, ← hout, hbatch]
  · rw [hshuffle mixedShuffle (by decide +kernel) (by decide +kernel), hbatch]

end Revue.Text
