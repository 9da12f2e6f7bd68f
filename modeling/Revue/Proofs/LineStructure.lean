import Revue.Proofs.ByteErasure
import Revue.Proofs.FieldAssignments

/-!
# The lines of a text made ready to be read

Making a text ready keeps its lines apart: a byte-order mark goes from the first line, the carriage
return of its ending from every line that has one, and pairs of colons from within lines. Erasing
annotations, where it is asked for, overwrites bytes in place. No step adds or removes a line feed,
so the line with a given number is always what is left of the raw line with that number.
-/

namespace Revue.Source
open Text

variable {n : Nat} {cs cs' line : List Char}

/-! ### Line endings and byte-order marks -/

def dropReturns (lines : List (List Char)) : List (List Char) :=
  lines.mapIdx fun n line => if n + 1 = lines.length then line else dropReturn line

theorem dropReturns_cons (line : List Char) {lines : List (List Char)} (h : lines ≠ []) :
    dropReturns (line :: lines) = dropReturn line :: dropReturns lines := by
  have hlength : lines.length ≠ 0 := mt List.length_eq_zero_iff.1 h
  simp [dropReturns, List.mapIdx_cons, Ne.symm hlength]

theorem dropReturn_cons (c d : Char) (line : List Char) :
    dropReturn (c :: d :: line) = c :: dropReturn (d :: line) := by
  unfold dropReturn
  rw [List.getLast?_cons_cons]
  split <;> rfl

theorem unifyFeeds_line (h : '\n' ∉ line) (cs : List Char) :
    unifyFeeds (line ++ '\n' :: cs) = dropReturn line ++ '\n' :: unifyFeeds cs := by
  induction line with
  | nil => rfl
  | cons c line ih =>
    obtain ⟨-, hline⟩ : c ≠ '\n' ∧ '\n' ∉ line := by simpa [eq_comm] using h
    have hrest := ih hline
    cases line with
    | nil =>
      by_cases hc : c = '\r'
      · subst hc
        rfl
      · have hkeep : dropReturn [c] = [c] := by simp [dropReturn, hc]
        rw [hkeep]
        simp [unifyFeeds, hc]
    | cons d line =>
      have hd : d ≠ '\n' := fun hd => hline (hd ▸ List.mem_cons_self)
      have hstep : unifyFeeds (c :: (d :: line ++ '\n' :: cs)) =
          c :: unifyFeeds (d :: line ++ '\n' :: cs) := by
        simp [unifyFeeds, hd]
      rw [List.cons_append, hstep, hrest, dropReturn_cons, List.cons_append]

theorem notMem_dropReturn (h : '\n' ∉ line) : '\n' ∉ dropReturn line := by
  unfold dropReturn
  split
  · exact fun hmem => h ((List.dropLast_subset line) hmem)
  · exact h

theorem splitFeeds_unifyFeeds (cs : List Char) :
    splitFeeds (unifyFeeds cs) = dropReturns (splitFeeds cs) := by
  induction cs using line_induction with
  | last line hfeed =>
    have hplain : unifyFeeds line = line := unifyFeeds_eq fun hpair =>
      hfeed (hpair.subset (List.mem_cons_of_mem _ List.mem_cons_self))
    rw [hplain, splitFeeds_last hfeed]
    rfl
  | feed line cs hfeed ih =>
    rw [unifyFeeds_line hfeed, splitFeeds_line (notMem_dropReturn hfeed), splitFeeds_line hfeed,
      dropReturns_cons line (splitFeeds_ne_nil cs), ih]

theorem dropMark_line (line cs : List Char) :
    dropMark (line ++ '\n' :: cs) = dropMark line ++ '\n' :: cs := by
  cases line with
  | nil => rfl
  | cons c line =>
    by_cases hc : c = '\ufeff'
    · subst hc
      rfl
    · rw [List.cons_append, dropMark_eq (by simpa using hc), dropMark_eq (by simpa using hc)]
      rfl

theorem notMem_dropMark (h : '\n' ∉ line) : '\n' ∉ dropMark line := by
  unfold dropMark
  split
  · exact fun hmem => h (List.mem_cons_of_mem _ hmem)
  · exact h

theorem splitFeeds_dropMark (cs : List Char) :
    splitFeeds (dropMark cs) = (splitFeeds cs).modifyHead dropMark := by
  induction cs using line_induction with
  | last line hfeed => rw [splitFeeds_last hfeed, splitFeeds_last (notMem_dropMark hfeed)]; rfl
  | feed line cs hfeed _ =>
    rw [dropMark_line, splitFeeds_line hfeed, splitFeeds_line (notMem_dropMark hfeed)]
    rfl

/-- A raw line without the byte-order mark of the text and the carriage return of its ending. -/
def bareLine (isFirst isLast : Bool) (line : List Char) : List Char :=
  let unmarked := if isFirst then dropMark line else line
  if isLast then unmarked else dropReturn unmarked

/-- The raw lines, numbered, without byte-order mark and carriage returns. -/
theorem getElem?_bareLines (cs : List Char) (n : Nat) :
    (splitFeeds (unifyFeeds (dropMark cs)))[n]? =
      (splitFeeds cs)[n]?.map (bareLine (n == 0) (n + 1 == (splitFeeds cs).length)) := by
  rw [splitFeeds_unifyFeeds, splitFeeds_dropMark, dropReturns, List.getElem?_mapIdx,
    List.length_modifyHead, List.getElem?_modifyHead]
  cases n with
  | zero =>
    cases (splitFeeds cs)[0]? with
    | none => rfl
    | some line => simp [bareLine]
  | succ n =>
    cases (splitFeeds cs)[n + 1]? with
    | none => rfl
    | some line => simp [bareLine]

/-! ### Pairs taken out of lines -/

theorem splitFeeds_pairsOut (h : PairsOut ':' cs cs') :
    List.Forall₂ (PairsOut ':') (splitFeeds cs) (splitFeeds cs') := by
  induction h with
  | nil => exact .cons .nil .nil
  | @drop l l' _ ih =>
    have hfront : splitFeeds (':' :: ':' :: l) = inFront [':', ':'] (splitFeeds l) :=
      splitFeeds_of_notMem (a := [':', ':']) (by decide) l
    have hsame : splitFeeds l' = inFront [] (splitFeeds l') :=
      splitFeeds_of_notMem (a := []) List.not_mem_nil l'
    rw [hfront, hsame]
    exact forall₂_inFront ih (.drop .nil) fun hline => .drop hline
  | @keep l l' b _ ih =>
    by_cases hb : b = '\n'
    · subst hb
      exact .cons .nil ih
    · have hfront : ∀ cs, splitFeeds (b :: cs) = inFront [b] (splitFeeds cs) := fun cs =>
        splitFeeds_of_notMem (a := [b]) (by simpa [eq_comm] using hb) cs
      rw [hfront, hfront]
      exact forall₂_inFront ih (.keep b .nil) fun hline => .keep b hline

theorem pairsOut_removeBinds (cs : List Char) : PairsOut ':' cs (removeBinds cs) := by
  have hpairs := (dropBinds_unbound [] (marked cs)).pairsOut.flatMap (fun p => [p.1]) rfl
  have hchars : ∀ m : Marked, (m.flatMap fun p => [p.1]) = m.chars := fun m =>
    List.map_eq_flatMap.symm
  rw [hchars, hchars, chars_marked] at hpairs
  exact hpairs

theorem count_feed (cs : List Char) : cs.count '\n' + 1 = (splitFeeds cs).length := by
  induction cs using line_induction with
  | last line hfeed => rw [splitFeeds_last hfeed, List.count_eq_zero.2 hfeed]; rfl
  | feed line cs hfeed ih =>
    rw [splitFeeds_line hfeed, List.length_cons, ← ih, List.count_append, List.count_cons_self,
      List.count_eq_zero.2 hfeed, Nat.zero_add]

/-! ### Bytes overwritten -/

/-- A byte that stays, or gives way to a space; a line feed does not. -/
def Spaced (b b' : UInt8) : Prop := b' = b ∨ b ≠ 10 ∧ b' = 32

theorem spaced_overwriteBytes {bytes : List UInt8} {marks : List Bool}
    (h : marks.length = bytes.length) : List.Forall₂ Spaced bytes (overwriteBytes bytes marks) := by
  induction bytes generalizing marks with
  | nil => exact .nil
  | cons b bytes ih =>
    cases marks with
    | nil => cases h
    | cons mark marks =>
      refine .cons ?_ (ih (by simpa using h))
      by_cases hmark : (mark && b != 10) = true
      · rw [spelledByte, if_pos hmark]
        exact Or.inr ⟨by simpa using (Bool.and_eq_true_iff.1 hmark).2, rfl⟩
      · rw [spelledByte, if_neg hmark]
        exact Or.inl rfl

theorem Overwrites.spaced (h : Overwrites cs cs') :
    List.Forall₂ Spaced (bytesOf cs) (bytesOf cs') := by
  obtain ⟨marks, hlength, rfl⟩ := h
  rw [bytesOf_overwrite hlength]
  exact spaced_overwriteBytes (by rw [length_bytewise hlength, length_bytesOf])

theorem exists_getElem?_of_forall₂ {α β : Type} {R : α → β → Prop} {l : List α} {l' : List β}
    (h : List.Forall₂ R l l') {a : α} (hn : l[n]? = some a) :
    ∃ b, l'[n]? = some b ∧ R a b := by
  induction h generalizing n with
  | nil => cases hn
  | @cons a' b l l' hfirst _ ih =>
    cases n with
    | zero =>
      obtain rfl : a' = a := by simpa using hn
      exact ⟨b, rfl, hfirst⟩
    | succ n => exact ih (by simpa using hn)

/-! ### Lines of the result -/

theorem toList_clean (text : String) :
    (clean text).toList = removeBinds (unifyFeeds (dropMark text.toList)) := by
  rw [clean, String.toList_ofList]

theorem length_splitFeeds_clean (text : String) :
    (splitFeeds (clean text).toList).length = (splitFeeds text.toList).length := by
  rw [toList_clean, ← (splitFeeds_pairsOut (pairsOut_removeBinds _)).length_eq,
    splitFeeds_unifyFeeds, splitFeeds_dropMark, dropReturns, List.length_mapIdx,
    List.length_modifyHead]

theorem exists_line_clean {text : String} (h : (splitFeeds text.toList)[n]? = some line) :
    ∃ bound, (splitFeeds (clean text).toList)[n]? = some bound ∧
      PairsOut ':' (bareLine (n == 0) (n + 1 == (splitFeeds text.toList).length) line) bound := by
  have hbare := getElem?_bareLines text.toList n
  rw [h, Option.map_some] at hbare
  rw [toList_clean]
  exact exists_getElem?_of_forall₂ (splitFeeds_pairsOut (pairsOut_removeBinds _)) hbare

theorem splitFeeds_eraseFlow (text : String) :
    List.Forall₂ Overwrites (splitFeeds text.toList) (splitFeeds (eraseFlow text).toList) := by
  rw [toList_eraseFlow]
  exact splitFeeds_overwrite (length_erasedMarks _)

theorem overwrites_eraseFlow (text : String) : Overwrites text.toList (eraseFlow text).toList :=
  ⟨_, length_erasedMarks _, toList_eraseFlow text⟩

/-- Making a text ready keeps its line feeds, and each line of the result is the raw line with its
number, less the byte-order mark, the carriage return of its ending and pairs of colons, and with
bytes overwritten where annotations are erased. Erasing annotations keeps the length of a text in
bytes and every line and column; each byte stays or gives way to a space, and the bytes that are
overwritten in place are UTF-8. -/
theorem preprocess_keepsLines (text : String) (flow : Bool) :
    ((preprocess text flow).toList.count '\n' = text.toList.count '\n' ∧
      ∀ n line, (splitFeeds text.toList)[n]? = some line →
        ∃ bound line', (splitFeeds (preprocess text flow).toList)[n]? = some line' ∧
          PairsOut ':' (bareLine (n == 0) (n + 1 == (splitFeeds text.toList).length) line) bound ∧
          (flow = false → line' = bound) ∧ List.Forall₂ Spaced (bytesOf bound) (bytesOf line')) ∧
    (eraseFlow text).utf8ByteSize = text.utf8ByteSize ∧
    List.Forall₂ Spaced text.toByteArray.data.toList (eraseFlow text).toByteArray.data.toList ∧
    String.fromUTF8? ⟨(erasedBytes text).toArray⟩ = some (eraseFlow text) ∧
    ∀ offset, (LineIndex.ofText (eraseFlow text).toList).lineCol? offset =
      (LineIndex.ofText text.toList).lineCol? offset := by
  refine ⟨⟨?_, ?_⟩, ?_, ?_, fromUTF8?_erasedBytes text, ?_⟩
  · have hlength : (splitFeeds (preprocess text flow).toList).length =
        (splitFeeds text.toList).length := by
      cases flow with
      | false => exact length_splitFeeds_clean text
      | true =>
        have herase := (splitFeeds_eraseFlow (clean text)).length_eq
        exact herase.symm.trans (length_splitFeeds_clean text)
    rw [← count_feed, ← count_feed] at hlength
    exact Nat.succ.inj hlength
  · intro n line hline
    obtain ⟨bound, hbound, hpairs⟩ := exists_line_clean hline
    cases flow with
    | false =>
      exact ⟨bound, bound, hbound, hpairs, fun _ => rfl, List.forall₂_same.2 fun _ _ => Or.inl rfl⟩
    | true =>
      obtain ⟨line', hline', hover⟩ :=
        exists_getElem?_of_forall₂ (splitFeeds_eraseFlow (clean text)) hbound
      exact ⟨bound, line', hline', hpairs, fun hflow => absurd hflow (by decide), hover.spaced⟩
  · rw [← byteLength_toList, ← byteLength_toList, toList_eraseFlow,
      byteLength_overwrite (length_erasedMarks _)]
  · rw [toByteArray_toList, toByteArray_toList]
    exact (overwrites_eraseFlow text).spaced
  · intro offset
    rw [toList_eraseFlow, ofText_overwrite (length_erasedMarks _)]

/-- A byte-order mark, a carriage return and a bind operator go; a maybe mark is overwritten. -/
theorem preprocess_keepsLines_sample :
    let text := "\ufefff(::a);\r\nlet b: ?T;"
    preprocess text true = "f(a);\nlet b:  T;" ∧
      (preprocess text true).toList.count '\n' = text.toList.count '\n' ∧
      String.fromUTF8? ⟨(erasedBytes text).toArray⟩ = some (eraseFlow text) ∧
      ∃ bound line', (splitFeeds (preprocess text true).toList)[1]? = some line' ∧
        PairsOut ':' (bareLine false true "let b: ?T;".toList) bound ∧
        List.Forall₂ Spaced (bytesOf bound) (bytesOf line') := by
  intro text
  obtain ⟨⟨hcount, hlines⟩, -, -, hbytes, -⟩ := preprocess_keepsLines text true
  obtain ⟨bound, line', hline', hpairs, -, hspaced⟩ :=
    hlines 1 "let b: ?T;".toList (by decide +kernel)
  have hlast : (1 + 1 == (splitFeeds text.toList).length) = true := by decide +kernel
  rw [hlast] at hpairs
  exact ⟨by decide +kernel, hcount, hbytes, bound, line', hline', hpairs, hspaced⟩

end Revue.Source
