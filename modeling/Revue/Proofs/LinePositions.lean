import Mathlib.Data.List.Induction
import Revue.Proofs.Overwriting
import Revue.Proofs.WrappedText

/-!
# Positions of offsets

A plain scan counts lines and columns byte by byte. The lines that start in the bytes before an
offset are the entries of the line index that do not lie behind it, so the bisection ends behind the
last of them and finds what the scan counts. Each byte moves the scan forward in the lexicographic
order, so that no two offsets have the same position.
-/

namespace Revue.Text
open Source

variable {n start : Nat} {p q : LineCol}

/-! ### A plain scan -/

namespace LineCol

def past (p : LineCol) (b : UInt8) : LineCol :=
  if b = 10 then ⟨p.line + 1, 0⟩ else ⟨p.line, p.col + 1⟩

def Before (p q : LineCol) : Prop := p.line < q.line ∨ p.line = q.line ∧ p.col < q.col

theorem before_past (p : LineCol) (b : UInt8) : p.Before (p.past b) := by
  unfold past
  split
  · exact Or.inl (Nat.lt_succ_self _)
  · exact Or.inr ⟨rfl, Nat.lt_succ_self _⟩

theorem Before.trans {r : LineCol} (h : p.Before q) (h' : q.Before r) : p.Before r := by
  unfold Before at *
  omega

theorem Before.ne (h : p.Before q) : p ≠ q := by
  rintro rfl
  unfold Before at h
  omega

/-- Bytes move the position forward. -/
theorem before_foldl_past (p : LineCol) {bytes : List UInt8} (h : bytes ≠ []) :
    p.Before (bytes.foldl past p) := by
  induction bytes generalizing p with
  | nil => exact absurd rfl h
  | cons b bytes ih =>
    cases bytes with
    | nil => exact before_past p b
    | cons c bytes => exact (before_past p b).trans (ih (p.past b) (by simp))

theorem line_foldl_past (p : LineCol) (bytes : List UInt8) :
    (bytes.foldl past p).line = p.line + bytes.count 10 := by
  induction bytes generalizing p with
  | nil => rfl
  | cons b bytes ih =>
    rw [List.foldl_cons, ih, past]
    by_cases hb : b = 10
    · rw [if_pos hb, hb, List.count_cons_self]
      dsimp only
      omega
    · rw [if_neg hb, List.count_cons_of_ne (by simpa [eq_comm] using hb)]

end LineCol

variable {bytes : List UInt8} {offset : Nat}

def scanned (bytes : List UInt8) : LineCol := bytes.foldl LineCol.past ⟨0, 0⟩

theorem scanned_concat (bytes : List UInt8) (b : UInt8) :
    scanned (bytes ++ [b]) = (scanned bytes).past b := by
  rw [scanned, List.foldl_append]
  rfl

theorem line_scanned (bytes : List UInt8) : (scanned bytes).line = bytes.count 10 := by
  rw [scanned, LineCol.line_foldl_past, Nat.zero_add]

/-- More bytes have a later position. -/
theorem before_scanned_take {a b : Nat} (hab : a < b) (hb : b ≤ bytes.length) :
    (scanned (bytes.take a)).Before (scanned (bytes.take b)) := by
  have htake : bytes.take b = bytes.take a ++ (bytes.drop a).take (b - a) := by
    rw [← List.take_add, Nat.add_sub_cancel' (Nat.le_of_lt hab)]
  rw [htake, scanned, scanned, List.foldl_append]
  refine LineCol.before_foldl_past _ (List.ne_nil_of_length_pos ?_)
  rw [List.length_take, List.length_drop]
  omega

/-- The line of an offset starts at `start`: at the beginning or right behind a line feed, and with
no line feed from there on. -/
structure OpensLine (bytes : List UInt8) (start offset : Nat) : Prop where
  le : start ≤ offset
  opens : start = 0 ∨ bytes[start - 1]? = some 10
  plain : ∀ k, start ≤ k → k < offset → bytes[k]? ≠ some 10

/-- One byte more: a line feed opens a line, and any other byte stays on its line. -/
theorem OpensLine.concat (h : OpensLine bytes start bytes.length) (b : UInt8) :
    OpensLine (bytes ++ [b]) (if b = 10 then bytes.length + 1 else start) (bytes.length + 1) := by
  by_cases hb : b = 10
  · rw [if_pos hb]
    exact ⟨Nat.le_refl _, Or.inr (by simp [hb]), fun k hk hlt => absurd hlt (Nat.not_lt.2 hk)⟩
  · rw [if_neg hb]
    refine ⟨Nat.le_succ_of_le h.le, ?_, fun k hk hlt => ?_⟩
    · refine h.opens.imp_right fun hopens => ?_
      rw [List.getElem?_append_left (List.getElem?_eq_some_iff.1 hopens).1, hopens]
    · rcases Nat.lt_succ_iff_lt_or_eq.1 hlt with hlt | rfl
      · rw [List.getElem?_append_left hlt]
        exact h.plain k hk hlt
      · simpa using hb

theorem opensLine_scanned (bytes : List UInt8) :
    (scanned bytes).col ≤ bytes.length ∧
      OpensLine bytes (bytes.length - (scanned bytes).col) bytes.length := by
  induction bytes using List.reverseRecOn with
  | nil => exact ⟨Nat.le_refl _, Nat.le_refl _, Or.inl rfl, fun k _ hk => absurd hk (by simp)⟩
  | append_singleton bytes b ih =>
    obtain ⟨hle, hopens⟩ := ih
    have hstep := hopens.concat b
    rw [scanned_concat, List.length_append, List.length_singleton, LineCol.past]
    by_cases hb : b = 10
    · rw [if_pos hb] at hstep ⊢
      exact ⟨Nat.zero_le _, hstep⟩
    · rw [if_neg hb] at hstep ⊢
      refine ⟨Nat.succ_le_succ hle, ?_⟩
      rwa [Nat.add_sub_add_right]

theorem OpensLine.of_take (h : OpensLine (bytes.take offset) start offset) :
    OpensLine bytes start offset where
  le := h.le
  opens := h.opens.imp_right fun hopens => by
    rw [← hopens, List.getElem?_take_of_lt]
    have hlt := (List.getElem?_eq_some_iff.1 hopens).1
    rw [List.length_take] at hlt
    omega
  plain k hk hlt := by
    rw [← List.getElem?_take_of_lt hlt]
    exact h.plain k hk hlt

/-- The line of a scan starts where its column counts from. -/
theorem opensLine_scanned_take (h : offset ≤ bytes.length) :
    (scanned (bytes.take offset)).col ≤ offset ∧
      OpensLine bytes (offset - (scanned (bytes.take offset)).col) offset := by
  obtain ⟨hcol, hopens⟩ := opensLine_scanned (bytes.take offset)
  rw [List.length_take, Nat.min_eq_left h] at hcol hopens
  exact ⟨hcol, hopens.of_take⟩

/-! ### Line starts -/

def feedOffsets (at_ : Nat) : List UInt8 → List Nat
  | [] => []
  | b :: bytes =>
    if b = 10 then (at_ + 1) :: feedOffsets (at_ + 1) bytes else feedOffsets (at_ + 1) bytes

theorem feedOffsets_append (at_ : Nat) (a b : List UInt8) :
    feedOffsets at_ (a ++ b) = feedOffsets at_ a ++ feedOffsets (at_ + a.length) b := by
  induction a generalizing at_ with
  | nil => rfl
  | cons x a ih =>
    have hlength : at_ + (x :: a).length = at_ + 1 + a.length := by
      rw [List.length_cons]
      omega
    rw [List.cons_append, feedOffsets, feedOffsets, ih, hlength]
    split <;> rfl

theorem feedOffsets_of_notMem (h : (10 : UInt8) ∉ bytes) (at_ : Nat) :
    feedOffsets at_ bytes = [] := by
  induction bytes generalizing at_ with
  | nil => rfl
  | cons b bytes ih =>
    obtain ⟨hb, hbytes⟩ : b ≠ 10 ∧ (10 : UInt8) ∉ bytes := by simpa [eq_comm] using h
    rw [feedOffsets, if_neg hb, ih hbytes]

theorem mem_feedOffsets {at_ : Nat} (h : n ∈ feedOffsets at_ bytes) :
    at_ < n ∧ n ≤ at_ + bytes.length := by
  induction bytes generalizing at_ with
  | nil => cases h
  | cons b bytes ih =>
    rw [List.length_cons]
    rw [feedOffsets] at h
    split at h
    · rcases List.mem_cons.1 h with rfl | h
      · omega
      · have := ih h
        omega
    · have := ih h
      omega

theorem pairwise_feedOffsets (at_ : Nat) (bytes : List UInt8) :
    (feedOffsets at_ bytes).Pairwise (· < ·) := by
  induction bytes generalizing at_ with
  | nil => exact .nil
  | cons b bytes ih =>
    rw [feedOffsets]
    split
    · exact .cons (fun n hn => (mem_feedOffsets hn).1) (ih _)
    · exact ih _

theorem feedsFrom_eq_feedOffsets (at_ : Nat) (cs : List Char) :
    feedsFrom at_ cs = feedOffsets at_ (bytesOf cs) := by
  induction cs generalizing at_ with
  | nil => rfl
  | cons c cs ih =>
    rw [feedsFrom, bytesOf_cons]
    by_cases hc : c = '\n'
    · rw [if_pos hc, hc, ih]
      rfl
    · rw [if_neg hc, feedOffsets_append, feedOffsets_of_notMem (feed_notMem_utf8EncodeChar hc),
        String.length_utf8EncodeChar, ih]
      rfl

def lineStarts (bytes : List UInt8) : List Nat := 0 :: feedOffsets 0 bytes

theorem starts_ofText (cs : List Char) :
    (LineIndex.ofText cs).starts = (lineStarts (bytesOf cs)).toArray := by
  rw [LineIndex.ofText, feedsFrom_eq_feedOffsets]
  rfl

theorem le_of_mem_lineStarts (h : n ∈ lineStarts bytes) : n ≤ bytes.length := by
  rcases List.mem_cons.1 h with rfl | h
  · exact Nat.zero_le _
  · exact Nat.zero_add bytes.length ▸ (mem_feedOffsets h).2

theorem pairwise_lineStarts (bytes : List UInt8) : (lineStarts bytes).Pairwise (· < ·) :=
  .cons (fun _ hn => (mem_feedOffsets hn).1) (pairwise_feedOffsets 0 bytes)

/-- The line of the scan is the last one that has started, and the column counts from there. -/
theorem lineStarts_scanned (bytes : List UInt8) :
    ∃ before, lineStarts bytes = before ++ [bytes.length - (scanned bytes).col] ∧
      before.length = (scanned bytes).line := by
  induction bytes using List.reverseRecOn with
  | nil => exact ⟨[], rfl, rfl⟩
  | append_singleton bytes b ih =>
    obtain ⟨before, hstarts, hlength⟩ := ih
    have hconcat : lineStarts (bytes ++ [b]) =
        lineStarts bytes ++ if b = 10 then [bytes.length + 1] else [] := by
      rw [lineStarts, feedOffsets_append, Nat.zero_add]
      rfl
    rw [hconcat, scanned_concat, List.length_append, List.length_singleton, LineCol.past]
    by_cases hb : b = 10
    · rw [if_pos hb, if_pos hb]
      exact ⟨lineStarts bytes, rfl, by rw [hstarts, List.length_append, hlength]; rfl⟩
    · rw [if_neg hb, if_neg hb, List.append_nil]
      exact ⟨before, by rw [hstarts, Nat.add_sub_add_right], hlength⟩

/-! ### Bisection -/

/-- If the entries up to the `n`-th, and no others, do not lie behind an offset, then the bisection
ends there. -/
theorem LineIndex.bisect_eq {starts : Array Nat} {lo hi : Nat}
    (hlow : ∀ i < n, starts.getD i 0 ≤ offset)
    (hhigh : ∀ i, n ≤ i → i < starts.size → offset < starts.getD i 0) (hlo : lo ≤ n) (hn : n ≤ hi)
    (hhi : hi ≤ starts.size) : bisect starts offset lo hi = n := by
  fun_induction bisect starts offset lo hi with
  | case1 lo hi hlt mid hle ih =>
    refine ih (Nat.lt_of_not_le fun hmid => ?_) hn hhi
    have := hhigh mid hmid (by omega)
    omega
  | case2 lo hi hlt mid hle ih =>
    exact ih hlo (Nat.le_of_not_lt fun hmid => hle (hlow mid hmid)) (by omega)
  | case3 lo hi hlt => omega

/-- The lines that start in the bytes before an offset are those that do not start behind it. -/
theorem lineStarts_split (h : offset ≤ bytes.length) :
    ∃ behind, lineStarts bytes = lineStarts (bytes.take offset) ++ behind ∧
      (∀ n ∈ lineStarts (bytes.take offset), n ≤ offset) ∧ ∀ n ∈ behind, offset < n := by
  have hlength : (bytes.take offset).length = offset := by rw [List.length_take, Nat.min_eq_left h]
  refine ⟨feedOffsets offset (bytes.drop offset), ?_, fun n hn => ?_,
    fun n hn => (mem_feedOffsets hn).1⟩
  · have happend := feedOffsets_append 0 (bytes.take offset) (bytes.drop offset)
    rw [List.take_append_drop, hlength, Nat.zero_add] at happend
    rw [lineStarts, happend]
    rfl
  · exact hlength ▸ le_of_mem_lineStarts hn

/-- The bisection ends behind the lines that start in the bytes before the offset. -/
theorem bisect_lineStarts (h : offset ≤ bytes.length) :
    LineIndex.bisect (lineStarts bytes).toArray offset 0 (lineStarts bytes).toArray.size =
      (lineStarts (bytes.take offset)).length := by
  obtain ⟨behind, hsplit, hlow, hhigh⟩ := lineStarts_split h
  rw [hsplit]
  refine LineIndex.bisect_eq (fun i hi => hlow _ ?_) (fun i hi hsize => hhigh _ ?_) (Nat.zero_le _)
    (by simp) (Nat.le_refl _)
  · rw [Array.getD_eq_getD_getElem?, List.getElem?_toArray, List.getElem?_append_left hi,
      List.getElem?_eq_getElem hi]
    exact List.getElem_mem hi
  · rw [List.size_toArray, List.length_append] at hsize
    have hlt : i - (lineStarts (bytes.take offset)).length < behind.length := by omega
    rw [Array.getD_eq_getD_getElem?, List.getElem?_toArray, List.getElem?_append_right hi,
      List.getElem?_eq_getElem hlt]
    exact List.getElem_mem hlt

/-- The entry for the line of the scan is where that line starts. -/
theorem getElem?_lineStarts (h : offset ≤ bytes.length) :
    (lineStarts bytes)[(scanned (bytes.take offset)).line]? =
      some (offset - (scanned (bytes.take offset)).col) := by
  obtain ⟨behind, hsplit, -⟩ := lineStarts_split h
  obtain ⟨before, hstarts, hlines⟩ := lineStarts_scanned (bytes.take offset)
  rw [List.length_take, Nat.min_eq_left h] at hstarts
  rw [hsplit, hstarts, ← hlines]
  simp

/-- The bisection finds the position that a plain scan counts. -/
theorem lineCol?_ofText (cs : List Char) (offset : Nat) :
    (LineIndex.ofText cs).lineCol? offset =
      if offset ≤ byteLength cs then some (scanned ((bytesOf cs).take offset)) else none := by
  rw [LineIndex.lineCol?, starts_ofText, show (LineIndex.ofText cs).length = byteLength cs from rfl]
  split
  · rename_i hle
    rw [← length_bytesOf] at hle
    obtain ⟨before, hstarts, hlines⟩ := lineStarts_scanned ((bytesOf cs).take offset)
    dsimp only
    rw [bisect_lineStarts hle, hstarts, List.length_append, List.length_singleton,
      Nat.add_sub_cancel, hlines, Array.getD_eq_getD_getElem?, List.getElem?_toArray,
      getElem?_lineStarts hle, Option.getD_some,
      Nat.sub_sub_self (opensLine_scanned_take hle).1]
  · rfl

theorem lineCol?_eq_some_iff {cs : List Char} :
    (LineIndex.ofText cs).lineCol? offset = some p ↔
      offset ≤ (bytesOf cs).length ∧ p = scanned ((bytesOf cs).take offset) := by
  rw [lineCol?_ofText, length_bytesOf, Option.ite_none_right_eq_some, Option.some.injEq, eq_comm]

/-- An offset has a position exactly if it is not past the end. The line is the number of line feeds
before the offset, and the column counts the bytes from where the line starts, which is an entry of
the index. Positions are distinct and go up with the offsets. In a text below the bound of offsets
all of them are below that bound, too. -/
theorem lineCol?_eq_scanned (text : String) :
    let index := LineIndex.ofText text.toList
    let bytes := text.toByteArray.data.toList
    index.starts.toList.Pairwise (· < ·) ∧
    (∀ offset, index.lineCol? offset = none ↔ text.utf8ByteSize < offset) ∧
    (∀ offset p, index.lineCol? offset = some p →
      p = scanned (bytes.take offset) ∧ p.line = (bytes.take offset).count 10 ∧
        ∃ start, OpensLine bytes start offset ∧ p.col = offset - start ∧
          index.starts[p.line]? = some start ∧ start + p.col = offset) ∧
    (∀ a b p q, index.lineCol? a = some p → index.lineCol? b = some q →
      (p = q → a = b) ∧ (a < b → p.Before q)) ∧
    (text.utf8ByteSize < Span.offsetBound →
      (∀ start ∈ index.starts, start < Span.offsetBound) ∧
        ∀ offset p, index.lineCol? offset = some p →
          p.line < Span.offsetBound ∧ p.col < Span.offsetBound) := by
  have hbytes : text.toByteArray.data.toList = bytesOf text.toList := toByteArray_toList text
  have hsize : text.utf8ByteSize = (bytesOf text.toList).length := by
    rw [length_bytesOf, byteLength_toList]
  simp only [lineCol?_eq_some_iff, hbytes, hsize, starts_ofText]
  refine ⟨pairwise_lineStarts _, fun offset => ?_, ?_, ?_,
    fun hbound => ⟨fun start hstart => ?_, ?_⟩⟩
  · rw [lineCol?_ofText, length_bytesOf, ite_eq_right_iff]
    simp
  · rintro offset p ⟨hle, rfl⟩
    obtain ⟨hcol, hopens⟩ := opensLine_scanned_take hle
    refine ⟨rfl, line_scanned _, _, hopens, (Nat.sub_sub_self hcol).symm, ?_,
      Nat.sub_add_cancel hcol⟩
    rw [List.getElem?_toArray, getElem?_lineStarts hle]
  · rintro a b p q ⟨ha, rfl⟩ ⟨hb, rfl⟩
    refine ⟨fun heq => ?_, fun hlt => before_scanned_take hlt hb⟩
    rcases Nat.lt_trichotomy a b with hlt | rfl | hlt
    · exact absurd heq (before_scanned_take hlt hb).ne
    · rfl
    · exact absurd heq.symm (before_scanned_take hlt ha).ne
  · exact Nat.lt_of_le_of_lt (le_of_mem_lineStarts (by simpa using hstart)) hbound
  · rintro offset p ⟨hle, rfl⟩
    have hline : (scanned ((bytesOf text.toList).take offset)).line ≤ offset := by
      rw [line_scanned]
      exact Nat.le_trans List.count_le_length (List.length_take_le _ _)
    have hcol := (opensLine_scanned_take hle).1
    omega

/-- An empty line, an offset inside of a character, and the line behind the last line feed. -/
theorem lineCol?_eq_scanned_emptyLine :
    let text := "a\n\né\n"
    let index := LineIndex.ofText text.toList
    let bytes := text.toByteArray.data.toList
    index.lineCol? 4 = some ⟨2, 1⟩ ∧ index.lineCol? 6 = some ⟨3, 0⟩ ∧ index.lineCol? 7 = none ∧
      (∃ start, OpensLine bytes start 4 ∧ index.starts[2]? = some start ∧ start + 1 = 4) ∧
      LineCol.Before ⟨2, 1⟩ ⟨3, 0⟩ ∧ ∀ start ∈ index.starts, start < Span.offsetBound := by
  intro text index bytes
  obtain ⟨-, hnone, hsome, hpair, hbound⟩ := lineCol?_eq_scanned text
  have hinside : index.lineCol? 4 = some ⟨2, 1⟩ := by
    rw [lineCol?_ofText]
    decide +kernel
  have hend : index.lineCol? 6 = some ⟨3, 0⟩ := by
    rw [lineCol?_ofText]
    decide +kernel
  obtain ⟨-, -, start, hopens, -, hentry, hback⟩ := hsome 4 _ hinside
  exact ⟨hinside, hend, (hnone 7).2 (by decide), ⟨start, hopens, hentry, hback⟩,
    (hpair 4 6 _ _ hinside hend).2 (by decide), (hbound (by decide)).1⟩

end Revue.Text
