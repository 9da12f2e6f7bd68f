import Revue.Proofs.AsciiBytes

/-!
# Erasing annotations in a buffer of bytes

The pass that erases annotations can also be run over the bytes of a text: a copy of them is
overwritten in place, pragma lines first, and the rest while the source is read from left to right.
All that this loop looks for are characters of ASCII, and a byte of any other character is none of
those. So the loop keeps in step with the pass over characters, and what it leaves in the buffer are
the bytes of the overwritten text; they are UTF-8 whatever the text is.
-/

namespace Revue.Source
open Text

variable {n : Nat} {c : Char} {α : Type} {m : Marked} {r : Region} {pragmas : List Bool}
  {rest : List Char} {prev : Option Char}

/-! ### Ranges of a buffer -/

def blankRange (start stop : Nat) (buffer : List UInt8) : List UInt8 :=
  buffer.mapIdx fun i b => spelledByte b (decide (start ≤ i ∧ i < stop))

def markRange (start stop : Nat) (marks : List Bool) : List Bool :=
  marks.mapIdx fun i mark => mark || decide (start ≤ i ∧ i < stop)

theorem spelledByte_spelledByte (b : UInt8) (mark mark' : Bool) :
    spelledByte (spelledByte b mark) mark' = spelledByte b (mark || mark') := by
  cases mark <;> cases mark' <;> by_cases hb : b = 10 <;> simp [spelledByte, hb]

theorem blankRange_overwriteBytes (start stop : Nat) (bytes : List UInt8) (marks : List Bool) :
    blankRange start stop (overwriteBytes bytes marks) =
      overwriteBytes bytes (markRange start stop marks) := by
  apply List.ext_getElem
  · simp [blankRange, markRange, overwriteBytes]
  · intro i _ _
    simp [blankRange, markRange, overwriteBytes, spelledByte_spelledByte]

theorem markRange_append (a b : List Bool) (start stop : Nat) :
    markRange (a.length + start) (a.length + stop) (a ++ b) = a ++ markRange start stop b := by
  apply List.ext_getElem
  · simp [markRange]
  · intro i _ _
    by_cases hi : i < a.length
    · simp only [markRange, List.getElem_mapIdx, List.getElem_append_left hi]
      simp
      omega
    · have hle : a.length ≤ i := Nat.not_lt.1 hi
      simp only [markRange, List.getElem_mapIdx, List.getElem_append_right hle]
      congr 2
      rw [eq_iff_iff]
      omega

theorem markRange_self (start : Nat) (marks : List Bool) : markRange start start marks = marks := by
  apply List.ext_getElem
  · simp [markRange]
  · intro i _ _
    have hempty : ¬ (start ≤ i ∧ i < start) := by omega
    simp [markRange, hempty]

theorem markRange_replicate (k stop : Nat) (mark : Bool) (b : List Bool) :
    markRange 0 (k + stop) (List.replicate k mark ++ b) =
      List.replicate k true ++ markRange 0 stop b := by
  apply List.ext_getElem
  · simp [markRange]
  · intro i hi _
    by_cases hk : i < k
    · simp [markRange, hk]
      omega
    · simp [markRange, List.getElem_append, hk]
      congr 2
      grind

@[simp] theorem mergeDue_nil_left (bs : List Bool) : mergeDue [] bs = bs := by
  cases bs <;> rfl

@[simp] theorem mergeDue_nil_right (as : List Bool) : mergeDue as [] = as := by
  cases as <;> rfl

theorem mergeDue_cons_right (as : List Bool) (b : Bool) (bs : List Bool) :
    mergeDue as (b :: bs) = (as.headD false || b) :: mergeDue as.tail bs := by
  cases as with
  | nil => simp
  | cons a as => rfl

theorem length_mergeDue (as bs : List Bool) :
    (mergeDue as bs).length = max as.length bs.length := by
  fun_induction mergeDue as bs with
  | case1 bs => simp
  | case2 as => simp
  | case3 a as b bs ih => simp [ih]

theorem mergeDue_comm (as bs : List Bool) : mergeDue as bs = mergeDue bs as := by
  fun_induction mergeDue as bs with
  | case1 bs => cases bs <;> rfl
  | case2 as => simp
  | case3 a as b bs ih => rw [mergeDue, ih, Bool.or_comm]

theorem mergeDue_assoc (as bs cs : List Bool) :
    mergeDue (mergeDue as bs) cs = mergeDue as (mergeDue bs cs) := by
  induction as generalizing bs cs with
  | nil => simp
  | cons a as ih =>
    cases bs with
    | nil => simp [mergeDue]
    | cons b bs =>
      cases cs with
      | nil => rfl
      | cons c cs => simp [mergeDue, ih, Bool.or_assoc]

theorem markRange_bytewise {cs : List Char} {marks : List Bool} (h : marks.length = cs.length)
    (skip n : Nat) :
    markRange (byteLength (cs.take skip)) (byteLength (cs.take (skip + n))) (bytewise cs marks) =
      bytewise cs (mergeDue (List.replicate skip false ++ List.replicate n true) marks) := by
  induction cs generalizing marks skip n with
  | nil => rfl
  | cons c cs ih =>
    cases marks with
    | nil => cases h
    | cons mark marks =>
      have hrest : marks.length = cs.length := by simpa using h
      cases skip with
      | succ skip =>
        have happend := markRange_append (List.replicate c.utf8Size mark) (bytewise cs marks)
          (byteLength (cs.take skip)) (byteLength (cs.take (skip + n)))
        rw [List.length_replicate, ih hrest] at happend
        rw [Nat.add_right_comm, List.take_succ_cons, List.take_succ_cons, byteLength, byteLength,
          bytewise_cons, happend]
        rfl
      | zero =>
        cases n with
        | zero =>
          rw [markRange_self]
          rfl
        | succ n =>
          have hzero := ih hrest 0 n
          simp only [Nat.zero_add, List.take_zero, byteLength] at hzero
          simp only [Nat.zero_add, List.take_zero, List.take_succ_cons, byteLength,
            bytewise_cons, markRange_replicate, hzero]
          rfl

theorem Erasure.due_keep : Erasure.keep.due = [] := rfl

/-! ### The loop -/

def startsLine (before : List Char) : Bool :=
  (before.reverse.takeWhile (· != '\n')).all isAsciiBlank

def erasureIn (source : List (UInt8 × Region)) (at_ : Nat) (buffer : List UInt8) : Erasure :=
  match source.drop at_ with
  | [] => .keep
  | (b, region) :: rest =>
    let before := source.take at_
    if region = .code then
      erasureAt (lastCode? ((asChars (buffer.take at_)).zip (before.map (·.2))))
        (startsLine (asChars (before.map (·.1)))) (asChar b) (asChars (rest.map (·.1)))
    else .keep

/-- Reads a source from an offset on and overwrites ranges of the buffer as it goes. -/
def eraseRanges (source : List (UInt8 × Region)) (at_ : Nat) (buffer : List UInt8) : List UInt8 :=
  if at_ < source.length then
    match erasureIn source at_ buffer with
    | .keep => eraseRanges source (at_ + 1) buffer
    | .mark skip n =>
      eraseRanges source (at_ + 1) (blankRange (at_ + skip) (at_ + skip + n) buffer)
    | .statement n => eraseRanges source (at_ + 1 + (n - 1)) (blankRange at_ (at_ + n) buffer)
  else buffer
termination_by source.length - at_

def blankPragmas (at_ : Nat) : List (List Char) → List UInt8 → List UInt8
  | [], buffer => buffer
  | line :: lines, buffer =>
    let stop := at_ + byteLength line
    blankPragmas (stop + 1) lines (if isPragmaLine line then blankRange at_ stop buffer else buffer)

def erasedBytes (text : String) : List UInt8 :=
  eraseRanges (markedBytes text) 0
    (blankPragmas 0 (splitFeeds text.toList) text.toByteArray.data.toList)

/-! ### Marked texts in bytes -/

/-- The bytes of a marked text, each with the region of its character. -/
def Marked.bytes (m : Marked) : List (UInt8 × Region) :=
  m.flatMap fun (c, r) => (String.utf8EncodeChar c).map (·, r)

namespace Marked

@[simp] theorem bytes_append (m m' : Marked) : bytes (m ++ m') = bytes m ++ bytes m' :=
  List.flatMap_append

theorem bytes_cons (c : Char) (r : Region) (m : Marked) :
    bytes ((c, r) :: m) = (String.utf8EncodeChar c).map (·, r) ++ bytes m := rfl

theorem map_fst_bytes (m : Marked) : m.bytes.map (·.1) = bytesOf m.chars := by
  induction m with
  | nil => rfl
  | cons p m ih =>
    rw [bytes_cons p.1 p.2 m, List.map_append, ih, List.map_map]
    simp [Function.comp_def]

theorem length_bytes (m : Marked) : m.bytes.length = byteLength m.chars := by
  rw [← List.length_map (·.1), map_fst_bytes, length_bytesOf]

end Marked

theorem bytewise_append {a b : List Char} {ms ns : List α} (h : a.length = ms.length) :
    bytewise (a ++ b) (ms ++ ns) = bytewise a ms ++ bytewise b ns := by
  rw [bytewise, List.zip_append h, List.flatMap_append]
  rfl

theorem bytewise_replicate (cs : List Char) (mark : α) :
    bytewise cs (List.replicate cs.length mark) = List.replicate (byteLength cs) mark := by
  induction cs with
  | nil => rfl
  | cons c cs ih =>
    rw [List.length_cons, List.replicate_succ, bytewise_cons, ih, byteLength,
      List.replicate_append_replicate]

/-! ### What the loop remembers -/

theorem isAsciiBlank_eq_false (h : 128 ≤ c.toNat) : isAsciiBlank c = false := by
  have hne : ∀ a : Char, a.toNat < 128 → c ≠ a := fun a ha => ne_of_le_of_lt h ha
  simp [isAsciiBlank, hne]

theorem startsLine_append (before : List Char) (c : Char) :
    startsLine (before ++ [c]) = (c == '\n' || (startsLine before && isAsciiBlank c)) := by
  unfold startsLine
  rw [List.reverse_append, List.reverse_singleton, List.singleton_append, List.takeWhile_cons]
  by_cases hc : c = '\n'
  · simp [hc]
  · simp [hc, Bool.and_comm]

theorem startsLine_asChars (before : List Char) (c : Char) :
    startsLine (before ++ asChars (String.utf8EncodeChar c)) =
      (c == '\n' || (startsLine before && isAsciiBlank c)) := by
  by_cases hc : c.toNat < 128
  · rw [asChars_of_lt hc, startsLine_append]
  · have hle := Nat.not_lt.1 hc
    obtain ⟨hne, hhigh⟩ := asChars_of_le hle
    have hfeed : ∀ d : Char, 128 ≤ d.toNat → (d == '\n') = false := fun d hd =>
      beq_false_of_ne (ne_of_le_of_lt hd (by decide))
    rw [← List.dropLast_concat_getLast hne, ← List.append_assoc, startsLine_append]
    have hlast := hhigh _ (List.getLast_mem hne)
    rw [hfeed _ hlast, isAsciiBlank_eq_false hlast, hfeed c hle, isAsciiBlank_eq_false hle,
      Bool.and_false, Bool.and_false]

theorem lastCode?_append_of_forall {m' : Marked}
    (h : ∀ p ∈ m', (p.2 == .code && !isAsciiBlank p.1) = false) :
    lastCode? (m ++ m') = lastCode? m := by
  have hnone : m'.filter (fun p => p.2 == .code && !isAsciiBlank p.1) = [] :=
    List.filter_eq_nil_iff.2 fun p hp => by simp [h p hp]
  unfold lastCode?
  rw [List.filter_append, hnone, List.append_nil]

/-- The last byte of code that is left, read as a character, is like the last character. -/
theorem alike_lastCode? (h : Alike prev (lastCode? m)) (c : Char) (r : Region) (mark : Bool) :
    Alike (if mark then prev else noteCode prev c r)
      (lastCode?
        (m ++ (String.utf8EncodeChar c).map fun b => (asChar (spelledByte b mark), r))) := by
  cases mark with
  | true =>
    rw [if_pos rfl, lastCode?_append_of_forall]
    · exact h
    · intro p hp
      obtain ⟨b, -, rfl⟩ := List.mem_map.1 hp
      have hblank : isAsciiBlank (asChar (spelledByte b true)) = true := by
        by_cases hb : b = 10
        · subst hb
          decide
        · have hspace : spelledByte b true = 32 := by simp [spelledByte, hb]
          rw [hspace]
          decide
      simp [hblank]
  | false =>
    have hplain : ∀ b : UInt8, spelledByte b false = b := fun b => rfl
    simp only [Bool.false_eq_true, if_false, hplain]
    by_cases hr : r = .code
    · subst hr
      by_cases hc : c.toNat < 128
      · rw [utf8EncodeChar_of_lt hc, List.map_singleton, asChar_ofNat hc, lastCode?_append]
        unfold noteCode
        split
        · exact .refl _
        · exact h
      · have hle := Nat.not_lt.1 hc
        obtain ⟨hne, hhigh⟩ := asChars_of_le hle
        have hlast := hhigh _ (List.getLast_mem hne)
        have hbytes : (String.utf8EncodeChar c).map (fun b => (asChar b, Region.code)) =
            (asChars (String.utf8EncodeChar c)).map (·, .code) := by
          rw [asChars, List.map_map]
          rfl
        rw [hbytes, ← List.dropLast_concat_getLast hne, List.map_append, ← List.append_assoc,
          List.map_singleton, lastCode?_append]
        simp only [noteCode, isAsciiBlank_eq_false hlast, isAsciiBlank_eq_false hle]
        exact .of_le hle hlast
    · rw [lastCode?_append_of_forall]
      · simpa [noteCode, hr] using h
      · intro p hp
        obtain ⟨b, -, rfl⟩ := List.mem_map.1 hp
        simp [hr]

/-! ### What is still to be overwritten -/

/-- All that can be overwritten at a character of code. -/
theorem erasureAt_cases (prev : Option Char) (lineStart : Bool) (c : Char) (rest : List Char) :
    (c = '\x7b' ∧ ['|'] <+: rest ∧ erasureAt prev lineStart c rest = .mark 1 1) ∨
    (c = '%' ∧ "checks".toList <+: rest ∧ erasureAt prev lineStart c rest = .mark 0 7) ∨
    (c ∈ ['|', '?', '+', '-'] ∧ erasureAt prev lineStart c rest = .mark 0 1) ∨
    (lineStart = true ∧ "import typeof ".toList <+: c :: rest ∧
      erasureAt prev lineStart c rest = .statement (statementLength (c :: rest))) ∨
    erasureAt prev lineStart c rest = .keep := by
  unfold erasureAt
  generalize "checks".toList = checks
  generalize "import typeof ".toList = keyword
  split_ifs with hopen hclose hchecks hmaybe hvariance himport
  · obtain ⟨rest', rfl⟩ := List.head?_eq_some_iff.1 hopen.2
    exact Or.inl ⟨hopen.1, ⟨rest', rfl⟩, rfl⟩
  · exact Or.inr (Or.inr (Or.inl ⟨by simp [hclose.1], rfl⟩))
  · exact Or.inr (Or.inl ⟨hchecks.1, List.isPrefixOf_iff_prefix.1 hchecks.2, rfl⟩)
  · exact Or.inr (Or.inr (Or.inl ⟨by simp [hmaybe.1], rfl⟩))
  · refine Or.inr (Or.inr (Or.inl ⟨?_, rfl⟩))
    rcases hvariance.1 with rfl | rfl <;> simp
  · exact Or.inr (Or.inr (Or.inr (Or.inl
      ⟨himport.1, List.isPrefixOf_iff_prefix.1 himport.2, rfl⟩)))
  · exact Or.inr (Or.inr (Or.inr (Or.inr rfl)))

def DueFits (due : List Bool) (rest : List Char) : Prop :=
  ∃ w, w <+: rest ∧ w.length = due.length ∧ (w = ['|'] ∨ w <:+ "checks".toList)

namespace DueFits
variable {due : List Bool} {c : Char} {rest : List Char}

theorem nil (rest : List Char) : DueFits [] rest :=
  ⟨[], List.nil_prefix, rfl, Or.inr List.nil_suffix⟩

theorem length_le (h : DueFits due rest) : due.length ≤ rest.length := by
  obtain ⟨w, hprefix, hlength, -⟩ := h
  exact hlength ▸ hprefix.length_le

theorem tail (h : DueFits due (c :: rest)) : DueFits due.tail rest := by
  obtain ⟨w, hprefix, hlength, hw⟩ := h
  cases w with
  | nil =>
    have hdue : due = [] := List.length_eq_zero_iff.1 hlength.symm
    rw [hdue]
    exact nil rest
  | cons a w =>
    refine ⟨w, (List.cons_prefix_cons.1 hprefix).2, by simp [← hlength], Or.inr ?_⟩
    rcases hw with hbar | hchecks
    · obtain ⟨-, rfl⟩ := List.cons.inj hbar
      exact List.nil_suffix
    · exact (List.suffix_cons a w).trans hchecks

/-- Nothing is due at any other character. -/
theorem eq_nil (h : DueFits due (c :: rest)) (hc : c ∉ "|checks".toList) : due = [] := by
  obtain ⟨w, hprefix, hlength, hw⟩ := h
  cases w with
  | nil => exact List.length_eq_zero_iff.1 hlength.symm
  | cons a w =>
    obtain ⟨rfl, -⟩ := List.cons_prefix_cons.1 hprefix
    refine absurd ?_ hc
    rcases hw with hbar | hchecks
    · obtain ⟨rfl, -⟩ := List.cons.inj hbar
      decide
    · exact List.mem_cons_of_mem '|' (hchecks.subset List.mem_cons_self)

/-- What becomes due at a character of code fits what stands there. -/
theorem merge (h : DueFits due (c :: rest)) (prev : Option Char) (lineStart : Bool) :
    DueFits (mergeDue due (erasureAt prev lineStart c rest).due).tail rest := by
  obtain ⟨rfl, hbar, heq⟩ | ⟨rfl, hchecks, heq⟩ | ⟨hc, heq⟩ | ⟨-, -, heq⟩ | heq :=
    erasureAt_cases prev lineStart c rest
  · rw [heq, h.eq_nil (by decide)]
    exact ⟨['|'], hbar, rfl, Or.inl rfl⟩
  · rw [heq, h.eq_nil (by decide)]
    exact ⟨"checks".toList, hchecks, rfl, Or.inr List.suffix_rfl⟩
  · have htail : (mergeDue due (Erasure.mark 0 1).due).tail = due.tail := by
      cases due with
      | nil => rfl
      | cons d due => cases due <;> rfl
    rw [heq, htail]
    exact h.tail
  · rw [heq, mergeDue_comm]
    exact h.tail
  · rw [heq, mergeDue_comm]
    exact h.tail

end DueFits

theorem byteLength_of_all {w : List Char} (h : w.all (·.toNat < 128) = true) :
    byteLength w = w.length := by
  induction w with
  | nil => rfl
  | cons c w ih =>
    obtain ⟨hc, hw⟩ : c.toNat < 128 ∧ w.all (·.toNat < 128) = true := by simpa using h
    have hsize : c.utf8Size = 1 := by
      rw [← String.length_utf8EncodeChar, utf8EncodeChar_of_lt hc, List.length_singleton]
    rw [byteLength, hsize, ih hw, List.length_cons, Nat.add_comm]

/-- Characters that are marked one by one are of ASCII. -/
theorem byteLength_take_of_mark {lineStart : Bool} {skip : Nat}
    (h : erasureAt prev lineStart c rest = .mark skip n) :
    byteLength ((c :: rest).take skip) = skip ∧
      byteLength ((c :: rest).take (skip + n)) = skip + n := by
  have hwords : ∀ w : List Char, w.all (·.toNat < 128) = true → w <+: c :: rest →
      ∀ k ≤ w.length, byteLength ((c :: rest).take k) = k := by
    rintro w hw ⟨t, ht⟩ k hk
    rw [← ht, List.take_append_of_le_length hk, byteLength_of_all, List.length_take,
      Nat.min_eq_left hk]
    exact List.all_eq_true.2 fun a ha => List.all_eq_true.1 hw a (List.mem_of_mem_take ha)
  obtain ⟨rfl, hbar, heq⟩ | ⟨rfl, hchecks, heq⟩ | ⟨hc, heq⟩ | ⟨-, -, heq⟩ | heq :=
    erasureAt_cases prev lineStart c rest
  · obtain ⟨rfl, rfl⟩ := Erasure.mark.inj (h.symm.trans heq)
    have hshort := hwords ['\x7b', '|'] (by decide) (List.cons_prefix_cons.2 ⟨rfl, hbar⟩)
    exact ⟨hshort 1 (by decide), hshort 2 (by decide)⟩
  · obtain ⟨rfl, rfl⟩ := Erasure.mark.inj (h.symm.trans heq)
    have hshort := hwords ('%' :: "checks".toList) (by decide)
      (List.cons_prefix_cons.2 ⟨rfl, hchecks⟩)
    exact ⟨hshort 0 (by decide), hshort 7 (by decide)⟩
  · obtain ⟨rfl, rfl⟩ := Erasure.mark.inj (h.symm.trans heq)
    have hascii : c.toNat < 128 := by
      simp only [List.mem_cons, List.not_mem_nil, or_false] at hc
      rcases hc with rfl | rfl | rfl | rfl <;> decide
    have hshort := hwords [c] (by simpa using hascii)
      (List.cons_prefix_cons.2 ⟨rfl, List.nil_prefix⟩)
    exact ⟨hshort 0 (Nat.zero_le _), hshort 1 (by simp)⟩
  · exact absurd (h.symm.trans heq) (by simp)
  · exact absurd (h.symm.trans heq) (by simp)

theorem statementLength_pos (h : "import typeof ".toList <+: c :: rest) :
    c = 'i' ∧ 0 < statementLength (c :: rest) := by
  obtain ⟨w, hw⟩ : ∃ w, "import typeof ".toList = 'i' :: w := ⟨_, rfl⟩
  rw [hw] at h
  obtain ⟨rfl, -⟩ := List.cons_prefix_cons.1 h
  refine ⟨rfl, ?_⟩
  simp only [statementLength, List.takeWhile_cons]
  simp
  split <;> omega

/-- A statement that is overwritten as a whole is an import, in code, at the start of its line. -/
theorem Eraser.erasure_statement {e : Eraser} (h : e.erasure c rest r = .statement n) :
    r = .code ∧ e.lineStart = true ∧ "import typeof ".toList <+: c :: rest ∧
      n = statementLength (c :: rest) := by
  unfold Eraser.erasure at h
  split at h
  · rename_i hr
    obtain ⟨-, -, heq⟩ | ⟨-, -, heq⟩ | ⟨-, heq⟩ | ⟨hstart, himport, heq⟩ | heq :=
      erasureAt_cases e.prev e.lineStart c rest
    · cases h.symm.trans heq
    · cases h.symm.trans heq
    · cases h.symm.trans heq
    · exact ⟨hr, hstart, himport, Erasure.statement.inj (h.symm.trans heq)⟩
    · cases h.symm.trans heq
  · cases h

/-! ### The loop in step with the pass -/

def leftCode? (done : Marked) (left : List Bool) : Option Char :=
  lastCode? ((asChars (overwriteBytes (bytesOf done.chars) (bytewise done.chars left))).zip
    (done.bytes.map (·.2)))

theorem leftCode?_append {done : Marked} {left : List Bool} (h : left.length = done.length)
    (c : Char) (r : Region) (mark : Bool) :
    leftCode? (done ++ [(c, r)]) (left ++ [mark]) =
      lastCode? ((asChars (overwriteBytes (bytesOf done.chars) (bytewise done.chars left))).zip
          (done.bytes.map (·.2)) ++
        (String.utf8EncodeChar c).map fun b => (asChar (spelledByte b mark), r)) := by
  have hchars : done.chars.length = left.length := by simp [Marked.chars, h]
  have hlength : (bytesOf done.chars).length = (bytewise done.chars left).length := by
    rw [length_bytesOf, length_bytewise hchars.symm]
  have hbytes : bytewise [c] [mark] = List.replicate (String.utf8EncodeChar c).length mark := by
    rw [String.length_utf8EncodeChar]
    simp
  have hregions : (Marked.bytes [(c, r)]).map (·.2) =
      (String.utf8EncodeChar c).map fun _ => r := by
    rw [Marked.bytes_cons, List.map_append, List.map_map]
    exact List.append_nil _
  rw [leftCode?, Marked.chars_append, bytesOf_append, bytewise_append hchars,
    overwriteBytes_append hlength, asChars_append, Marked.bytes_append, List.map_append,
    List.zip_append (by
      simp [asChars, overwriteBytes, hlength, Marked.length_bytes, length_bytewise hchars.symm])]
  congr 2
  show (asChars (overwriteBytes (String.utf8EncodeChar c ++ []) (bytewise [c] [mark]))).zip _ = _
  rw [List.append_nil, hbytes, overwriteBytes_replicate, asChars, List.map_map, hregions]
  exact List.zip_map'

/-- The pass over characters stands behind `done`, of which it overwrote what `left` marks, and the
loop over bytes has come as far. -/
structure InStep (e : Eraser) (done : Marked) (left : List Bool) (rest : List Char) : Prop where
  length : left.length = done.length
  prev : Alike e.prev (leftCode? done left)
  lineStart : e.lineStart = startsLine (asChars (bytesOf done.chars))
  due : DueFits e.due rest
  skip : 0 < e.skip → e.due = []

theorem InStep.init (cs : List Char) : InStep {} [] [] cs where
  length := rfl
  prev := .refl _
  lineStart := rfl
  due := .nil cs
  skip := fun _ => rfl

section Step
variable {e : Eraser} {done : Marked} {left : List Bool} {c : Char} {rest : List Char}

theorem InStep.step (h : InStep e done left (c :: rest)) (r : Region) (pragma : Bool) :
    InStep (e.step c rest r pragma).2 (done ++ [(c, r)])
      (left ++ [(e.step c rest r pragma).1]) rest := by
  have hlineStart : e.lineStartBehind c =
      startsLine (asChars (bytesOf (Marked.chars (done ++ [(c, r)])))) := by
    rw [Marked.chars_append, bytesOf_append, asChars_append, Eraser.lineStartBehind, h.lineStart,
      ← startsLine_asChars, Marked.chars_cons, Marked.chars_nil, bytesOf_cons, bytesOf_nil,
      List.append_nil]
  have hlength : ∀ mark : Bool, (left ++ [mark]).length = (done ++ [(c, r)]).length := by
    intro mark
    rw [List.length_append, List.length_append, h.length]
    rfl
  have hprev : ∀ mark : Bool, Alike (if mark then e.prev else noteCode e.prev c r)
      (leftCode? (done ++ [(c, r)]) (left ++ [mark])) := by
    intro mark
    rw [leftCode?_append h.length]
    exact alike_lastCode? h.prev c r mark
  obtain ⟨-, hstep⟩ | ⟨-, n, -, hstep⟩ | ⟨-, -, due, mark, rfl, -, hstep⟩ :=
    e.step_cases c rest r pragma
  · rw [hstep]
    exact ⟨hlength true, hprev true, hlineStart, .nil rest, fun _ => rfl⟩
  · rw [hstep]
    exact ⟨hlength true, hprev true, hlineStart, .nil rest, fun _ => rfl⟩
  · rw [hstep]
    refine ⟨hlength mark, hprev mark, hlineStart, ?_, fun hskip => absurd hskip (Nat.lt_irrefl 0)⟩
    show DueFits (mergeDue e.due (e.erasure c rest r).due).tail rest
    by_cases hr : r = .code
    · rw [Eraser.erasure, if_pos hr]
      exact h.due.merge e.prev e.lineStart
    · rw [Eraser.erasure, if_neg hr, mergeDue_comm]
      exact h.due.tail

def Eraser.pending (e : Eraser) (pragmas : List Bool) : List Bool :=
  mergeDue (List.replicate e.skip true) (mergeDue e.due pragmas)

theorem eraseRanges_of_forall (a b c : List (UInt8 × Region)) (buffer : List UInt8)
    (h : ∀ p ∈ b, p.2 ≠ .code ∨ 128 ≤ p.1.toNat) :
    eraseRanges (a ++ (b ++ c)) a.length buffer =
      eraseRanges (a ++ (b ++ c)) (a.length + b.length) buffer := by
  induction b generalizing a with
  | nil => rfl
  | cons p b ih =>
    obtain ⟨hp, hb⟩ := List.forall_mem_cons.1 h
    have hkeep : erasureIn (a ++ (p :: b ++ c)) a.length buffer = .keep := by
      rw [erasureIn, List.drop_left]
      dsimp only [List.cons_append]
      split
      · rcases hp with hregion | hhigh
        · contradiction
        · exact erasureAt_of_le (by rw [toNat_asChar]; exact hhigh) _ _ _
      · rfl
    have hnext := ih (a ++ [p]) hb
    rw [List.length_append, List.length_singleton, List.append_assoc,
      List.singleton_append] at hnext
    rw [eraseRanges, if_pos (by simp), hkeep]
    dsimp only
    rw [List.cons_append, hnext, List.length_cons, Nat.add_assoc, Nat.add_comm 1]

end Step

def bufferAt (done : Marked) (left : List Bool) (rest : Marked) (ahead : List Bool) : List UInt8 :=
  overwriteBytes (bytesOf (Marked.chars (done ++ rest)))
    (bytewise done.chars left ++ bytewise rest.chars ahead)

section Buffer
variable {e : Eraser} {done : Marked} {left : List Bool} {rest : Marked} {ahead : List Bool}

section
variable (h : left.length = done.length)
include h

theorem take_bufferAt :
    (bufferAt done left rest ahead).take (byteLength done.chars) =
      overwriteBytes (bytesOf done.chars) (bytewise done.chars left) := by
  have hlength : (bytewise done.chars left).length = byteLength done.chars :=
    length_bytewise (by simpa [Marked.chars] using h)
  rw [bufferAt, Marked.chars_append, bytesOf_append,
    overwriteBytes_append (by rw [length_bytesOf, hlength])]
  exact List.take_left' (by simp [overwriteBytes, length_bytesOf, hlength])

theorem blankRange_bufferAt (rest : Marked) (ahead : List Bool)
    (hahead : ahead.length = rest.length) (skip n : Nat) :
    blankRange (byteLength done.chars + byteLength (rest.chars.take skip))
        (byteLength done.chars + byteLength (rest.chars.take (skip + n)))
        (bufferAt done left rest ahead) =
      bufferAt done left rest
        (mergeDue (List.replicate skip false ++ List.replicate n true) ahead) := by
  have hlength : (bytewise done.chars left).length = byteLength done.chars :=
    length_bytewise (by simpa [Marked.chars] using h)
  rw [bufferAt, blankRange_overwriteBytes, ← hlength, markRange_append,
    markRange_bytewise (by simpa [Marked.chars] using hahead), bufferAt]

theorem bufferAt_cons (p : Char × Region) (mark : Bool) :
    bufferAt done left (p :: rest) (mark :: ahead) =
      bufferAt (done ++ [p]) (left ++ [mark]) rest ahead := by
  have hchars : done.chars.length = left.length := by simp [Marked.chars, h]
  rw [bufferAt, bufferAt, Marked.chars_append done [p], bytewise_append hchars, List.append_assoc,
    List.append_assoc, List.singleton_append]
  simp

end

/-- At a character of ASCII the loop finds what the pass finds. -/
theorem erasureIn_bufferAt (h : InStep e done left (c :: rest.chars)) (hc : c.toNat < 128)
    (r : Region) :
    erasureIn (Marked.bytes (done ++ (c, r) :: rest)) (byteLength done.chars)
        (bufferAt done left ((c, r) :: rest) ahead) =
      (e.erasure c rest.chars r).inBytes (c :: rest.chars) := by
  rw [erasureIn, take_bufferAt h.length, Marked.bytes_append, ← Marked.length_bytes,
    List.drop_left, List.take_left, Marked.bytes_cons, utf8EncodeChar_of_lt hc,
    List.map_singleton, List.singleton_append]
  dsimp only
  rw [Marked.map_fst_bytes, Marked.map_fst_bytes, ← h.lineStart, asChar_ofNat hc]
  by_cases hr : r = .code
  · rw [if_pos hr, Eraser.erasure, if_pos hr]
    exact erasureAt_asChars h.prev e.lineStart hc rest.chars
  · rw [if_neg hr, Eraser.erasure, if_neg hr]
    rfl

theorem utf8Size_of_lt (h : c.toNat < 128) : c.utf8Size = 1 := by
  rw [← String.length_utf8EncodeChar, utf8EncodeChar_of_lt h, List.length_singleton]

theorem byteLength_lt_length_bytes (done : Marked) (c : Char) (r : Region) (rest : Marked) :
    byteLength done.chars < (Marked.bytes (done ++ (c, r) :: rest)).length := by
  have hpos := c.utf8Size_pos
  rw [Marked.length_bytes, Marked.chars_append, byteLength_append, Marked.chars_cons, byteLength]
  dsimp only
  omega

section
variable (h : InStep e done left (c :: rest.chars))
include h

theorem Eraser.length_pending (pragma : Bool) (hlength : pragmas.length = rest.length) :
    (mergeDue e.due (pragma :: pragmas)).length = ((c, Region.code) :: rest).length := by
  have hle := h.due.length_le
  have hchars : rest.chars.length = rest.length := by simp [Marked.chars]
  rw [length_mergeDue, List.length_cons, List.length_cons, hlength]
  rw [List.length_cons, hchars] at hle
  exact Nat.max_eq_right hle

/-- A statement is overwritten as a whole, and the loop goes on behind it. -/
theorem eraseRanges_statement (hskip : e.skip = 0)
    (herasure : e.erasure c rest.chars r = .statement n) (pragma : Bool)
    (hlength : pragmas.length = rest.length) :
    eraseRanges (Marked.bytes (done ++ (c, r) :: rest)) (byteLength done.chars)
        (bufferAt done left ((c, r) :: rest) (e.pending (pragma :: pragmas))) =
      eraseRanges (Marked.bytes (done ++ (c, r) :: rest))
        (byteLength done.chars + (c.utf8Size + byteLength (rest.chars.take (n - 1))))
        (bufferAt done left ((c, r) :: rest)
          (true :: mergeDue (List.replicate (n - 1) true) pragmas)) := by
  obtain ⟨-, -, himport, hn⟩ := Eraser.erasure_statement herasure
  obtain ⟨rfl, hpos⟩ := statementLength_pos himport
  obtain ⟨k, rfl⟩ : ∃ k, n = k + 1 := ⟨n - 1, by omega⟩
  have hpending : e.pending (pragma :: pragmas) = pragma :: pragmas := by
    rw [Eraser.pending, hskip, h.due.eq_nil (by decide)]
    rfl
  have hblank := blankRange_bufferAt h.length (('i', r) :: rest) (pragma :: pragmas)
    (by simp [hlength]) 0 (k + 1)
  have hsize : 'i'.utf8Size = 1 := by decide
  rw [hpending, eraseRanges, if_pos (byteLength_lt_length_bytes done 'i' r rest),
    erasureIn_bufferAt h (by decide), herasure]
  simp only [Erasure.inBytes, List.take_succ_cons, byteLength, hsize, Nat.zero_add, List.take_zero,
    Nat.add_zero, Marked.chars_cons, List.replicate_zero, List.nil_append,
    Nat.add_sub_cancel, Nat.add_sub_cancel_left] at hblank ⊢
  rw [hblank, Nat.add_assoc]
  rfl

/-- Otherwise the loop goes on behind the character, with what has become due overwritten. -/
theorem eraseRanges_due (hskip : e.skip = 0)
    (herasure : (e.erasure c rest.chars r).statementLength? = none) (pragma : Bool)
    (hlength : pragmas.length = rest.length) :
    eraseRanges (Marked.bytes (done ++ (c, r) :: rest)) (byteLength done.chars)
        (bufferAt done left ((c, r) :: rest) (e.pending (pragma :: pragmas))) =
      eraseRanges (Marked.bytes (done ++ (c, r) :: rest)) (byteLength done.chars + c.utf8Size)
        (bufferAt done left ((c, r) :: rest)
          (mergeDue (mergeDue e.due (e.erasure c rest.chars r).due) (pragma :: pragmas))) := by
  have hpending : e.pending (pragma :: pragmas) = mergeDue e.due (pragma :: pragmas) := by
    rw [Eraser.pending, hskip]
    rfl
  rw [hpending]
  by_cases hlook : r = .code ∧ c.toNat < 128
  · rw [eraseRanges, if_pos (byteLength_lt_length_bytes done c r rest),
      erasureIn_bufferAt h hlook.2, utf8Size_of_lt hlook.2]
    cases hfound : e.erasure c rest.chars r with
    | statement n =>
      rw [hfound] at herasure
      cases herasure
    | keep =>
      rw [Erasure.due_keep, mergeDue_nil_right]
      rfl
    | mark skip n =>
      rw [Eraser.erasure, if_pos hlook.1] at hfound
      have hblank := blankRange_bufferAt h.length ((c, r) :: rest) _
        (Eraser.length_pending h pragma hlength) skip n
      obtain ⟨hfrom, hto⟩ := byteLength_take_of_mark hfound
      rw [Marked.chars_cons, hfrom, hto, ← Nat.add_assoc] at hblank
      dsimp only [Erasure.inBytes]
      rw [hblank, ← mergeDue_assoc, mergeDue_comm _ e.due]
      rfl
  · have hkeep : e.erasure c rest.chars r = .keep := by
      unfold Eraser.erasure
      split
      · exact erasureAt_of_le (Nat.not_lt.1 fun hc => hlook ⟨‹_›, hc⟩) _ _ _
      · rfl
    have hbytes : ∀ p ∈ (String.utf8EncodeChar c).map (·, r), p.2 ≠ .code ∨ 128 ≤ p.1.toNat := by
      intro p hp
      obtain ⟨b, hb, rfl⟩ := List.mem_map.1 hp
      by_cases hr : r = .code
      · exact Or.inr (le_of_mem_utf8EncodeChar (Nat.not_lt.1 fun hc => hlook ⟨hr, hc⟩) hb)
      · exact Or.inl hr
    have hpass := eraseRanges_of_forall done.bytes _ rest.bytes
      (bufferAt done left ((c, r) :: rest) (mergeDue e.due (pragma :: pragmas))) hbytes
    rw [List.length_map, String.length_utf8EncodeChar, Marked.length_bytes, ← Marked.bytes_cons,
      ← Marked.bytes_append] at hpass
    rw [hpass, hkeep, Erasure.due_keep, mergeDue_nil_right]

/-- One character of the pass: the loop goes on where the pass goes on looking. -/
theorem eraseRanges_step (r : Region) (pragma : Bool) (hlength : pragmas.length = rest.length) :
    eraseRanges (Marked.bytes (done ++ (c, r) :: rest))
        (byteLength done.chars + byteLength ((c :: rest.chars).take e.skip))
        (bufferAt done left ((c, r) :: rest) (e.pending (pragma :: pragmas))) =
      eraseRanges (Marked.bytes (done ++ (c, r) :: rest))
        (byteLength done.chars + (c.utf8Size +
          byteLength (rest.chars.take (e.step c rest.chars r pragma).2.skip)))
        (bufferAt done left ((c, r) :: rest) ((e.step c rest.chars r pragma).1 ::
          (e.step c rest.chars r pragma).2.pending pragmas)) := by
  obtain ⟨hskip, hstep⟩ | ⟨hskip, n, herasure, hstep⟩ |
    ⟨hskip, hnone, due, mark, hdue, hmark, hstep⟩ := e.step_cases c rest.chars r pragma
  · obtain ⟨k, hk⟩ : ∃ k, e.skip = k + 1 := ⟨e.skip - 1, by omega⟩
    rw [hstep, Eraser.pending, Eraser.pending, h.skip hskip, hk]
    rfl
  · rw [hskip, hstep, List.take_zero, byteLength, Nat.add_zero,
      eraseRanges_statement h hskip herasure pragma hlength]
    rfl
  · rw [hskip, hstep, List.take_zero, byteLength, Nat.add_zero,
      eraseRanges_due h hskip hnone pragma hlength, ← hdue, mergeDue_cons_right, hmark,
      Bool.or_comm]
    rfl

end

/-- From any place where both stand, the loop leaves what the pass leaves. -/
theorem eraseRanges_eq (h : InStep e done left rest.chars)
    (hlength : pragmas.length = rest.length) :
    eraseRanges (Marked.bytes (done ++ rest))
        (byteLength done.chars + byteLength (rest.chars.take e.skip))
        (bufferAt done left rest (e.pending pragmas)) =
      bufferAt done left rest (e.marks rest.chars (rest.regions.zip pragmas)) := by
  induction rest generalizing e done left pragmas with
  | nil =>
    rw [eraseRanges, if_neg]
    · rfl
    · simp [Marked.length_bytes]
  | cons p rest ih =>
    obtain ⟨c, r⟩ := p
    cases pragmas with
    | nil => cases hlength
    | cons pragma pragmas =>
      have hrest : pragmas.length = rest.length := by simpa using hlength
      have hnext := ih (h.step r pragma) hrest
      rw [Marked.chars_append, byteLength_append, List.append_assoc, List.singleton_append] at hnext
      rw [Marked.chars_cons, eraseRanges_step h r pragma hrest, bufferAt_cons h.length,
        ← Nat.add_assoc]
      refine Eq.trans hnext ?_
      rw [← bufferAt_cons h.length]
      rfl

end Buffer
/-! ### Pragma lines -/

theorem blankRange_append (a b c : List UInt8) :
    blankRange a.length (a.length + b.length) (a ++ (b ++ c)) =
      a ++ (b.map (spelledByte · true) ++ c) := by
  have hplain : ∀ l : List UInt8, overwriteBytes l (List.replicate l.length false) = l := fun l =>
    (overwriteBytes_replicate l false).trans (List.map_id' l)
  have hmarks := markRange_append (List.replicate a.length false)
    (List.replicate b.length false ++ List.replicate c.length false) 0 (b.length + 0)
  rw [List.length_replicate, markRange_replicate, markRange_self, Nat.add_zero, Nat.add_zero]
    at hmarks
  have hblank := blankRange_overwriteBytes a.length (a.length + b.length) (a ++ (b ++ c))
    (List.replicate a.length false ++
      (List.replicate b.length false ++ List.replicate c.length false))
  rw [hmarks, overwriteBytes_append (by simp), overwriteBytes_append (by simp),
    overwriteBytes_append (by simp), overwriteBytes_append (by simp), hplain, hplain, hplain,
    overwriteBytes_replicate] at hblank
  exact hblank

/-- The lines that are blanked first are those of the marked characters. -/
theorem blankPragmas_eq (a : List UInt8) (cs : List Char) :
    blankPragmas a.length (splitFeeds cs) (a ++ bytesOf cs) =
      a ++ overwriteBytes (bytesOf cs) (bytewise cs (pragmaMarks cs)) := by
  have hline : ∀ (a : List UInt8) (line : List Char) (behind : List UInt8),
      (if isPragmaLine line then
          blankRange a.length (a.length + byteLength line) (a ++ (bytesOf line ++ behind))
        else a ++ (bytesOf line ++ behind)) =
      a ++ (overwriteBytes (bytesOf line)
        (bytewise line (List.replicate line.length (isPragmaLine line))) ++ behind) := by
    intro a line behind
    rw [bytewise_replicate, ← length_bytesOf, overwriteBytes_replicate]
    by_cases hpragma : isPragmaLine line = true
    · rw [if_pos hpragma, blankRange_append, hpragma]
    · have hplain : ((bytesOf line).map fun b => spelledByte b false) = bytesOf line :=
        List.map_id' _
      rw [if_neg hpragma, Bool.eq_false_iff.2 hpragma, hplain]
  induction cs using line_induction generalizing a with
  | last line hfeed =>
    have hfirst := hline a line []
    rw [List.append_nil, List.append_nil] at hfirst
    rw [splitFeeds_last hfeed, pragmaMarks_last hfeed, blankPragmas, hfirst]
    rfl
  | feed line cs hfeed ih =>
    have hten : bytesOf ('\n' :: cs) = 10 :: bytesOf cs := rfl
    have hmark : ∀ mark : Bool, spelledByte 10 mark = 10 := by decide
    have hlength : (bytesOf line).length =
        (bytewise line (List.replicate line.length (isPragmaLine line))).length := by
      rw [length_bytesOf, length_bytewise List.length_replicate]
    have hsize : bytewise ('\n' :: cs) (isPragmaLine line :: pragmaMarks cs) =
        isPragmaLine line :: bytewise cs (pragmaMarks cs) := rfl
    have hrest := ih (a ++ (overwriteBytes (bytesOf line)
      (bytewise line (List.replicate line.length (isPragmaLine line))) ++ [10]))
    have hstart : (a ++ (overwriteBytes (bytesOf line)
        (bytewise line (List.replicate line.length (isPragmaLine line))) ++ [10])).length =
          a.length + byteLength line + 1 := by
      simp [overwriteBytes, ← hlength, length_bytesOf, Nat.add_assoc]
    rw [hstart, List.append_assoc, List.append_assoc, List.singleton_append] at hrest
    rw [splitFeeds_line hfeed, pragmaMarks_line hfeed, blankPragmas, bytesOf_append, hten,
      hline a line, hrest, bytewise_append List.length_replicate.symm, hsize,
      overwriteBytes_append hlength]
    simp only [overwriteBytes, List.zipWith_cons_cons, hmark, List.append_assoc,
      List.singleton_append]

/-! ### The text that is left -/

/-- The loop over bytes leaves the bytes of the text that the pass over characters leaves. -/
theorem erasedBytes_eq (text : String) : erasedBytes text = bytesOf (eraseFlow text).toList := by
  have hpragmas := blankPragmas_eq [] text.toList
  rw [List.length_nil, List.nil_append, List.nil_append] at hpragmas
  have hinit : InStep {} [] [] (marked text.toList).chars := .init _
  have hlength : (pragmaMarks text.toList).length = (marked text.toList).length := by
    rw [length_pragmaMarks, marked, List.length_zip, length_classify, Nat.min_self]
  have hrun := eraseRanges_eq hinit hlength
  rw [chars_marked, regions_marked, bufferAt, bufferAt, List.nil_append, chars_marked] at hrun
  rw [erasedBytes, markedBytes_eq, toByteArray_toList, toList_eraseFlow,
    bytesOf_overwrite (length_erasedMarks _)]
  exact (congrArg (eraseRanges _ 0) hpragmas).trans hrun

/-- What is left in the buffer is UTF-8, for every text. -/
theorem fromUTF8?_erasedBytes (text : String) :
    String.fromUTF8? ⟨(erasedBytes text).toArray⟩ = some (eraseFlow text) := by
  have hbytes : (⟨(erasedBytes text).toArray⟩ : ByteArray) = (eraseFlow text).toByteArray := by
    rw [erasedBytes_eq, bytesOf, ← toByteArray_toList]
  rw [hbytes, String.fromUTF8?, dif_pos (eraseFlow text).isValidUTF8]
  rfl

end Revue.Source
