import Revue.Command.Settings
import Revue.Proofs.BaseMargin

/-!
# The pragma at the head of a source

Whether a source has the pragma is read off its lines, with a flag for block comments. The scanner
says it exactly: the pragma stands in the text in front of the first code. The two agree if each
line up to the first that starts with code holds nothing but comments, and a line that holds the end
of a block comment leaves none open.
-/

namespace Revue.Text
variable {d : Char} {word : List Char}

theorem isPrefixOf_append_of_notMem (hd : d ∉ word) (cs rest : List Char) :
    word.isPrefixOf (cs ++ d :: rest) = word.isPrefixOf cs := by
  induction word generalizing cs with
  | nil => rfl
  | cons a word ih =>
    obtain ⟨ha, hword⟩ : d ≠ a ∧ d ∉ word := by simpa using hd
    cases cs with
    | nil => simp [List.isPrefixOf, Ne.symm ha]
    | cons c cs => simp [List.isPrefixOf, ih hword]

theorem contains_of_suffix {a b : List Char} (hsuffix : b <:+ a) (h : contains word a = false) :
    contains word b = false := by
  obtain ⟨c, rfl⟩ := hsuffix
  induction c with
  | nil => exact h
  | cons d c ih => exact ih (Bool.or_eq_false_iff.1 h).2

section Solid
variable (hword : word ≠ [] ∧ word.all (!isBlank ·) = true)
include hword

theorem contains_append_cons (hd : isBlank d = true) (a b : List Char) :
    contains word (a ++ d :: b) = (contains word a || contains word b) := by
  have hnot : d ∉ word := fun hmem => by simpa [hd] using List.all_eq_true.1 hword.2 d hmem
  have hprefix := isPrefixOf_append_of_notMem hnot
  induction a with
  | nil =>
    have hfirst : word.isPrefixOf (d :: b) = word.isPrefixOf [] := hprefix [] b
    change (word.isPrefixOf (d :: b) || contains word b) = (word.isEmpty || contains word b)
    rw [hfirst]
    cases word <;> rfl
  | cons c a ih =>
    have hfirst : word.isPrefixOf (c :: (a ++ d :: b)) = word.isPrefixOf (c :: a) :=
      hprefix (c :: a) b
    rw [List.cons_append, contains, contains, hfirst, ih, Bool.or_assoc]

theorem contains_blanks_append {w : List Char} (hw : ∀ c ∈ w, isBlank c = true) (x : List Char) :
    contains word (w ++ x) = contains word x := by
  induction w with
  | nil => rfl
  | cons d w ih =>
    obtain ⟨hd, hw⟩ := List.forall_mem_cons.1 hw
    have hfirst := contains_append_cons hword hd [] (w ++ x)
    rw [ih hw, contains, List.isEmpty_eq_false_iff.2 hword.1] at hfirst
    exact hfirst

theorem contains_trim (cs : List Char) : contains word (trim cs) = contains word cs := by
  obtain ⟨w, v, hcs, hw, hv⟩ := Vue.exists_trim cs
  conv_rhs => rw [hcs, List.append_assoc, contains_blanks_append hword hw]
  cases v with
  | nil => rw [List.append_nil]
  | cons d v =>
    obtain ⟨hd, hv⟩ := List.forall_mem_cons.1 hv
    rw [contains_append_cons hword hd, ← List.append_nil v, contains_blanks_append hword hv,
      contains, List.isEmpty_eq_false_iff.2 hword.1, Bool.or_false]

end Solid

end Revue.Text

namespace Revue.Source.Scan
open Text

variable {s : Scan} {y : List Char}

/-- A comment goes on over a text that holds neither a line feed nor the end of a block comment. -/
theorem after_comment (hs : s.mode = .lineComment ∨ s.mode = .blockComment) (hfeed : '\n' ∉ y)
    (hend : contains "*/".toList y = false) : s.after y ['\n'] = s := by
  induction y with
  | nil => rfl
  | cons c y ih =>
    obtain ⟨hc, hfeed⟩ : '\n' ≠ c ∧ '\n' ∉ y := by simpa using hfeed
    obtain ⟨hpair, hend⟩ := Bool.or_eq_false_iff.1 hend
    have hopen : ¬ (c = '*' ∧ (y ++ ['\n']).head? = some '/') := by
      rintro ⟨rfl, hhead⟩
      cases y with
      | nil => cases hhead
      | cons d y =>
        obtain rfl : d = '/' := by simpa using hhead
        simp [List.isPrefixOf] at hpair
    have hstep : s.step c (y ++ ['\n']).head? = (.comment, s) := by
      rcases hs with hm | hm
      · simp [step, hm, Ne.symm hc]
      · rw [step, hm]
        exact if_neg hopen
    rw [after, hstep]
    exact ih hfeed hend

theorem step_comment_iff (hs : s.mode = .code) (c : Char) (next : Option Char) :
    (s.step c next).1 = .comment ↔ c = '/' ∧ (next = some '/' ∨ next = some '*') := by
  rw [step, hs]
  fun_cases stepCode <;> simp_all

theorem after_feed (s : Scan) (l rest : List Char) : s.after (l ++ ['\n']) rest = (s.feed l).2 := by
  have hquiet := after_of_isQuiet s l (a := '\n' :: rest) (c := ['\n']) isQuiet_feed isQuiet_feed
  rw [after_append, feed, ← hquiet, after, after, List.nil_append, step_feed]
  rfl

end Revue.Source.Scan

namespace Revue.Command
open Text Source

variable {s : Scan} {cs l x : List Char}

/-- The text in front of the first code: comments, and white space between them. -/
def headText (s : Scan) : List Char → List Char
  | [] => []
  | c :: cs =>
    if (s.step c cs.head?).1 = .comment ∨ isBlank c = true then
      c :: headText (s.step c cs.head?).2 cs
    else []

def startsWithCode (s : Scan) : List Char → Bool
  | [] => false
  | c :: cs => (s.step c (cs ++ ['\n']).head?).1 != .comment

/-- Each line up to the first that starts with code holds nothing but comments, and no block comment
is open at the end of a line that holds the end of one. -/
def tidyHead (s : Scan) : List (List Char) → Bool
  | [] => true
  | l :: ls =>
    let next := (s.feed l).2
    startsWithCode s (trim l) || (headText s l == l && (next.mode == .code ||
      next.mode == .blockComment && !contains "*/".toList l) && tidyHead next ls)

/-! ### The head of a text -/

theorem headText_append (h : headText s l = l) (hx : isQuiet x.head?) :
    headText s (l ++ x) = l ++ headText (s.after l x) x := by
  induction l generalizing s with
  | nil => rfl
  | cons c l ih =>
    have hstep : s.step c (l ++ x).head? = s.step c l.head? := by
      simpa using Scan.step_head?_of_isQuiet s c l (c := []) hx isQuiet_none
    rw [headText] at h
    split at h
    · rename_i hpass
      rw [List.cons_append, headText, Scan.after, hstep, if_pos hpass, ih (List.cons.inj h).2]
      rfl
    · cases h

theorem headText_margin (hs : s.IsCalm) {w : List Char} (hw : IsMargin w) (x : List Char) :
    headText s (w ++ x) = w ++ headText s x := by
  induction w with
  | nil => rfl
  | cons c w ih =>
    obtain ⟨⟨hc, hfeed⟩, hw⟩ := List.forall_mem_cons.1 hw
    rw [List.cons_append, headText, Scan.step_calm hs hc hfeed, if_pos (Or.inr hc), ih hw]
    rfl

theorem contains_headText_line (h : headText s l = l) (rest : List Char) :
    contains "@flow".toList (headText s (l ++ '\n' :: rest)) =
      (contains "@flow".toList l || contains "@flow".toList (headText (s.feed l).2 rest)) := by
  have hstate := Scan.after_feed s l rest
  rw [Scan.after_append, Scan.after, Scan.after] at hstate
  rw [headText_append h (x := '\n' :: rest) Scan.isQuiet_feed, headText,
    if_pos (Or.inr (by decide)), contains_append_cons (by decide) (by decide), ← hstate]
  rfl

theorem exists_line (hfeed : '\n' ∉ l) : ∃ w v, l = w ++ (trim l ++ v) ∧ IsMargin w ∧ IsMargin v ∧
    ∀ c ∈ (trim l).head?, isBlank c = false := by
  obtain ⟨w, v, hl, hw, hv⟩ := Vue.exists_trim l
  rw [List.append_assoc] at hl
  have hne : ∀ c ∈ w ++ (trim l ++ v), c ≠ '\n' := fun c hc heq => hfeed (hl ▸ heq ▸ hc)
  refine ⟨w, v, hl, fun c hc => ⟨hw c hc, hne c (by simp [hc])⟩,
    fun c hc => ⟨hv c hc, hne c (by simp [hc])⟩, fun c hc => ?_⟩
  obtain ⟨u, hu, -⟩ := Vue.exists_trimEnd (trimStart l)
  have hhead := List.head?_dropWhile_not isBlank l
  rw [← trimStart, hu, ← trim, List.head?_append, hc] at hhead
  simpa using hhead

/-- In front of code there are blanks only. -/
theorem contains_headText_code (hs : s.StartsLine false) (hfeed : '\n' ∉ l)
    (hcode : startsWithCode s (trim l) = true) (hx : isQuiet x.head?) :
    contains "@flow".toList (headText s (l ++ x)) = false := by
  obtain ⟨w, v, hl, hw, hv, hdark⟩ := exists_line hfeed
  have hquiet : isQuiet (v ++ x).head? := by
    cases v with
    | nil => exact hx
    | cons d v => exact isQuiet_of_isBlank (hv d List.mem_cons_self).1
  rw [hl, List.append_assoc, List.append_assoc, headText_margin hs.isCalm hw,
    contains_blanks_append (by decide) fun c hc => (hw c hc).1]
  cases hy : trim l with
  | nil =>
    rw [hy] at hcode
    cases hcode
  | cons c y =>
    rw [hy] at hcode hdark
    have hregion : (s.step c (y ++ (v ++ x)).head?).1 ≠ .comment := by
      rw [Scan.step_head?_of_isQuiet s c y hquiet (c := ['\n']) Scan.isQuiet_feed]
      exact bne_iff_ne.1 hcode
    rw [List.cons_append, headText, if_neg (not_or.2 ⟨hregion, by simp [hdark c rfl]⟩)]
    rfl

theorem startsWithCode_eq (hs : s.StartsLine false) (y : List Char) :
    startsWithCode s y = (!y.isEmpty && (!(s.mode == .blockComment) &&
      !"/*".toList.isPrefixOf y && !"//".toList.isPrefixOf y)) := by
  cases y with
  | nil => rfl
  | cons c y =>
    rw [startsWithCode, Bool.eq_iff_iff, bne_iff_ne]
    rcases hs with hm | hm
    · rw [Ne, Scan.step_comment_iff hm]
      cases y <;> (simp [hm, List.isPrefixOf]; try grind)
    · simp only [Scan.step, hm]
      split <;> simp

/-- The flag for block comments. -/
theorem blockComment_feed (hs : s.StartsLine false) (hfeed : '\n' ∉ l)
    (hstart : startsWithCode s (trim l) = false)
    (hclosed : ((s.feed l).2.mode == .code ||
      (s.feed l).2.mode == .blockComment && !contains "*/".toList l) = true) :
    ((s.feed l).2.mode == .blockComment) =
      (("/*".toList.isPrefixOf (trim l) || s.mode == .blockComment) &&
        !contains "*/".toList (trim l)) := by
  rw [contains_trim (by decide)]
  cases hend : contains "*/".toList l with
  | true =>
    rw [hend, Bool.not_true, Bool.and_false, Bool.or_false, beq_iff_eq] at hclosed
    rw [hclosed, Bool.not_true, Bool.and_false]
    rfl
  | false =>
    have hstay : ∀ {u : Scan} {t : List Char}, t <:+ l →
        u.mode = .lineComment ∨ u.mode = .blockComment →
          ((u.feed t).2.mode == .blockComment) = (u.mode == .blockComment) := by
      intro u t ht hmode
      rw [Scan.feed, Scan.after_comment hmode (fun h => hfeed (ht.subset h))
        (contains_of_suffix ht hend)]
      rcases hmode with hm | hm <;> simp [Scan.step, hm]
    rcases hs with hm | hm
    · obtain ⟨w, v, hl, hw, hv, -⟩ := exists_line hfeed
      have hrun : s.feed l = s.feed (trim l ++ v) := by
        conv_lhs => rw [hl]
        exact Scan.feed_leading (Or.inl hm) hw _
      have hsuffix : trim l ++ v <:+ l := ⟨w, hl.symm⟩
      rw [startsWithCode_eq (Or.inl hm), hm] at hstart
      rw [hrun, hm]
      generalize trim l = y at hstart hsuffix ⊢
      by_cases hblock : "/*".toList.isPrefixOf y = true
      · obtain ⟨t, rfl⟩ := List.isPrefixOf_iff_prefix.1 hblock
        rw [List.append_assoc] at hsuffix
        have hopen : s.feed ("/*".toList ++ t ++ v) =
            Scan.feed { s with mode := .blockComment } (t ++ v) := by
          simp [Scan.feed, Scan.after, Scan.step, Scan.stepCode, hm]
        rw [hopen, hstay ((List.suffix_append _ _).trans hsuffix) (Or.inr rfl), hblock]
        rfl
      · rw [Bool.not_eq_true] at hblock
        rw [hblock]
        by_cases hline : "//".toList.isPrefixOf y = true
        · obtain ⟨t, rfl⟩ := List.isPrefixOf_iff_prefix.1 hline
          rw [List.append_assoc] at hsuffix
          have hopen : s.feed ("//".toList ++ t ++ v) =
              Scan.feed { s with mode := .lineComment } (t ++ v) := by
            simp [Scan.feed, Scan.after, Scan.step, Scan.stepCode, hm]
          rw [hopen, hstay ((List.suffix_append _ _).trans hsuffix) (Or.inl rfl)]
          rfl
        · rw [hblock, Bool.eq_false_iff.2 hline] at hstart
          obtain rfl : y = [] := by simpa using hstart
          have hblank := Scan.feed_leading (Or.inl hm) hv []
          rw [List.append_nil] at hblank
          rw [List.nil_append, hblank]
          simp [Scan.feed, Scan.after, Scan.step, Scan.stepCode, hm]
    · rw [hstay List.suffix_rfl (Or.inr hm), hm]
      simp

/-! ### All lines -/

/-- One line, with what is left of the head in the text `cs` that starts with it. -/
theorem pragmaInLines_cons {ls : List (List Char)} {left : Bool} (hs : s.StartsLine false)
    (hfeed : '\n' ∉ l) (htidy : tidyHead s (l :: ls) = true)
    (hcode : startsWithCode s (trim l) = true → contains "@flow".toList (headText s cs) = false)
    (hcomments : headText s l = l →
      contains "@flow".toList (headText s cs) = (contains "@flow".toList l || left))
    (ih : (s.feed l).2.StartsLine false → tidyHead (s.feed l).2 ls = true →
      pragmaInLines ((s.feed l).2.mode == .blockComment) ls = left) :
    pragmaInLines (s.mode == .blockComment) (l :: ls) =
      contains "@flow".toList (headText s cs) := by
  have hstart := startsWithCode_eq hs (trim l)
  rw [pragmaInLines]
  cases hfirst : startsWithCode s (trim l) with
  | true =>
    rw [hfirst, eq_comm, Bool.and_eq_true_iff, Bool.not_eq_true'] at hstart
    rw [hcode hfirst, hstart.1, hstart.2]
    rfl
  | false =>
    rw [tidyHead, hfirst, Bool.false_or, Bool.and_eq_true_iff, Bool.and_eq_true_iff,
      beq_iff_eq] at htidy
    obtain ⟨⟨honly, hclosed⟩, htail⟩ := htidy
    have hline : (s.feed l).2.StartsLine false := by
      rcases Bool.or_eq_true_iff.1 hclosed with hm | hm
      · exact Or.inl (beq_iff_eq.1 hm)
      · exact Or.inr (beq_iff_eq.1 (Bool.and_eq_true_iff.1 hm).1)
    rw [hcomments honly, ← ih hline htail, blockComment_feed hs hfeed hfirst hclosed,
      ← contains_trim (by decide) l]
    rw [hfirst, eq_comm] at hstart
    cases hy : (trim l).isEmpty with
    | true =>
      rw [List.isEmpty_iff.1 hy]
      simp [contains]
    | false =>
      rw [hy, Bool.not_false, Bool.true_and] at hstart
      rw [hstart]
      cases contains "@flow".toList (trim l) <;> rfl

theorem pragmaInLines_splitFeeds (hs : s.StartsLine false) (cs : List Char)
    (htidy : tidyHead s (splitFeeds cs) = true) :
    pragmaInLines (s.mode == .blockComment) (splitFeeds cs) =
      contains "@flow".toList (headText s cs) := by
  induction cs using line_induction generalizing s with
  | last line hline =>
    rw [splitFeeds_last hline] at htidy ⊢
    refine pragmaInLines_cons hs hline htidy (fun hcode => ?_) (fun h => ?_) fun _ _ => rfl
    · simpa using contains_headText_code hs hline hcode (x := []) isQuiet_none
    · rw [h, pragmaInLines, Bool.or_false]
  | feed line cs hline ih =>
    rw [splitFeeds_line hline] at htidy ⊢
    exact pragmaInLines_cons hs hline htidy
      (fun hcode => contains_headText_code hs hline hcode Scan.isQuiet_feed)
      (fun h => contains_headText_line h cs) ih

theorem trim_dropReturn (l : List Char) : trim (dropReturn l) = trim l := by
  unfold dropReturn
  split
  · rename_i hlast
    obtain ⟨a, rfl⟩ := List.getLast?_eq_some_iff.1 hlast
    rw [List.dropLast_concat, trim, trim, trimStart, trimStart, List.dropWhile_append]
    split
    · rename_i hempty
      rw [List.isEmpty_iff.1 hempty]
      rfl
    · rw [Vue.trimEnd_append]
      rfl
  · rfl

theorem pragmaInLines_linesOfPieces (b : Bool) (ps : List (List Char)) :
    pragmaInLines b (linesOfPieces ps) = pragmaInLines b ps := by
  fun_induction linesOfPieces ps generalizing b with
  | case1 => rfl
  | case2 last h =>
    rw [List.isEmpty_iff.1 h]
    rfl
  | case3 => rfl
  | case4 l ls hne ih => simp only [pragmaInLines, trim_dropReturn, ih]

/-- Whether a source has the pragma is what the scanner says of the comments in front of its code,
if the lines they stand on hold no code and no block comment opens behind the end of another. -/
theorem hasFlowPragma_eq_contains_headText {source : String}
    (hcs : source.toList.dropWhile (· == '\ufeff') = cs) (h : tidyHead {} (splitFeeds cs) = true) :
    hasFlowPragma source = contains "@flow".toList (headText {} cs) := by
  rw [hasFlowPragma, hcs, lines, pragmaInLines_linesOfPieces]
  exact pragmaInLines_splitFeeds (Or.inl rfl) _ h

theorem hasFlowPragma_eq_contains_headText_license :
    let cs := "/* a */ // b\r\n\n/* c\n * @flow\n */\nimport d; // e".toList
    tidyHead {} (splitFeeds cs) = true ∧
      hasFlowPragma (String.ofList ('\ufeff' :: cs)) = contains "@flow".toList (headText {} cs) ∧
      headText {} cs = "/* a */ // b\r\n\n/* c\n * @flow\n */\n".toList := by
  intro cs
  have h : tidyHead {} (splitFeeds cs) = true := by decide +kernel
  exact ⟨h, hasFlowPragma_eq_contains_headText (by decide +kernel) h, by decide +kernel⟩

/-- A string behind a comment counts, and a block comment that opens behind another does not. -/
theorem hasFlowPragma_ne_contains_headText :
    (hasFlowPragma "/* a */ f('@flow');" = true ∧
      contains "@flow".toList (headText {} "/* a */ f('@flow');".toList) = false) ∧
    hasFlowPragma "/* a */ /* b\n@flow */" = false ∧
      contains "@flow".toList (headText {} "/* a */ /* b\n@flow */".toList) = true := by
  decide +kernel

end Revue.Command
