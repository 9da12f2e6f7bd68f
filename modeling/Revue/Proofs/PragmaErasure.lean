import Revue.Proofs.LineStructure

/-!
# What erasing annotations leaves alone

Outside of pragma lines and of imports of types by value, only code is overwritten. A pragma line is
told by its text alone, so that it may lie inside a template, or hold code between two comments, and
what is overwritten then is neither comment nor white space. Erasing leaves literals and code alone
exactly if the scanner, too, sees nothing but comments and white space on pragma lines.
-/

namespace Revue.Source
open Text

variable {c : Char} {cs line : List Char} {i k : Nat} {s : Scan} {text : String}

/-! ### Literals within a line -/

def Mode.isLiteral : Mode → Bool
  | .quote _ | .quotePair _ | .template | .templatePair | .substitutionPair => true
  | .code | .linePair | .lineComment | .blockPair | .blockComment | .blockEndPair => false

namespace Scan

theorem step_of_not_isLiteral (h : s.mode.isLiteral = false) (c : Char) (next : Option Char) :
    (s.step c next).1 = .literal ∧ isBlank c = false ∨
      (s.step c next).1 ≠ .literal ∧ (s.step c next).2.mode.isLiteral = false := by
  obtain ⟨mode, depth, substitutions⟩ := s
  cases mode with
  | code =>
    rw [step]
    fun_cases stepCode with
    | case1 | case2 | case6 | case7 | case8 => exact Or.inr ⟨by simp, rfl⟩
    | case3 _ _ hquote => rcases hquote with rfl | rfl <;> exact Or.inl ⟨rfl, by decide⟩
    | case4 _ _ _ htick =>
      subst htick
      exact Or.inl ⟨rfl, by decide⟩
    | case5 _ _ _ _ hclose =>
      obtain ⟨rfl, -⟩ := hclose
      exact Or.inl ⟨rfl, by decide⟩
  | lineComment =>
    simp only [step]
    split_ifs <;> exact Or.inr ⟨by simp, rfl⟩
  | blockComment =>
    simp only [step]
    split_ifs <;> exact Or.inr ⟨by simp, rfl⟩
  | linePair => exact Or.inr ⟨by simp [step], rfl⟩
  | blockPair => exact Or.inr ⟨by simp [step], rfl⟩
  | blockEndPair => exact Or.inr ⟨by simp [step], rfl⟩
  | _ => cases h

theorem step_of_isLiteral (h : s.mode.isLiteral = true) (hc : c ≠ '\n') (next : Option Char) :
    (s.step c next).1 = .literal := by
  obtain ⟨mode, depth, substitutions⟩ := s
  cases mode with
  | quote q =>
    simp only [step, stepQuote, if_neg hc]
    split_ifs <;> rfl
  | template =>
    simp only [step, stepTemplate]
    split_ifs <;> rfl
  | quotePair q => rfl
  | templatePair => rfl
  | substitutionPair => rfl
  | _ => cases h

def QuotesSound (s : Scan) : Prop :=
  ∀ q, s.mode = .quote q ∨ s.mode = .quotePair q → isBlank q = false

theorem QuotesSound.step (h : s.QuotesSound) (c : Char) (next : Option Char) :
    (s.step c next).2.QuotesSound := by
  have hother : ∀ (mode : Mode) (depth : Nat) (substitutions : List Nat),
      (∀ q, mode ≠ .quote q) → (∀ q, mode ≠ .quotePair q) →
      QuotesSound ⟨mode, depth, substitutions⟩ := by
    rintro mode depth substitutions hquote hpair q (hmode | hmode)
    · exact absurd hmode (hquote q)
    · exact absurd hmode (hpair q)
  obtain ⟨mode, depth, substitutions⟩ := s
  cases mode with
  | code =>
    rw [Scan.step]
    fun_cases stepCode with
    | case3 _ _ hquote =>
      rintro q (⟨⟨⟩⟩ | ⟨⟨⟩⟩)
      rcases hquote with rfl | rfl <;> decide
    | _ => exact hother _ _ _ (by simp) (by simp)
  | quote q =>
    have hq : isBlank q = false := h q (Or.inl rfl)
    simp only [Scan.step, stepQuote]
    split_ifs
    · rintro _ (⟨⟨⟩⟩ | ⟨⟨⟩⟩)
      exact hq
    · exact hother _ _ _ (by simp) (by simp)
    · exact hother _ _ _ (by simp) (by simp)
    · exact h
  | quotePair q =>
    rintro _ (⟨⟨⟩⟩ | ⟨⟨⟩⟩)
    exact h q (Or.inr rfl)
  | lineComment =>
    simp only [Scan.step]
    split_ifs <;> exact hother _ _ _ (by simp) (by simp)
  | blockComment =>
    simp only [Scan.step]
    split_ifs <;> exact hother _ _ _ (by simp) (by simp)
  | template =>
    simp only [Scan.step, stepTemplate]
    split_ifs <;> exact hother _ _ _ (by simp) (by simp)
  | _ => exact hother _ _ _ (by simp) (by simp)

def IsSettled (s : Scan) : Prop := s.mode ≠ .substitutionPair ∧ s.QuotesSound

/-- At the start of a line the scanner is settled. -/
theorem QuotesSound.isSettled_step (h : s.QuotesSound) (next : Option Char) :
    (s.step '\n' next).2.IsSettled := by
  refine ⟨?_, h.step '\n' next⟩
  obtain ⟨mode, depth, substitutions⟩ := s
  cases mode <;> simp [Scan.step, stepCode, stepQuote, stepTemplate]

/-- White space keeps the scanner inside of a literal. -/
theorem isLiteral_step (hs : s.IsSettled) (h : s.mode.isLiteral = true)
    (hblank : isBlank c = true) (hc : c ≠ '\n') (next : Option Char) :
    (s.step c next).2.mode.isLiteral = true ∧ (s.step c next).2.IsSettled := by
  have hne : ∀ a : Char, isBlank a = false → c ≠ a := by
    rintro a ha rfl
    rw [ha] at hblank
    cases hblank
  obtain ⟨mode, depth, substitutions⟩ := s
  obtain ⟨hpair, hquote⟩ := hs
  cases mode with
  | quote q =>
    have hq : c ≠ q := hne q (hquote q (Or.inl rfl))
    simp only [step, stepQuote, if_neg (hne '\\' (by decide)), if_neg hc, if_neg hq]
    exact ⟨rfl, hpair, hquote⟩
  | template =>
    have hdollar : ¬ (c = '$' ∧ next = some '\x7b') := fun hmark => hne '$' (by decide) hmark.1
    simp only [step, stepTemplate, if_neg (hne '\\' (by decide)), if_neg hdollar,
      if_neg (hne '\x60' (by decide))]
    exact ⟨rfl, hpair, hquote⟩
  | quotePair q =>
    exact ⟨rfl, by simp [step], hquote.step c next⟩
  | templatePair => exact ⟨rfl, by simp [step], hquote.step c next⟩
  | substitutionPair => exact absurd rfl hpair
  | _ => cases h

/-- In a literal the first character that is no white space is part of it. -/
theorem exists_literal (hs : s.IsSettled) (h : s.mode.isLiteral = true) {row : List Char}
    (hfeed : '\n' ∉ row) (hink : ∃ c ∈ row, isBlank c = false) (rest : List Char) :
    ∃ (i : Nat) (c : Char), row[i]? = some c ∧ isBlank c = false ∧
      (s.regions (row ++ rest))[i]? = some Region.literal := by
  induction row generalizing s with
  | nil =>
    obtain ⟨c, hc, -⟩ := hink
    cases hc
  | cons c row ih =>
    obtain ⟨hc, hline⟩ : c ≠ '\n' ∧ '\n' ∉ row := by simpa [eq_comm] using hfeed
    by_cases hblank : isBlank c = true
    · obtain ⟨hliteral, hsettled⟩ := isLiteral_step hs h hblank hc (row ++ rest).head?
      have hrest : ∃ d ∈ row, isBlank d = false := by
        obtain ⟨d, hd, hdark⟩ := hink
        rcases List.mem_cons.1 hd with rfl | hd
        · rw [hblank] at hdark
          cases hdark
        · exact ⟨d, hd, hdark⟩
      obtain ⟨i, d, hi, hdark, hregion⟩ := ih hsettled hliteral hline hrest
      exact ⟨i + 1, d, by simpa using hi, hdark, hregion⟩
    · refine ⟨0, c, List.getElem?_cons_zero, Bool.eq_false_iff.2 hblank, ?_⟩
      exact congrArg some (step_of_isLiteral h hc (row ++ rest).head?)

/-- On a line where only comments stand, up to its line feed, no literal begins. -/
theorem not_literal_of_comments {s : Scan} (h : s.mode.isLiteral = false) {row rest : List Char}
    (hrest : rest.head?.all (· == '\n') = true)
    (hcomment : ∀ (i : Nat) (c : Char), row[i]? = some c → isBlank c = false →
      (s.regions (row ++ rest))[i]? = some Region.comment) {i : Nat} (hi : i ≤ row.length) :
    (s.regions (row ++ rest))[i]? ≠ some Region.literal := by
  induction row generalizing s i with
  | nil =>
    obtain rfl : i = 0 := by simpa using hi
    cases rest with
    | nil => simp [regions]
    | cons c rest =>
      obtain rfl : c = '\n' := by simpa using hrest
      obtain ⟨-, hblank⟩ | ⟨hregion, -⟩ := step_of_not_isLiteral h '\n' rest.head?
      · exact absurd hblank (by decide)
      · simpa [regions] using hregion
  | cons c row ih =>
    obtain ⟨hregion, hblank⟩ | ⟨hregion, hmode⟩ :=
      step_of_not_isLiteral h c (row ++ rest).head?
    · have hfirst : (s.step c (row ++ rest).head?).1 = .comment :=
        Option.some.inj (hcomment 0 c List.getElem?_cons_zero hblank)
      rw [hregion] at hfirst
      cases hfirst
    · cases i with
      | zero => simpa [regions] using hregion
      | succ i =>
        have hshift : ∀ (j : Nat) (d : Char), row[j]? = some d → isBlank d = false →
            ((s.step c (row ++ rest).head?).2.regions (row ++ rest))[j]? = some Region.comment :=
          fun j d hj hd => hcomment (j + 1) d (by simpa using hj) hd
        exact ih hmode hshift (by simpa using hi)

/-- The state behind a text that stands in front of another. -/
def after (s : Scan) : List Char → List Char → Scan
  | [], _ => s
  | c :: cs, rest => (s.step c (cs ++ rest).head?).2.after cs rest

theorem getElem?_regions_append (s : Scan) (cs rest : List Char) (i : Nat) :
    (s.regions (cs ++ rest))[cs.length + i]? = ((s.after cs rest).regions rest)[i]? := by
  induction cs generalizing s with
  | nil => simp [after]
  | cons c cs ih =>
    rw [List.length_cons, Nat.add_right_comm]
    exact ih (s.step c (cs ++ rest).head?).2

theorem QuotesSound.after (h : s.QuotesSound) (cs rest : List Char) :
    (s.after cs rest).QuotesSound := by
  induction cs generalizing s with
  | nil => exact h
  | cons c cs ih => exact ih (h.step c _)

theorem after_append (s : Scan) (a b rest : List Char) :
    s.after (a ++ b) rest = (s.after a (b ++ rest)).after b rest := by
  induction a generalizing s with
  | nil => rfl
  | cons c a ih =>
    rw [List.cons_append, after, after, List.append_assoc]
    exact ih _

theorem isSettled_after (h : s.QuotesSound) (cs rest : List Char) :
    (s.after (cs ++ ['\n']) rest).IsSettled := by
  rw [after_append]
  exact (h.after cs _).isSettled_step _

end Scan

theorem subset_of_contains {word : List Char} (h : contains word cs = true) : word ⊆ cs := by
  induction cs with
  | nil =>
    obtain rfl : word = [] := by simpa [contains] using h
    exact List.Subset.refl _
  | cons c cs ih =>
    rw [contains, Bool.or_eq_true] at h
    rcases h with hfirst | hrest
    · exact List.IsPrefix.subset (List.isPrefixOf_iff_prefix.1 hfirst)
    · exact List.Subset.trans (ih hrest) (List.subset_cons_self c cs)

theorem trim_subset (cs : List Char) : trim cs ⊆ cs := by
  have hdrop : ∀ cs : List Char, cs.dropWhile isBlank ⊆ cs := fun cs =>
    (List.dropWhile_sublist _).subset
  intro c hc
  have hend : c ∈ (trimStart cs).reverse.dropWhile isBlank := List.mem_reverse.1 hc
  exact hdrop cs (List.mem_reverse.1 (hdrop _ hend))

theorem exists_dark_of_isPragmaLine (h : isPragmaLine line = true) :
    ∃ c ∈ line, isBlank c = false := by
  have hword := subset_of_contains (Bool.and_eq_true_iff.1 h).1
  exact ⟨'@', trim_subset line (hword (by decide)), by decide⟩

/-- What the scanner sees on pragma lines, white space apart, are comments. -/
def pragmasAreComments (cs : List Char) : Bool :=
  ((marked cs).zip (pragmaMarks cs)).all fun ((c, r), pragma) =>
    !pragma || isBlank c || r == .comment

theorem pragmasAreComments_iff :
    pragmasAreComments cs = true ↔ ∀ (i : Nat) (c : Char), cs[i]? = some c →
      (pragmaMarks cs)[i]? = some true → isBlank c = false →
        (classify cs)[i]? = some Region.comment := by
  rw [pragmasAreComments, List.all_eq_true]
  constructor
  · intro h i c hc hpragma hdark
    obtain ⟨hi, -⟩ := List.getElem?_eq_some_iff.1 hc
    obtain ⟨r, hr⟩ : ∃ r, (classify cs)[i]? = some r :=
      ⟨_, List.getElem?_eq_getElem (by rwa [length_classify])⟩
    have hmarked : (marked cs)[i]? = some (c, r) := List.getElem?_zip_eq_some.2 ⟨hc, hr⟩
    have hentry : ((marked cs).zip (pragmaMarks cs))[i]? = some ((c, r), true) :=
      List.getElem?_zip_eq_some.2 ⟨hmarked, hpragma⟩
    have hcomment := h _ (List.mem_of_getElem? hentry)
    rw [hr]
    simpa [hdark] using hcomment
  · rintro h ⟨⟨c, r⟩, pragma⟩ hmem
    obtain ⟨i, hi⟩ := List.mem_iff_getElem?.1 hmem
    obtain ⟨hmarked, hpragma⟩ := List.getElem?_zip_eq_some.1 hi
    obtain ⟨hc, hr⟩ := List.getElem?_zip_eq_some.1 hmarked
    dsimp only at hc hr hpragma ⊢
    cases pragma with
    | false => rfl
    | true =>
      by_cases hdark : isBlank c = false
      · have hcomment := h i c hc hpragma hdark
        rw [hr, Option.some.injEq] at hcomment
        simp [hcomment]
      · simp [Bool.not_eq_false _ ▸ hdark]

theorem line_not_literal {s : Scan} (hs : s.IsSettled) {row : List Char} (hfeed : '\n' ∉ row)
    (hpragma : isPragmaLine row = true) (rest : List Char)
    (hrest : rest.head?.all (· == '\n') = true)
    (hcomment : ∀ (i : Nat) (c : Char), row[i]? = some c → isBlank c = false →
      (s.regions (row ++ rest))[i]? = some Region.comment) {i : Nat} (hi : i ≤ row.length) :
    (s.regions (row ++ rest))[i]? ≠ some Region.literal := by
  by_cases hmode : s.mode.isLiteral = true
  · obtain ⟨k, c, hk, hdark, hregion⟩ := Scan.exists_literal hs hmode hfeed
      (exists_dark_of_isPragmaLine hpragma) rest
    rw [hcomment k c hk hdark] at hregion
    cases hregion
  · exact Scan.not_literal_of_comments (Bool.eq_false_iff.2 hmode) hrest hcomment hi

theorem getElem?_pragmaMarks_line (hfeed : '\n' ∉ line) (cs : List Char) (hi : i ≤ line.length) :
    (pragmaMarks (line ++ '\n' :: cs))[i]? = some (isPragmaLine line) := by
  rw [pragmaMarks_line hfeed, List.append_cons, ← List.replicate_succ', List.getElem?_append_left
    (by rw [List.length_replicate]; omega), List.getElem?_replicate, if_pos (by omega)]

theorem getElem?_pragmaMarks_behind (hfeed : '\n' ∉ line) (cs : List Char) (j : Nat) :
    (pragmaMarks (line ++ '\n' :: cs))[line.length + 1 + j]? = (pragmaMarks cs)[j]? := by
  rw [pragmaMarks_line hfeed, List.append_cons, ← List.replicate_succ', List.getElem?_append_right
    (by rw [List.length_replicate]; omega), List.length_replicate, Nat.add_sub_cancel_left]

/-- If so, no literal lies on a pragma line. -/
theorem not_literal_of_pragma {cs : List Char} {s : Scan} (hs : s.IsSettled)
    (h : ∀ (i : Nat) (c : Char), cs[i]? = some c → (pragmaMarks cs)[i]? = some true →
      isBlank c = false → (s.regions cs)[i]? = some Region.comment)
    {i : Nat} (hi : (pragmaMarks cs)[i]? = some true) :
    (s.regions cs)[i]? ≠ some Region.literal := by
  induction cs using line_induction generalizing s i with
  | last line hfeed =>
    rw [pragmaMarks_last hfeed] at h hi
    obtain ⟨hlt, hpragma⟩ : i < line.length ∧ isPragmaLine line = true := by
      simpa [List.getElem?_replicate] using hi
    have hlast := line_not_literal hs hfeed hpragma [] rfl
    rw [List.append_nil] at hlast
    refine hlast (fun k c hk hdark => h k c hk ?_ hdark) (Nat.le_of_lt hlt)
    obtain ⟨hk, -⟩ := List.getElem?_eq_some_iff.1 hk
    rw [hpragma, List.getElem?_replicate, if_pos hk]
  | feed line cs hfeed ih =>
    by_cases hle : i ≤ line.length
    · have hpragma : isPragmaLine line = true :=
        Option.some.inj ((getElem?_pragmaMarks_line hfeed cs hle).symm.trans hi)
      refine line_not_literal hs hfeed hpragma ('\n' :: cs) rfl (fun k c hk hdark => ?_) hle
      obtain ⟨hlt, -⟩ := List.getElem?_eq_some_iff.1 hk
      refine h k c ?_ ?_ hdark
      · rw [List.getElem?_append_left hlt, hk]
      · rw [getElem?_pragmaMarks_line hfeed cs (Nat.le_of_lt hlt), hpragma]
    · obtain ⟨j, rfl⟩ : ∃ j, i = line.length + 1 + j := ⟨i - (line.length + 1), by omega⟩
      have hbehind : ∀ k : Nat, (s.regions (line ++ '\n' :: cs))[line.length + 1 + k]? =
          ((s.after (line ++ ['\n']) cs).regions cs)[k]? := fun k => by
        rw [← Scan.getElem?_regions_append, List.append_assoc, List.length_append]
        rfl
      rw [getElem?_pragmaMarks_behind hfeed] at hi
      rw [hbehind]
      refine ih (Scan.isSettled_after hs.2 line cs) (fun k c hk hk' hdark => ?_) hi
      rw [← hbehind]
      refine h _ c ?_ ?_ hdark
      · rw [List.append_cons, List.getElem?_append_right (by simp)]
        simpa using hk
      · rw [getElem?_pragmaMarks_behind hfeed, hk']

/-! ### Where characters are overwritten -/

/-- A character lies in an import of types by value: on a line that begins with one, in code, and
not behind its end. -/
def InImport (cs : List Char) (k : Nat) : Prop :=
  ∃ start ≤ k, k < start + statementLength (cs.drop start) ∧
    startsLine (cs.take start) = true ∧ "import typeof ".toList <+: cs.drop start ∧
    (classify cs)[start]? = some Region.code

theorem getElem?_mergeDue_iff {as bs : List Bool} :
    (mergeDue as bs)[i]? = some true ↔ as[i]? = some true ∨ bs[i]? = some true := by
  fun_induction mergeDue as bs generalizing i with
  | case1 bs => simp
  | case2 as => simp
  | case3 a as b bs ih =>
    cases i with
    | zero => simp
    | succ i => simpa using ih

namespace Scan

theorem mode_of_code (hc : c ≠ '\n') {next : Option Char} (h : (s.step c next).1 = .code) :
    s.mode = .code := by
  obtain ⟨mode, depth, substitutions⟩ := s
  by_contra hmode
  by_cases hliteral : mode.isLiteral = true
  · rw [step_of_isLiteral (s := ⟨mode, depth, substitutions⟩) hliteral hc] at h
    cases h
  · cases mode <;> simp_all [step, Mode.isLiteral]
    split at h <;> cases h

def isPlain (c : Char) : Bool :=
  !(['/', '\x27', '\x22', '\x60', '\x7b', '\x7d'].contains c)

theorem step_of_isPlain (hs : s.mode = .code) (hc : isPlain c = true) (next : Option Char) :
    s.step c next = (.code, s) := by
  simp only [isPlain, List.contains_cons, List.contains_nil, Bool.or_false, Bool.not_eq_true',
    Bool.or_eq_false_iff, beq_eq_false_iff_ne] at hc
  obtain ⟨h1, h2, h3, h4, h5, h6⟩ := hc
  simp [step, hs, stepCode, h1, h2, h3, h4, h5, h6]

theorem regions_of_isPlain (hs : s.mode = .code) {w : List Char} (hw : w.all isPlain = true)
    (rest : List Char) (hi : i < w.length) :
    (s.regions (w ++ rest))[i]? = some Region.code := by
  induction w generalizing i with
  | nil => cases hi
  | cons c w ih =>
    obtain ⟨hc, hw⟩ : isPlain c = true ∧ w.all isPlain = true := by simpa using hw
    have hstep := step_of_isPlain hs hc (w ++ rest).head?
    rw [List.cons_append, regions, hstep]
    cases i with
    | zero => rfl
    | succ i => exact ih hw (by simpa using hi)

end Scan

theorem due_erasureAt {rest : List Char} (hc : (s.step c rest.head?).1 = .code)
    (prev : Option Char) (lineStart : Bool)
    (hi : (erasureAt prev lineStart c rest).due[i]? = some true) :
    (s.regions (c :: rest))[i]? = some Region.code := by
  obtain ⟨rfl, ⟨t, rfl⟩, heq⟩ | ⟨rfl, ⟨t, rfl⟩, heq⟩ | ⟨-, heq⟩ | ⟨-, -, heq⟩ | heq :=
    erasureAt_cases prev lineStart c rest
  · have hmode := Scan.mode_of_code (by decide) hc
    have hnext : (s.step '\x7b' (['|'] ++ t).head?).2.mode = .code := by
      simp [Scan.step, hmode, Scan.stepCode]
    rw [heq] at hi
    obtain rfl : i = 1 := by
      rcases i with - | - | i
      · cases hi
      · rfl
      · cases hi
    exact Scan.regions_of_isPlain hnext (by decide) t Nat.zero_lt_one
  · have hmode := Scan.mode_of_code (by decide) hc
    rw [heq] at hi
    have hlt : i < 7 := by
      have hsome := (List.getElem?_eq_some_iff.1 hi).1
      simpa [Erasure.due] using hsome
    exact Scan.regions_of_isPlain (w := '%' :: "checks".toList) hmode (by decide) t hlt
  · rw [heq] at hi
    obtain rfl : i = 0 := by
      cases i with
      | zero => rfl
      | succ i => cases hi
    exact congrArg some hc
  · rw [heq] at hi
    cases hi
  · rw [heq] at hi
    cases hi

/-- The pass stands behind `done`: what is due is code, and a statement that it is in the middle of
is an import. -/
structure Tracks (cs : List Char) (e : Eraser) (done rest : List Char) (s : Scan) : Prop where
  text : cs = done ++ rest
  regions : ∀ i : Nat, (classify cs)[done.length + i]? = (s.regions rest)[i]?
  lineStart : e.lineStart = startsLine done
  due : ∀ i : Nat, e.due[i]? = some true → (s.regions rest)[i]? = some Region.code
  skip : 0 < e.skip → ∃ start ≤ done.length,
    done.length + e.skip = start + statementLength (cs.drop start) ∧
    startsLine (cs.take start) = true ∧ "import typeof ".toList <+: cs.drop start ∧
    (classify cs)[start]? = some Region.code

namespace Tracks
variable {cs : List Char} {e : Eraser} {done : List Char} {c : Char} {rest : List Char} {s : Scan}

theorem inImport (h : Tracks cs e done rest s) (hskip : 0 < e.skip) : InImport cs done.length := by
  obtain ⟨start, hle, hend, hstart⟩ := h.skip hskip
  exact ⟨start, hle, by omega, hstart⟩

/-- One character: it is overwritten for a reason, and the pass goes on. -/
theorem step (h : Tracks cs e done (c :: rest) s) (pragma : Bool) :
    Tracks cs (e.step c rest (s.step c rest.head?).1 pragma).2 (done ++ [c]) rest
        (s.step c rest.head?).2 ∧
      ((e.step c rest (s.step c rest.head?).1 pragma).1 = true →
        pragma = true ∨ (s.step c rest.head?).1 = .code ∨ InImport cs done.length) := by
  have htext : cs = done ++ [c] ++ rest := by rw [h.text, List.append_assoc]; rfl
  have hlength : (done ++ [c]).length = done.length + 1 := by simp
  have hregions : ∀ i : Nat, (classify cs)[(done ++ [c]).length + i]? =
      ((s.step c rest.head?).2.regions rest)[i]? := by
    intro i
    rw [hlength, Nat.add_assoc, Nat.add_comm 1, h.regions (i + 1)]
    rfl
  have hlineStart : e.lineStartBehind c = startsLine (done ++ [c]) := by
    rw [startsLine_append, Eraser.lineStartBehind, h.lineStart]
  have hnone : ∀ i : Nat, ([] : List Bool)[i]? = some true →
      ((s.step c rest.head?).2.regions rest)[i]? = some Region.code := by simp
  obtain ⟨hskip, hstep⟩ | ⟨-, n, herasure, hstep⟩ | ⟨-, -, due, mark, hdue, hmark, hstep⟩ :=
    e.step_cases c rest (s.step c rest.head?).1 pragma
  · rw [hstep]
    refine ⟨⟨htext, hregions, hlineStart, hnone, fun _ => ?_⟩, fun _ =>
      Or.inr (Or.inr (h.inImport hskip))⟩
    obtain ⟨start, hle, hend, hstart⟩ := h.skip hskip
    exact ⟨start, by omega, by rw [← hend, hlength]; dsimp only; omega, hstart⟩
  · obtain ⟨hr, hstart, himport, rfl⟩ := Eraser.erasure_statement herasure
    have hpos := (statementLength_pos himport).2
    have hdrop : cs.drop done.length = c :: rest := by rw [h.text, List.drop_left]
    have htake : cs.take done.length = done := by rw [h.text, List.take_left]
    have hcode : (classify cs)[done.length]? = some Region.code :=
      (h.regions 0).trans (congrArg some hr)
    rw [hstep]
    refine ⟨⟨htext, hregions, hlineStart, hnone, fun _ => ?_⟩, fun _ => Or.inr (Or.inl hr)⟩
    refine ⟨done.length, by omega, ?_, ?_, ?_, hcode⟩
    · rw [hdrop, hlength]
      dsimp only
      omega
    · rw [htake, ← h.lineStart, hstart]
    · rwa [hdrop]
  · have hcode : ∀ i : Nat, due[i]? = some true →
        (s.regions (c :: rest))[i]? = some Region.code := by
      intro i hi
      rw [hdue] at hi
      rcases getElem?_mergeDue_iff.1 hi with hold | hnew
      · exact h.due i hold
      · by_cases hr : (s.step c rest.head?).1 = .code
        · rw [Eraser.erasure, if_pos hr] at hnew
          exact due_erasureAt hr e.prev e.lineStart hnew
        · rw [Eraser.erasure, if_neg hr] at hnew
          cases hnew
    rw [hstep]
    refine ⟨⟨htext, hregions, hlineStart, ?_, fun hskip => absurd hskip (Nat.lt_irrefl 0)⟩, ?_⟩
    · intro i hi
      exact hcode (i + 1) (by rwa [← List.getElem?_tail])
    · intro htrue
      rw [hmark, Bool.or_eq_true] at htrue
      rcases htrue with hpragma | hhead
      · exact Or.inl hpragma
      · refine Or.inr (Or.inl (Option.some.inj (hcode 0 ?_)))
        cases due with
        | nil => cases hhead
        | cons d due => exact congrArg some hhead

/-- From any place on, only pragma lines, code and imports are overwritten. -/
theorem marks (h : Tracks cs e done rest s) {pragmas : List Bool}
    (hk : (e.marks rest ((s.regions rest).zip pragmas))[k]? = some true) :
    pragmas[k]? = some true ∨ (s.regions rest)[k]? = some Region.code ∨
      InImport cs (done.length + k) := by
  induction rest generalizing e done s pragmas k with
  | nil => cases hk
  | cons c rest ih =>
    cases pragmas with
    | nil => cases hk
    | cons pragma pragmas =>
      obtain ⟨hnext, hmark⟩ := h.step pragma
      cases k with
      | zero =>
        rcases hmark (Option.some.inj hk) with hpragma | hcode | himport
        · exact Or.inl (congrArg some hpragma)
        · exact Or.inr (Or.inl (congrArg some hcode))
        · exact Or.inr (Or.inr himport)
      | succ k =>
        have hrest := ih hnext hk
        rw [List.length_append, List.length_singleton, Nat.add_assoc, Nat.add_comm 1] at hrest
        exact hrest

theorem init (cs : List Char) : Tracks cs {} [] cs {} where
  text := rfl
  regions := fun i => by rw [List.length_nil, Nat.zero_add]; rfl
  lineStart := rfl
  due := by simp
  skip := fun hskip => absurd hskip (Nat.lt_irrefl 0)

end Tracks

theorem erasedMarks_cases (h : (erasedMarks cs)[k]? = some true) :
    (pragmaMarks cs)[k]? = some true ∨ (classify cs)[k]? = some Region.code ∨ InImport cs k := by
  have hmarks := (Tracks.init cs).marks h
  rwa [List.length_nil, Nat.zero_add] at hmarks

/-! ### Bytes that are left alone -/

/-- The number of the character that a byte belongs to. -/
def charIndex : List Char → Nat → Nat
  | [], k => k
  | c :: cs, k => if k < c.utf8Size then 0 else charIndex cs (k - c.utf8Size) + 1

theorem getElem?_bytewise {α : Type} {marks : List α} (h : marks.length = cs.length) (k : Nat) :
    (bytewise cs marks)[k]? = marks[charIndex cs k]? := by
  induction cs generalizing marks k with
  | nil =>
    obtain rfl := List.length_eq_zero_iff.1 h
    rfl
  | cons c cs ih =>
    cases marks with
    | nil => cases h
    | cons a marks =>
      rw [bytewise_cons, charIndex]
      by_cases hk : k < c.utf8Size
      · rw [if_pos hk, List.getElem?_append_left (by simpa using hk), List.getElem?_replicate,
          if_pos hk, List.getElem?_cons_zero]
      · rw [if_neg hk, List.getElem?_append_right (by simpa using Nat.not_lt.1 hk),
          List.length_replicate, List.getElem?_cons_succ, ih (by simpa using h)]

theorem charIndex_byteLength (h : i ≤ cs.length) : charIndex cs (byteLength (cs.take i)) = i := by
  induction cs generalizing i with
  | nil =>
    obtain rfl : i = 0 := Nat.le_zero.1 h
    rfl
  | cons c cs ih =>
    cases i with
    | zero => rw [List.take_zero, byteLength, charIndex, if_pos c.utf8Size_pos]
    | succ i =>
      rw [List.take_succ_cons, byteLength, charIndex, if_neg (by omega), Nat.add_sub_cancel_left,
        ih (by simpa using h)]

theorem mark_of_ne {bytes : List UInt8} {marks : List Bool} (h : marks.length = bytes.length)
    (hk : (overwriteBytes bytes marks)[k]? ≠ bytes[k]?) : marks[k]? = some true := by
  by_cases hlt : k < bytes.length
  · rw [List.getElem?_eq_getElem (by omega)]
    by_contra hfalse
    have hmark : marks[k] = false := by simpa using hfalse
    refine hk ?_
    rw [List.getElem?_eq_getElem hlt, List.getElem?_eq_getElem (by simp [overwriteBytes]; omega)]
    simp [overwriteBytes, hmark, spelledByte]
  · refine absurd ?_ hk
    rw [List.getElem?_eq_none (Nat.not_lt.1 hlt),
      List.getElem?_eq_none (by simp [overwriteBytes]; omega)]

/-- The first byte of a character that is no white space is neither a space nor a line feed. -/
theorem spelledByte_ne (h : isBlank c = false) {b : UInt8} (hb : b ∈ String.utf8EncodeChar c) :
    spelledByte b true ≠ b := by
  have hne : ∀ a : Char, a.toNat < 128 → isBlank a = true → b ≠ UInt8.ofNat a.toNat := by
    rintro a ha hblank rfl
    by_cases hc : c.toNat < 128
    · rw [utf8EncodeChar_of_lt hc, List.mem_singleton] at hb
      have hchar := congrArg asChar hb
      rw [asChar_ofNat ha, asChar_ofNat hc] at hchar
      rw [← hchar, hblank] at h
      cases h
    · have hle := le_of_mem_utf8EncodeChar (Nat.not_lt.1 hc) hb
      rw [UInt8.toNat_ofNat', Nat.mod_eq_of_lt (by omega)] at hle
      omega
  have hspace : b ≠ 32 := hne ' ' (by decide) (by decide)
  have hfeed : b ≠ 10 := hne '\n' (by decide) (by decide)
  simpa [spelledByte, hfeed] using hspace.symm

/-- Erasing annotations leaves literals alone, but for imports of types by value, and what it
overwrites on pragma lines are comments and white space. -/
structure Conservative (text : String) : Prop where
  literals : ∀ k : Nat, (classifyBytes text.toList)[k]? = some Region.literal →
    ¬ InImport text.toList (charIndex text.toList k) →
      (eraseFlow text).toByteArray.data.toList[k]? = text.toByteArray.data.toList[k]?
  pragmas : ∀ k : Nat,
    (blankPragmas 0 (splitFeeds text.toList) text.toByteArray.data.toList)[k]? ≠
        text.toByteArray.data.toList[k]? →
      (classifyBytes text.toList)[k]? = some Region.comment ∨
        text.toList[charIndex text.toList k]?.any isBlank = true

/-- A byte that is overwritten stands on a pragma line, in code, or in an import. -/
theorem changed_cases
    (h : (eraseFlow text).toByteArray.data.toList[k]? ≠ text.toByteArray.data.toList[k]?) :
    (pragmaMarks text.toList)[charIndex text.toList k]? = some true ∨
      (classifyBytes text.toList)[k]? = some Region.code ∨
      InImport text.toList (charIndex text.toList k) := by
  have hlength := length_erasedMarks text.toList
  rw [toByteArray_toList, toByteArray_toList, ← bytesOf, ← bytesOf, toList_eraseFlow,
    bytesOf_overwrite hlength] at h
  have hmark := mark_of_ne (by rw [length_bytewise hlength, length_bytesOf]) h
  rw [getElem?_bytewise hlength] at hmark
  have hregion : (classifyBytes text.toList)[k]? =
      (classify text.toList)[charIndex text.toList k]? :=
    getElem?_bytewise (length_classify _) k
  rw [hregion]
  exact erasedMarks_cases hmark

theorem blankPragmas_bytes (text : String) :
    blankPragmas 0 (splitFeeds text.toList) text.toByteArray.data.toList =
      overwriteBytes text.toByteArray.data.toList
        (bytewise text.toList (pragmaMarks text.toList)) := by
  rw [toByteArray_toList]
  exact blankPragmas_eq [] text.toList

theorem getElem?_classifyBytes (cs : List Char) (k : Nat) :
    (classifyBytes cs)[k]? = (classify cs)[charIndex cs k]? :=
  getElem?_bytewise (length_classify cs) k

theorem exists_firstByte (h : cs[i]? = some c) :
    ∃ b ∈ String.utf8EncodeChar c, (bytesOf cs)[byteLength (cs.take i)]? = some b := by
  obtain ⟨hi, hc⟩ := List.getElem?_eq_some_iff.1 h
  have hne : String.utf8EncodeChar c ≠ [] := by
    rw [← List.length_pos_iff, String.length_utf8EncodeChar]
    exact c.utf8Size_pos
  obtain ⟨b, bs, hbytes⟩ := List.exists_cons_of_ne_nil hne
  have htext : bytesOf cs = bytesOf (cs.take i) ++ (b :: (bs ++ bytesOf (cs.drop (i + 1)))) := by
    rw [← List.cons_append, ← hbytes, ← bytesOf_cons, ← hc, ← List.drop_eq_getElem_cons hi,
      ← bytesOf_append, List.take_append_drop]
  refine ⟨b, hbytes ▸ List.mem_cons_self, ?_⟩
  rw [htext, ← length_bytesOf, List.getElem?_append_right (Nat.le_refl _), Nat.sub_self,
    List.getElem?_cons_zero]

theorem Conservative.pragmasAreComments (h : Conservative text) :
    pragmasAreComments text.toList = true := by
  rw [pragmasAreComments_iff]
  intro i c hc hpragma hdark
  have hindex := charIndex_byteLength (Nat.le_of_lt (List.getElem?_eq_some_iff.1 hc).1)
  obtain ⟨b, hmem, hb⟩ := exists_firstByte hc
  have hchanged : (blankPragmas 0 (splitFeeds text.toList)
      text.toByteArray.data.toList)[byteLength (text.toList.take i)]? ≠
      text.toByteArray.data.toList[byteLength (text.toList.take i)]? := by
    have hmark := getElem?_bytewise (length_pragmaMarks text.toList)
      (byteLength (text.toList.take i))
    rw [hindex, hpragma] at hmark
    rw [blankPragmas_bytes, toByteArray_toList, ← bytesOf, overwriteBytes, List.getElem?_zipWith,
      hb, hmark]
    simpa using spelledByte_ne hdark hmem
  rcases h.pragmas _ hchanged with hcomment | hblank
  · rwa [getElem?_classifyBytes, hindex] at hcomment
  · rw [hindex, hc, Option.any_some, hdark] at hblank
    cases hblank

theorem conservative_of_pragmasAreComments (h : pragmasAreComments text.toList = true) :
    Conservative text := by
  rw [pragmasAreComments_iff] at h
  have hsettled : Scan.IsSettled {} := ⟨by simp, by rintro q (h | h) <;> cases h⟩
  refine ⟨fun k hliteral himport => ?_, fun k hchanged => ?_⟩
  · by_contra hchanged
    rcases changed_cases hchanged with hpragma | hcode | hinside
    · rw [getElem?_classifyBytes] at hliteral
      exact not_literal_of_pragma hsettled h hpragma hliteral
    · rw [hliteral] at hcode
      cases hcode
    · exact himport hinside
  · have hlength : (bytewise text.toList (pragmaMarks text.toList)).length =
        text.toByteArray.data.toList.length := by
      rw [length_bytewise (length_pragmaMarks _), toByteArray_toList, ← bytesOf, length_bytesOf]
    rw [blankPragmas_bytes] at hchanged
    have hpragma := mark_of_ne hlength hchanged
    rw [getElem?_bytewise (length_pragmaMarks _)] at hpragma
    have hlt : charIndex text.toList k < text.toList.length := by
      rw [← length_pragmaMarks]
      exact (List.getElem?_eq_some_iff.1 hpragma).1
    have hc := List.getElem?_eq_getElem hlt
    by_cases hblank : isBlank (text.toList[charIndex text.toList k]) = true
    · exact Or.inr (by rw [hc, Option.any_some, hblank])
    · rw [getElem?_classifyBytes]
      exact Or.inl (h _ _ hc hpragma (Bool.eq_false_iff.2 hblank))

/-- A byte that is overwritten stands on a pragma line, in code, or in an import. Literals, and all
that is no comment on pragma lines, are left alone exactly if the scanner sees nothing but comments
and white space on pragma lines. -/
theorem eraseFlow_conservative_iff (text : String) :
    (∀ k : Nat, (eraseFlow text).toByteArray.data.toList[k]? ≠ text.toByteArray.data.toList[k]? →
      (pragmaMarks text.toList)[charIndex text.toList k]? = some true ∨
        (classifyBytes text.toList)[k]? = some Region.code ∨
        InImport text.toList (charIndex text.toList k)) ∧
    (Conservative text ↔ pragmasAreComments text.toList = true) :=
  ⟨fun _ h => changed_cases h, Conservative.pragmasAreComments, conservative_of_pragmasAreComments⟩

/-- A pragma, an import with a string, and a string and a template that look like annotations. -/
theorem eraseFlow_conservative_sample :
    let text := "/* @flow */\nimport typeof A from 'a';\nlet b: ?C = [':?d', \x60\x7b|e|\x7d\x60];"
    pragmasAreComments text.toList = true ∧ Conservative text ∧
      eraseFlow text = "           \n                         \n" ++
        "let b:  C = [':?d', \x60\x7b|e|\x7d\x60];" := by
  intro text
  have hcomments : pragmasAreComments text.toList = true := by decide +kernel
  exact ⟨hcomments, (eraseFlow_conservative_iff text).2.2 hcomments, by decide +kernel⟩

/-- A line of a template that looks like a pragma is overwritten. -/
theorem eraseFlow_not_conservative :
    let text := "\x60\n// @flow\n\x60"
    eraseFlow text = "\x60\n        \n\x60" ∧
      (classifyBytes text.toList)[2]? = some Region.literal ∧ ¬ Conservative text := by
  intro text
  have herased : eraseFlow text = "\x60\n        \n\x60" := by decide +kernel
  have hliteral : (classifyBytes text.toList)[2]? = some Region.literal := by decide +kernel
  refine ⟨herased, hliteral, fun h => ?_⟩
  have himport : ¬ InImport text.toList (charIndex text.toList 2) := by
    rintro ⟨start, -, -, -, hword, -⟩
    have hlength := hword.length_le
    rw [List.length_drop, show "import typeof ".toList.length = 14 from rfl,
      show text.toList.length = 12 by decide +kernel] at hlength
    omega
  have hkept := h.literals 2 hliteral himport
  rw [herased, toByteArray_toList, toByteArray_toList] at hkept
  exact absurd hkept (by decide +kernel)

end Revue.Source
