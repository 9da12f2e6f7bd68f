import Revue.Proofs.PragmaErasure
import Revue.Proofs.Reindentation

/-!
# The margin of a piece of source

The margin that the lines of a piece of source have in common comes from the place where the piece
stood in its file. Dedenting takes it away, so that pieces that differ only in that margin become
the same text, and a text that was dedented has none to take. Both need that the changed text is
read as before: from the same state at the start of each line, whatever is open there.
-/

namespace Revue.Source
open Text

variable {a c rest : List Char}

/-! ### The scanner at the ends of lines -/

def Mode.isQuote : Mode → Bool
  | .quote _ => true
  | _ => false

namespace Scan
variable {s : Scan} {b : Bool} {p w v : List Char}

theorem step_head?_of_isQuiet (s : Scan) (d : Char) (p : List Char) (ha : isQuiet a.head?)
    (hc : isQuiet c.head?) :
    s.step d (p ++ a).head? = s.step d (p ++ c).head? := by
  cases p with
  | nil => exact step_of_isQuiet s d ha hc
  | cons e p => rfl

theorem after_of_isQuiet (s : Scan) (p : List Char) (ha : isQuiet a.head?) (hc : isQuiet c.head?) :
    s.after p a = s.after p c := by
  induction p generalizing s with
  | nil => rfl
  | cons d p ih => rw [after, after, step_head?_of_isQuiet s d p ha hc, ih]

theorem after_margin (hs : s.IsCalm) (hw : IsMargin w) (rest : List Char) : s.after w rest = s := by
  induction w with
  | nil => rfl
  | cons c w ih =>
    obtain ⟨hc, hfeed⟩ := hw c List.mem_cons_self
    rw [after, step_calm hs hc hfeed]
    exact ih fun d hd => hw d (List.mem_cons_of_mem c hd)

theorem Awaits.after (h : s.Awaits (p ++ rest).head?) : (s.after p rest).Awaits rest.head? := by
  induction p generalizing s with
  | nil => exact h
  | cons c p ih => exact ih (step_awaits rfl h)

/-- Blanks behind which nothing is open stand where nothing was open. -/
theorem isCalm_of_after_margin (hs : s.Awaits (w ++ rest).head?) (hw : IsMargin w)
    (h : (s.after w rest).IsCalm) : s.IsCalm := by
  induction w generalizing s with
  | nil => exact h
  | cons c w ih =>
    obtain ⟨hc, hfeed⟩ := hw c List.mem_cons_self
    have hnext := ih (step_awaits rfl hs) (fun d hd => hw d (List.mem_cons_of_mem c hd)) h
    by_contra hcalm
    exact step_blank_of_not_calm hc hs hcalm rfl hfeed hnext

def feed (s : Scan) (p : List Char) : Region × Scan := (s.after p ['\n']).step '\n' none

theorem isQuiet_feed : isQuiet (some '\n') := isQuiet_of_isBlank (by decide)

theorem feed_cons (s : Scan) (c : Char) (p rest : List Char) :
    s.feed (c :: p) = (s.step c (p ++ '\n' :: rest).head?).2.feed p := by
  cases p <;> rfl

theorem feed_leading (hs : s.IsCalm) (hw : IsMargin w) (p : List Char) :
    s.feed (w ++ p) = s.feed p := by
  rw [feed, after_append, after_margin hs hw, feed]

theorem feed_trailing (hs : s.StartsLine b) (hv : IsMargin v)
    (hcalm : (s.after (p ++ v) ['\n']).IsCalm) : s.feed (p ++ v) = s.feed p := by
  have hhead : isQuiet (v ++ ['\n']).head? := by
    cases v with
    | nil => exact isQuiet_feed
    | cons c v => exact isQuiet_of_isBlank (hv c List.mem_cons_self).1
  have hawaits : (s.after p (v ++ ['\n'])).Awaits (v ++ ['\n']).head? := (hs.awaits _).after
  rw [after_append] at hcalm
  have hbefore := isCalm_of_after_margin hawaits hv hcalm
  rw [feed, after_append, after_margin hbefore hv, feed,
    after_of_isQuiet s p (c := ['\n']) hhead isQuiet_feed]

theorem ne_quote (h : s.mode.isQuote = false) (q : Char) : s.mode ≠ .quote q := by
  intro hq
  rw [hq] at h
  cases h

theorem startsLine_feed (hs : s.StartsLine b) (p : List Char) :
    (s.feed p).2.StartsLine ((s.feed p).1 == .literal) := by
  have hawaits : (s.after p ['\n']).Awaits (some '\n') := (hs.awaits _).after
  cases hquote : (s.after p ['\n']).mode.isQuote with
  | false => exact (step_feed_cases rfl hawaits (ne_quote hquote)).1
  | true =>
    -- a string that is broken is left
    obtain ⟨q, hq⟩ : ∃ q, (s.after p ['\n']).mode = .quote q := by
      cases hmode : (s.after p ['\n']).mode <;> simp_all [Mode.isQuote]
    simp [feed, step, stepQuote, hq, StartsLine]

end Scan

end Revue.Source

namespace Revue.Vue
open Text Source

variable {b : Bool} {c : Char} {l : Line} {s : Scan} {cs p : List Char} {ks ls : List Line}
  {P : Scan → Prop} {ps : List (List Char)}

/-! ### The lines that the scanner finds -/

def scanLines (s : Scan) (b : Bool) : List (List Char) → List Line
  | [] => []
  | [p] => [⟨p, b, false⟩]
  | p :: q :: ps =>
    ⟨p, b, (s.feed p).1 == .literal⟩ ::
      scanLines (s.feed p).2 ((s.feed p).1 == .literal) (q :: ps)

theorem scanLines_cons (s : Scan) (b : Bool) (p : List Char) (h : ps ≠ []) :
    scanLines s b (p :: ps) =
      ⟨p, b, (s.feed p).1 == .literal⟩ ::
        scanLines (s.feed p).2 ((s.feed p).1 == .literal) ps := by
  cases ps with
  | nil => exact absurd rfl h
  | cons q ps => rfl

theorem map_text_scanLines (s : Scan) (b : Bool) (ps : List (List Char)) :
    (scanLines s b ps).map Line.text = ps := by
  fun_induction scanLines s b ps with
  | case1 => rfl
  | case2 => rfl
  | case3 s b p q ps ih => rw [List.map_cons, ih]

theorem feedMarks_line {line : List Char} (hfeed : '\n' ∉ line) (s : Scan) (rest : List Char) :
    feedMarks ((line ++ '\n' :: rest).zip (s.regions (line ++ '\n' :: rest))) =
      ((s.feed line).1 == .literal) :: feedMarks (rest.zip ((s.feed line).2.regions rest)) := by
  induction line generalizing s with
  | nil =>
    rw [List.nil_append, Scan.regions, Scan.step_feed]
    rfl
  | cons c line ih =>
    obtain ⟨hc, hline⟩ : c ≠ '\n' ∧ '\n' ∉ line := by simpa [eq_comm] using hfeed
    rw [Scan.feed_cons s c line rest, ← ih hline]
    simp [feedMarks, Scan.regions, hc]

theorem markLines_eq_scanLines (s : Scan) (b : Bool) (cs : List Char) :
    markLines (splitFeeds cs) (b :: feedMarks (cs.zip (s.regions cs))) =
      scanLines s b (splitFeeds cs) := by
  induction cs using line_induction generalizing s b with
  | last line hfeed =>
    have hnone : feedMarks (line.zip (s.regions line)) = [] := by
      refine feedMarks_of_notMem fun hmem => hfeed ?_
      obtain ⟨⟨c, r⟩, hpair, rfl⟩ := List.mem_map.1 hmem
      exact (List.of_mem_zip hpair).1
    rw [splitFeeds_last hfeed, hnone]
    rfl
  | feed line cs hfeed ih =>
    rw [splitFeeds_line hfeed, feedMarks_line hfeed, scanLines_cons _ _ _ (splitFeeds_ne_nil cs),
      ← ih]
    rfl

/-- The lines of a text, with an empty one behind a line feed at its end. -/
def sheet (cs : List Char) : List Line := markLines (splitFeeds cs) (literalLineStarts cs)

theorem sheet_eq (cs : List Char) : sheet cs = scanLines {} false (splitFeeds cs) :=
  markLines_eq_scanLines {} false cs

theorem lines_eq_splitFeeds (hreturn : '\r' ∉ cs) :
    lines cs =
      if (splitFeeds cs).getLast? = some [] then (splitFeeds cs).dropLast else splitFeeds cs :=
  linesOfPieces_eq fun _ hp hmem => hreturn (mem_of_mem_pieces hp hmem)

theorem splitLines_eq_sheet (hreturn : '\r' ∉ cs) :
    splitLines cs =
      if (splitFeeds cs).getLast? = some [] then (sheet cs).dropLast else sheet cs := by
  have hlength : (splitFeeds cs).length = (sheet cs).length := by
    rw [sheet_eq, ← List.length_map Line.text, map_text_scanLines]
  rw [splitLines, lines_eq_splitFeeds hreturn]
  split
  · rw [List.dropLast_eq_take, List.dropLast_eq_take, markLines_take, hlength, sheet]
  · rfl

theorem splitFeeds_joinWith (hps : ∀ p ∈ ps, '\n' ∉ p) (hne : ps ≠ []) :
    splitFeeds (joinWith ['\n'] ps) = ps := by
  induction ps with
  | nil => exact absurd rfl hne
  | cons p ps ih =>
    obtain ⟨hp, hrest⟩ := List.forall_mem_cons.1 hps
    cases ps with
    | nil => exact splitFeeds_last hp
    | cons q ps =>
      have hjoin : joinWith ['\n'] (p :: q :: ps) = p ++ '\n' :: joinWith ['\n'] (q :: ps) := by
        simp [joinWith]
      rw [hjoin, splitFeeds_line hp, ih hrest (by simp)]

theorem feed_notMem_of_mem_splitFeeds (cs : List Char) : ∀ p ∈ splitFeeds cs, '\n' ∉ p := by
  induction cs using line_induction with
  | last line hfeed => simpa [splitFeeds_last hfeed] using hfeed
  | feed line cs hfeed ih =>
    rw [splitFeeds_line hfeed]
    exact List.forall_mem_cons.2 ⟨hfeed, ih⟩

theorem sheet_joinWith (hps : ∀ p ∈ ps, '\n' ∉ p) (hne : ps ≠ []) :
    sheet (joinWith ['\n'] ps) = scanLines {} false ps := by
  rw [sheet_eq, splitFeeds_joinWith hps hne]

/-- A condition that holds of the scanner at each of the line feeds between some lines. -/
def AtFeeds (P : Scan → Prop) (s : Scan) : List (List Char) → Prop
  | [] => True
  | [_] => True
  | p :: q :: ps => P (s.after p ['\n']) ∧ AtFeeds P (s.feed p).2 (q :: ps)

/-- A changed line after which the line feed is read as before, from a state at the start of the
line. -/
def KeepsFeed (P : Scan → Prop) (f : Line → List Char) (l : Line) : Prop :=
  ∀ s : Scan, s.StartsLine l.inLiteral → P (s.after l.text ['\n']) →
    l.continuesLiteral = ((s.feed l.text).1 == .literal) → s.feed (f l) = s.feed l.text

theorem scanLines_ne_nil (s : Scan) (b : Bool) (h : ps ≠ []) :
    scanLines s b ps ≠ [] := by
  rwa [ne_eq, ← List.map_eq_nil_iff (f := Line.text), map_text_scanLines]

section Changed
variable {f g : Line → List Char}

/-- Lines that are changed one by one are still the lines of their text. -/
theorem scanLines_map (hf : ∀ l ∈ scanLines s b ps, KeepsFeed P f l) (hs : s.StartsLine b)
    (hps : AtFeeds P s ps) :
    scanLines s b ((scanLines s b ps).map f) =
      (scanLines s b ps).map fun l => l.withText (f l) := by
  fun_induction scanLines s b ps with
  | case1 => rfl
  | case2 => rfl
  | case3 s b p q ps ih =>
    obtain ⟨hfirst, hrest⟩ := List.forall_mem_cons.1 hf
    have hne := scanLines_ne_nil (s.feed p).2 ((s.feed p).1 == .literal) (List.cons_ne_nil q ps)
    rw [List.map_cons, scanLines_cons _ _ _ (by simpa using hne), hfirst s hs hps.1 rfl,
      ih hrest (Scan.startsLine_feed hs p) hps.2]
    rfl

/-- The same with another change to the first line. -/
theorem scanLines_map_tail {first : Line} {rest : List Line} (h : scanLines s b ps = first :: rest)
    (hg : KeepsFeed P g first) (hf : ∀ l ∈ rest, KeepsFeed P f l) (hs : s.StartsLine b)
    (hps : AtFeeds P s ps) :
    scanLines s b (g first :: rest.map f) =
      first.withText (g first) :: rest.map fun l => l.withText (f l) := by
  rcases ps with - | ⟨p, - | ⟨q, ps⟩⟩
  · cases h
  · obtain ⟨rfl, rfl⟩ := List.cons.inj h
    rfl
  · obtain ⟨rfl, rfl⟩ := List.cons.inj h
    have hne := scanLines_ne_nil (s.feed p).2 ((s.feed p).1 == .literal) (List.cons_ne_nil q ps)
    rw [scanLines_cons _ _ _ (by simpa using hne), hg s hs hps.1 rfl,
      scanLines_map hf (Scan.startsLine_feed hs p) hps.2]
    rfl

end Changed

/-! ### Another base margin -/

namespace Line

def isPlain (l : Line) : Bool := !l.isBlank && !l.inLiteral

def shift (k : Nat) (l : Line) : List Char :=
  if l.isPlain then List.replicate k ' ' ++ l.text else l.text

theorem isPlain_iff : l.isPlain = true ↔ l.inLiteral = false ∧ isBlankLine l.text = false := by
  cases hlit : l.inLiteral <;> simp [isPlain, isBlank, hlit]

theorem isBlank_of_not_isPlain (h : ¬ l.isPlain = true) (hlit : l.inLiteral = false) :
    l.isBlank = true := by
  simpa [isPlain, hlit] using h

end Line

def shiftSheet (k : Nat) : List Line → List Line
  | [] => []
  | first :: rest => first :: rest.map fun l => l.withText (l.shift k)

/-- A text with spaces in front of every line after the first that is neither blank nor the
continuation of a literal. -/
def shiftTail (k : Nat) (cs : List Char) : List Char := sheetText (shiftSheet k (sheet cs))

namespace Line
variable {l : Line}

theorem fits_shift (k : Nat) (l : Line) : l.Fits (l.withText (l.shift k)) := by
  by_cases h : l.isPlain = true
  · have hlit := (isPlain_iff.1 h).1
    rw [shift, if_pos h]
    exact ⟨[], l.text, [], k, by simp, rfl, isMargin_nil, isMargin_nil, by simp [hlit],
      fun _ => rfl⟩
  · rw [shift, if_neg h]
    exact fits_self l

theorem Fits.isPlain_eq {k : Line} (h : l.Fits k) : k.isPlain = l.isPlain := by
  have hblank : k.isBlank = l.isBlank := by rw [← core_isBlank, h.core_eq, core_isBlank]
  obtain ⟨w, m, v, n, -, rfl, -⟩ := h
  rw [isPlain, hblank]
  rfl

theorem isPlain_shift (k : Nat) (l : Line) : (l.withText (l.shift k)).isPlain = l.isPlain :=
  (fits_shift k l).isPlain_eq

section
variable (h : l.isPlain = true)
include h

theorem margin_shift (k : Nat) : (l.withText (l.shift k)).margin = l.margin + k := by
  have hspaces : ∀ c ∈ List.replicate k ' ', (c == ' ' || c == '\t') = true := by
    intro c hc
    rw [List.eq_of_mem_replicate hc]
    rfl
  rw [shift, if_pos h, margin, withText, List.takeWhile_append_of_pos hspaces, List.length_append,
    List.length_replicate, Nat.add_comm]
  rfl

theorem trimmed_shift (k : Nat) :
    (l.withText (l.shift k)).trimmed = List.replicate k ' ' ++ l.trimmed := by
  rw [shift, if_pos h]
  unfold trimmed withText
  dsimp only
  split
  · rfl
  · rw [trimEnd_append, if_neg (by rw [(isPlain_iff.1 h).2]; decide)]

theorem outdent_of_isPlain (n : Nat) : l.outdent n = l.trimmed.drop n := by
  have hflags := Bool.and_eq_true_iff.1 h
  rw [outdent, if_neg (by simpa using hflags.2), if_neg (by simpa using hflags.1)]

/-- Taking more away from a line with more spaces in front. -/
theorem outdent_shift (k common : Nat) :
    (l.withText (l.shift k)).outdent (common + k) = l.outdent common := by
  have hdrop : (List.replicate k ' ' ++ l.trimmed).drop (common + k) = l.trimmed.drop common := by
    rw [List.drop_append, List.drop_eq_nil_of_le (by simp), List.length_replicate,
      Nat.add_sub_cancel, List.nil_append]
  rw [outdent_of_isPlain h, outdent_of_isPlain (by rwa [isPlain_shift]), trimmed_shift h, hdrop]

end

/-- Of other lines nothing is taken away. -/
theorem outdent_of_not_isPlain (h : ¬ l.isPlain = true) (n m : Nat) :
    l.outdent n = l.outdent m := by
  unfold outdent
  split
  · rfl
  · rename_i hlit
    rw [if_pos (isBlank_of_not_isPlain h (by simpa using hlit)),
      if_pos (isBlank_of_not_isPlain h (by simpa using hlit))]

end Line

section
variable (hl : l ∈ ls) (h : l.isPlain = true)
include hl h

theorem exists_margin_eq : ∃ l' ∈ ls, l'.isPlain = true ∧ l'.margin = commonMargin ls := by
  have hne : ((ls.filter fun l => !l.isBlank && !l.inLiteral).map Line.margin) ≠ [] := by
    rw [ne_eq, List.map_eq_nil_iff]
    exact List.ne_nil_of_mem (List.mem_filter.2 ⟨hl, h⟩)
  obtain ⟨n, hn⟩ : ∃ n,
      ((ls.filter fun l => !l.isBlank && !l.inLiteral).map Line.margin).min? = some n := by
    rw [← Option.isSome_iff_exists, List.isSome_min?_iff]
    exact hne
  obtain ⟨l', hl', hmargin⟩ := List.mem_map.1 (List.min?_mem hn)
  obtain ⟨hmem, hplain⟩ := List.mem_filter.1 hl'
  refine ⟨l', hmem, hplain, ?_⟩
  rw [commonMargin, hn, hmargin]
  rfl

theorem commonMargin_le_of_isPlain : commonMargin ls ≤ l.margin := by
  have hflags := Bool.and_eq_true_iff.1 h
  exact commonMargin_le hl (by simpa using hflags.1) (by simpa using hflags.2)

theorem commonMargin_shift (k : Nat) :
    commonMargin (ls.map fun l => l.withText (l.shift k)) = commonMargin ls + k := by
  have hmem : ∀ {l : Line}, l ∈ ls →
      l.withText (l.shift k) ∈ ls.map fun l => l.withText (l.shift k) := fun hl =>
    List.mem_map_of_mem hl
  apply Nat.le_antisymm
  · obtain ⟨l', hl', hplain, hmargin⟩ := exists_margin_eq hl h
    rw [← hmargin, ← Line.margin_shift hplain]
    exact commonMargin_le_of_isPlain (hmem hl') (by rwa [Line.isPlain_shift])
  · obtain ⟨k', hk', hplain, hmargin⟩ :=
      exists_margin_eq (hmem hl) (by rwa [Line.isPlain_shift])
    obtain ⟨l', hl', rfl⟩ := List.mem_map.1 hk'
    rw [Line.isPlain_shift] at hplain
    rw [← hmargin, Line.margin_shift hplain]
    exact Nat.add_le_add_right (commonMargin_le_of_isPlain hl' hplain) k

end

/-- What is taken away grows with the margin. -/
theorem dedentSheet_shiftSheet (k : Nat) (ls : List Line) :
    dedentSheet (shiftSheet k ls) = dedentSheet ls := by
  cases ls with
  | nil => rfl
  | cons first rest =>
    rw [shiftSheet, dedentSheet, dedentSheet, List.map_map]
    congr 1
    refine List.map_congr_left fun l hl => ?_
    rw [Function.comp_apply]
    refine congrArg l.withText ?_
    by_cases h : l.isPlain = true
    · rw [commonMargin_shift hl h, Line.outdent_shift h]
    · have hsame : l.withText (l.shift k) = l := by
        rw [Line.shift, if_neg h]
        rfl
      rw [hsame]
      exact Line.outdent_of_not_isPlain h _ _

theorem sheetText_sheet (cs : List Char) : sheetText (sheet cs) = cs := by
  have hjoin : joinWith ['\n'] (splitFeeds cs) = cs := by
    induction cs using line_induction with
    | last line hfeed => rw [splitFeeds_last hfeed, joinWith]
    | feed line cs hfeed ih =>
      rw [splitFeeds_line hfeed]
      obtain ⟨p, ps, hps⟩ := List.exists_cons_of_ne_nil (splitFeeds_ne_nil cs)
      rw [hps] at ih ⊢
      rw [joinWith, ih, List.append_assoc]
      · rfl
      · simp
  rw [sheetText, sheet_eq, map_text_scanLines, hjoin]

theorem map_text_sheet (cs : List Char) : (sheet cs).map Line.text = splitFeeds cs := by
  rw [sheet_eq, map_text_scanLines]

theorem feed_notMem_of_mem_sheet (hl : l ∈ sheet cs) : '\n' ∉ l.text := by
  refine feed_notMem_of_mem_splitFeeds cs l.text ?_
  rw [← map_text_sheet]
  exact List.mem_map_of_mem hl

theorem sheet_sheetText (hfeed : ∀ l ∈ ls, '\n' ∉ l.text) (hne : ls ≠ []) :
    sheet (sheetText ls) = scanLines {} false (ls.map Line.text) := by
  refine sheet_joinWith ?_ (by simpa using hne)
  intro p hp
  obtain ⟨l, hl, rfl⟩ := List.mem_map.1 hp
  exact hfeed l hl

theorem forall₂_shiftSheet (k : Nat) (ls : List Line) :
    List.Forall₂ Line.Fits ls (shiftSheet k ls) := by
  cases ls with
  | nil => exact .nil
  | cons first rest =>
    refine .cons (Line.fits_self first) ?_
    rw [List.forall₂_map_right_iff, List.forall₂_same]
    exact fun l _ => Line.fits_shift k l

theorem notMem_of_forall₂_fits (h : List.Forall₂ Line.Fits ls ks) (hc : c ≠ ' ')
    (hls : ∀ l ∈ ls, c ∉ l.text) : ∀ k ∈ ks, c ∉ k.text := by
  induction h with
  | nil => exact hls
  | cons hfit _ ih =>
    obtain ⟨hfirst, hrest⟩ := List.forall_mem_cons.1 hls
    exact List.forall_mem_cons.2 ⟨hfit.notMem hc hfirst, ih hrest⟩

theorem notMem_sheetText_of_forall (hc : c ≠ '\n') (hls : ∀ l ∈ ls, c ∉ l.text) :
    c ∉ sheetText ls := by
  induction ls with
  | nil => exact List.not_mem_nil
  | cons l ls ih =>
    obtain ⟨hl, hrest⟩ := List.forall_mem_cons.1 hls
    cases ls with
    | nil => exact hl
    | cons k ls =>
      rw [sheetText_cons_cons, List.mem_append, List.mem_cons, not_or, not_or]
      exact ⟨hl, hc, ih hrest⟩

theorem atFeeds_of_forall (h : ∀ s, P s) (s : Scan) (ps : List (List Char)) : AtFeeds P s ps := by
  fun_induction AtFeeds P s ps with
  | case1 => trivial
  | case2 => trivial
  | case3 s p q ps ih => exact ⟨h _, ih⟩

theorem sheet_ne_nil (cs : List Char) : sheet cs ≠ [] := by
  rw [sheet_eq]
  exact scanLines_ne_nil _ _ (splitFeeds_ne_nil cs)

theorem Line.keepsFeed_shift (k : Nat) (l : Line) : KeepsFeed (fun _ => True) (Line.shift k) l := by
  intro s hs _ _
  unfold Line.shift
  split
  · rename_i hplain
    rw [(Line.isPlain_iff.1 hplain).1] at hs
    exact Scan.feed_leading hs.isCalm (isMargin_replicate k) l.text
  · rfl

/-- Spaces in front of plain lines leave every line what it was. -/
theorem sheet_shiftTail (k : Nat) (cs : List Char) :
    sheet (shiftTail k cs) = shiftSheet k (sheet cs) := by
  have hfeed : ∀ l ∈ shiftSheet k (sheet cs), '\n' ∉ l.text :=
    notMem_of_forall₂_fits (forall₂_shiftSheet k _) (by decide) fun l => feed_notMem_of_mem_sheet
  obtain ⟨first, rest, hls⟩ := List.exists_cons_of_ne_nil (sheet_ne_nil cs)
  have hscan := sheet_eq cs
  rw [hls] at hfeed hscan
  rw [shiftTail, hls, sheet_sheetText hfeed (by simp [shiftSheet]), shiftSheet, List.map_cons,
    List.map_map]
  exact scanLines_map_tail (P := fun _ => True) (g := Line.text) hscan.symm (fun _ _ _ _ => rfl)
    (fun l _ => l.keepsFeed_shift k) startsLine_start (atFeeds_of_forall (fun _ => trivial) _ _)

theorem Line.shift_eq_nil_iff {k : Nat} : l.shift k = [] ↔ l.text = [] := by
  unfold Line.shift
  split
  · rename_i hplain
    have hne : l.text ≠ [] := by
      intro hnil
      have hdark := (Line.isPlain_iff.1 hplain).2
      rw [hnil] at hdark
      cases hdark
    simp [hne]
  · rfl

theorem splitLines_shiftTail (hreturn : '\r' ∉ cs) (k : Nat) :
    splitLines (shiftTail k cs) = shiftSheet k (splitLines cs) := by
  have hreturn' : '\r' ∉ shiftTail k cs := by
    refine Spells.notMem_sheetText (by decide) (by decide) (forall₂_shiftSheet k _) ?_
    rwa [sheetText_sheet]
  have hlast : ∀ ls : List Line, ((shiftSheet k ls).map Line.text).getLast? = some [] ↔
      (ls.map Line.text).getLast? = some [] := by
    intro ls
    cases ls with
    | nil => rfl
    | cons first rest =>
      rcases List.eq_nil_or_concat rest with rfl | ⟨init, last, rfl⟩
      · rfl
      · simp [shiftSheet, List.getLast?_cons, Line.withText, Line.shift_eq_nil_iff]
  have hdrop : ∀ ls : List Line, (shiftSheet k ls).dropLast = shiftSheet k ls.dropLast := by
    intro ls
    rcases ls with - | ⟨first, - | ⟨second, rest⟩⟩
    · rfl
    · rfl
    · simp [shiftSheet, List.map_dropLast]
  rw [splitLines_eq_sheet hreturn', splitLines_eq_sheet hreturn, ← map_text_sheet,
    ← map_text_sheet, sheet_shiftTail, hdrop]
  simp only [hlast]
  split <;> rfl

/-! ### Dedenting twice -/

/-- No line feed breaks a string: each string is closed on its line, or the line feed stands behind
a backslash. -/
def Unbroken (cs : List Char) : Prop :=
  ∀ k < cs.length, cs[k]? = some '\n' →
    (Scan.after {} (cs.take k) (cs.drop k)).mode.isQuote = false

instance (cs : List Char) : Decidable (Unbroken cs) :=
  inferInstanceAs (Decidable (∀ k < cs.length, cs[k]? = some '\n' →
    (Scan.after {} (cs.take k) (cs.drop k)).mode.isQuote = false))

/-- The last line of a text. A line feed at the end of a text ends this line, unless it is part of
a literal, which goes on with an empty line then. -/
def finalLine (cs : List Char) : List Char :=
  let pieces := if (sheet cs).getLast?.any Line.inLiteral then splitFeeds cs else lines cs
  pieces.getLast?.getD []

theorem AtFeeds.cons (hp : P (s.after p ['\n'])) (hps : AtFeeds P (s.feed p).2 ps) :
    AtFeeds P s (p :: ps) := by
  cases ps with
  | nil => trivial
  | cons q ps => exact ⟨hp, hps⟩

theorem AtFeeds.dropLast (h : AtFeeds P s ps) : AtFeeds P s ps.dropLast := by
  fun_induction AtFeeds P s ps with
  | case1 => trivial
  | case2 => trivial
  | case3 s p q ps ih => exact .cons h.1 (ih h.2)

theorem atFeeds_splitFeeds (h : ∀ a b, cs = a ++ '\n' :: b → P (s.after a ('\n' :: b))) :
    AtFeeds P s (splitFeeds cs) := by
  induction cs using line_induction generalizing s with
  | last line hfeed =>
    rw [splitFeeds_last hfeed]
    trivial
  | feed line cs hfeed ih =>
    have hquiet : ∀ rest : List Char, s.after line ('\n' :: rest) = s.after line ['\n'] := fun _ =>
      Scan.after_of_isQuiet s line Scan.isQuiet_feed Scan.isQuiet_feed
    rw [splitFeeds_line hfeed]
    refine .cons (hquiet cs ▸ h line cs rfl) (ih fun a b hcs => ?_)
    have hbehind := h (line ++ '\n' :: a) b (by rw [hcs, List.append_assoc]; rfl)
    rwa [Scan.after_append, List.cons_append, hquiet, Scan.after, Scan.step_feed] at hbehind

theorem Unbroken.atFeeds (h : Unbroken cs) :
    AtFeeds (fun t => t.mode.isQuote = false) {} (splitFeeds cs) := by
  refine atFeeds_splitFeeds fun a b hcs => ?_
  have hfeed := h a.length (by simp [hcs]) (by simp [hcs])
  rwa [hcs, List.take_left, List.drop_left] at hfeed

theorem scanLines_dropLast (hlast : (scanLines s b ps).getLast?.any Line.inLiteral = false)
    (hne : ps.dropLast ≠ []) :
    (scanLines s b ps).dropLast = scanLines s b ps.dropLast := by
  fun_induction scanLines s b ps with
  | case1 => rfl
  | case2 => exact absurd rfl hne
  | case3 s b p q ps ih =>
    cases ps with
    | nil =>
      have hflag : ((s.feed p).1 == Region.literal) = false := hlast
      simp [scanLines, hflag]
    | cons r ps =>
      have hrest := scanLines_ne_nil (s.feed p).2 ((s.feed p).1 == .literal)
        (List.cons_ne_nil q (r :: ps))
      rw [List.getLast?_cons_of_ne_nil hrest] at hlast
      rw [List.dropLast_cons_of_ne_nil hrest, ih hlast (by simp)]
      rfl

/-- A text whose last line is not blank: its lines, and what holds at the line feeds between
them. -/
theorem exists_scanLines (hreturn : '\r' ∉ cs) (hink : ∃ c ∈ finalLine cs, isBlank c = false)
    (hfeeds : AtFeeds P {} (splitFeeds cs)) :
    ∃ ps p, splitLines cs = scanLines {} false ps ∧ AtFeeds P {} ps ∧ ps ⊆ splitFeeds cs ∧
      ps.getLast? = some p ∧ ∃ c ∈ p, isBlank c = false := by
  have hlast : ∀ {ps : List (List Char)}, (∃ c ∈ ps.getLast?.getD [], isBlank c = false) →
      ∃ p, ps.getLast? = some p ∧ ∃ c ∈ p, isBlank c = false := by
    rintro ps ⟨c, hc, hdark⟩
    cases hps : ps.getLast? with
    | none =>
      rw [hps] at hc
      cases hc
    | some p =>
      rw [hps] at hc
      exact ⟨p, rfl, c, hc, hdark⟩
  rw [splitLines_eq_sheet hreturn, sheet_eq]
  simp only [finalLine, lines_eq_splitFeeds hreturn] at hink
  by_cases hempty : (splitFeeds cs).getLast? = some []
  · rw [if_pos hempty] at hink ⊢
    cases hlit : (sheet cs).getLast?.any Line.inLiteral with
    | true =>
      rw [hlit, if_pos rfl, hempty] at hink
      obtain ⟨c, hc, -⟩ := hink
      cases hc
    | false =>
      rw [hlit] at hink
      obtain ⟨p, hp, hdark⟩ := hlast hink
      have hne : (splitFeeds cs).dropLast ≠ [] := by
        intro hnil
        rw [hnil] at hp
        cases hp
      rw [sheet_eq] at hlit
      exact ⟨_, p, scanLines_dropLast hlit hne, hfeeds.dropLast, (List.dropLast_sublist _).subset,
        hp, hdark⟩
  · rw [if_neg hempty, ite_self] at hink
    rw [if_neg hempty]
    obtain ⟨p, hp, hdark⟩ := hlast hink
    exact ⟨_, p, rfl, hfeeds, List.Subset.refl _, hp, hdark⟩

/-- Other margins outside of literals leave the line feed what it was. -/
theorem Line.Fits.keepsFeed {f : Line → List Char} (h : l.Fits (l.withText (f l))) :
    KeepsFeed (fun t => t.mode.isQuote = false) f l := by
  intro s hs hquote hcontinues
  obtain ⟨w, m, v, n, htext, hf, hw, hv, hlead, htrail⟩ := h
  have hf : f l = List.replicate n ' ' ++ m := congrArg Line.text hf
  rw [List.append_assoc] at htext
  -- in front of the line
  have hfront : s.feed (f l) = s.feed m ∧ s.feed l.text = s.feed (m ++ v) ∧
      s.after l.text ['\n'] = s.after (m ++ v) ['\n'] := by
    rw [hf, htext]
    cases hlit : l.inLiteral with
    | true =>
      obtain ⟨rfl, rfl⟩ := hlead hlit
      exact ⟨rfl, rfl, rfl⟩
    | false =>
      rw [hlit] at hs
      refine ⟨Scan.feed_leading hs.isCalm (isMargin_replicate n) m,
        Scan.feed_leading hs.isCalm hw _, ?_⟩
      rw [Scan.after_append, Scan.after_margin hs.isCalm hw]
  obtain ⟨hleft, hright, hafter⟩ := hfront
  rw [hleft, hright]
  -- behind the line
  cases hcont : l.continuesLiteral with
  | true =>
    rw [htrail hcont, List.append_nil]
  | false =>
    rw [hcont] at hcontinues
    have hawaits : (s.after l.text ['\n']).Awaits (some '\n') := (hs.awaits _).after
    have hregion : (s.feed l.text).1 ≠ .literal := by simpa using hcontinues.symm
    have hcalm := (Scan.step_feed_cases rfl hawaits (Scan.ne_quote hquote)).2 hregion
    rw [hafter] at hcalm
    exact (Scan.feed_trailing hs hv hcalm).symm

theorem trimEnd_trimEnd (cs : List Char) : trimEnd (trimEnd cs) = trimEnd cs := by
  obtain ⟨v, hv, hblank⟩ := exists_trimEnd cs
  have hline : isBlankLine v = true := List.all_eq_true.2 hblank
  have happend := trimEnd_append (trimEnd cs) v
  rw [← hv, if_pos hline] at happend
  exact happend.symm

/-- A line that is not blank: its margin, and a character behind it. -/
theorem exists_margin (h : isBlankLine cs = false) :
    ∃ w c rest, cs = w ++ c :: rest ∧ (∀ d ∈ w, (d == ' ' || d == '\t') = true) ∧
      (c == ' ' || c == '\t') = false := by
  induction cs with
  | nil => cases h
  | cons c cs ih =>
    cases hc : (c == ' ' || c == '\t') with
    | false => exact ⟨[], c, cs, rfl, by simp, hc⟩
    | true =>
      have hblank : isBlank c = true := by
        rcases Bool.or_eq_true_iff.1 hc with h | h <;> rw [beq_iff_eq.1 h] <;> decide
      obtain ⟨w, d, rest, rfl, hw, hd⟩ := ih (by simpa [isBlankLine, hblank] using h)
      exact ⟨c :: w, d, rest, rfl, List.forall_mem_cons.2 ⟨hc, hw⟩, hd⟩

namespace Line
variable {l : Line}

theorem trimmed_withText_trimmed (l : Line) : (l.withText l.trimmed).trimmed = l.trimmed := by
  unfold trimmed withText
  dsimp only
  split
  · rfl
  · exact trimEnd_trimEnd l.text

theorem isBlankLine_trimmed (l : Line) : isBlankLine l.trimmed = isBlankLine l.text := by
  unfold trimmed
  split
  · rfl
  · exact isBlankLine_trimEnd l.text

/-- The margin of a line that is not blank stays when its end is trimmed. -/
theorem exists_trimmed_margin (h : l.isPlain = true) :
    ∃ w c rest, l.trimmed = w ++ c :: rest ∧ l.margin = w.length ∧
      (∀ d ∈ w, (d == ' ' || d == '\t') = true) ∧ (c == ' ' || c == '\t') = false := by
  have hdark := (isPlain_iff.1 h).2
  rw [← isBlankLine_trimmed] at hdark
  obtain ⟨w, c, rest, htrimmed, hw, hc⟩ := exists_margin hdark
  obtain ⟨v, htext⟩ : ∃ v, l.text = l.trimmed ++ v := by
    unfold trimmed
    split
    · exact ⟨[], by simp⟩
    · obtain ⟨v, hv, -⟩ := exists_trimEnd l.text
      exact ⟨v, hv⟩
  refine ⟨w, c, rest, htrimmed, ?_, hw, hc⟩
  rw [margin, htext, htrimmed, List.append_assoc, List.cons_append,
    List.takeWhile_append_of_pos hw, List.takeWhile_cons, hc]
  simp

/-- A line without its margin has none. -/
theorem margin_outdent (h : l.isPlain = true) :
    (l.withText (l.outdent l.margin)).margin = 0 := by
  obtain ⟨w, c, rest, htrimmed, hmargin, -, hc⟩ := exists_trimmed_margin h
  rw [outdent_of_isPlain h, hmargin, htrimmed, List.drop_left, margin, withText,
    List.takeWhile_cons, hc]
  rfl

/-- What is left of a line is left as it is. -/
theorem outdent_outdent (hfeed : '\n' ∉ l.text) {n : Nat}
    (hn : l.isBlank = false → l.inLiteral = false → n ≤ l.margin) :
    (l.withText (l.outdent n)).outdent 0 = l.outdent n := by
  have hsame := (fits_outdent hfeed hn).isPlain_eq
  by_cases h : l.isPlain = true
  · have hdark := (isPlain_iff.1 (hsame.trans h)).2
    rw [outdent_of_isPlain (hsame.trans h), List.drop_zero]
    rw [outdent_of_isPlain h] at hdark ⊢
    unfold trimmed withText
    dsimp only
    split
    · rfl
    · rename_i hcont
      have hdark : isBlankLine ((trimEnd l.text).drop n) = false := by
        simpa [trimmed, hcont, withText] using hdark
      have hsplit := trimEnd_append ((trimEnd l.text).take n) ((trimEnd l.text).drop n)
      rw [List.take_append_drop, trimEnd_trimEnd, hdark, if_neg (by decide)] at hsplit
      exact (List.append_cancel_left ((List.take_append_drop n _).trans hsplit)).symm
  · cases hlit : l.inLiteral with
    | true =>
      have hliteral : ∀ n, ∀ k : Line, k.inLiteral = true → k.outdent n = k.trimmed := by
        intro n k hk
        rw [outdent, if_pos hk]
      rw [hliteral n l hlit, hliteral 0 (l.withText l.trimmed) hlit, trimmed_withText_trimmed]
    | false =>
      have hblank := isBlank_of_not_isPlain h hlit
      have hnil : l.outdent n = [] := by simp [outdent, hlit, hblank]
      rw [hnil]
      simp [outdent, withText, hlit, isBlank, isBlankLine]

end Line

theorem commonMargin_outdent (hls : ∀ l ∈ ls, '\n' ∉ l.text) (hl : l ∈ ls) (h : l.isPlain = true) :
    commonMargin (ls.map fun l => l.withText (l.outdent (commonMargin ls))) = 0 := by
  obtain ⟨k, hk, hplain, hmargin⟩ := exists_margin_eq hl h
  have hsame : (k.withText (k.outdent (commonMargin ls))).isPlain = true :=
    (Line.fits_outdent (hls k hk) (commonMargin_le hk)).isPlain_eq.trans hplain
  have hle := commonMargin_le_of_isPlain
    (List.mem_map_of_mem (f := fun l => l.withText (l.outdent (commonMargin ls))) hk) hsame
  have hzero := Line.margin_outdent hplain
  rw [hmargin] at hzero
  exact Nat.le_zero.1 (hle.trans hzero.le)

theorem dedentSheet_dedentSheet (hls : ∀ l ∈ ls, '\n' ∉ l.text) :
    dedentSheet (dedentSheet ls) = dedentSheet ls := by
  cases ls with
  | nil => rfl
  | cons first rest =>
    obtain ⟨-, hrest⟩ := List.forall_mem_cons.1 hls
    rw [dedentSheet, dedentSheet, Line.trimmed_withText_trimmed, List.map_map]
    congr 1
    refine List.map_congr_left fun l hl => congrArg l.withText ?_
    have hagain := Line.outdent_outdent (hrest l hl) (commonMargin_le hl)
    by_cases h : l.isPlain = true
    · rw [commonMargin_outdent hrest hl h, hagain]
    · have hplain : ¬ (l.withText (l.outdent (commonMargin rest))).isPlain = true := by
        rwa [(Line.fits_outdent (hrest l hl) (commonMargin_le hl)).isPlain_eq]
      rw [Line.outdent_of_not_isPlain hplain _ 0, hagain]

/-- A last line that is not blank stays so with other margins. -/
theorem exists_last_of_fits (h : List.Forall₂ Line.Fits ls ks) (hl : ls.getLast? = some l)
    (hink : ∃ c ∈ l.text, isBlank c = false) :
    ∃ k, ks.getLast? = some k ∧ k.text ≠ [] := by
  induction h with
  | nil => cases hl
  | @cons l' k ls ks hfit hrest ih =>
    cases hrest with
    | nil =>
      obtain rfl : l' = l := Option.some.inj hl
      obtain ⟨w, m, v, n, htext, rfl, hw, hv, -⟩ := hfit
      obtain ⟨c, hc, hdark⟩ := hink
      refine ⟨_, rfl, List.ne_nil_of_mem (a := c) (List.mem_append_right _ ?_)⟩
      rw [htext, List.mem_append, List.mem_append] at hc
      rcases hc with (hc | hc) | hc
      · exact absurd (hw c hc).1 (Bool.eq_false_iff.1 hdark)
      · exact hc
      · exact absurd (hv c hc).1 (Bool.eq_false_iff.1 hdark)
    | cons hfit' hrest' =>
      rw [List.getLast?_cons_cons] at hl ⊢
      exact ih hl

theorem scanLines_dedentSheet (hfeed : ∀ l ∈ scanLines {} false ps, '\n' ∉ l.text)
    (hfeeds : AtFeeds (fun t => t.mode.isQuote = false) {} ps) :
    scanLines {} false ((dedentSheet (scanLines {} false ps)).map Line.text) =
      dedentSheet (scanLines {} false ps) := by
  cases hls : scanLines {} false ps with
  | nil => rfl
  | cons first rest =>
    rw [hls] at hfeed
    obtain ⟨hfirst, hrest⟩ := List.forall_mem_cons.1 hfeed
    rw [dedentSheet, List.map_cons, List.map_map]
    exact scanLines_map_tail (g := Line.trimmed) hls (Line.fits_trimmed hfirst).keepsFeed
      (fun l hl => (Line.fits_outdent (hrest l hl) (commonMargin_le hl)).keepsFeed)
      startsLine_start hfeeds

theorem splitLines_dedentTail (hreturn : '\r' ∉ cs) (hunbroken : Unbroken cs)
    (hink : ∃ c ∈ finalLine cs, isBlank c = false) :
    splitLines (dedentTail cs) = dedentSheet (splitLines cs) ∧
      ∀ l ∈ splitLines cs, '\n' ∉ l.text := by
  obtain ⟨ps, p, hsplit, hfeeds, hps, hp, hdark⟩ :=
    exists_scanLines hreturn hink hunbroken.atFeeds
  have hpiece : ∀ l ∈ scanLines {} false ps, l.text ∈ splitFeeds cs := by
    intro l hl
    have hmem := List.mem_map_of_mem (f := Line.text) hl
    rw [map_text_scanLines] at hmem
    exact hps hmem
  have hfeed : ∀ l ∈ scanLines {} false ps, '\n' ∉ l.text := fun l hl =>
    feed_notMem_of_mem_splitFeeds cs _ (hpiece l hl)
  have hnoReturn : ∀ l ∈ scanLines {} false ps, '\r' ∉ l.text := fun l hl hmem =>
    hreturn (mem_of_mem_pieces (hpiece l hl) hmem)
  have hfits := forall₂_dedentSheet hfeed
  obtain ⟨l, hl, rfl⟩ : ∃ l, (scanLines {} false ps).getLast? = some l ∧ l.text = p := by
    rw [← map_text_scanLines {} false ps, List.getLast?_map, Option.map_eq_some_iff] at hp
    exact hp
  obtain ⟨k, hk, hne⟩ := exists_last_of_fits hfits hl hdark
  have hsheet : sheet (sheetText (dedentSheet (scanLines {} false ps))) =
      dedentSheet (scanLines {} false ps) := by
    rw [sheet_sheetText (notMem_of_forall₂_fits hfits (by decide) hfeed),
      scanLines_dedentSheet hfeed hfeeds]
    intro hnil
    rw [hnil] at hk
    cases hk
  have hreturn' := notMem_sheetText_of_forall (by decide)
    (notMem_of_forall₂_fits hfits (by decide) hnoReturn)
  rw [dedentTail_eq, hsplit, splitLines_eq_sheet hreturn', ← map_text_sheet, hsheet,
    List.getLast?_map, hk, if_neg (by simpa using hne)]
  exact ⟨rfl, hfeed⟩

/-- Dedenting does not depend on the base margin: spaces in front of every line after the first that
is neither blank nor the continuation of a literal change nothing. If no line feed breaks a string
and the last line is not blank, dedenting twice is dedenting once. -/
theorem dedentTail_stable {cs : List Char} (hreturn : '\r' ∉ cs) :
    (∀ k, dedentTail (shiftTail k cs) = dedentTail cs) ∧
    (Unbroken cs → (∃ c ∈ finalLine cs, isBlank c = false) →
      dedentTail (dedentTail cs) = dedentTail cs) := by
  refine ⟨fun k => ?_, fun hunbroken hink => ?_⟩
  · rw [dedentTail_eq, dedentTail_eq, splitLines_shiftTail hreturn, dedentSheet_shiftSheet]
  · obtain ⟨hsplit, hfeed⟩ := splitLines_dedentTail hreturn hunbroken hink
    rw [dedentTail_eq (dedentTail cs), hsplit, dedentSheet_dedentSheet hfeed, ← dedentTail_eq]

/-- A template over two lines, a comment, a blank line and a string that is continued. -/
theorem dedentTail_stable_sample :
    let cs := "\x7b\n    a: \x60x\n  y\x60, // c\n\n    b: 'p\\\nq'\n  \x7d\n".toList
    '\r' ∉ cs ∧ Unbroken cs ∧ (∃ c ∈ finalLine cs, isBlank c = false) ∧
      dedentTail (shiftTail 3 cs) = dedentTail cs ∧
      dedentTail (dedentTail cs) = dedentTail cs := by
  intro cs
  have hreturn : '\r' ∉ cs := by decide +kernel
  have hunbroken : Unbroken cs := by decide +kernel
  have hink : ∃ c ∈ finalLine cs, isBlank c = false := by
    have hany : (finalLine cs).any (fun c => !isBlank c) = true := by decide +kernel
    obtain ⟨c, hc, hdark⟩ := List.any_eq_true.1 hany
    exact ⟨c, hc, by simpa using hdark⟩
  exact ⟨hreturn, hunbroken, hink, (dedentTail_stable hreturn).1 3,
    (dedentTail_stable hreturn).2 hunbroken hink⟩

end Revue.Vue
