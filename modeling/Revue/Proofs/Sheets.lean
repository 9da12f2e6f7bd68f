import Revue.Proofs.LineRuns

/-!
# Texts as lists of lines

A text without carriage returns is its lines with line feeds between them, and the flags of the
lines say where literals run on. `Settles mode ls m` says that the lines `ls` are read with the
marks `m` and that reading ends in `mode` outside of all substitutions. Such lists of lines can be
put one below the other, or one behind the other on a line, and keep their flags; blank lines at
their ends can be dropped.
-/

namespace Revue.Vue
open Text Source

variable {b : Bool} {c sep : Char} {l l' : Line} {mode : Mode} {s t v : Scan} {m : Marked}
  {r : Region} {cs : List Char} {ls : List Line}

def sheetText (ls : List Line) : List Char := joinWith ['\n'] (ls.map Line.text)

@[simp] theorem sheetText_singleton (l : Line) : sheetText [l] = l.text := rfl

@[simp] theorem sheetText_cons_cons (l k : Line) (ls : List Line) :
    sheetText (l :: k :: ls) = l.text ++ '\n' :: sheetText (k :: ls) := by
  simp [sheetText, joinWith]

theorem sheetText_cons (l : Line) (h : ls ≠ []) :
    sheetText (l :: ls) = l.text ++ '\n' :: sheetText ls := by
  cases ls with
  | nil => exact absurd rfl h
  | cons k ls => exact sheetText_cons_cons l k ls

theorem sheetText_append {ks : List Line} (hl : ls ≠ []) (hk : ks ≠ []) :
    sheetText (ls ++ ks) = sheetText ls ++ '\n' :: sheetText ks := by
  induction ls with
  | nil => exact absurd rfl hl
  | cons l ls ih =>
    cases ls with
    | nil => simpa using sheetText_cons l hk
    | cons k ls =>
      rw [List.cons_append, sheetText_cons l (by simp), ih (by simp), sheetText_cons_cons]
      simp

namespace ReadsLines

variable {s t : Scan} {b : Bool} {ls : List Line} {m : Marked}

theorem ne_nil (h : ReadsLines s b ls m t) : ls ≠ [] := by
  cases h <;> simp

theorem chars_eq (h : ReadsLines s b ls m t) : m.chars = sheetText ls := by
  induction h with
  | last => rfl
  | cons _ _ _ _ hrest ih =>
    rw [sheetText_cons _ hrest.ne_nil, ← ih]
    simp

theorem reads (h : ReadsLines s b ls m t) : s.Reads none m t := by
  induction h with
  | last hrun => exact hrun
  | cons hrun _ hquote hfeed _ ih =>
    refine Scan.Reads.append hrun (.cons ?_ (.inr hquote) ih)
    rw [Scan.step_feed]
    exact hfeed

/-- A character in front of the first line. -/
theorem cons_char (h : ReadsLines t b ls m u) (hc : c ≠ '\n')
    (hstep : s.step c (m.chars.head?.or none) = (r, t)) :
    ∃ ls', ReadsLines s b ls' ((c, r) :: m) u := by
  cases h with
  | last hrun hline =>
    refine ⟨_, .last (.cons hstep (.inl hc) hrun) ?_⟩
    simp [hline, Ne.symm hc]
  | @cons _ v w _ _ r' m rest ls hrun hline hquote hfeed hrest =>
    have hstep' : s.step c (m.chars.head?.or (some '\n')) = (r, t) := by
      rw [← hstep]
      congr 1
      cases m <;> simp
    have hline' : '\n' ∉ Marked.chars ((c, r) :: m) := by simp [hline, Ne.symm hc]
    exact ⟨_, .cons (.cons hstep' (.inl hc) hrun) hline' hquote hfeed hrest⟩

end ReadsLines

/-- Every run can be cut at its line feeds. -/
theorem exists_readsLines (h : s.Reads none m t) (b : Bool) : ∃ ls, ReadsLines s b ls m t := by
  induction m generalizing s b with
  | nil =>
    cases h
    exact ⟨_, .last (.nil _) (by simp)⟩
  | cons p m ih =>
    cases h with
    | @cons _ u _ c r _ hstep hfeed hrest =>
      by_cases hc : c = '\n'
      · subst hc
        obtain ⟨ls, hls⟩ := ih hrest (r == .literal)
        rw [Scan.step_feed] at hstep
        exact ⟨_, .cons (.nil s) (by simp) (hfeed.resolve_left (by simp)) hstep hls⟩
      · obtain ⟨ls, hls⟩ := ih hrest b
        exact hls.cons_char hc hstep

theorem pieces_of_notMem (h : sep ∉ cs) : pieces sep cs = [cs] := by
  induction cs with
  | nil => rfl
  | cons c cs ih =>
    obtain ⟨hc, hcs⟩ : c ≠ sep ∧ sep ∉ cs := by simpa [eq_comm] using h
    rw [pieces, if_neg hc, ih hcs]

theorem pieces_append (h : sep ∉ cs) (rest : List Char) :
    pieces sep (cs ++ sep :: rest) = cs :: pieces sep rest := by
  induction cs with
  | nil => simp [pieces]
  | cons c cs ih =>
    obtain ⟨hc, hcs⟩ : c ≠ sep ∧ sep ∉ cs := by simpa [eq_comm] using h
    rw [List.cons_append, pieces, if_neg hc, ih hcs]

theorem mem_of_mem_pieces {p : List Char} (hp : p ∈ pieces sep cs) (hc : c ∈ p) : c ∈ cs := by
  induction cs generalizing p with
  | nil =>
    obtain rfl : p = [] := by simpa [pieces] using hp
    cases hc
  | cons d cs ih =>
    rw [pieces] at hp
    split at hp
    · rcases List.mem_cons.1 hp with rfl | hp
      · cases hc
      · exact List.mem_cons_of_mem d (ih hp hc)
    · cases hps : pieces sep cs with
      | nil =>
        rw [hps] at hp
        obtain rfl : p = [d] := by simpa using hp
        simp_all
      | cons q qs =>
        rw [hps] at hp ih
        rcases List.mem_cons.1 hp with rfl | hp
        · rcases List.mem_cons.1 hc with rfl | hc
          · simp
          · exact List.mem_cons_of_mem d (ih (by simp) hc)
        · exact List.mem_cons_of_mem d (ih (by simp [hp]) hc)

theorem ReadsLines.splitFeeds_eq (h : ReadsLines s b ls m t) :
    splitFeeds m.chars = ls.map Line.text := by
  unfold splitFeeds
  induction h with
  | last _ hline => exact pieces_of_notMem hline
  | cons _ hline _ _ _ ih =>
    rw [Marked.chars_append, Marked.chars_cons, pieces_append hline, ih]
    rfl

def feedMarks (m : Marked) : List Bool :=
  (m.filter fun (c, _) => c == '\n').map fun (_, r) => r == .literal

theorem feedMarks_of_notMem (h : '\n' ∉ m.chars) : feedMarks m = [] := by
  simp only [feedMarks, List.map_eq_nil_iff, List.filter_eq_nil_iff]
  rintro ⟨c, r⟩ hmem
  have hc : c ∈ m.chars := List.mem_map.2 ⟨_, hmem, rfl⟩
  have : c ≠ '\n' := fun hfeed => h (hfeed ▸ hc)
  simpa using this

theorem ReadsLines.markLines_eq (h : ReadsLines s b ls m t) :
    markLines (ls.map Line.text) (b :: feedMarks m) = ls := by
  induction h with
  | last _ hline => simp [markLines, feedMarks_of_notMem hline]
  | @cons s t u v b r m rest ls _ hline _ _ _ ih =>
    have hmarks : feedMarks (m ++ ('\n', r) :: rest) = (r == .literal) :: feedMarks rest := by
      have hm := feedMarks_of_notMem hline
      unfold feedMarks at hm ⊢
      rw [List.filter_append, List.map_append, hm]
      rfl
    simp [markLines, hmarks, ih]

theorem markLines_take (n : Nat) (texts : List (List Char)) (marks : List Bool) :
    markLines (texts.take n) marks = (markLines texts marks).take n := by
  induction texts generalizing n marks with
  | nil => simp [markLines]
  | cons text texts ih =>
    cases n with
    | zero => simp [markLines]
    | succ n => simp [markLines, ih]

/-- Without carriage returns the lines of a text are its pieces, but for an empty one at the end. -/
theorem linesOfPieces_eq {ps : List (List Char)} (hreturn : ∀ p ∈ ps, '\r' ∉ p) :
    linesOfPieces ps = if ps.getLast? = some [] then ps.dropLast else ps := by
  induction ps with
  | nil => rfl
  | cons p ps ih =>
    cases ps with
    | nil => cases p <;> simp [linesOfPieces]
    | cons q qs =>
      have hp : dropReturn p = p := by
        have : p.getLast? ≠ some '\r' := fun h =>
          hreturn p (by simp) (List.mem_of_getLast? h)
        simp [dropReturn, this]
      rw [linesOfPieces, hp, ih fun r hr => hreturn r (by simp [hr])]
      · simp only [List.getLast?_cons_cons, List.dropLast_cons_cons]
        split <;> rfl
      · simp

theorem ReadsLines.splitLines_eq_take (h : ReadsLines {} false ls m t) (hreturn : '\r' ∉ m.chars) :
    splitLines m.chars =
      if (ls.map Line.text).getLast? = some [] then ls.dropLast else ls := by
  have hclassify : classify m.chars = m.regions := h.reads.regions_eq
  have hmarks : literalLineStarts m.chars = false :: feedMarks m := by
    rw [literalLineStarts, hclassify, m.zip_chars_regions]
    rfl
  have hpieces : ∀ p ∈ ls.map Line.text, '\r' ∉ p := by
    intro p hp hmem
    rw [← h.splitFeeds_eq] at hp
    exact hreturn (mem_of_mem_pieces hp hmem)
  rw [splitLines, hmarks, lines, h.splitFeeds_eq, linesOfPieces_eq hpieces]
  split
  · rw [List.dropLast_eq_take, markLines_take, h.markLines_eq, List.length_map,
      ← List.dropLast_eq_take]
  · exact h.markLines_eq

/-- The flags that are found in a text are those of its run. -/
theorem ReadsLines.splitLines_eq (h : ReadsLines {} false ls m t) (hreturn : '\r' ∉ m.chars)
    (hlast : ∀ l ∈ ls.getLast?, l.text ≠ []) : splitLines m.chars = ls := by
  rw [h.splitLines_eq_take hreturn, if_neg]
  rw [List.getLast?_map, Option.map_eq_some_iff]
  rintro ⟨l, hl, hnil⟩
  exact hlast l hl hnil

theorem dropBlankEnds_append_blank (ls : List Line) (hl : l.isBlank = true) :
    dropBlankEnds (ls ++ [l]) = dropBlankEnds ls := by
  unfold dropBlankEnds
  rw [List.dropWhile_append]
  split
  · rename_i hall
    rw [List.isEmpty_iff.1 hall]
    simp [List.dropWhile, hl]
  · simp [hl]

/-- An empty line at the end is no line of a text, and none that is missed. -/
theorem ReadsLines.dropBlankEnds_splitLines (h : ReadsLines {} false ls m t)
    (hreturn : '\r' ∉ m.chars) (hlast : ∀ l ∈ ls.getLast?, l.inLiteral = true → l.text ≠ []) :
    dropBlankEnds (splitLines m.chars) = dropBlankEnds ls := by
  rw [h.splitLines_eq_take hreturn]
  split
  · rename_i hnil
    rw [List.getLast?_map, Option.map_eq_some_iff] at hnil
    obtain ⟨l, hl, htext⟩ := hnil
    obtain ⟨init, rfl⟩ := List.getLast?_eq_some_iff.1 hl
    have hblank : l.isBlank = true := by
      have : l.inLiteral ≠ true := fun hlit => hlast l hl hlit htext
      simp [Line.isBlank, this, htext, isBlankLine]
    rw [List.dropLast_concat, dropBlankEnds_append_blank init hblank]
  · rfl

namespace ReadsLines

variable {s t u : Scan} {b : Bool} {ls ks : List Line} {m k : Marked}

theorem of_similar (h : ReadsLines s b ls m t) {s' : Scan} (hs : s.Similar s') :
    ∃ t', ReadsLines s' b ls m t' ∧ t.Similar t' := by
  induction h generalizing s' with
  | last hrun hline =>
    obtain ⟨t', hrun', ht⟩ := hrun.of_similar hs
    exact ⟨t', .last hrun' hline, ht⟩
  | @cons s t u v b r m rest ls hrun hline hquote hfeed _ ih =>
    obtain ⟨t', hrun', ht⟩ := hrun.of_similar hs
    obtain ⟨hregion, hu⟩ := Scan.step_similar ht '\n' none
    rw [hfeed] at hregion hu
    obtain ⟨v', hlines, hv⟩ := ih hu
    have hfeed' : t'.step '\n' none = (r, (t'.step '\n' none).2) := Prod.ext hregion.symm rfl
    refine ⟨v', .cons hrun' hline ?_ hfeed' hlines, hv⟩
    intro q
    rw [← ht.1]
    exact hquote q

/-- Lines below others. -/
theorem append (h : ReadsLines s b ls m t) (hquote : ∀ q, t.mode ≠ .quote q)
    (hfeed : t.step '\n' none = (.code, u)) (h' : ReadsLines u false ks k v) :
    ReadsLines s b (ls ++ ks) (m ++ ('\n', .code) :: k) v := by
  induction h with
  | last hrun hline =>
    refine .cons (r := .code) (hrun.of_isQuiet isQuiet_none ?_) hline hquote hfeed h'
    exact isQuiet_of_isBlank (by decide)
  | cons hrun hline hq hf _ ih =>
    rw [List.append_assoc]
    exact .cons hrun hline hq hf (ih hquote hfeed)

/-- Lines behind others, on the last line of these. -/
theorem glue (h : ReadsLines s b (ls ++ [l]) m t) (h' : ReadsLines t false (l' :: ks) k v)
    (hseam : Seam m.chars k.chars) :
    ReadsLines s b (ls ++ ⟨l.text ++ l'.text, l.inLiteral, l'.continuesLiteral⟩ :: ks) (m ++ k)
      v := by
  generalize hlines : ls ++ [l] = lines at h
  induction h generalizing ls with
  | @last s t b m hrun hline =>
    obtain ⟨rfl, rfl⟩ : ls = [] ∧ l = ⟨m.chars, b, false⟩ := by
      cases ls with
      | nil => simpa using hlines
      | cons x ls => simp at hlines
    cases h' with
    | last hrun' hline' =>
      have hrun'' := Scan.Reads.append (by simpa using hrun.of_seam hseam) hrun'
      have := ReadsLines.last (b := b) hrun'' (by simp [hline, hline'])
      simpa using this
    | @cons _ t' u' _ _ r' m' rest' ls' hrun' hline' hquote' hfeed' hrest' =>
      have hhead : (m' ++ ('\n', r') :: rest').chars.head? = m'.chars.head?.or (some '\n') := by
        cases m' <;> simp
      have hrun'' := Scan.Reads.append (hhead ▸ hrun.of_seam hseam) hrun'
      have := ReadsLines.cons (b := b) hrun'' (by simp [hline, hline']) hquote' hfeed' hrest'
      simpa using this
  | @cons s t u v' b r m rest ls1 hrun hline hquote hfeed hrest ih =>
    cases ls with
    | nil =>
      simp only [List.nil_append, List.cons.injEq] at hlines
      exact absurd hlines.2.symm hrest.ne_nil
    | cons x ls =>
      simp only [List.cons_append, List.cons.injEq] at hlines
      obtain ⟨rfl, rfl⟩ := hlines
      rw [List.append_assoc]
      refine .cons hrun hline hquote hfeed (ih h' ?_ rfl)
      refine Seam.of_suffix (x := m.chars ++ ['\n']) ?_
      simpa using hseam

theorem feed_notMem (h : ReadsLines s b ls m t) (hl : l ∈ ls) : '\n' ∉ l.text := by
  induction h with
  | last _ hline =>
    obtain rfl := List.mem_singleton.1 hl
    exact hline
  | cons _ hline _ _ _ ih =>
    rcases List.mem_cons.1 hl with rfl | hl
    · exact hline
    · exact ih hl

/-- A literal is left only by a character of its own. -/
theorem last_ne_nil (h : ReadsLines s b ls m t) (hs : s.StartsLine b) (ht : t.IsCalm)
    (hl : l ∈ ls.getLast?) (hlit : l.inLiteral = true) : l.text ≠ [] := by
  induction h with
  | @last s t b m hrun hline =>
    obtain rfl : ⟨m.chars, b, false⟩ = l := by simpa using hl
    rintro (hnil : m.chars = [])
    obtain rfl : m = [] := by simpa [Marked.chars] using hnil
    cases hrun
    obtain rfl : b = true := hlit
    exact hs.not_isCalm ht
  | cons hrun _ hquote hfeed hrest ih =>
    rw [List.getLast?_cons_of_ne_nil hrest.ne_nil] at hl
    exact ih (Scan.step_feed_cases hfeed (hrun.awaits (hs.awaits _)) hquote).1 ht hl

end ReadsLines

def endsLine (mode : Mode) : Prop := mode = .code ∨ mode = .lineComment

/-- A text is read from the start to `mode`, outside of all substitutions. -/
def Settles (mode : Mode) (ls : List Line) (m : Marked) : Prop :=
  ∃ d, ReadsLines {} false ls m ⟨mode, d, []⟩

theorem endsLine.isCalm (h : endsLine s.mode) : s.IsCalm := by
  rcases h with h | h
  · exact Or.inl h
  · exact Or.inr (Or.inl h)

theorem endsLine.step_feed (h : endsLine mode) (d : Nat) :
    Scan.step ⟨mode, d, []⟩ '\n' none = (.code, ⟨.code, d, []⟩) := by
  rcases h with rfl | rfl <;> simp [Scan.step, Scan.stepCode]

theorem startsLine_start : Scan.StartsLine false {} := Or.inl rfl

namespace Settles

variable {mode mode' : Mode} {ls ks : List Line} {m k : Marked}

section
variable (h : Settles mode ls m)
include h

theorem ne_nil : ls ≠ [] := by
  obtain ⟨_, h⟩ := h
  exact h.ne_nil

theorem chars_eq : m.chars = sheetText ls := by
  obtain ⟨_, h⟩ := h
  exact h.chars_eq

theorem feed_notMem (hl : l ∈ ls) : '\n' ∉ l.text := by
  obtain ⟨_, h⟩ := h
  exact h.feed_notMem hl

theorem classify_eq : classify (sheetText ls) = m.regions := by
  obtain ⟨_, h⟩ := h
  rw [← h.chars_eq]
  exact h.reads.regions_eq

/-- The marks of a text are those of its run. -/
theorem zip_classify : (sheetText ls).zip (classify (sheetText ls)) = m := by
  rw [h.classify_eq, ← h.chars_eq]
  exact m.zip_chars_regions

theorem last_ne_nil (hmode : endsLine mode) (hl : l ∈ ls.getLast?) (hlit : l.inLiteral = true) :
    l.text ≠ [] := by
  obtain ⟨d, h⟩ := h
  exact h.last_ne_nil startsLine_start (endsLine.isCalm hmode) hl hlit

/-- The lines are read alike at any brace depth. -/
theorem at_depth (d : Nat) : ∃ e, ReadsLines ⟨.code, d, []⟩ false ls m ⟨mode, e, []⟩ := by
  obtain ⟨e, h⟩ := h
  obtain ⟨t, hls, ht⟩ := h.of_similar (Scan.similar_of_no_substitution 0 d)
  obtain ⟨e', rfl⟩ := ht.eq_of_no_substitution
  exact ⟨e', hls⟩

/-- One text below another. -/
theorem append (hmode : endsLine mode) (h' : Settles mode' ks k) :
    Settles mode' (ls ++ ks) (m ++ ('\n', .code) :: k) := by
  obtain ⟨d, h⟩ := h
  obtain ⟨e, hks⟩ := h'.at_depth d
  refine ⟨e, h.append ?_ (hmode.step_feed d) hks⟩
  rcases hmode with rfl | rfl <;> simp

end

/-- One text behind another, on the last line of this. -/
theorem glue (h : Settles .code (ls ++ [l]) m) (h' : Settles mode (l' :: ks) k)
    (hseam : Seam m.chars k.chars) :
    Settles mode (ls ++ ⟨l.text ++ l'.text, l.inLiteral, l'.continuesLiteral⟩ :: ks) (m ++ k) := by
  obtain ⟨d, h⟩ := h
  obtain ⟨e, hks⟩ := h'.at_depth d
  exact ⟨e, h.glue hks hseam⟩

theorem of_fits (h : Settles mode ls m) (hmode : endsLine mode)
    (hfits : List.Forall₂ Line.Fits ls ks) :
    ∃ m', Settles mode ks m' ∧ m'.essence = m.essence := by
  obtain ⟨d, h⟩ := h
  obtain ⟨m', hlines, hess⟩ := h.of_fits startsLine_start (endsLine.isCalm hmode) hfits
  exact ⟨m', ⟨d, hlines⟩, hess⟩

end Settles

def dropBlankTail (ls : List Line) : List Line := (ls.reverse.dropWhile Line.isBlank).reverse

@[simp] theorem dropBlankTail_nil : dropBlankTail [] = [] := rfl

theorem dropBlankTail_cons (l : Line) (ls : List Line) :
    dropBlankTail (l :: ls) =
      if dropBlankTail ls = [] then (if l.isBlank then [] else [l]) else l :: dropBlankTail ls := by
  simp only [dropBlankTail, List.reverse_cons, List.dropWhile_append, List.isEmpty_iff,
    List.reverse_eq_nil_iff]
  split
  · split <;> simp_all
  · simp

theorem isMargin_of_isBlank {c : Bool} (h : Line.isBlank ⟨m.chars, b, c⟩ = true)
    (hline : '\n' ∉ m.chars) : b = false ∧ IsMargin m.chars := by
  simp only [Line.isBlank, isBlankLine, Bool.and_eq_true, Bool.not_eq_true', List.all_eq_true] at h
  refine ⟨h.1, fun c hc => ⟨h.2 c hc, ?_⟩⟩
  rintro rfl
  exact hline hc

theorem reads_of_isBlank {c : Bool} {next : Option Char} (h : s.Reads next m t)
    (hs : s.StartsLine b) (hblank : Line.isBlank ⟨m.chars, b, c⟩ = true) (hline : '\n' ∉ m.chars) :
    b = false ∧ t = s ∧ m.essence = [] := by
  obtain ⟨rfl, hmargin⟩ := isMargin_of_isBlank hblank hline
  obtain ⟨hmarks, rfl⟩ := h.eq_of_margin hs.isCalm hmargin
  refine ⟨rfl, rfl, ?_⟩
  rw [hmarks]
  exact essence_of_margin hmargin t.calmRegion_ne_literal

theorem essence_feed (m rest : Marked) (hr : r ≠ .literal) :
    Marked.essence (m ++ ('\n', r) :: rest) = m.essence ++ rest.essence := by
  have hfeed : isBlank '\n' = true := by decide
  rw [Marked.essence_append]
  simp [Marked.essence, hr, hfeed]

theorem Settles.dropWhile_isBlank (h : Settles mode ls m) :
    (ls.dropWhile Line.isBlank = [] ∧ m.essence = []) ∨
      ∃ m', Settles mode (ls.dropWhile Line.isBlank) m' ∧ m'.essence = m.essence := by
  obtain ⟨d, h⟩ := h
  induction ls generalizing m with
  | nil => exact absurd rfl h.ne_nil
  | cons l ls ih =>
    by_cases hblank : l.isBlank = true
    · rw [List.dropWhile_cons_of_pos hblank]
      cases h with
      | last hrun hline =>
        exact Or.inl ⟨rfl, (reads_of_isBlank hrun startsLine_start hblank hline).2.2⟩
      | cons hrun hline hquote hfeed hrest =>
        obtain ⟨-, rfl, hess⟩ := reads_of_isBlank hrun startsLine_start hblank hline
        obtain ⟨rfl, rfl⟩ : Region.code = _ ∧ ({} : Scan) = _ := Prod.mk.inj hfeed
        rw [essence_feed _ _ (by simp), hess, List.nil_append]
        exact ih hrest
    · rw [List.dropWhile_cons_of_neg hblank]
      exact Or.inr ⟨m, ⟨d, h⟩, rfl⟩

/-- Blank lines at the end come behind code or a line comment. -/
theorem step_feed_to_code (h : s.step '\n' none = (r, t)) (hs : s.Awaits (some '\n'))
    (hquote : ∀ q, s.mode ≠ .quote q) (ht : t.mode = .code) :
    endsLine s.mode ∧ t.substitutions = s.substitutions := by
  have hstep : (s.step '\n' none).2 = t := congrArg Prod.snd h
  subst hstep
  cases hm : s.mode with
  | code => simp [endsLine, Scan.step, Scan.stepCode, hm]
  | lineComment => simp [endsLine, Scan.step, hm]
  | quote q => exact absurd hm (hquote q)
  | linePair | blockPair | blockEndPair | substitutionPair => simp [Scan.Awaits, hm] at hs
  | _ => simp [Scan.step, Scan.stepTemplate, hm] at ht

theorem ReadsLines.dropBlankTail (h : ReadsLines s b ls m t) (hs : s.StartsLine b)
    (ht : endsLine t.mode) :
    (dropBlankTail ls = [] ∧ b = false ∧ s.mode = .code ∧ t.substitutions = s.substitutions ∧
        m.essence = []) ∨
      ∃ m' t', ReadsLines s b (dropBlankTail ls) m' t' ∧ endsLine t'.mode ∧
        t.substitutions = t'.substitutions ∧ m'.essence = m.essence := by
  have hcode : ∀ {s' : Scan}, s'.StartsLine false → endsLine s'.mode → s'.mode = .code := by
    rintro s' (hm | hm) (hm' | hm') <;> simp_all
  induction h with
  | @last s t b m hrun hline =>
    rw [dropBlankTail_cons, if_pos dropBlankTail_nil]
    split
    · rename_i hblank
      obtain ⟨rfl, rfl, hess⟩ := reads_of_isBlank hrun hs hblank hline
      exact Or.inl ⟨rfl, rfl, hcode hs ht, rfl, hess⟩
    · exact Or.inr ⟨m, t, .last hrun hline, ht, rfl, rfl⟩
  | @cons s t u v b r m rest ls hrun hline hquote hfeed hrest ih =>
    have hawaits := hrun.awaits (hs.awaits _)
    rw [dropBlankTail_cons]
    rcases ih (Scan.step_feed_cases hfeed hawaits hquote).1 ht with
      ⟨hnil, hlit, hu, hsub, hess⟩ | ⟨m', t', hks, ht', hsub, hess⟩
    · -- Everything below is blank, so the text may end where this line does.
      obtain ⟨htends, hsub'⟩ := step_feed_to_code hfeed hawaits hquote hu
      rw [if_pos hnil, essence_feed m rest (by simpa using hlit), hess, List.append_nil, hsub,
        hsub']
      split
      · rename_i hblank
        obtain ⟨rfl, rfl, hess'⟩ := reads_of_isBlank hrun hs hblank hline
        exact Or.inl ⟨rfl, rfl, hcode hs htends, rfl, hess'⟩
      · have hrun' := hrun.of_isQuiet (isQuiet_of_isBlank (by decide)) isQuiet_none
        refine Or.inr ⟨m, t, ?_, htends, rfl, rfl⟩
        have hflag : (r == Region.literal) = false := hlit
        rw [hflag]
        exact .last hrun' hline
    · rw [if_neg hks.ne_nil]
      refine Or.inr ⟨_, t', .cons hrun hline hquote hfeed hks, ht', hsub, ?_⟩
      rw [Marked.essence_append, Marked.essence_append]
      congr 1
      simp only [Marked.essence, List.filter_cons] at hess ⊢
      rw [hess]

theorem dropBlankTail_last (h : l ∈ (dropBlankTail ls).getLast?) : l.isBlank = false := by
  rw [dropBlankTail, List.getLast?_reverse] at h
  have := List.head?_dropWhile_not Line.isBlank ls.reverse
  rw [Option.mem_def.1 h] at this
  simpa using this

/-- The lines between the blank ones at both ends are a text of their own. -/
theorem Settles.dropBlankEnds (h : Settles mode ls m) (hmode : endsLine mode) :
    (dropBlankEnds ls = [] ∧ m.essence = []) ∨
      ∃ mode' m', endsLine mode' ∧ Settles mode' (dropBlankEnds ls) m' ∧
        m'.essence = m.essence := by
  change (Vue.dropBlankTail (ls.dropWhile Line.isBlank) = [] ∧ _) ∨
    ∃ mode' m', _ ∧ Settles mode' (Vue.dropBlankTail (ls.dropWhile Line.isBlank)) m' ∧ _
  rcases h.dropWhile_isBlank with ⟨hnil, hess⟩ | ⟨m', ⟨d, hks⟩, hess⟩
  · exact Or.inl ⟨by rw [hnil]; rfl, hess⟩
  · rcases hks.dropBlankTail startsLine_start hmode with
      ⟨hnil, -, -, -, hess'⟩ | ⟨m2, ⟨mode', d', subs⟩, hks', hmode', hsub, hess'⟩
    · exact Or.inl ⟨hnil, by rw [← hess, hess']⟩
    · obtain rfl : [] = subs := hsub
      exact Or.inr ⟨mode', m2, hmode', ⟨d', hks'⟩, by rw [hess', hess]⟩

end Revue.Vue
