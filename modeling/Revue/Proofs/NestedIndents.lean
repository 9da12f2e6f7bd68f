import Revue.Proofs.BaseMargin

/-!
# Indentation inside indentation

A section is indented inside of another one, and each time its text is scanned anew. Spaces in front
of a line outside of literals, and blank lines that are made empty, leave the scanner at the line
feed in the state in which it was before. So a line starts in a literal behind a pass just when it
did in front of it, and the widths add up.
-/

namespace Revue.Vue
open Text Source

variable {cs : List Char}

theorem Line.keepsFeed_indent {l : Line} (hfeed : '\n' ∉ l.text) (width : Nat) :
    KeepsFeed (fun _ => True) (Line.indent width) l := by
  intro s hs _ _
  unfold Line.indent
  split
  · rfl
  rename_i hlit
  rw [Bool.not_eq_true] at hlit
  rw [hlit] at hs
  split
  · rename_i hblank
    have hmargin : IsMargin l.text := fun c hc =>
      ⟨List.all_eq_true.1 hblank c hc, fun heq => hfeed (heq ▸ hc)⟩
    have hempty := Scan.feed_leading hs.isCalm hmargin []
    rw [List.append_nil] at hempty
    exact hempty.symm
  · exact Scan.feed_leading hs.isCalm (isMargin_replicate width) l.text

/-- For indentation it does not matter whether a literal goes on behind the last line. -/
theorem map_indent_dropLast (s : Scan) (b : Bool) (ps : List (List Char)) (width : Nat) :
    (scanLines s b ps).dropLast.map (Line.indent width) =
      (scanLines s b ps.dropLast).map (Line.indent width) := by
  fun_induction scanLines s b ps with
  | case1 => rfl
  | case2 => rfl
  | case3 s b p q ps ih =>
    have hne := scanLines_ne_nil (s.feed p).2 ((s.feed p).1 == .literal) (List.cons_ne_nil q ps)
    rw [List.dropLast_cons_of_ne_nil hne, List.map_cons, ih]
    cases ps <;> rfl

section
variable (hreturn : '\r' ∉ cs)
include hreturn

theorem map_indent_splitLines (width : Nat) :
    (splitLines cs).map (Line.indent width) =
      (scanLines {} false (lines cs)).map (Line.indent width) := by
  rw [splitLines_eq_sheet hreturn, lines_eq_splitFeeds hreturn, sheet_eq]
  split
  · exact map_indent_dropLast _ _ _ width
  · rfl

theorem indent_eq_sheetText (width : Nat) :
    indent width cs = sheetText ((scanLines {} false (lines cs)).map (indentLine width)) := by
  rw [indent, map_indent_splitLines hreturn, ← sheetText_map_withText]
  rfl

theorem text_mem_splitFeeds {l : Line} (hl : l ∈ scanLines {} false (lines cs)) :
    l.text ∈ splitFeeds cs := by
  have hmem := List.mem_map_of_mem (f := Line.text) hl
  rw [map_text_scanLines, lines_eq_splitFeeds hreturn] at hmem
  split at hmem
  · exact (List.dropLast_sublist _).subset hmem
  · exact hmem

theorem feed_notMem_text {l : Line} (hl : l ∈ scanLines {} false (lines cs)) : '\n' ∉ l.text :=
  feed_notMem_of_mem_splitFeeds cs _ (text_mem_splitFeeds hreturn hl)

theorem forall₂_indentLine (width : Nat) :
    List.Forall₂ Line.Fits (scanLines {} false (lines cs))
      ((scanLines {} false (lines cs)).map (indentLine width)) := by
  rw [List.forall₂_map_right_iff, List.forall₂_same]
  exact fun l hl => Line.fits_indent (feed_notMem_text hreturn hl) width

theorem return_notMem_indent (width : Nat) : '\r' ∉ indent width cs := by
  rw [indent_eq_sheetText hreturn]
  refine notMem_sheetText_of_forall (by decide)
    (notMem_of_forall₂_fits (forall₂_indentLine hreturn width) (by decide) ?_)
  exact fun l hl hmem => hreturn (mem_of_mem_pieces (text_mem_splitFeeds hreturn hl) hmem)

variable (hink : ∃ c ∈ (lines cs).getLast?.getD [], isBlank c = false)
include hink

/-- The last line keeps its ink, so every line of a text is one of the indented text, too. -/
theorem lines_indent (width : Nat) :
    lines (indent width cs) = (scanLines {} false (lines cs)).map (Line.indent width) := by
  have hfits := forall₂_indentLine hreturn width
  obtain ⟨k, hk, hne⟩ : ∃ k, ((scanLines {} false (lines cs)).map (indentLine width)).getLast? =
      some k ∧ k.text ≠ [] := by
    obtain ⟨c, hc, hdark⟩ := hink
    rw [← map_text_scanLines {} false (lines cs), List.getLast?_map] at hc
    cases hl : (scanLines {} false (lines cs)).getLast? with
    | none => simp [hl] at hc
    | some l => exact exists_last_of_fits hfits hl ⟨c, by simpa [hl] using hc, hdark⟩
  have hsplit : splitFeeds (indent width cs) =
      ((scanLines {} false (lines cs)).map (indentLine width)).map Line.text := by
    rw [indent_eq_sheetText hreturn, ← map_text_sheet, sheet_sheetText, map_text_scanLines]
    · exact notMem_of_forall₂_fits hfits (by decide) fun l => feed_notMem_text hreturn
    · exact List.ne_nil_of_mem (List.mem_of_getLast? hk)
  rw [lines_eq_splitFeeds (return_notMem_indent hreturn width), hsplit, List.getLast?_map, hk,
    if_neg (by simpa using hne), List.map_map]
  rfl

/-- The lines of an indented text start in literals where they did before. -/
theorem scanLines_indent (width : Nat) :
    scanLines {} false (lines (indent width cs)) =
      (scanLines {} false (lines cs)).map (indentLine width) := by
  rw [lines_indent hreturn hink]
  exact scanLines_map (fun l hl => Line.keepsFeed_indent (feed_notMem_text hreturn hl) width)
    startsLine_start (atFeeds_of_forall (fun _ => trivial) _ _)

/-- Indentation twice is indentation by the sum of the widths. Each line of the text stays one line,
which is empty if it was blank, as it was if it starts in a literal, and else moved by the sum. -/
theorem indent_indent (m n : Nat) :
    indent n (indent m cs) = indent (m + n) cs ∧
      lines (indent n (indent m cs)) = (splitLines cs).map (Line.indent (m + n)) := by
  have hsum : indent n (indent m cs) = indent (m + n) cs := by
    rw [indent_eq_sheetText (return_notMem_indent hreturn m), scanLines_indent hreturn hink,
      List.map_map, indent_eq_sheetText hreturn, Nat.add_comm m n]
    exact congrArg sheetText (List.map_congr_left fun l _ => indentLine_indentLine n m l)
  rw [hsum, lines_indent hreturn hink, map_indent_splitLines hreturn]
  exact ⟨rfl, rfl⟩

end

/-- A comment with a blank line, a template with one, and a string that is continued. -/
theorem indent_indent_sample :
    let cs := "/* a\n \n b */ c(\x60x\n  \n y\x60,\n'p\\\nq')\n".toList
    '\r' ∉ cs ∧ (∃ c ∈ (lines cs).getLast?.getD [], isBlank c = false) ∧
      indent 2 (indent 1 cs) =
        "   /* a\n\n    b */ c(\x60x\n  \n y\x60,\n   'p\\\nq')".toList ∧
      indent 2 (indent 1 cs) = indent 3 cs := by
  intro cs
  have hreturn : '\r' ∉ cs := by decide +kernel
  have hink : ∃ c ∈ (lines cs).getLast?.getD [], isBlank c = false := by
    have hany : ((lines cs).getLast?.getD []).any (fun c => !isBlank c) = true := by decide +kernel
    simpa using List.any_eq_true.1 hany
  exact ⟨hreturn, hink, by decide +kernel, (indent_indent hreturn hink 1 2).1⟩

end Revue.Vue
