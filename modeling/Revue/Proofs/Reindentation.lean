import Mathlib.Data.List.TakeWhile
import Revue.Proofs.Sheets

/-!
# Re-indentation

The margins of a line say nothing unless they are part of a literal. `Relaid source piece` says that
two texts have the same lines up to such margins and blank lines at the ends, and the same
characters in the same regions. Taking a margin away and putting one in front of every line relays
a text, however often it is done.
-/

namespace Revue.Vue
open Text Source

variable {l : Line} {ls : List Line} {m : Marked} {mode : Mode}

theorem trimStart_append_blank {w : List Char} (hw : isBlankLine w = true) (cs : List Char) :
    trimStart (w ++ cs) = trimStart cs :=
  List.dropWhile_append_of_pos (List.all_eq_true.1 hw)

theorem trimEnd_append (cs v : List Char) :
    trimEnd (cs ++ v) = if isBlankLine v then trimEnd cs else cs ++ trimEnd v := by
  have hempty : (v.reverse.dropWhile isBlank).isEmpty = isBlankLine v := by
    rw [Bool.eq_iff_iff, List.isEmpty_iff, isBlankLine, List.all_eq_true, List.dropWhile_eq_nil_iff]
    simp
  simp only [trimEnd, List.reverse_append, List.dropWhile_append, hempty]
  split <;> simp

theorem exists_trimEnd (cs : List Char) :
    ∃ v, cs = trimEnd cs ++ v ∧ ∀ c ∈ v, isBlank c = true := by
  refine ⟨(cs.reverse.takeWhile isBlank).reverse, ?_, fun c hc => ?_⟩
  · rw [trimEnd, ← List.reverse_append, List.takeWhile_append_dropWhile, List.reverse_reverse]
  · exact List.mem_takeWhile_imp (List.mem_reverse.1 hc)

theorem exists_trim (cs : List Char) : ∃ w v, cs = w ++ trim cs ++ v ∧
    (∀ c ∈ w, isBlank c = true) ∧ ∀ c ∈ v, isBlank c = true := by
  obtain ⟨v, hv, hblank⟩ := exists_trimEnd (trimStart cs)
  refine ⟨cs.takeWhile isBlank, v, ?_, fun c hc => List.mem_takeWhile_imp hc, hblank⟩
  rw [List.append_assoc, trim, ← hv]
  exact List.takeWhile_append_dropWhile.symm

theorem isBlankLine_trimStart (cs : List Char) : isBlankLine (trimStart cs) = isBlankLine cs := by
  conv => rhs; rw [← List.takeWhile_append_dropWhile (p := isBlank) (l := cs)]
  rw [isBlankLine, isBlankLine, List.all_append]
  have : (cs.takeWhile isBlank).all isBlank = true :=
    List.all_eq_true.2 fun c hc => List.mem_takeWhile_imp hc
  rw [this, Bool.true_and]
  rfl

theorem isBlankLine_trimEnd (cs : List Char) : isBlankLine (trimEnd cs) = isBlankLine cs := by
  have := isBlankLine_trimStart cs.reverse
  simpa [isBlankLine, trimEnd, trimStart] using this

namespace Line

def core (l : Line) : Line :=
  l.withText (if l.inLiteral then l.trimmed else trimStart l.trimmed)

theorem core_isBlank (l : Line) : l.core.isBlank = l.isBlank := by
  have htrimmed : isBlankLine l.trimmed = isBlankLine l.text := by
    unfold trimmed
    split
    · rfl
    · exact isBlankLine_trimEnd l.text
  cases hlit : l.inLiteral with
  | true => simp [isBlank, core, withText, hlit]
  | false => simp [isBlank, core, withText, hlit, isBlankLine_trimStart, htrimmed]

theorem Fits.core_eq {k : Line} (h : l.Fits k) : k.core = l.core := by
  obtain ⟨w, m, v, n, hchars, rfl, hw, hv, hlead, htrail⟩ := h
  have hspaces := (isMargin_replicate n).isBlankLine
  -- Margins in front go whether or not the rest is blank.
  have hfront : ∀ {u : List Char}, isBlankLine u = true →
      trimStart (trimEnd (u ++ m)) = trimStart (trimEnd m) := by
    intro u hu
    rw [trimEnd_append]
    split
    · rename_i hm
      have hnil : ∀ {x : List Char}, isBlankLine x = true → trimStart (trimEnd x) = [] := by
        intro x hx
        rw [← isBlankLine_trimEnd] at hx
        exact List.dropWhile_eq_nil_iff.2 (List.all_eq_true.1 hx)
      rw [hnil hu, hnil hm]
    · exact trimStart_append_blank hu _
  cases hlit : l.inLiteral with
  | true =>
    obtain ⟨rfl, rfl⟩ := hlead hlit
    cases hcont : l.continuesLiteral with
    | true =>
      obtain rfl := htrail hcont
      simp [core, withText, trimmed, hlit, hcont, hchars]
    | false =>
      simp [core, withText, trimmed, hlit, hcont, hchars, trimEnd_append, hv.isBlankLine]
  | false =>
    cases hcont : l.continuesLiteral with
    | true =>
      obtain rfl := htrail hcont
      simp [core, withText, trimmed, hlit, hcont, hchars, trimStart_append_blank hspaces,
        trimStart_append_blank hw.isBlankLine]
    | false =>
      have hleft : trimEnd (w ++ m ++ v) = trimEnd (w ++ m) := by
        rw [trimEnd_append, if_pos hv.isBlankLine]
      simp only [core, withText, trimmed, hlit, hcont, hchars, Bool.false_eq_true, if_false, hleft,
        hfront hspaces, hfront hw.isBlankLine]

theorem exists_trimmed (hl : '\n' ∉ l.text) :
    ∃ v, l.text = l.trimmed ++ v ∧ IsMargin v ∧ (l.continuesLiteral = true → v = []) := by
  unfold trimmed
  split
  · exact ⟨[], by simp, isMargin_nil, fun _ => rfl⟩
  · rename_i hcont
    obtain ⟨v, hv, hblank⟩ := exists_trimEnd l.text
    refine ⟨v, hv, fun c hc => ⟨hblank c hc, ?_⟩, fun h => absurd h hcont⟩
    rintro rfl
    exact hl (hv ▸ List.mem_append_right _ hc)

theorem fits_self (l : Line) : l.Fits l :=
  ⟨[], l.text, [], 0, by simp, rfl, isMargin_nil, isMargin_nil, fun _ => ⟨rfl, rfl⟩, fun _ => rfl⟩

section
variable (hl : '\n' ∉ l.text)
include hl

theorem fits_trimmed : l.Fits (l.withText l.trimmed) := by
  obtain ⟨v, hv, hmargin, hcont⟩ := exists_trimmed hl
  exact ⟨[], l.trimmed, v, 0, by simpa using hv, rfl, isMargin_nil, hmargin, fun _ => ⟨rfl, rfl⟩,
    hcont⟩

theorem fits_nil (hlit : l.inLiteral = false) (hblank : isBlankLine l.text = true) :
    l.Fits (l.withText []) := by
  refine ⟨l.text, [], [], 0, by simp, rfl, fun c hc => ?_, isMargin_nil, by simp [hlit],
    fun _ => rfl⟩
  refine ⟨List.all_eq_true.1 hblank c hc, ?_⟩
  rintro rfl
  exact hl hc

/-- Not more than the line's own margin is taken away. -/
theorem fits_outdent {common : Nat}
    (hcommon : l.isBlank = false → l.inLiteral = false → common ≤ l.margin) :
    l.Fits (l.withText (l.outdent common)) := by
  unfold outdent
  split
  · exact fits_trimmed hl
  rename_i hlit
  rw [Bool.not_eq_true] at hlit
  split
  · rename_i hblank
    exact fits_nil hl hlit (by simpa [isBlank, hlit] using hblank)
  rename_i hblank
  rw [Bool.not_eq_true] at hblank
  obtain ⟨v, hv, hmargin, hcont⟩ := exists_trimmed hl
  refine ⟨l.trimmed.take common, l.trimmed.drop common, v, 0, ?_, rfl, fun c hc => ?_, hmargin,
    by simp [hlit], hcont⟩
  · rw [List.take_append_drop]
    exact hv
  · have htake : c ∈ l.text.take common := by
      rw [hv, List.take_append]
      exact List.mem_append_left _ hc
    have hspace : (c == ' ' || c == '\t') = true := by
      rw [← List.takeWhile_append_dropWhile (p := fun c => c == ' ' || c == '\t') (l := l.text),
        List.take_append_of_le_length (hcommon hblank hlit)] at htake
      exact List.mem_takeWhile_imp (p := fun c => c == ' ' || c == '\t')
        (List.mem_of_mem_take htake)
    rcases Bool.or_eq_true_iff.1 hspace with h | h <;> rw [beq_iff_eq.1 h] <;> decide

theorem fits_indent (width : Nat) : l.Fits (l.withText (l.indent width)) := by
  unfold indent
  split
  · exact fits_self l
  rename_i hlit
  rw [Bool.not_eq_true] at hlit
  split
  · rename_i hblank
    exact fits_nil hl hlit hblank
  · exact ⟨[], l.text, [], width, by simp, rfl, isMargin_nil, isMargin_nil, by simp [hlit],
      fun _ => rfl⟩

end

end Line

theorem dropBlankEnds_map_core (ls : List Line) :
    (dropBlankEnds ls).map Line.core = dropBlankEnds (ls.map Line.core) := by
  have hblank : Line.isBlank ∘ Line.core = Line.isBlank := funext Line.core_isBlank
  simp only [dropBlankEnds, List.dropWhile_map, ← List.map_reverse, hblank]

/-- The lines of a text without their margins, and without blank lines at both ends. -/
def programLines (text : List Char) : List Line := (dropBlankEnds (splitLines text)).map Line.core

/-- The characters of a text with their regions, without the blanks outside of literals. -/
def essence (text : List Char) : Marked := Marked.essence (text.zip (classify text))

def literalText (text : List Char) : List Char :=
  Marked.chars ((text.zip (classify text)).filter fun (_, r) => r == .literal)

/-- A text with other margins and other blank lines at its ends. -/
structure Relaid (source piece : List Char) : Prop where
  lines_eq : programLines piece = programLines source
  essence_eq : essence piece = essence source

theorem literalText_eq_essence (text : List Char) :
    literalText text = Marked.chars ((essence text).filter fun p => p.2 == .literal) := by
  rw [literalText, essence, Marked.essence, List.filter_filter]
  congr 2
  funext p
  cases hregion : p.2 <;> simp [hregion]

theorem Relaid.literalText_eq {source piece : List Char} (h : Relaid source piece) :
    literalText piece = literalText source := by
  rw [literalText_eq_essence, literalText_eq_essence, h.essence_eq]

theorem Relaid.trans {a b c : List Char} (h : Relaid a b) (h' : Relaid b c) : Relaid a c :=
  ⟨h'.lines_eq.trans h.lines_eq, h'.essence_eq.trans h.essence_eq⟩

theorem Settles.essence_eq (h : Settles mode ls m) : essence (sheetText ls) = m.essence := by
  rw [essence, h.zip_classify]

theorem Settles.dropBlankEnds_splitLines (h : Settles mode ls m) (hmode : endsLine mode)
    (hreturn : '\r' ∉ sheetText ls) :
    Vue.dropBlankEnds (splitLines (sheetText ls)) = Vue.dropBlankEnds ls := by
  have hlast := fun l => h.last_ne_nil hmode (l := l)
  rw [← h.chars_eq] at hreturn ⊢
  obtain ⟨d, h⟩ := h
  exact h.dropBlankEnds_splitLines hreturn hlast

theorem Settles.programLines_eq (h : Settles mode ls m) (hmode : endsLine mode)
    (hreturn : '\r' ∉ sheetText ls) :
    programLines (sheetText ls) = Vue.dropBlankEnds (ls.map Line.core) := by
  rw [programLines, h.dropBlankEnds_splitLines hmode hreturn, dropBlankEnds_map_core]

/-- The lines `ls` are those of `text`, the last of them is not blank, and reading them ends in
`mode`. -/
structure Spells (mode : Mode) (ls : List Line) (text : List Char) : Prop where
  settles : ∃ m, Settles mode ls m
  ends : endsLine mode
  text_eq : sheetText ls = text
  noReturn : '\r' ∉ text
  solid : ∀ l ∈ ls.getLast?, l.isBlank = false

namespace Spells

variable {mode : Mode} {ls ks : List Line} {text : List Char}

section
variable (h : Spells mode ls text)
include h

theorem ne_nil : ls ≠ [] := by
  obtain ⟨m, hm⟩ := h.settles
  exact hm.ne_nil

theorem feed_notMem (hl : l ∈ ls) : '\n' ∉ l.text := by
  obtain ⟨m, hm⟩ := h.settles
  exact hm.feed_notMem hl

theorem splitLines_eq : splitLines text = ls := by
  obtain ⟨m, hm⟩ := h.settles
  have hlast : ∀ l ∈ ls.getLast?, l.text ≠ [] := by
    intro l hl hnil
    have hsolid := h.solid l hl
    cases hlit : l.inLiteral with
    | true => exact hm.last_ne_nil h.ends hl hlit hnil
    | false => simp [Line.isBlank, hlit, hnil, isBlankLine] at hsolid
  have hreturn := h.noReturn
  rw [← h.text_eq, ← hm.chars_eq] at hreturn ⊢
  obtain ⟨d, hm⟩ := hm
  exact hm.splitLines_eq hreturn hlast

theorem last_isBlank (hcore : ks.map Line.core = ls.map Line.core) :
    ∀ k ∈ ks.getLast?, k.isBlank = false := by
  intro k hk
  have hlast : ks.getLast?.map Line.core = ls.getLast?.map Line.core := by
    rw [← List.getLast?_map, ← List.getLast?_map, hcore]
  rw [Option.mem_def.1 hk, Option.map_some] at hlast
  obtain ⟨l, hl, hlk⟩ := Option.map_eq_some_iff.1 hlast.symm
  rw [← Line.core_isBlank, ← hlk, Line.core_isBlank]
  exact h.solid l hl

end

theorem map_core_eq (hfits : List.Forall₂ Line.Fits ls ks) :
    ks.map Line.core = ls.map Line.core := by
  induction hfits with
  | nil => rfl
  | cons hfit _ ih => rw [List.map_cons, List.map_cons, hfit.core_eq, ih]

theorem notMem_sheetText {c : Char} (hc : c ≠ ' ') (hfeed : c ≠ '\n')
    (hfits : List.Forall₂ Line.Fits ls ks) (hmem : c ∉ sheetText ls) : c ∉ sheetText ks := by
  induction hfits with
  | nil => simpa using hmem
  | @cons l k ls ks hfit hrest ih =>
    cases hrest with
    | nil => exact hfit.notMem hc hmem
    | cons hfit' hrest' =>
      rw [sheetText_cons_cons] at hmem ⊢
      simp only [List.mem_append, List.mem_cons, not_or] at hmem ⊢
      exact ⟨hfit.notMem hc hmem.1, hfeed, ih hmem.2.2⟩

/-- Lines with other margins make a text of the same program. -/
theorem relay (h : Spells mode ls text) (hfits : List.Forall₂ Line.Fits ls ks) :
    Spells mode ks (sheetText ks) ∧ Relaid text (sheetText ks) := by
  obtain ⟨m, hm⟩ := h.settles
  obtain ⟨m', hm', hess⟩ := hm.of_fits h.ends hfits
  have hcore := map_core_eq hfits
  have hreturn : '\r' ∉ sheetText ls := h.text_eq ▸ h.noReturn
  have hreturn' : '\r' ∉ sheetText ks := notMem_sheetText (by decide) (by decide) hfits hreturn
  refine ⟨⟨⟨m', hm'⟩, h.ends, rfl, hreturn', h.last_isBlank hcore⟩, ?_, ?_⟩
  · rw [hm'.programLines_eq h.ends hreturn', ← h.text_eq, hm.programLines_eq h.ends hreturn, hcore]
  · rw [hm'.essence_eq, hess, ← h.text_eq, hm.essence_eq]

theorem relay_map (h : Spells mode ls text) {f : Line → Line} (hf : ∀ l ∈ ls, l.Fits (f l)) :
    Spells mode (ls.map f) (sheetText (ls.map f)) ∧ Relaid text (sheetText (ls.map f)) := by
  apply h.relay
  rw [List.forall₂_map_right_iff, List.forall₂_same]
  exact hf

end Spells

def indentLine (width : Nat) (l : Line) : Line := l.withText (l.indent width)

theorem indentLine_indentLine (v w : Nat) (l : Line) :
    indentLine v (indentLine w l) = indentLine (v + w) l := by
  cases hlit : l.inLiteral with
  | true => simp [indentLine, Line.indent, Line.withText, hlit]
  | false =>
    cases hblank : isBlankLine l.text with
    | true =>
      have hnil : isBlankLine [] = true := rfl
      simp [indentLine, Line.indent, Line.withText, hlit, hblank, hnil]
    | false =>
      have hspaces : isBlankLine (List.replicate w ' ' ++ l.text) = false := by
        rw [isBlankLine, List.all_append, ← isBlankLine, ← isBlankLine, hblank, Bool.and_false]
      simp [indentLine, Line.indent, Line.withText, hlit, hblank, hspaces, ← List.append_assoc]

/-- Text behind a line that is not blank does not change its margin. -/
theorem Line.indent_append (hl : l.isBlank = false) (text : List Char) (c : Bool) (width : Nat) :
    Line.indent width ⟨l.text ++ text, l.inLiteral, c⟩ = l.indent width ++ text := by
  cases hlit : l.inLiteral with
  | true => simp [indent, hlit]
  | false =>
    have hblank : isBlankLine l.text = false := by simpa [isBlank, hlit] using hl
    have hblank' : isBlankLine (l.text ++ text) = false := by
      rw [isBlankLine, List.all_append, ← isBlankLine, hblank, Bool.false_and]
    simp [indent, hlit, hblank, hblank']

def dedentSheet : List Line → List Line
  | [] => []
  | first :: rest =>
    first.withText first.trimmed ::
      rest.map fun l => l.withText (l.outdent (commonMargin rest))

theorem commonMargin_le (hl : l ∈ ls) (hblank : l.isBlank = false) (hlit : l.inLiteral = false) :
    commonMargin ls ≤ l.margin := by
  apply List.min?_getD_le_of_mem
  refine List.mem_map.2 ⟨l, List.mem_filter.2 ⟨hl, ?_⟩, rfl⟩
  simp [hblank, hlit]

theorem forall₂_dedentSheet (hls : ∀ l ∈ ls, '\n' ∉ l.text) :
    List.Forall₂ Line.Fits ls (dedentSheet ls) := by
  cases ls with
  | nil => exact .nil
  | cons first rest =>
    refine .cons (Line.fits_trimmed (hls first List.mem_cons_self)) ?_
    rw [List.forall₂_map_right_iff, List.forall₂_same]
    intro l hl
    exact Line.fits_outdent (hls l (List.mem_cons_of_mem _ hl)) (commonMargin_le hl)

theorem dedentTail_eq (text : List Char) :
    dedentTail text = sheetText (dedentSheet (splitLines text)) := by
  rw [dedentTail]
  cases splitLines text with
  | nil => rfl
  | cons first rest =>
    rw [dedentSheet, sheetText, List.map_cons, List.map_map]
    rfl

theorem sheetText_map_withText (f : Line → List Char) (ls : List Line) :
    sheetText (ls.map fun l => l.withText (f l)) = joinWith ['\n'] (ls.map f) := by
  rw [sheetText, List.map_map]
  rfl

namespace Spells

variable {mode : Mode} {ls : List Line} {text : List Char}

theorem indent (h : Spells mode ls text) (width : Nat) :
    Spells mode (ls.map (indentLine width)) (indent width text) ∧
      Relaid text (Vue.indent width text) := by
  rw [Vue.indent, h.splitLines_eq, ← sheetText_map_withText]
  exact h.relay_map fun l hl => Line.fits_indent (h.feed_notMem hl) width

theorem dedentTail (h : Spells mode ls text) :
    Spells mode (dedentSheet ls) (dedentTail text) ∧ Relaid text (Vue.dedentTail text) := by
  rw [dedentTail_eq, h.splitLines_eq]
  exact h.relay (forall₂_dedentSheet fun l => h.feed_notMem)

theorem outdent (h : Spells mode ls text) :
    Spells mode (ls.map fun l => l.withText (l.outdent (commonMargin ls)))
        (joinWith ['\n'] (ls.map (Line.outdent (commonMargin ls)))) ∧
      Relaid text (joinWith ['\n'] (ls.map (Line.outdent (commonMargin ls)))) := by
  rw [← sheetText_map_withText]
  exact h.relay_map fun l hl =>
    Line.fits_outdent (h.feed_notMem hl) (commonMargin_le hl)

end Spells

end Revue.Vue
