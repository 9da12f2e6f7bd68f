import Revue.Proofs.Reindentation

/-!
# Pieces of source in generated text

`Weaves ps text` says that the pieces `ps` stand in `text` in their order, each with other margins
only. `Carries mode ps text` says so of the text under every further indentation, and it is kept by
what generation does: texts are put below each other or behind each other and indented, and the
whole is read again each time.
-/

namespace Revue.Vue
open Text Source

variable {mode : Mode} {p : Piece} {a b text : List Char} {ls : List Line}

/-- A fragment with its sites replaced, and the part of it that is laid out. -/
structure Piece where
  text : List Char
  shown : List Char

namespace Piece

def whole (text : List Char) : Piece := ⟨text, text⟩

/-- The body of a function, which gets new braces if it has some. -/
def body (text : List Char) : Piece := ⟨text, (insideBraces? text).getD text⟩

/-- The lines are those of the piece up to margins, and its literals are unchanged. -/
structure LaidOutAs (p : Piece) (text : List Char) : Prop where
  relaid : Relaid p.shown text
  literals : literalText text = literalText p.text

theorem LaidOutAs.trans (h : p.LaidOutAs a) (hab : Relaid a b) : p.LaidOutAs b :=
  ⟨h.relaid.trans hab, hab.literalText_eq.trans h.literals⟩

theorem laidOutAs_whole (h : Relaid a b) : (whole a).LaidOutAs b :=
  ⟨h, h.literalText_eq⟩

end Piece

/-- Pieces stand in a text in their order, with other text between them. -/
inductive Weaves : List Piece → List Char → Prop
  | nil (gap : List Char) : Weaves [] gap
  | cons {p : Piece} {ps : List Piece} (gap : List Char) {text rest : List Char}
      (hp : p.LaidOutAs text) (hrest : Weaves ps rest) : Weaves (p :: ps) (gap ++ text ++ rest)

namespace Weaves

variable {ps qs : List Piece} {a b : List Char}

theorem behind_gap (gap : List Char) (h : Weaves ps a) : Weaves ps (gap ++ a) := by
  cases h with
  | nil => exact .nil _
  | cons gap' hp hrest =>
    rw [← List.append_assoc, ← List.append_assoc]
    exact .cons (gap ++ gap') hp hrest

theorem append (h : Weaves ps a) (h' : Weaves qs b) : Weaves (ps ++ qs) (a ++ b) := by
  induction h with
  | nil gap => exact h'.behind_gap gap
  | cons gap hp _ ih =>
    rw [List.append_assoc]
    exact .cons gap hp ih

theorem before_gap (h : Weaves ps a) (gap : List Char) : Weaves ps (a ++ gap) := by
  have := h.append (.nil gap)
  rwa [List.append_nil] at this

theorem single (h : p.LaidOutAs a) : Weaves [p] a := by
  simpa using Weaves.cons [] h (.nil [])

end Weaves

/-- A text has a property under every further indentation. -/
def Keeps (mode : Mode) (P : List Char → Prop) (text : List Char) : Prop :=
  ∃ ls, Spells mode ls text ∧ ∀ width, P (sheetText (ls.map (indentLine width)))

/-- The same for a text that starts in the middle of a line. -/
def KeepsTail (mode : Mode) (P : List Char → Prop) (text : List Char) : Prop :=
  ∃ l ls, Spells mode (l :: ls) text ∧ ∀ width, P (sheetText (l :: ls.map (indentLine width)))

/-- Under every indentation the pieces stand in the text. -/
def Carries (mode : Mode) (ps : List Piece) (text : List Char) : Prop :=
  ∃ ls, Spells mode ls text ∧ ∀ width, Weaves ps (sheetText (ls.map (indentLine width)))

def CarriesTail (mode : Mode) (ps : List Piece) (text : List Char) : Prop :=
  ∃ l ls, Spells mode (l :: ls) text ∧
    ∀ width, Weaves ps (sheetText (l :: ls.map (indentLine width)))

section
variable (h : Spells mode ls text)
include h

theorem Spells.carries : Carries mode [] text :=
  ⟨ls, h, fun _ => .nil _⟩

theorem Spells.carriesTail : CarriesTail mode [] text := by
  obtain ⟨l, ls, rfl⟩ := List.exists_cons_of_ne_nil h.ne_nil
  exact ⟨l, ls, h, fun _ => .nil _⟩

theorem Spells.carries_piece (hp : p.LaidOutAs text) : Carries mode [p] text := by
  refine ⟨ls, h, fun width => .single (hp.trans ?_)⟩
  exact (h.relay_map fun l hl => Line.fits_indent (h.feed_notMem hl) width).2

/-- A piece that starts in the middle of a line. -/
theorem Spells.carriesTail_piece (hp : p.LaidOutAs text) : CarriesTail mode [p] text := by
  obtain ⟨l, ls, rfl⟩ := List.exists_cons_of_ne_nil h.ne_nil
  refine ⟨l, ls, h, fun width => .single (hp.trans ?_)⟩
  refine (h.relay (.cons (Line.fits_self l) ?_)).2
  rw [List.forall₂_map_right_iff, List.forall₂_same]
  exact fun k hk => Line.fits_indent (h.feed_notMem (by simp [hk])) width

end

theorem sheetText_glue (ls ks : List Line) (a b : List Char) (i c i' c' i'' c'' : Bool) :
    sheetText (ls ++ ⟨a ++ b, i, c⟩ :: ks) =
      sheetText (ls ++ [⟨a, i', c'⟩]) ++ sheetText (⟨b, i'', c''⟩ :: ks) := by
  have hbase : sheetText (⟨a ++ b, i, c⟩ :: ks) = a ++ sheetText (⟨b, i'', c''⟩ :: ks) := by
    cases ks with
    | nil => rfl
    | cons k ks =>
      rw [sheetText_cons_cons, sheetText_cons_cons]
      simp
  cases ls with
  | nil => simpa using hbase
  | cons l ls =>
    rw [sheetText_append (by simp) (by simp), sheetText_append (by simp) (by simp), hbase]
    simp

namespace Keeps

variable {mode' : Mode} {P Q R : List Char → Prop}

theorem indent (h : Keeps mode P a) (width : Nat) : Keeps mode P (indent width a) := by
  obtain ⟨ls, hls, hkeeps⟩ := h
  refine ⟨ls.map (indentLine width), (hls.indent width).1, fun v => ?_⟩
  have hcomp : indentLine v ∘ indentLine width = indentLine (v + width) :=
    funext (indentLine_indentLine v width)
  rw [List.map_map, hcomp]
  exact hkeeps _

theorem of_indent (h : Keeps mode P a) (width : Nat) : P (Vue.indent width a) := by
  obtain ⟨ls, hls, hkeeps⟩ := h
  rw [← (hls.indent width).1.text_eq]
  exact hkeeps width

/-- A text below another. -/
theorem below (h : Keeps mode P a) (h' : Keeps mode' Q b)
    (hR : ∀ x y, P x → Q y → R (x ++ '\n' :: y)) : Keeps mode' R (a ++ '\n' :: b) := by
  obtain ⟨ls, hls, hkeeps⟩ := h
  obtain ⟨ks, hks, hkeeps'⟩ := h'
  obtain ⟨m, hm⟩ := hls.settles
  obtain ⟨k, hk⟩ := hks.settles
  have hl := hls.ne_nil
  have hk' := hks.ne_nil
  refine ⟨ls ++ ks, ⟨⟨_, hm.append hls.ends hk⟩, hks.ends, ?_, ?_, ?_⟩, fun width => ?_⟩
  · rw [sheetText_append hl hk', hls.text_eq, hks.text_eq]
  · simp [hls.noReturn, hks.noReturn]
  · intro l hlast
    rw [List.getLast?_append_of_ne_nil _ hk'] at hlast
    exact hks.solid l hlast
  · rw [List.map_append, sheetText_append (by simpa using hl) (by simpa using hk')]
    exact hR _ _ (hkeeps width) (hkeeps' width)

/-- A text behind another, on the last line of this. -/
theorem behind (h : Keeps .code P a) (h' : KeepsTail mode Q b) (hseam : Seam a b)
    (hR : ∀ x y, P x → Q y → R (x ++ y)) : Keeps mode R (a ++ b) := by
  obtain ⟨ls, hls, hkeeps⟩ := h
  obtain ⟨l', ks, hks, hkeeps'⟩ := h'
  obtain ⟨m, hm⟩ := hls.settles
  obtain ⟨k, hk⟩ := hks.settles
  obtain ⟨ls, l, rfl⟩ := (List.eq_nil_or_concat' ls).resolve_left hls.ne_nil
  have hsolid : l.isBlank = false := hls.solid l (by simp)
  have hseam' : Seam m.chars k.chars := by
    rwa [hm.chars_eq, hk.chars_eq, hls.text_eq, hks.text_eq]
  refine ⟨_, ⟨⟨_, hm.glue hk hseam'⟩, hks.ends, ?_, ?_, ?_⟩, fun width => ?_⟩
  · rw [sheetText_glue ls ks l.text l'.text _ _ l.inLiteral l.continuesLiteral l'.inLiteral
      l'.continuesLiteral, hls.text_eq, hks.text_eq]
  · simp [hls.noReturn, hks.noReturn]
  · intro x hx
    cases ks with
    | nil =>
      obtain rfl : _ = x := by simpa using hx
      cases hlit : l.inLiteral with
      | true => simp [Line.isBlank]
      | false =>
        have hblank : isBlankLine l.text = false := by simpa [Line.isBlank, hlit] using hsolid
        rw [Line.isBlank, isBlankLine, List.all_append, ← isBlankLine, hblank, Bool.false_and,
          Bool.and_false]
    | cons k ks => exact hks.solid x (by simpa using hx)
  · have hglue := sheetText_glue (ls.map (indentLine width)) (ks.map (indentLine width))
      (l.indent width) l'.text l.inLiteral l'.continuesLiteral l.inLiteral l.continuesLiteral
      l'.inLiteral l'.continuesLiteral
    have hline : indentLine width ⟨l.text ++ l'.text, l.inLiteral, l'.continuesLiteral⟩ =
        ⟨l.indent width ++ l'.text, l.inLiteral, l'.continuesLiteral⟩ := by
      rw [indentLine, Line.indent_append hsolid]
      rfl
    rw [List.map_append, List.map_cons, hline, hglue]
    refine hR _ _ ?_ (hkeeps' width)
    simpa [indentLine, Line.withText] using hkeeps width

end Keeps

namespace Carries

variable {mode mode' : Mode} {ps qs : List Piece} {a b : List Char}

theorem indent (h : Carries mode ps a) (width : Nat) : Carries mode ps (indent width a) :=
  Keeps.indent h width

theorem weaves_indent (h : Carries mode ps a) (width : Nat) : Weaves ps (Vue.indent width a) :=
  Keeps.of_indent h width

theorem below (h : Carries mode ps a) (h' : Carries mode' qs b) :
    Carries mode' (ps ++ qs) (a ++ '\n' :: b) :=
  Keeps.below h h' fun _ _ hx hy => hx.append (hy.behind_gap ['\n'])

theorem behind (h : Carries .code ps a) (h' : CarriesTail mode qs b) (hseam : Seam a b) :
    Carries mode (ps ++ qs) (a ++ b) :=
  Keeps.behind h h' hseam fun _ _ => Weaves.append

end Carries

end Revue.Vue
