import Mathlib.Data.List.TakeDrop
import Revue.Proofs.LiteralTexts

/-!
# The texts of tokens

What is known of the text of a token from what the token is, and of the blanks and comments between
tokens. The lexer knows texts that the scanner does not: regular expressions, the text between tags,
and strings in tags. It also knows line breaks that the scanner does not, so that the line feed has
to be the only one.
-/

namespace Revue.Syntax
open Text Source

variable {pos : Nat} {c : Char} {sc : Scanned} {cs first : List Char} {table : List (String × Mark)}

section Tokens

def StringText (text rest : List Char) : Prop :=
  ∃ q body, isQuoteMark q ∧ StringBody q body ∧
    (text = q :: body ++ [q] ∨ text = q :: body ∧ (rest = [] ∨ rest.head? = some '\n'))

/-- What is known of the text of a token, and of the text behind it, from what the token is. Nothing
is known of the texts that the scanner does not know about. -/
def Fits (style : Style) (l : Lexeme) (text rest : List Char) : Prop :=
  match l with
  | .string _ =>
    match style with
    | .script => StringText text rest
    | .markup => ∃ q value, isQuoteMark q ∧ q ∉ value ∧ text = q :: value ++ [q]
  | .template more _ =>
    ∃ c body, (c = '\x60' ∨ c = '\x7d') ∧ Derives .template (inRegion .literal body) ∧
      text = c :: body ++ pieceEnd more
  | .mark m =>
    text = m.text.toList ∧ (m = .slash → rest.head? ≠ some '/' ∧ rest.head? ≠ some '*')
  | .start | .regex | .markupText => True
  | _ => CodeText text

def atComment : List Char → Bool
  | '/' :: '/' :: _ => true
  | '/' :: '*' :: _ => true
  | _ => false

theorem stripStart?_eq {rest : List Char} (h : stripStart? first cs = some rest) :
    cs = first ++ rest := by
  fun_induction stripStart? first cs with
  | case1 => exact Option.some.inj h
  | case2 => cases h
  | case3 _ _ _ ih => exact congrArg _ (ih h)
  | case4 => cases h

theorem scanMark_eq (h : scanMark table pos cs = some sc) :
    ∃ entry ∈ table, sc.lexeme = .mark entry.2 ∧ cs = entry.1.toList ++ sc.rest := by
  obtain ⟨entry, hentry, hstrip⟩ := List.exists_of_findSome?_eq_some h
  obtain ⟨rest, hrest, rfl⟩ := Option.map_eq_some_iff.1 hstrip
  exact ⟨entry, hentry, rfl, stripStart?_eq hrest⟩

theorem mark_text : ∀ entry ∈ Mark.table ++ Mark.greaterTable, entry.2.text = entry.1 := by
  decide

theorem scanMark_fits (htable : table ⊆ Mark.table ++ Mark.greaterTable)
    (h : scanMark table pos cs = some sc) (hcomment : atComment cs = false) (style : Style) :
    ∃ text, cs = text ++ sc.rest ∧ Fits style sc.lexeme text sc.rest := by
  obtain ⟨entry, hentry, hlexeme, hcs⟩ := scanMark_eq h
  have htext := mark_text entry (htable hentry)
  refine ⟨entry.1.toList, hcs, ?_⟩
  rw [hlexeme]
  refine ⟨by rw [htext], ?_⟩
  intro hslash
  have hone : entry.1.toList = ['/'] := by
    rw [← htext, hslash]
    decide
  rw [hcs, hone] at hcomment
  cases hrest : sc.rest with
  | nil => simp
  | cons c rest =>
    rw [hrest] at hcomment
    refine ⟨?_, ?_⟩
    · rintro heq
      obtain rfl : c = '/' := by simpa using heq
      simp [atComment] at hcomment
    · rintro heq
      obtain rfl : c = '*' := by simpa using heq
      simp [atComment] at hcomment

theorem scanWord_fits (h : scanWord pos cs = some sc) (style : Style) :
    ∃ text, cs = text ++ sc.rest ∧ CodeText text ∧ Fits style sc.lexeme text sc.rest := by
  obtain ⟨n, hname, rfl⟩ := Option.map_eq_some_iff.1 h
  obtain ⟨text, htext, hcode⟩ := scanName_text hname
  refine ⟨text, htext, hcode, ?_⟩
  dsimp only
  unfold wordOf
  split
  · exact hcode
  · split
    · exact hcode
    · split
      · exact hcode
      · exact hcode

theorem scanPrivateName_fits (h : scanPrivateName pos cs = some sc) (style : Style) :
    ∃ text, '#' :: cs = text ++ sc.rest ∧ Fits style sc.lexeme text sc.rest := by
  unfold scanPrivateName at h
  split at h
  · split at h
    · rename_i word hword
      obtain ⟨text, htext, hcode, -⟩ := scanWord_fits hword style
      split at h
      · obtain rfl := Option.some.inj h
        exact ⟨'#' :: text, congrArg ('#' :: ·) htext, hcode.cons (by decide)⟩
      · cases h
    · cases h
  · cases h

theorem scanQuoted_fits {style : Style} {q : Char} (hq : isQuoteMark q) (hreturn : '\r' ∉ cs)
    (h : scanQuoted style q pos cs = some sc) :
    ∃ text, q :: cs = text ++ sc.rest ∧ Fits style sc.lexeme text sc.rest := by
  cases style with
  | markup =>
    unfold scanQuoted scanRawString at h
    dsimp only at h
    rw [List.span_eq_takeWhile_dropWhile] at h
    dsimp only at h
    split at h
    · cases h
    · rename_i c rest hrest
      obtain rfl := Option.some.inj h
      have hc : c = q := by
        have := List.head_dropWhile_not (p := (· != q)) (l := cs) (by simp [hrest])
        simpa [hrest] using this
      refine ⟨q :: cs.takeWhile (· != q) ++ [q], ?_, q, _, hq, ?_, rfl⟩
      · have hsplit := List.takeWhile_append_dropWhile (p := (· != q)) (l := cs)
        rw [hrest, hc] at hsplit
        simp [hsplit]
      · intro hmem
        have := List.all_eq_true.1 (List.all_takeWhile (p := (· != q)) (l := cs)) q hmem
        simp at this
  | script =>
    obtain ⟨r, hstring, rfl⟩ := Option.map_eq_some_iff.1 h
    obtain ⟨body, hbody, htext⟩ := scanString_text hq hreturn hstring
    rw [List.drop_zero] at htext
    rcases htext with htext | ⟨htext, hend⟩
    · exact ⟨q :: body ++ [q], by simp [htext], q, body, hq, hbody, Or.inl rfl⟩
    · exact ⟨q :: body, by simp [htext], q, body, hq, hbody, Or.inr ⟨rfl, hend⟩⟩

theorem scanTemplatePiece_fits (hc : c = '\x60' ∨ c = '\x7d')
    (h : scanTemplatePiece pos cs = some sc) (style : Style) :
    ∃ text, c :: cs = text ++ sc.rest ∧ Fits style sc.lexeme text sc.rest := by
  obtain ⟨t, htemplate, rfl⟩ := Option.map_eq_some_iff.1 h
  obtain ⟨body, hbody, rfl⟩ := scanTemplate_text htemplate
  exact ⟨c :: body ++ pieceEnd t.more, by simp, c, body, hc, hbody, rfl⟩

theorem scanNumeric_fits (h : scanNumeric pos cs = some sc) (style : Style) :
    ∃ text, cs = text ++ sc.rest ∧ Fits style sc.lexeme text sc.rest := by
  obtain ⟨n, hnumber, rfl⟩ := Option.map_eq_some_iff.1 h
  obtain ⟨text, htext, hinert⟩ := scanNumber_inert hnumber
  refine ⟨text, htext, ?_⟩
  dsimp only
  split
  · exact .of_inert hinert
  · exact .of_inert hinert

theorem scanToken_fits (style : Style) (pos : Nat) (hcomment : atComment cs = false)
    (hreturn : '\r' ∉ cs) :
    ∃ text, cs = text ++ (scanToken style pos cs).rest ∧
      Fits style (scanToken style pos cs).lexeme text (scanToken style pos cs).rest := by
  unfold scanToken
  cases hscan : scanToken? style pos cs with
  | none => exact ⟨[], rfl, CodeText.nil⟩
  | some sc =>
    rw [Option.getD_some]
    unfold scanToken? at hscan
    split at hscan
    · obtain rfl := Option.some.inj hscan
      exact ⟨[], rfl, CodeText.nil⟩
    · rename_i c rest
      have hreturn' : '\r' ∉ rest := fun hmem => hreturn (List.mem_cons_of_mem c hmem)
      split at hscan
      · obtain ⟨text, htext, -, hfits⟩ := scanWord_fits hscan style
        exact ⟨text, htext, hfits⟩
      · split at hscan
        · exact scanNumeric_fits hscan style
        · split at hscan
          · rename_i hquote
            have hq : isQuoteMark c := by simpa [isQuoteMark, or_comm] using hquote
            exact scanQuoted_fits hq hreturn' hscan
          · split at hscan
            · rename_i htick
              exact scanTemplatePiece_fits (Or.inl (by simpa using htick)) hscan style
            · split at hscan
              · rename_i hhash
                obtain rfl : c = '#' := by simpa using hhash
                exact scanPrivateName_fits hscan style
              · split at hscan
                · cases hscan
                · exact scanMark_fits (List.subset_append_left _ _) hscan hcomment style

end Tokens

section Gaps

/-- The mode of the scanner between tokens. -/
def Gap.mode : Gap → Mode
  | .blank => .code
  | .line _ => .lineComment
  | .block _ _ => .blockComment

/-- The second text is what is left of the first behind blanks and comments, which the scanner reads
from a mode on without meeting a literal. -/
def GapUpTo (mode : Mode) (cs rest : List Char) : Prop :=
  ∀ d xs, ∃ m t, Scan.Reads rest.head? ⟨mode, d, xs⟩ m t ∧ cs = m.chars ++ rest ∧
    (∀ p ∈ m, p.2 ≠ .literal) ∧ (rest ≠ [] → t = ⟨.code, d, xs⟩)

namespace GapUpTo
variable {mode mode' : Mode} {c : Char} {cs rest : List Char}

theorem refl (rest : List Char) : GapUpTo .code rest rest :=
  fun d xs => ⟨[], ⟨.code, d, xs⟩, .nil _, rfl, by simp, fun _ => rfl⟩

theorem nil (mode : Mode) : GapUpTo mode [] [] :=
  fun d xs => ⟨[], ⟨mode, d, xs⟩, .nil _, rfl, by simp, fun h => absurd rfl h⟩

theorem cons {r : Region} (hstep : ∀ d xs, Scan.step ⟨mode, d, xs⟩ c cs.head? = (r, ⟨mode', d, xs⟩))
    (hregion : r ≠ .literal) (hquote : ∀ q, mode ≠ .quote q) (h : GapUpTo mode' cs rest) :
    GapUpTo mode (c :: cs) rest := by
  intro d xs
  obtain ⟨m, t, hreads, rfl, hm, hend⟩ := h d xs
  have hhead : (m.chars ++ rest).head? = m.chars.head?.or rest.head? := by
    cases m.chars <;> simp
  refine ⟨(c, r) :: m, t, .cons (hhead ▸ hstep d xs) (Or.inr hquote) hreads, rfl, ?_, hend⟩
  exact List.forall_mem_cons.2 ⟨hregion, hm⟩

theorem inert (hc : isInert c = true) (h : GapUpTo .code cs rest) :
    GapUpTo .code (c :: cs) rest := by
  obtain ⟨hplain, hslash⟩ := isInert_iff.1 hc
  refine h.cons (r := .code) (fun d xs => ?_) (by simp) (by simp)
  exact Scan.step_code_plain hplain (fun heq => absurd heq hslash) d xs

end GapUpTo

theorem isInert_of_isGapBlank (h : isGapBlank c = true) : isInert c = true :=
  isInert_of_class h (by decide)

/-- The line feed is the only line break of a text. -/
def OnlyFeeds (cs : List Char) : Prop := ∀ c ∈ cs, isLineBreak c = true → c = '\n'

theorem OnlyFeeds.of_append (h : OnlyFeeds (first ++ cs)) : OnlyFeeds cs :=
  fun c hc => h c (List.mem_append_right first hc)

theorem OnlyFeeds.tail (h : OnlyFeeds (c :: cs)) : OnlyFeeds cs :=
  fun d hd => h d (List.mem_cons_of_mem c hd)

/-- Blanks and comments are a piece of the text, and the offset behind them counts it. -/
theorem skipTrivia_spec (before : Lexeme) (gap : Gap) (t : Trivia) (pos : Nat) (cs : List Char) :
    ∃ skipped, cs = skipped ++ (skipTrivia before gap t pos cs).rest ∧
      (skipTrivia before gap t pos cs).pos = pos + byteLength skipped := by
  have hone : ∀ {c : Char} {cs : List Char} {u : Trivia} {pos : Nat},
      (∃ skipped, cs = skipped ++ u.rest ∧ u.pos = pos + c.utf8Size + byteLength skipped) →
      ∃ skipped, c :: cs = skipped ++ u.rest ∧ u.pos = pos + byteLength skipped := by
    rintro c cs u pos ⟨skipped, rfl, hpos⟩
    exact ⟨c :: skipped, rfl, by rw [hpos, byteLength]; omega⟩
  have htwo : ∀ {a b : Char} {cs : List Char} {u : Trivia} {pos : Nat},
      a.utf8Size + b.utf8Size = 2 →
      (∃ skipped, cs = skipped ++ u.rest ∧ u.pos = pos + 2 + byteLength skipped) →
      ∃ skipped, a :: b :: cs = skipped ++ u.rest ∧ u.pos = pos + byteLength skipped := by
    rintro a b cs u pos hsize ⟨skipped, rfl, hpos⟩
    exact ⟨a :: b :: skipped, rfl, by rw [hpos, byteLength, byteLength]; omega⟩
  fun_induction skipTrivia before gap t pos cs with
  | case1 | case2 | case3 | case12 => exact ⟨[], rfl, rfl⟩
  | case4 _ _ _ _ _ _ _ ih | case5 _ _ _ _ _ _ ih | case7 _ _ _ _ _ _ _ ih
  | case10 _ _ _ _ _ _ _ ih | case11 _ _ _ _ _ _ _ _ ih => exact hone ih
  | case6 _ _ _ _ _ _ _ ih | case8 _ _ _ ih | case9 _ _ _ ih => exact htwo (by decide) ih

theorem skipTrivia_gap (before : Lexeme) (gap : Gap) (t : Trivia) (pos : Nat) (cs : List Char)
    (hfeeds : OnlyFeeds cs) :
    GapUpTo gap.mode cs (skipTrivia before gap t pos cs).rest ∧
      atComment (skipTrivia before gap t pos cs).rest = false := by
  fun_induction skipTrivia before gap t pos cs with
  | case1 => exact ⟨.nil _, rfl⟩
  | case2 => exact ⟨.nil _, rfl⟩
  | case3 => exact ⟨.nil _, rfl⟩
  | case4 _ _ c _ _ hbreak _ ih =>
    obtain rfl : c = '\n' := hfeeds c List.mem_cons_self hbreak
    obtain ⟨hgap, hcomment⟩ := ih hfeeds.tail
    exact ⟨hgap.cons (r := .code) (fun _ _ => rfl) (by simp) (by simp [Gap.mode]), hcomment⟩
  | case5 _ _ c _ _ hbreak ih =>
    obtain ⟨hgap, hcomment⟩ := ih hfeeds.tail
    have hfeed : c ≠ '\n' := by
      rintro rfl
      exact hbreak rfl
    refine ⟨hgap.cons (r := .comment) (fun d xs => ?_) (by simp) (by simp [Gap.mode]), hcomment⟩
    simp [Gap.mode, Scan.step, hfeed]
  | case6 _ _ _ _ _ _ _ ih =>
    obtain ⟨hgap, hcomment⟩ := ih hfeeds.tail.tail
    have hslash : GapUpTo .blockEndPair ('/' :: _) _ :=
      hgap.cons (r := .comment) (fun _ _ => rfl) (by simp) (by simp)
    exact ⟨hslash.cons (r := .comment) (fun _ _ => rfl) (by simp) (by simp [Gap.mode]), hcomment⟩
  | case7 _ _ _ _ c cs hopen ih =>
    obtain ⟨hgap, hcomment⟩ := ih hfeeds.tail
    have hpair : ¬ (c = '*' ∧ cs.head? = some '/') := by
      rintro ⟨hc, hhead⟩
      obtain ⟨rest, rfl⟩ := List.head?_eq_some_iff.1 hhead
      exact hopen rest hc rfl
    refine ⟨hgap.cons (r := .comment) (fun d xs => ?_) (by simp) (by simp [Gap.mode]), hcomment⟩
    simp only [Gap.mode, Scan.step, if_neg hpair]
  | case8 _ _ _ ih =>
    obtain ⟨hgap, hcomment⟩ := ih hfeeds.tail.tail
    have hslash : GapUpTo .linePair ('/' :: _) _ :=
      hgap.cons (r := .comment) (fun _ _ => rfl) (by simp) (by simp)
    refine ⟨hslash.cons (r := .comment) (fun d xs => ?_) (by simp) (by simp [Gap.mode]), hcomment⟩
    simp [Gap.mode, Scan.step, Scan.stepCode]
  | case9 _ _ _ ih =>
    obtain ⟨hgap, hcomment⟩ := ih hfeeds.tail.tail
    have hstar : GapUpTo .blockPair ('*' :: _) _ :=
      hgap.cons (r := .comment) (fun _ _ => rfl) (by simp) (by simp)
    refine ⟨hstar.cons (r := .comment) (fun d xs => ?_) (by simp) (by simp [Gap.mode]), hcomment⟩
    simp [Gap.mode, Scan.step, Scan.stepCode]
  | case10 _ _ c _ _ _ hbreak ih =>
    obtain rfl : c = '\n' := hfeeds c List.mem_cons_self hbreak
    obtain ⟨hgap, hcomment⟩ := ih hfeeds.tail
    exact ⟨hgap.inert (by decide), hcomment⟩
  | case11 _ _ c _ _ _ _ hblank ih =>
    obtain ⟨hgap, hcomment⟩ := ih hfeeds.tail
    exact ⟨hgap.inert (isInert_of_isGapBlank hblank), hcomment⟩
  | case12 _ _ c cs hline hblock =>
    refine ⟨.refl _, ?_⟩
    unfold atComment
    split
    · rename_i heq
      obtain ⟨hc, hcs⟩ := List.cons.inj heq
      exact (hline _ hc hcs).elim
    · rename_i heq
      obtain ⟨hc, hcs⟩ := List.cons.inj heq
      exact (hblock _ hc hcs).elim
    · rfl

end Gaps

end Revue.Syntax
