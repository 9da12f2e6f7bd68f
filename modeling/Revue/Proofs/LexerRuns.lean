import Revue.Proofs.TokenTexts
import Revue.Syntax.Parser

/-!
# Runs of the lexer

The grammar drives the lexer by moves: it asks for the next token, goes on to the next child of an
element, or has the token at hand read in another way. A list of moves that leads to the end of a
text cuts the text into pieces, which are the tokens, each as it was read in the end, and the gaps
between them. Whatever the moves are, the pieces put together are the text, every gap is made of
blanks and comments, and every token has a text that fits it.
-/

namespace Revue.Syntax
open Text Source

variable {pos : Nat} {s : State} {cs rest : List Char} {moves : List Move}

/-- A gap between tokens, or a token with the style in which it was read. -/
inductive Piece where
  | gap (text : List Char)
  | token (style : Style) (lexeme : Lexeme) (text : List Char)
deriving DecidableEq

def Piece.text : Piece → List Char
  | gap text => text
  | token _ _ text => text

def textOf (log : List Piece) : List Char := log.flatMap Piece.text

@[simp] theorem textOf_nil : textOf [] = [] := rfl
@[simp] theorem textOf_cons (p : Piece) (log : List Piece) :
    textOf (p :: log) = p.text ++ textOf log := rfl
@[simp] theorem textOf_append (a b : List Piece) : textOf (a ++ b) = textOf a ++ textOf b :=
  List.flatMap_append

/-- What the grammar can ask of the lexer. -/
inductive Move where
  | next (style : Style)
  | child
  | greater
  | regex
  | template
  | less
  | name

namespace Move

def parser : Move → Parser Unit
  | next .script => skip
  | next .markup => skipInTag
  | child => skipToChild
  | greater => rereadGreater
  | regex => rereadRegex
  | template => rereadTemplate
  | less => rereadLess
  | name => rereadMarkupName

def isAt (m : Move) (l : Lexeme) : Bool :=
  match m with
  | next _ | child => true
  | greater => l.isMark .gt
  | regex => l.isMark .slash || l.isMark .slashEq
  | template => l.isMark .rbrace
  | less => l.isMark .shl
  | name => l.isWord

end Move

namespace State

/-- The style in which a move reads its token. Behind a gap it is that of a script. -/
def styleAfter (s : State) : Move → Style
  | .next style =>
    if (triviaAfter s.token.lexeme s.token.span.stop s.rest).pos = s.token.span.stop then style
    else .script
  | _ => .script

def toChild (s : State) : State :=
  let scanned := scanMarkupChild s.token.span.stop s.rest
  { s.note scanned.fault with
    token := ⟨scanned.lexeme, ⟨s.token.span.stop, scanned.stop⟩, false⟩
    here := s.rest
    rest := scanned.rest
    prevEnd := s.token.span.stop }

def initial (text : List Char) : State :=
  let blank : State :=
    { token := ⟨.start, ⟨0, 0⟩, false⟩, here := text, rest := text, prevEnd := 0, comments := {},
      arrowAt := none }
  match text with
  | '#' :: '!' :: rest =>
    let (line, rest) := rest.span fun c => !isLineBreak c
    { blank with token := ⟨.start, ⟨0, 2 + byteLength line⟩, false⟩, rest := rest }
  | _ => blank

/-- Reading starts with the move to the first token. -/
theorem ofText_eq (text : List Char) : ofText text = (initial text).advance .script := by
  unfold ofText initial
  split <;> simp_all

@[simp] theorem here_reread (s : State) (scanned : Scanned) : (s.reread scanned).here = s.here := by
  unfold reread note
  cases scanned.fault <;> rfl

end State

def textBefore (cs rest : List Char) : List Char := cs.take (cs.length - rest.length)

theorem textBefore_append (text rest : List Char) : textBefore (text ++ rest) rest = text := by
  simp [textBefore]

structure Cursor where
  style : Style
  state : State

namespace Cursor

def piece (c : Cursor) : Piece :=
  .token c.style c.state.token.lexeme (textBefore c.state.here c.state.rest)

def passed (c : Cursor) (s : State) : Move → List Piece
  | .next _ => [c.piece, .gap (textBefore c.state.rest s.here)]
  | .child => [c.piece]
  | _ => []

def move (c : Cursor) (m : Move) : Option (List Piece × Cursor) :=
  if m.isAt c.state.token.lexeme then
    match m.parser c.state with
    | .ok (_, s) => some (c.passed s m, ⟨c.state.styleAfter m, s⟩)
    | .error _ => none
  else none

def run (c : Cursor) : List Move → Option (List Piece × Cursor)
  | [] => some ([], c)
  | m :: moves => do
    let (log, c') ← c.move m
    let (log', c'') ← c'.run moves
    return (log ++ log', c'')

end Cursor

/-- The pieces of a text that the lexer reads to its end. -/
def lex? (text : List Char) (moves : List Move) : Option (List Piece) := do
  let (log, c) ← (Cursor.mk .script (State.initial text)).run moves
  if c.state.here.isEmpty then return log else none

inductive Rereads (s : State) : State → Prop
  | same {m : Mark} (hmark : s.token.lexeme = .mark m) : Rereads s s
  | greater {scanned : Scanned} (hmark : s.token.lexeme = .mark .gt)
      (h : scanGreater s.token.span.start s.here = some scanned) : Rereads s (s.reread scanned)
  | regex {scanned : Scanned}
      (h : scanRegexFrom (s.token.span.start + 1) (s.here.drop 1) = some scanned) :
      Rereads s (s.reread scanned)
  | template {scanned : Scanned} (hmark : s.token.lexeme = .mark .rbrace)
      (h : scanTemplatePiece (s.token.span.start + 1) (s.here.drop 1) = some scanned) :
      Rereads s (s.reread scanned)
  | less (hmark : s.token.lexeme = .mark .shl) :
      Rereads s (s.reread
        { lexeme := .mark .lt, stop := s.token.span.start + 1, rest := s.here.drop 1 })
  | name : Rereads s (s.reread (scanMarkupName s.token.span.start s.here))

theorem eq_mark_of_isMark {l : Lexeme} {m : Mark} (h : l.isMark m = true) : l = .mark m := by
  unfold Lexeme.isMark at h
  split at h
  · rw [of_decide_eq_true h]
  · cases h

theorem eq_of_goOn {s' : State} {u : Unit} (h : goOn s = .ok (u, s')) : s' = s := by
  unfold goOn at h
  split at h
  · cases h
  · cases h
    rfl

section Rereading
variable {s s' : State} {u : Unit}

theorem rereads_of_rereadGreater (hmark : s.token.lexeme = .mark .gt)
    (h : rereadGreater s = .ok (u, s')) : Rereads s s' := by
  unfold rereadGreater at h
  split at h
  · rename_i hscan
    rw [eq_of_goOn h]
    exact .greater hmark hscan
  · cases h
    exact .same hmark

theorem rereads_of_rereadRegex (h : rereadRegex s = .ok (u, s')) : Rereads s s' := by
  unfold rereadRegex at h
  split at h
  · rename_i hscan
    rw [eq_of_goOn h]
    exact .regex hscan
  · cases h

theorem rereads_of_rereadTemplate (hmark : s.token.lexeme = .mark .rbrace)
    (h : rereadTemplate s = .ok (u, s')) : Rereads s s' := by
  unfold rereadTemplate at h
  split at h
  · rename_i hscan
    rw [eq_of_goOn h]
    exact .template hmark hscan
  · cases h

end Rereading

section Moves
variable {c c' : Cursor} {m : Move} {log : List Piece}

theorem move_eq_some (h : c.move m = some (log, c')) :
    m.isAt c.state.token.lexeme = true ∧ ∃ u s, m.parser c.state = .ok (u, s) ∧
      log = c.passed s m ∧ c' = ⟨c.state.styleAfter m, s⟩ := by
  unfold Cursor.move at h
  split at h
  · rename_i hat
    split at h
    · rename_i u s hparser
      obtain ⟨rfl, rfl⟩ := Prod.mk.inj (Option.some.inj h)
      exact ⟨hat, u, s, hparser, rfl, rfl⟩
    · cases h
  · cases h

theorem move_cases (h : c.move m = some (log, c')) :
    (∃ style, log = [c.piece, .gap (textBefore c.state.rest (c.state.advance style).here)] ∧
      c' = ⟨c.state.styleAfter (.next style), c.state.advance style⟩) ∨
    (log = [c.piece] ∧ c' = ⟨.script, c.state.toChild⟩) ∨
    (log = [] ∧ ∃ s, Rereads c.state s ∧ c' = ⟨.script, s⟩) := by
  obtain ⟨hat, u, s, hparser, rfl, rfl⟩ := move_eq_some h
  cases m with
  | next style =>
    have hs : s = c.state.advance style := by
      cases style <;> exact eq_of_goOn hparser
    rw [hs]
    exact Or.inl ⟨style, rfl, rfl⟩
  | child =>
    have hs : s = c.state.toChild := eq_of_goOn hparser
    rw [hs]
    exact Or.inr (Or.inl ⟨rfl, rfl⟩)
  | greater =>
    have hreads := rereads_of_rereadGreater (eq_mark_of_isMark hat) hparser
    exact Or.inr (Or.inr ⟨rfl, s, hreads, rfl⟩)
  | regex => exact Or.inr (Or.inr ⟨rfl, s, rereads_of_rereadRegex hparser, rfl⟩)
  | template =>
    have hreads := rereads_of_rereadTemplate (eq_mark_of_isMark hat) hparser
    exact Or.inr (Or.inr ⟨rfl, s, hreads, rfl⟩)
  | less =>
    have hreads : Rereads c.state s := by
      rw [eq_of_goOn hparser]
      exact .less (eq_mark_of_isMark hat)
    exact Or.inr (Or.inr ⟨rfl, s, hreads, rfl⟩)
  | name =>
    have hreads : Rereads c.state s := by
      rw [eq_of_goOn hparser]
      exact .name
    exact Or.inr (Or.inr ⟨rfl, s, hreads, rfl⟩)

def Cursor.Ready (c : Cursor) : Prop :=
  ∃ text, c.state.here = text ++ c.state.rest ∧
    Fits c.style c.state.token.lexeme text c.state.rest

theorem not_return_mem (h : OnlyFeeds cs) : '\r' ∉ cs := by
  intro hmem
  exact absurd (h _ hmem (by decide)) (by decide)

theorem triviaAfter_gap (before : Lexeme) (pos : Nat) (hfeeds : OnlyFeeds cs) :
    GapUpTo .code cs (triviaAfter before pos cs).rest ∧
      atComment (triviaAfter before pos cs).rest = false :=
  skipTrivia_gap before .blank _ pos cs hfeeds

theorem ready_advance (s : State) (style : Style) (hfeeds : OnlyFeeds s.rest) :
    Cursor.Ready ⟨s.styleAfter (.next style), s.advance style⟩ ∧
      GapUpTo .code s.rest (s.advance style).here := by
  obtain ⟨hgap, hcomment⟩ := triviaAfter_gap s.token.lexeme s.token.span.stop hfeeds
  refine ⟨?_, hgap⟩
  have hfeeds' : OnlyFeeds (triviaAfter s.token.lexeme s.token.span.stop s.rest).rest := by
    obtain ⟨m, -, -, heq, -⟩ := hgap 0 []
    rw [heq] at hfeeds
    exact hfeeds.of_append
  unfold Cursor.Ready State.styleAfter State.advance
  dsimp only
  split
  · exact ⟨[], rfl, CodeText.nil⟩
  · exact scanToken_fits _ _ hcomment (not_return_mem hfeeds')

theorem scanRegex_suffix {inClass : Bool} {stop : Nat}
    (h : scanRegex inClass pos cs = some (stop, rest)) : rest <:+ cs := by
  fun_induction scanRegex inClass pos cs with
  | case1 => cases h
  | case2 => cases h
  | case3 => cases h
  | case4 => cases h
  | case5 _ _ _ _ _ _ ih =>
    exact (ih h).trans ((List.suffix_cons _ _).trans (List.suffix_cons _ _))
  | case6 =>
    obtain ⟨-, rfl⟩ := Prod.mk.inj (Option.some.inj h)
    exact List.suffix_cons _ _
  | case7 _ _ _ _ _ _ ih => exact (ih h).trans (List.suffix_cons _ _)
  | case8 _ _ _ _ _ _ _ ih => exact (ih h).trans (List.suffix_cons _ _)
  | case9 _ _ _ _ _ _ _ _ _ ih => exact (ih h).trans (List.suffix_cons _ _)

theorem scanRegexFrom_suffix {sc : Scanned} (h : scanRegexFrom pos cs = some sc) :
    sc.lexeme = .regex ∧ sc.rest <:+ cs := by
  unfold scanRegexFrom at h
  split at h
  · cases h
  · rename_i stop rest hregex
    split at h
    rename_i flags rest' hflags
    obtain rfl := Option.some.inj h
    refine ⟨rfl, List.IsSuffix.trans ?_ (scanRegex_suffix hregex)⟩
    split at hflags
    · rw [List.span_eq_takeWhile_dropWhile] at hflags
      obtain ⟨-, rfl⟩ := Prod.mk.inj hflags
      exact List.dropWhile_suffix _
    · obtain ⟨-, rfl⟩ := Prod.mk.inj hflags
      exact List.suffix_rfl

/-- Taken in another way, the token at hand fits again. -/
theorem ready_reread (hready : c.Ready) (h : Rereads c.state s) : Cursor.Ready ⟨.script, s⟩ := by
  obtain ⟨text, htext, hfits⟩ := hready
  have hmarked : ∀ {m : Mark}, c.state.token.lexeme = .mark m →
      c.state.here = m.text.toList ++ c.state.rest := by
    intro m hm
    rw [hm] at hfits
    rw [htext, hfits.1]
  have hreread : ∀ {scanned : Scanned}, (∃ text, c.state.here = text ++ scanned.rest ∧
      Fits .script scanned.lexeme text scanned.rest) →
      Cursor.Ready ⟨.script, c.state.reread scanned⟩ := by
    rintro scanned ⟨text', htext', hfits'⟩
    exact ⟨text', (c.state.here_reread scanned).trans htext', hfits'⟩
  cases h with
  | same hmark =>
    rw [hmark] at hfits
    exact ⟨text, htext, by rw [hmark]; exact hfits⟩
  | greater hmark h =>
    apply hreread
    refine scanMark_fits (List.subset_append_right _ _) h ?_ .script
    rw [hmarked hmark]
    rfl
  | regex h =>
    obtain ⟨hlexeme, hsuffix⟩ := scanRegexFrom_suffix h
    obtain ⟨text', htext'⟩ := hsuffix.trans (List.drop_suffix 1 c.state.here)
    apply hreread
    refine ⟨text', htext'.symm, ?_⟩
    rw [hlexeme]
    trivial
  | template hmark h =>
    have hhere := hmarked hmark
    apply hreread
    rw [hhere] at h ⊢
    exact scanTemplatePiece_fits (Or.inr rfl) h .script
  | less hmark =>
    have hhere := hmarked hmark
    apply hreread
    refine ⟨['<'], ?_, rfl, by simp⟩
    rw [hhere]
    rfl
  | name =>
    apply hreread
    unfold scanMarkupName
    split
    · rename_i hname
      obtain ⟨text', htext', hcode⟩ := scanName_text hname
      exact ⟨text', htext', hcode⟩
    · exact ⟨[], rfl, CodeText.nil⟩

theorem ready_child (s : State) : Cursor.Ready ⟨.script, s.toChild⟩ := by
  unfold Cursor.Ready State.toChild scanMarkupChild
  dsimp only
  split
  · exact ⟨[], by assumption, CodeText.nil⟩
  · exact ⟨['\x7b'], by assumption, rfl, by simp⟩
  · exact ⟨['<'], by assumption, rfl, by simp⟩
  · rw [List.span_eq_takeWhile_dropWhile]
    exact ⟨_, (List.takeWhile_append_dropWhile).symm, trivial⟩

theorem ready_initial (text : List Char) : Cursor.Ready ⟨.script, State.initial text⟩ := by
  unfold Cursor.Ready State.initial
  dsimp only
  split
  · rename_i rest
    rw [List.span_eq_takeWhile_dropWhile]
    refine ⟨'#' :: '!' :: rest.takeWhile fun c => !isLineBreak c, ?_, trivial⟩
    simp
  · exact ⟨[], rfl, trivial⟩

def Piece.FitsBefore (p : Piece) (rest : List Char) : Prop :=
  match p with
  | gap text => GapUpTo .code (text ++ rest) rest
  | token style l text => Fits style l text rest

def FitsBefore : List Piece → List Char → Prop
  | [], _ => True
  | p :: log, rest => p.FitsBefore (textOf log ++ rest) ∧ FitsBefore log rest

theorem fitsBefore_append {a b : List Piece} (ha : FitsBefore a (textOf b ++ rest))
    (hb : FitsBefore b rest) : FitsBefore (a ++ b) rest := by
  induction a with
  | nil => exact hb
  | cons p a ih =>
    obtain ⟨hp, ha⟩ := ha
    have hrest : textOf (a ++ b) ++ rest = textOf a ++ (textOf b ++ rest) := by simp
    exact ⟨hrest ▸ hp, ih ha⟩

theorem GapUpTo.exists_append {mode : Mode} (h : GapUpTo mode cs rest) :
    ∃ text, cs = text ++ rest := by
  obtain ⟨m, -, -, hcs, -⟩ := h 0 []
  exact ⟨m.chars, hcs⟩

/-- A move cuts fitting pieces off the text and stands at a token that fits. -/
theorem fits_of_move (h : c.move m = some (log, c')) (hready : c.Ready)
    (hfeeds : OnlyFeeds c.state.here) :
    c.state.here = textOf log ++ c'.state.here ∧ FitsBefore log c'.state.here ∧ c'.Ready := by
  obtain ⟨text, htext, hfits⟩ := id hready
  have hpiece : c.piece = .token c.style c.state.token.lexeme text := by
    rw [Cursor.piece, htext, textBefore_append]
  obtain ⟨style, rfl, rfl⟩ | ⟨rfl, rfl⟩ | ⟨rfl, s, hs, rfl⟩ := move_cases h
  · rw [htext] at hfeeds
    obtain ⟨hnext, hgap⟩ := ready_advance c.state style hfeeds.of_append
    obtain ⟨gap, hrest⟩ := hgap.exists_append
    have hbefore : textBefore c.state.rest (c.state.advance style).here = gap := by
      rw [hrest, textBefore_append]
    rw [hbefore, hpiece]
    rw [hrest] at htext hfits hgap
    refine ⟨by simpa [Piece.text] using htext, ⟨?_, hgap, trivial⟩, hnext⟩
    simpa [Piece.FitsBefore, Piece.text] using hfits
  · have hchild : c.state.toChild.here = c.state.rest := rfl
    rw [hpiece]
    exact ⟨by simpa [Piece.text, hchild] using htext, ⟨hfits, trivial⟩, ready_child c.state⟩
  · have hhere : s.here = c.state.here := by
      cases hs <;> simp
    exact ⟨hhere.symm, trivial, ready_reread hready hs⟩

theorem fits_of_run (h : c.run moves = some (log, c')) (hready : c.Ready)
    (hfeeds : OnlyFeeds c.state.here) :
    c.state.here = textOf log ++ c'.state.here ∧ FitsBefore log c'.state.here := by
  induction moves generalizing c log with
  | nil =>
    obtain ⟨rfl, rfl⟩ := Prod.mk.inj (Option.some.inj h)
    exact ⟨rfl, trivial⟩
  | cons m moves ih =>
    obtain ⟨⟨first, c₁⟩, hmove, h⟩ := Option.bind_eq_some_iff.1 h
    obtain ⟨⟨last, c₂⟩, hrun, h⟩ := Option.bind_eq_some_iff.1 h
    obtain ⟨rfl, rfl⟩ := Prod.mk.inj (Option.some.inj h)
    obtain ⟨hhere, hlog, hready'⟩ := fits_of_move hmove hready hfeeds
    rw [hhere] at hfeeds
    obtain ⟨hhere', hlog'⟩ := ih hrun hready' hfeeds.of_append
    rw [hhere'] at hhere hlog
    exact ⟨by rw [hhere, textOf_append, List.append_assoc], fitsBefore_append hlog hlog'⟩

/-- However it is driven, the lexer cuts a text into fitting pieces. -/
theorem fits_of_lex? {text : List Char} (h : lex? text moves = some log) (hfeeds : OnlyFeeds text) :
    text = textOf log ∧ FitsBefore log [] := by
  obtain ⟨⟨log', c⟩, hrun, h⟩ := Option.bind_eq_some_iff.1 h
  dsimp only at h
  split at h
  · rename_i hend
    obtain rfl := Option.some.inj h
    have hhere : (State.initial text).here = text := by
      unfold State.initial
      dsimp only
      split <;> rfl
    have hlog := fits_of_run hrun (ready_initial text) (by rw [hhere]; exact hfeeds)
    rw [hhere, List.isEmpty_iff.1 hend, List.append_nil] at hlog
    exact hlog
  · cases h

end Moves

end Revue.Syntax
