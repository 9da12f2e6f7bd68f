import Revue.Proofs.LexerRuns
import Revue.Source.Flow
import Revue.Syntax.Module
import Revue.Text.LineIndex

/-!
# The scanner and the lexer on literals

The scanner knows no grammar, and the lexer is driven by one. On the pieces of a run of the lexer
the scanner finds a character inside of a literal just where the lexer has read a string or a piece
of a template, so that it also agrees on the lines that start inside of one.

This takes three things that the scanner cannot see for itself. Regular expressions, the text
between tags and a first line for the shell have to look like code to it. Strings in tags have to
look like strings of a script. Braces have to nest with substitutions, as they do where the grammar
drives the lexer. A regular expression with a backquote shows that the first cannot be left out.
-/

namespace Revue.Syntax
open Text Source

variable {c q : Char} {body cs : List Char} {m : Marked} {style : Style}

section Brackets

/-- What is open at a place in code: a brace, or the substitution of a template. -/
inductive Bracket where
  | brace
  | substitution
deriving DecidableEq

namespace Bracket

def depth (stack : List Bracket) : Nat := stack.count brace

def begun : List Bracket → List Nat
  | [] => []
  | brace :: outer => begun outer
  | substitution :: outer => depth outer :: begun outer

def scan (stack : List Bracket) : Scan := ⟨.code, depth stack, begun stack⟩

theorem depth_brace (outer : List Bracket) : depth (brace :: outer) = depth outer + 1 :=
  List.count_cons_self

theorem depth_substitution (outer : List Bracket) : depth (substitution :: outer) = depth outer :=
  List.count_cons_of_ne (by decide)

/-- The innermost substitution did not begin deeper than the code in it is. -/
theorem begun_le (stack : List Bracket) : ∀ x, (begun stack).head? = some x → x ≤ depth stack := by
  induction stack with
  | nil => simp [begun]
  | cons b outer ih =>
    intro x hx
    cases b with
    | brace =>
      have := ih x hx
      rw [depth_brace]
      omega
    | substitution =>
      obtain rfl : depth outer = x := by simpa [begun] using hx
      exact Nat.le_of_eq (depth_substitution outer).symm

def close? (b : Bracket) : List Bracket → Option (List Bracket)
  | [] => none
  | b' :: outer => if b' = b then some outer else none

theorem eq_of_close? {b : Bracket} {stack outer : List Bracket} (h : close? b stack = some outer) :
    stack = b :: outer := by
  unfold close? at h
  split at h
  · cases h
  · split at h
    · rename_i hb
      rw [hb, Option.some.inj h]
    · cases h

end Bracket

/-- What is open behind a piece. -/
def Piece.nest (stack : List Bracket) : Piece → Option (List Bracket)
  | .token _ (.mark .lbrace) _ => some (.brace :: stack)
  | .token _ (.mark .rbrace) _ => Bracket.close? .brace stack
  | .token _ (.template more _) text =>
    let outer := if text.head? = some '\x7d' then Bracket.close? .substitution stack else some stack
    outer.map fun outer => if more then .substitution :: outer else outer
  | _ => some stack

end Brackets

section Lookalikes

/-- Whether the scanner stays in code on a text in which some braces are open from before and all
are closed at its end. -/
def isCode (next : Option Char) : Nat → List Char → Bool
  | depth, [] => depth == 0
  | depth, c :: cs =>
    if c = '\x7b' then isCode next (depth + 1) cs
    else if c = '\x7d' then 0 < depth && isCode next (depth - 1) cs
    else
      let behind := cs.head?.or next
      (isInert c || c == '/' && behind != some '/' && behind != some '*') && isCode next depth cs

def ClosesBraces : Nat → List Char → Prop
  | 0, cs => Derives .code (inRegion .code cs)
  | depth + 1, cs => ∃ inner outer, cs = inner ++ '\x7d' :: outer ∧
      Derives .code (inRegion .code inner) ∧ ClosesBraces depth outer

theorem closesBraces_cons {depth : Nat} (hplain : isPlain c)
    (hslash : c = '/' → cs.head? ≠ some '/' ∧ cs.head? ≠ some '*') (h : ClosesBraces depth cs) :
    ClosesBraces depth (c :: cs) := by
  cases depth with
  | zero =>
    refine .plain hplain ?_ h
    rwa [← inRegion, chars_inRegion]
  | succ depth =>
    obtain ⟨inner, outer, rfl, hinner, houter⟩ := h
    refine ⟨c :: inner, outer, rfl, .plain hplain ?_ hinner, houter⟩
    intro hc
    cases inner with
    | nil => simp
    | cons d inner => simpa using hslash hc

theorem closesBraces_open {depth : Nat} (h : ClosesBraces (depth + 1) cs) :
    ClosesBraces depth ('\x7b' :: cs) := by
  obtain ⟨inner, outer, rfl, hinner, houter⟩ := h
  cases depth with
  | zero =>
    have hbraces := Derives.braces hinner houter
    rwa [← inRegion_cons, ← inRegion_cons, ← inRegion_append] at hbraces
  | succ depth =>
    obtain ⟨inner', outer', rfl, hinner', houter'⟩ := houter
    refine ⟨'\x7b' :: inner ++ '\x7d' :: inner', outer', by simp, ?_, houter'⟩
    simpa using Derives.braces hinner hinner'

theorem isPlain_of_test {behind : Option Char}
    (h : (isInert c || c == '/' && behind != some '/' && behind != some '*') = true) :
    isPlain c ∧ (c = '/' → behind ≠ some '/' ∧ behind ≠ some '*') := by
  rcases Bool.or_eq_true_iff.1 h with hinert | hslash
  · obtain ⟨hplain, hne⟩ := isInert_iff.1 hinert
    exact ⟨hplain, fun heq => absurd heq hne⟩
  · simp only [Bool.and_eq_true, beq_iff_eq, bne_iff_ne] at hslash
    obtain ⟨⟨rfl, hline⟩, hblock⟩ := hslash
    refine ⟨?_, fun _ => ⟨hline, hblock⟩⟩
    unfold isPlain isQuoteMark
    decide

theorem closesBraces_of_isCode {next : Option Char} {depth : Nat}
    (h : isCode next depth cs = true) :
    ClosesBraces depth cs ∧ (cs.getLast? = some '/' → next ≠ some '/' ∧ next ≠ some '*') := by
  -- The braces that are open come before the text, so a closing brace ends what is closed so far.
  fun_induction isCode next depth cs with
  | case1 depth =>
    obtain rfl : depth = 0 := by simpa using h
    exact ⟨.codeEnd, by simp⟩
  | case2 depth cs ih =>
    obtain ⟨hcs, hlast⟩ := ih h
    refine ⟨closesBraces_open hcs, ?_⟩
    cases cs <;> simp_all
  | case3 depth cs _ ih =>
    rw [Bool.and_eq_true, decide_eq_true_eq] at h
    obtain ⟨hopen, h⟩ := h
    obtain ⟨hcs, hlast⟩ := ih h
    obtain ⟨n, rfl⟩ := Nat.exists_eq_succ_of_ne_zero (Nat.ne_of_gt hopen)
    refine ⟨⟨[], cs, rfl, .codeEnd, hcs⟩, ?_⟩
    cases cs <;> simp_all
  | case4 depth c cs _ _ behind ih =>
    rw [Bool.and_eq_true] at h
    obtain ⟨hc, h⟩ := h
    obtain ⟨hcs, hlast⟩ := ih h
    obtain ⟨hplain, hslash⟩ := isPlain_of_test hc
    refine ⟨closesBraces_cons hplain ?_ hcs, ?_⟩
    · intro heq
      obtain ⟨hline, hblock⟩ := hslash heq
      exact ⟨fun hhead => hline (by simp [behind, hhead]),
        fun hhead => hblock (by simp [behind, hhead])⟩
    · cases cs with
      | nil => simpa [behind] using hslash
      | cons d cs => simpa using hlast

def closesString (q : Char) : List Char → Bool
  | [] => false
  | '\\' :: _ :: cs => closesString q cs
  | c :: cs => if c = q then cs.isEmpty else c != '\n' && closesString q cs

theorem stringBody_of_closesString (h : closesString q cs = true) :
    ∃ body, StringBody q body ∧ cs = body ++ [q] := by
  fun_induction closesString q cs with
  | case1 => cases h
  | case2 c cs ih =>
    obtain ⟨body, hbody, rfl⟩ := ih h
    exact ⟨'\\' :: c :: body, .escape c hbody, rfl⟩
  | case3 cs hescape =>
    obtain rfl := List.isEmpty_iff.1 h
    exact ⟨[], .nil, rfl⟩
  | case4 c cs hescape hq ih =>
    rw [Bool.and_eq_true, bne_iff_ne] at h
    obtain ⟨hfeed, h⟩ := h
    obtain ⟨body, hbody, rfl⟩ := ih h
    refine ⟨c :: body, .char hq ?_ hfeed hbody, rfl⟩
    rintro rfl
    cases body <;> exact hescape _ _ rfl rfl

end Lookalikes

def Lexeme.isTextual : Lexeme → Bool
  | .string _ | .template _ _ => true
  | _ => false

namespace Piece

def isLiteral : Piece → Bool
  | gap _ => false
  | token _ l _ => l.isTextual

/-- For each character of a piece, whether it stands in a literal. -/
def flags (p : Piece) : List Bool := p.text.map fun _ => p.isLiteral

/-- Whether the scanner reads a piece as the lexer did, given the character behind it. It cannot
tell a regular expression or the text between tags from code, nor a string in a tag from one in a
script. -/
def isPlain (next : Option Char) : Piece → Bool
  | gap _ => true
  | token style l text =>
    match l with
    | .string _ =>
      match style with
      | .script => text.getLast? != some '\n'
      | .markup => text.head?.any fun q => closesString q text.tail
    | .start | .regex | .markupText => isCode next 0 text
    | _ => true

end Piece

def isPlainLog : List Piece → Bool
  | [] => true
  | p :: log => p.isPlain (textOf log).head? && isPlainLog log

section Agreement

def literalFlags (regions : List Region) : List Bool := regions.map (· == .literal)

@[simp] theorem literalFlags_append (a b : List Region) :
    literalFlags (a ++ b) = literalFlags a ++ literalFlags b := List.map_append

theorem literalFlags_of_forall {isLiteral : Bool}
    (h : ∀ p ∈ m, (p.2 == Region.literal) = isLiteral) :
    literalFlags m.regions = m.chars.map fun _ => isLiteral := by
  simpa [literalFlags, Marked.regions, Marked.chars] using h

/-- With some brackets open, the scanner finds a text to be all in literals or all outside of them,
and has other brackets open behind it. -/
def Agrees (stack : List Bracket) (text rest : List Char) (isLiteral : Bool)
    (stack' : List Bracket) : Prop :=
  literalFlags ((Bracket.scan stack).regions (text ++ rest)) =
    (text.map fun _ => isLiteral) ++ literalFlags ((Bracket.scan stack').regions rest)

variable {stack stack' : List Bracket} {text rest : List Char}

theorem agrees_of_reads {t : Scan} {isLiteral : Bool}
    (h : Scan.Reads rest.head? (Bracket.scan stack) m t)
    (hflags : ∀ p ∈ m, (p.2 == Region.literal) = isLiteral)
    (hrest : t.regions rest = (Bracket.scan stack').regions rest) :
    Agrees stack m.chars rest isLiteral stack' := by
  unfold Agrees
  rw [h.regions_append rest rfl, literalFlags_append, literalFlags_of_forall hflags, hrest]

theorem inRegion_flags {r : Region} :
    ∀ p ∈ inRegion r text, (p.2 == Region.literal) = (r == .literal) := by
  intro p hp
  obtain ⟨c, -, rfl⟩ := List.mem_map.1 hp
  rfl

theorem agrees_of_reads_inRegion {r : Region}
    (h : Scan.Reads rest.head? (Bracket.scan stack) (inRegion r text) (Bracket.scan stack')) :
    Agrees stack text rest (r == .literal) stack' := by
  have hagrees := agrees_of_reads h inRegion_flags rfl
  rwa [chars_inRegion] at hagrees

/-- Code is read in front of whatever does not make a comment of its end. -/
theorem reads_code (h : Derives .code m) {next : Option Char}
    (hslash : m.getLast? = some ('/', .code) → next ≠ some '/' ∧ next ≠ some '*')
    (stack : List Bracket) : Scan.Reads next (Bracket.scan stack) m (Bracket.scan stack) :=
  (h.reads none isQuiet_none _ _ (Bracket.begun_le stack)).before rfl hslash

theorem agrees_code (h : Derives .code (inRegion .code text))
    (hslash : text.getLast? = some '/' → rest.head? ≠ some '/' ∧ rest.head? ≠ some '*') :
    Agrees stack text rest false stack := by
  apply agrees_of_reads_inRegion (r := .code)
  apply reads_code h
  intro hlast
  apply hslash
  obtain ⟨c, hc, heq⟩ := Option.map_eq_some_iff.1 (List.getLast?_map ▸ hlast)
  rw [hc, (Prod.mk.inj heq).1]

theorem agrees_codeText (h : CodeText text) : Agrees stack text rest false stack := by
  apply agrees_code h.derives
  intro hlast
  exact absurd (List.mem_of_getLast? hlast) h.slash

theorem agrees_gap (h : GapUpTo .code (text ++ rest) rest) :
    Agrees stack text rest false stack := by
  obtain ⟨m, t, hreads, htext, hm, ht⟩ := h (Bracket.depth stack) (Bracket.begun stack)
  obtain rfl : text = m.chars := List.append_cancel_right htext
  apply agrees_of_reads hreads
  · intro p hp
    simpa using hm p hp
  · by_cases hrest : rest = []
    · rw [hrest]
      rfl
    · rw [ht hrest]
      rfl

theorem agrees_closedString (hq : isQuoteMark q) (hbody : StringBody q body) :
    Agrees stack (q :: body ++ [q]) rest true stack := by
  have hstring := Derives.string hq hbody .codeEnd
  rw [List.append_nil] at hstring
  apply agrees_of_reads_inRegion (r := .literal)
  apply reads_code hstring
  intro hlast
  obtain ⟨p, -, heq⟩ := List.mem_map.1 (List.mem_of_getLast? hlast)
  cases (Prod.mk.inj heq).2

/-- A string that is cut off at its line. The scanner is in code again behind the line feed. -/
theorem agrees_openString (hq : isQuoteMark q) (hbody : StringBody q body)
    (hrest : rest = [] ∨ rest.head? = some '\n') :
    Agrees stack (q :: body) rest true stack := by
  have hreads : Scan.Reads rest.head? (Bracket.scan stack) (inRegion .literal (q :: body))
      ⟨.quote q, Bracket.depth stack, Bracket.begun stack⟩ := by
    refine .cons ?_ (.inl hq.ne_feed) (Scan.reads_body hbody _ _ _)
    rcases hq with rfl | rfl <;> simp [Scan.step, Scan.stepCode, Bracket.scan]
  have hbehind : Scan.regions ⟨.quote q, Bracket.depth stack, Bracket.begun stack⟩ rest =
      (Bracket.scan stack).regions rest := by
    rcases hrest with rfl | hfeed
    · rfl
    · obtain ⟨behind, rfl⟩ := List.head?_eq_some_iff.1 hfeed
      simp [Scan.regions, Scan.step, Scan.stepQuote, Scan.stepCode, Bracket.scan]
  have hagrees := agrees_of_reads hreads inRegion_flags hbehind
  rwa [chars_inRegion] at hagrees

/-- From behind its first mark a piece of a template is read to behind its last. -/
theorem reads_piece (hbody : Derives .template (inRegion .literal body)) (more : Bool)
    (outer : List Bracket) (next : Option Char) :
    Scan.Reads next ⟨.template, Bracket.depth outer, Bracket.begun outer⟩
      (inRegion .literal (body ++ pieceEnd more))
      (Bracket.scan (if more then .substitution :: outer else outer)) := by
  rw [inRegion_append]
  cases more with
  | false =>
    refine Scan.Reads.append (hbody.reads _ ?_ _ _ (Bracket.begun_le outer)) ?_
    · exact isQuiet_some (by decide) (by decide) (by decide)
    · exact .single (by simp [Scan.step, Scan.stepTemplate, Bracket.scan]) (.inl (by decide))
  | true =>
    refine Scan.Reads.append (hbody.reads _ ?_ _ _ (Bracket.begun_le outer)) ?_
    · exact isQuiet_some (by decide) (by decide) (by decide)
    · refine .cons (t := { Bracket.scan (.substitution :: outer) with mode := .substitutionPair })
        ?_ (.inl (by decide)) (.single ?_ (.inl (by decide)))
      · simp [Scan.step, Scan.stepTemplate, Bracket.scan, Bracket.begun, Bracket.depth_substitution]
      · simp [Scan.step, Bracket.scan]

theorem agrees_template {more valid : Bool} (hc : c = '\x60' ∨ c = '\x7d')
    (hbody : Derives .template (inRegion .literal body))
    (hnest : (Piece.token style (.template more valid) (c :: body ++ pieceEnd more)).nest stack =
      some stack') :
    Agrees stack (c :: body ++ pieceEnd more) rest true stack' := by
  obtain ⟨outer, houter, rfl⟩ := Option.map_eq_some_iff.1 hnest
  apply agrees_of_reads_inRegion (r := .literal)
  refine .cons ?_ (.inr fun q => by simp [Bracket.scan]) (reads_piece hbody more outer _)
  rcases hc with rfl | rfl
  · obtain rfl : stack = outer := by simpa using houter
    simp [Scan.step, Scan.stepCode, Bracket.scan]
  · obtain rfl : stack = .substitution :: outer := Bracket.eq_of_close? (by simpa using houter)
    simp [Scan.step, Scan.stepCode, Bracket.scan, Bracket.begun, Bracket.depth_substitution]

theorem isInert_mark (m : Mark) : m = .lbrace ∨ m = .rbrace ∨ m = .slash ∨ m = .slashEq ∨
    (m ≠ .lbrace ∧ m ≠ .rbrace ∧ m.text.toList.all isInert = true) := by
  cases m <;> decide

theorem nest_of_ne {m : Mark} (hopen : m ≠ .lbrace) (hclose : m ≠ .rbrace) (style : Style) :
    (Piece.token style (.mark m) text).nest stack = some stack := by
  unfold Piece.nest
  split
  · rename_i heq
    cases heq
    exact absurd rfl hopen
  · rename_i heq
    cases heq
    exact absurd rfl hclose
  · rename_i heq
    cases heq
  · rfl

theorem agrees_mark {m : Mark} (hfits : Fits style (.mark m) text rest)
    (hnest : (Piece.token style (.mark m) text).nest stack = some stack') :
    Agrees stack text rest false stack' := by
  obtain ⟨htext, hslash⟩ := hfits
  rcases isInert_mark m with rfl | rfl | rfl | rfl | ⟨hopen, hclose, hinert⟩
  · obtain rfl : text = ['\x7b'] := htext
    obtain rfl := Option.some.inj hnest
    apply agrees_of_reads_inRegion (r := .code)
    refine .single ?_ (.inl (by decide))
    simp [Scan.step, Scan.stepCode, Bracket.scan, Bracket.begun, Bracket.depth_brace]
  · obtain rfl : text = ['\x7d'] := htext
    obtain rfl := Bracket.eq_of_close? hnest
    apply agrees_of_reads_inRegion (r := .code)
    refine .single ?_ (.inl (by decide))
    rw [Bracket.scan, Bracket.depth_brace]
    exact Scan.step_close_brace (Bracket.begun_le stack') _
  · obtain rfl : text = ['/'] := htext
    obtain rfl := Option.some.inj hnest
    refine agrees_code (.plain ?_ (by simp) .codeEnd) fun _ => hslash rfl
    unfold isPlain isQuoteMark
    decide
  · obtain rfl : text = ['/', '='] := htext
    obtain rfl := Option.some.inj hnest
    refine agrees_code (.plain ?_ (by simp) (.plain ?_ (by simp) .codeEnd)) (by simp)
    all_goals
      unfold isPlain isQuoteMark
      decide
  · rw [nest_of_ne hopen hclose] at hnest
    obtain rfl := Option.some.inj hnest
    rw [htext]
    exact agrees_codeText (.of_inert (List.all_eq_true.1 hinert))

theorem agrees_token {l : Lexeme} (hfits : Fits style l text rest)
    (hplain : (Piece.token style l text).isPlain rest.head? = true)
    (hnest : (Piece.token style l text).nest stack = some stack') :
    Agrees stack text rest l.isTextual stack' := by
  cases l with
  | string value =>
    obtain rfl := Option.some.inj hnest
    cases style with
    | script =>
      obtain ⟨q, body, hq, hbody, rfl | ⟨rfl, hrest⟩⟩ := hfits
      · exact agrees_closedString hq hbody
      · exact agrees_openString hq hbody hrest
    | markup =>
      -- The lexer ends it at the first mark, and the scanner might see an escape in front of that.
      obtain ⟨q, value, hq, -, rfl⟩ := hfits
      obtain ⟨body, hbody, heq⟩ := stringBody_of_closesString hplain
      have hvalue : q :: value ++ [q] = q :: body ++ [q] := congrArg (q :: ·) heq
      rw [hvalue]
      exact agrees_closedString hq hbody
  | template more valid =>
    obtain ⟨c, body, hc, hbody, rfl⟩ := hfits
    exact agrees_template hc hbody hnest
  | mark m => exact agrees_mark hfits hnest
  | start | regex | markupText =>
    obtain rfl := Option.some.inj hnest
    obtain ⟨hcode, hslash⟩ := closesBraces_of_isCode hplain
    exact agrees_code hcode hslash
  | _ =>
    obtain rfl := Option.some.inj hnest
    exact agrees_codeText hfits

theorem agrees_piece {p : Piece} (hfits : p.FitsBefore rest) (hplain : p.isPlain rest.head? = true)
    (hnest : p.nest stack = some stack') : Agrees stack p.text rest p.isLiteral stack' := by
  cases p with
  | gap text =>
    obtain rfl := Option.some.inj hnest
    exact agrees_gap hfits
  | token style l text => exact agrees_token hfits hplain hnest

/-- The scanner finds the literals of the lexer in the pieces of a text. -/
theorem regions_of_fitsBefore {log : List Piece} (hfits : FitsBefore log [])
    (hplain : isPlainLog log = true) (hnest : log.foldlM Piece.nest stack = some stack') :
    literalFlags ((Bracket.scan stack).regions (textOf log)) = log.flatMap Piece.flags := by
  induction log generalizing stack with
  | nil => rfl
  | cons p log ih =>
    obtain ⟨hp, hlog⟩ := hfits
    obtain ⟨hfirst, hplain⟩ := Bool.and_eq_true_iff.1 hplain
    rw [List.append_nil] at hp
    obtain ⟨stack₁, hopen, hnest⟩ := Option.bind_eq_some_iff.1 hnest
    have hagrees := agrees_piece hp hfirst hopen
    rw [textOf_cons, List.flatMap_cons, ← ih hlog hplain hnest]
    exact hagrees

end Agreement

section Lines

def literalSpans : Nat → List Piece → List Span
  | _, [] => []
  | start, p :: log =>
    let stop := start + byteLength p.text
    if p.isLiteral then ⟨start, stop⟩ :: literalSpans stop log else literalSpans stop log

/-- Whether an offset lies in a span and at neither end of it. -/
def isInside (spans : List Span) (offset : Nat) : Bool :=
  spans.any fun span => span.start < offset && offset < span.stop

variable {start offset : Nat} {p : Piece} {log : List Piece}

theorem isInside_of_le (h : offset ≤ start) : isInside (literalSpans start log) offset = false := by
  induction log generalizing start with
  | nil => rfl
  | cons p log ih =>
    have hrest := ih (Nat.le_trans h (Nat.le_add_right start (byteLength p.text)))
    have hstart : ¬ start < offset := by omega
    unfold literalSpans
    by_cases hp : p.isLiteral = true
    · rw [if_pos hp]
      simpa [isInside, hstart] using hrest
    · rw [if_neg hp]
      exact hrest

/-- In its first piece, an offset is inside of a literal if the piece is one and goes on. -/
theorem isInside_first (hstart : start < offset) (hstop : offset ≤ start + byteLength p.text) :
    isInside (literalSpans start (p :: log)) offset =
      (p.isLiteral && decide (offset < start + byteLength p.text)) := by
  have hrest : isInside (literalSpans (start + byteLength p.text) log) offset = false :=
    isInside_of_le hstop
  unfold literalSpans
  by_cases hp : p.isLiteral = true
  · rw [if_pos hp]
    unfold isInside at hrest ⊢
    rw [List.any_cons, hrest]
    simp [hp, hstart]
  · rw [if_neg hp]
    simpa [hp] using hrest

theorem isInside_behind (hstop : start + byteLength p.text < offset) :
    isInside (literalSpans start (p :: log)) offset =
      isInside (literalSpans (start + byteLength p.text) log) offset := by
  have hnot : ¬ offset < start + byteLength p.text := by omega
  rw [literalSpans]
  by_cases hp : p.isLiteral = true
  · rw [if_pos hp]
    simp [isInside, hnot]
  · rw [if_neg hp]

theorem byteLength_cons (c : Char) (cs : List Char) :
    byteLength (c :: cs) = c.utf8Size + byteLength cs := rfl

theorem utf8Size_feed : '\n'.utf8Size = 1 := by decide

theorem feedsFrom_append (start : Nat) (a b : List Char) :
    feedsFrom start (a ++ b) = feedsFrom start a ++ feedsFrom (start + byteLength a) b := by
  induction a generalizing start with
  | nil => simp [feedsFrom, byteLength]
  | cons c a ih =>
    rw [List.cons_append, feedsFrom, feedsFrom, byteLength_cons, ← Nat.add_assoc]
    by_cases hc : c = '\n'
    · rw [if_pos hc, if_pos hc, ih, hc, utf8Size_feed, List.cons_append]
    · rw [if_neg hc, if_neg hc, ih]

/-- The offsets behind the line feeds of a text lie in it, at its end only if it ends with one. -/
theorem mem_feedsFrom (h : offset ∈ feedsFrom start cs) :
    start < offset ∧ offset ≤ start + byteLength cs ∧
      (cs.getLast? ≠ some '\n' → offset < start + byteLength cs) := by
  induction cs generalizing start with
  | nil => simp [feedsFrom] at h
  | cons c cs ih =>
    have hsize := c.utf8Size_pos
    rw [byteLength_cons]
    rw [feedsFrom] at h
    by_cases hc : c = '\n'
    · have hone : c.utf8Size = 1 := hc ▸ utf8Size_feed
      rw [if_pos hc] at h
      rcases List.mem_cons.1 h with rfl | h
      · refine ⟨by omega, by omega, ?_⟩
        intro hlast
        cases cs with
        | nil => exact absurd (by rw [hc]; rfl) hlast
        | cons d ds =>
          have hd := d.utf8Size_pos
          rw [byteLength_cons]
          omega
      · obtain ⟨hstart, hstop, hend⟩ := ih h
        refine ⟨by omega, by omega, ?_⟩
        intro hlast
        have := hend (by cases cs <;> simp_all)
        omega
    · rw [if_neg hc] at h
      obtain ⟨hstart, hstop, hend⟩ := ih h
      refine ⟨by omega, by omega, ?_⟩
      intro hlast
      have := hend (by cases cs <;> simp_all)
      omega

def feedFlags (cs : List Char) (flags : List Bool) : List Bool :=
  ((cs.zip flags).filter fun (c, _) => c == '\n').map Prod.snd

theorem literalLineStarts_eq (cs : List Char) :
    literalLineStarts cs = false :: feedFlags cs (literalFlags (classify cs)) := by
  simp [literalLineStarts, feedFlags, literalFlags, List.zip_map_right, List.filter_map,
    Function.comp_def]

theorem feedFlags_append (start : Nat) (a b : List Char) (isLiteral : Bool) (flags : List Bool) :
    feedFlags (a ++ b) ((a.map fun _ => isLiteral) ++ flags) =
      ((feedsFrom start a).map fun _ => isLiteral) ++ feedFlags b flags := by
  induction a generalizing start with
  | nil => rfl
  | cons c a ih =>
    rw [feedsFrom]
    by_cases hc : c = '\n'
    · have hrest := ih (start + 1)
      rw [if_pos hc]
      simpa [feedFlags, hc] using hrest
    · have hrest := ih (start + c.utf8Size)
      rw [if_neg hc]
      simpa [feedFlags, hc] using hrest

/-- A literal does not end with a line feed. -/
theorem getLast?_of_isLiteral {rest : List Char} (hfits : p.FitsBefore rest)
    (hplain : p.isPlain rest.head? = true) (hp : p.isLiteral = true) :
    p.text.getLast? ≠ some '\n' := by
  have hmark : ∀ {text : List Char} {q : Char}, q ≠ '\n' → (text ++ [q]).getLast? ≠ some '\n' := by
    intro text q hq
    simpa using hq
  cases p with
  | gap => cases hp
  | token style l text =>
    cases l with
    | string value =>
      cases style with
      | script => exact bne_iff_ne.1 hplain
      | markup =>
        obtain ⟨q, value, hq, -, rfl⟩ := hfits
        exact hmark hq.ne_feed
    | template more valid =>
      obtain ⟨c, body, -, -, rfl⟩ := hfits
      cases more with
      | false => exact hmark (by decide)
      | true =>
        have hend : c :: body ++ pieceEnd true = (c :: body ++ ['$']) ++ ['\x7b'] := by
          simp [pieceEnd]
        rw [Piece.text, hend]
        exact hmark (by decide)
    | _ => cases hp

/-- The line feeds in literals are those with a literal around the line start behind them. -/
theorem feedFlags_of_fitsBefore (start : Nat) (hfits : FitsBefore log [])
    (hplain : isPlainLog log = true) :
    feedFlags (textOf log) (log.flatMap Piece.flags) =
      (feedsFrom start (textOf log)).map (isInside (literalSpans start log)) := by
  induction log generalizing start with
  | nil => rfl
  | cons p log ih =>
    obtain ⟨hp, hlog⟩ := hfits
    obtain ⟨hfirst, hplain⟩ := Bool.and_eq_true_iff.1 hplain
    rw [List.append_nil] at hp
    have hinside : (feedsFrom start p.text).map (isInside (literalSpans start (p :: log))) =
        (feedsFrom start p.text).map fun _ => p.isLiteral := by
      apply List.map_congr_left
      intro offset hoffset
      -- The offset is in the piece or at its end, and no literal ends with a line feed.
      obtain ⟨hstart, hstop, hend⟩ := mem_feedsFrom hoffset
      rw [isInside_first hstart hstop]
      by_cases hliteral : p.isLiteral = true
      · simp [hend (getLast?_of_isLiteral hp hfirst hliteral)]
      · simp [hliteral]
    have hbehind : (feedsFrom (start + byteLength p.text) (textOf log)).map
          (isInside (literalSpans start (p :: log))) =
        (feedsFrom (start + byteLength p.text) (textOf log)).map
          (isInside (literalSpans (start + byteLength p.text) log)) := by
      apply List.map_congr_left
      intro offset hoffset
      exact isInside_behind (mem_feedsFrom hoffset).1
    rw [textOf_cons, List.flatMap_cons, feedsFrom_append, List.map_append, hinside, hbehind,
      ← ih (start + byteLength p.text) hlog hplain]
    exact feedFlags_append start p.text (textOf log) p.isLiteral (log.flatMap Piece.flags)

/-- The scanner and the lexer agree on which lines of a source start inside of a literal. -/
theorem literalLineStarts_of_lex? {source : List Char} {moves : List Move} {stack : List Bracket}
    (hlex : lex? source moves = some log) (hfeeds : OnlyFeeds source)
    (hplain : isPlainLog log = true) (hnest : log.foldlM Piece.nest [] = some stack) :
    literalLineStarts source =
      (LineIndex.ofText source).starts.toList.map (isInside (literalSpans 0 log)) := by
  obtain ⟨rfl, hfits⟩ := fits_of_lex? hlex hfeeds
  have hflags : literalFlags (classify (textOf log)) = log.flatMap Piece.flags :=
    regions_of_fitsBefore hfits hplain hnest
  have hzero : isInside (literalSpans 0 log) 0 = false := isInside_of_le (Nat.le_refl 0)
  rw [literalLineStarts_eq, hflags, feedFlags_of_fitsBefore 0 hfits hplain]
  simp [LineIndex.ofText, hzero]

def sampleSource : List Char :=
  ("const r = /a\x7b2\x7d/; // it\x27s\n" ++
    "const s = \x60x\n$\x7b\x7b k: \x27\x7d\x27 \x7d.k\x7d\n\x60;\n" ++
    "const e = <b c=\x22d\x22>f\n\x7bs\x7d</b>;\n").toList

def sampleMoves : List Move :=
  let next := Move.next .script
  List.replicate 4 next ++ [.regex] ++ List.replicate 13 next ++ [.template] ++
    List.replicate 6 next ++ [.name, next, .name, next, .next .markup, next, .child, .child] ++
    [next, next, .child, next, next, .name, next, next, next]

set_option maxRecDepth 100000 in
theorem literalLineStarts_sampleSource : ∃ log,
    lex? sampleSource sampleMoves = some log ∧ OnlyFeeds sampleSource ∧ isPlainLog log = true ∧
      log.foldlM Piece.nest [] = some [] ∧
      literalLineStarts sampleSource = [false, false, true, true, false, false, false] ∧
      literalLineStarts sampleSource =
        (LineIndex.ofText sampleSource).starts.toList.map (isInside (literalSpans 0 log)) := by
  obtain ⟨hlog, hall, hstarts⟩ : ((lex? sampleSource sampleMoves).any fun log =>
        isPlainLog log && log.foldlM Piece.nest [] == some []) = true ∧
      (sampleSource.all fun c => !isLineBreak c || c == '\n') = true ∧
      literalLineStarts sampleSource = [false, false, true, true, false, false, false] := by
    decide +kernel
  have hfeeds : OnlyFeeds sampleSource := by
    intro c hc hbreak
    have hfeed := List.all_eq_true.1 hall c hc
    simpa [hbreak] using hfeed
  obtain ⟨log, hlex, htests⟩ := (Option.any_eq_true _ _).1 hlog
  rw [Bool.and_eq_true, beq_iff_eq] at htests
  obtain ⟨hplain, hnest⟩ := htests
  exact ⟨log, hlex, hfeeds, hplain, hnest, hstarts,
    literalLineStarts_of_lex? hlex hfeeds hplain hnest⟩

def Kind.isLiteral : Kind → Bool
  | .string _ | .template | .taggedTemplate | .templateType => true
  | _ => false

set_option maxRecDepth 100000 in
/-- A regular expression with a backquote, in a source that is read and that has no literal, neither
in its tree nor among its tokens, makes the scanner take every line behind it for one. -/
theorem literalLineStarts_regexTick :
    let text := "const r = /\x60/;\nconst a = 1;\n"
    let moves := List.replicate 4 (Move.next .script) ++ [.regex] ++
      List.replicate 7 (Move.next .script)
    Source.preprocess text false = text ∧
      (∃ m, parse text.toList = .ok m ∧ ∀ n ∈ m.tree.subtrees, n.kind.isLiteral = false) ∧
      (lex? text.toList moves).map (literalSpans 0) = some [] ∧
      literalLineStarts text.toList = [false, true, true] := by
  intro text moves
  obtain ⟨htext, hparse, hspans, hstarts⟩ : Source.preprocess text false = text ∧
      ((parse text.toList).toOption.any fun m =>
        m.tree.subtrees.all fun n => !n.kind.isLiteral) = true ∧
      (lex? text.toList moves).map (literalSpans 0) = some [] ∧
      literalLineStarts text.toList = [false, true, true] := by
    decide +kernel
  obtain ⟨m, hm, hall⟩ := (Option.any_eq_true _ _).1 hparse
  refine ⟨htext, ⟨m, ?_, fun n hn => ?_⟩, hspans, hstarts⟩
  · cases hresult : parse text.toList with
    | error f => simp [hresult, Except.toOption] at hm
    | ok m' =>
      rw [hresult] at hm
      exact congrArg Except.ok (Option.some.inj hm)
  · simpa using List.all_eq_true.1 hall n hn

end Lines

end Revue.Syntax
