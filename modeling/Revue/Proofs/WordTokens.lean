import Revue.Proofs.MembersOfThis

/-!
# Words as tokens

A word that stands behind a dot, with a blank behind it, is read as the word that it spells; a
keyword may keep escapes that it is spelled with. A text without escapes is such a word exactly if
it starts like a name and goes on like one.
-/

namespace Revue.Syntax
open Text

variable {c : Char} {word : String} {rest text : List Char}

/-! ### Names as tokens -/

def isNameText (text : List Char) : Bool :=
  text.head?.any isNameStart && text.all isNamePart

/-- A text that is read as one word, spelled like it, where a blank follows. A keyword may keep its
escapes. -/
structure IsWord (word : String) : Prop where
  starts : word.toList.head?.any (fun c => isNameStart c || c == '\\') = true
  reads : ∀ pos rest, ∃ keyword stop fault, scanWord pos (word.toList ++ ' ' :: rest) =
    some ⟨.word word keyword, stop, ' ' :: rest, fault⟩

/-- A text with which no name goes on. -/
def endsName (rest : List Char) : Bool :=
  rest.head?.all fun c => !isNamePart c && c != '\\'

/-- Characters of names are read up to where the name does not go on. -/
theorem scanName_of_parts (h : ∀ c ∈ text, isNamePart c = true) (hrest : endsName rest = true)
    (read : List Char) (pos : Nat) :
    scanName false read .none 0 pos (text ++ rest) =
      some ⟨read.reverse ++ text, .none, pos + byteLength text, rest⟩ := by
  induction text generalizing read pos with
  | nil =>
    cases rest with
    | nil => simp [scanName, byteLength]
    | cons c rest =>
      obtain ⟨hpart, hslash⟩ : isNamePart c = false ∧ c ≠ '\\' := by simpa [endsName] using hrest
      simp [scanName, byteLength, hpart, hslash]
  | cons c text ih =>
    obtain ⟨hc, htext⟩ := List.forall_mem_cons.1 h
    rw [List.cons_append, scanName, if_neg (by simp), hc, Bool.true_or, if_pos rfl, ih htext]
    simp [byteLength, Nat.add_assoc]

/-- Without escapes, only characters of names are read. -/
theorem isNamePart_of_scanName {n : NameScan} {read : List Char} {fault : Fault} {pos : Nat}
    (h : scanName false read fault 0 pos (text ++ [' ']) = some n) (hrest : n.rest = [' '])
    (hplain : '\\' ∉ text) : ∀ c ∈ text, isNamePart c = true := by
  induction text generalizing read pos with
  | nil => simp
  | cons c text ih =>
    obtain ⟨hc, htext⟩ := not_or.1 (List.mem_cons.not.1 hplain)
    rw [List.cons_append, scanName, if_neg (by simp), Bool.false_and, Bool.or_false] at h
    split at h
    · rename_i hpart
      exact List.forall_mem_cons.2 ⟨hpart, ih h htext⟩
    · rw [if_neg (Ne.symm hc)] at h
      obtain rfl := Option.some.inj h
      simp at hrest

theorem exists_wordOf (h : isNameText word.toList = true) :
    ∃ keyword, wordOf word word = .word word keyword := by
  have hplain : word.toList.head? ≠ some '\\' := by
    intro hhead
    rw [isNameText, hhead] at h
    cases h
  unfold wordOf
  split
  · exact ⟨_, rfl⟩
  · rw [if_neg hplain, if_neg (by simp)]
    exact ⟨_, rfl⟩

section
variable (h : isNameText word.toList = true) (hrest : endsName rest = true) (pos : Nat)
include h hrest

theorem scanWord_of_isNameText : scanWord pos (word.toList ++ rest) =
    some ⟨wordOf word word, pos + byteLength word.toList, rest, .none⟩ := by
  obtain ⟨-, hparts⟩ := Bool.and_eq_true_iff.1 h
  have htext : (word.toList ++ rest).take ((word.toList ++ rest).length - rest.length) =
      word.toList := textBefore_append _ _
  rw [scanWord, scanName_of_parts (List.all_eq_true.1 hparts) hrest [] pos, Option.map_some, htext]
  simp only [List.reverse_nil, List.nil_append, String.ofList_toList]

/-- A name without escapes is one token. -/
theorem scanToken_of_isNameText : scanToken .script pos (word.toList ++ rest) =
    ⟨wordOf word word, pos + byteLength word.toList, rest, .none⟩ := by
  have hread := scanWord_of_isNameText h hrest pos
  obtain ⟨c, hhead, hstart⟩ := (Option.any_eq_true _ _).1 (Bool.and_eq_true_iff.1 h).1
  obtain ⟨cs, hcs⟩ := List.head?_eq_some_iff.1 hhead
  rw [hcs, List.cons_append] at hread ⊢
  rw [scanToken, scanToken?, hstart, Bool.true_or, if_pos rfl, hread]
  rfl

end

theorem isWord_of_isNameText (h : isNameText word.toList = true) : IsWord word := by
  obtain ⟨c, hhead, hc⟩ := (Option.any_eq_true _ _).1 (Bool.and_eq_true_iff.1 h).1
  refine ⟨by simp [hhead, hc], fun pos rest => ?_⟩
  have hblank : endsName (' ' :: rest) = true := rfl
  obtain ⟨keyword, hword⟩ := exists_wordOf h
  exact ⟨keyword, _, _, (scanWord_of_isNameText h hblank pos).trans (by rw [hword])⟩

theorem IsWord.isNameText (h : IsWord word) (hplain : '\\' ∉ word.toList) :
    isNameText word.toList = true := by
  obtain ⟨keyword, stop, fault, hread⟩ := h.reads 0 []
  obtain ⟨n, hname, heq⟩ := Option.map_eq_some_iff.1 hread
  have hrest : n.rest = [' '] := congrArg Scanned.rest heq
  obtain ⟨c, hhead, hc⟩ := (Option.any_eq_true _ _).1 h.starts
  have hslash : (c == '\\') = false := by
    refine beq_false_of_ne ?_
    rintro rfl
    exact hplain (List.mem_of_mem_head? hhead)
  rw [hslash, Bool.or_false] at hc
  refine Bool.and_eq_true_iff.2 ⟨by simp [hhead, hc], ?_⟩
  exact List.all_eq_true.2 (isNamePart_of_scanName hname hrest hplain)

/-! ### Tokens -/

def isSolid (c : Char) : Bool :=
  c != '/' && !isLineBreak c && !isGapBlank c

def unnamedCodes : List Nat :=
  List.range' 0x30 10 ++ List.range' 0x9 5 ++ [0x20, 0x85, 0xA0, 0x1680] ++
    List.range' 0x2000 12 ++ [0x2028, 0x2029, 0x202F, 0x205F, 0x3000, 0xFEFF]

theorem isNameStart_unnamedCodes : ∀ n ∈ unnamedCodes, isNameStart (Char.ofNat n) = false := by
  decide +kernel

theorem mem_unnamedCodes (h : (c.isDigit || isLineBreak c || isGapBlank c) = true) :
    c.toNat ∈ unnamedCodes := by
  simp only [Bool.or_eq_true, isLineBreak, isGapBlank, isBlank, Bool.and_eq_true,
    decide_eq_true_eq, beq_iff_eq] at h
  simp only [unnamedCodes, List.mem_append, List.mem_range'_1, List.mem_cons, List.not_mem_nil]
  rcases h with (h | ((rfl | rfl) | rfl) | rfl) | (h | rfl) | rfl
  · have hdigit := Char.isDigit_iff_toNat.1 h
    have h0 : '0'.toNat = 48 := rfl
    have h9 : '9'.toNat = 57 := rfl
    omega
  · decide
  · decide
  · decide
  · decide
  · omega
  · decide
  · decide

/-- A character that starts a word starts a token, and no number. -/
theorem isSolid_of_start (h : (isNameStart c || c == '\\') = true) :
    isSolid c = true ∧ c.isDigit = false ∧ c ≠ '.' := by
  rcases Bool.or_eq_true_iff.1 h with hstart | hslash
  · have hnamed : (c.isDigit || isLineBreak c || isGapBlank c) = false := by
      refine Bool.eq_false_iff.2 fun hunnamed => ?_
      have hcode := isNameStart_unnamedCodes _ (mem_unnamedCodes hunnamed)
      rw [Char.ofNat_toNat, hstart] at hcode
      cases hcode
    have hne : ∀ d, isNameStart d = false → c ≠ d := by
      rintro d hd rfl
      exact absurd hstart (by simp [hd])
    simp only [Bool.or_eq_false_iff] at hnamed
    obtain ⟨⟨hdigit, hbreak⟩, hblank⟩ := hnamed
    refine ⟨?_, hdigit, hne _ rfl⟩
    simp [isSolid, hbreak, hblank, hne '/' rfl]
  · obtain rfl := eq_of_beq hslash
    decide
section
variable {s : State} {c : Char} {rest : List Char}

theorem skipTrivia_of_solid {gap : List Char} (hgap : ∀ b ∈ gap, b = ' ') (h : isSolid c = true)
    (before : Lexeme) (t : Trivia) (pos : Nat) :
    skipTrivia before .blank t pos (gap ++ c :: rest) =
      { t with pos := pos + gap.length, rest := c :: rest } := by
  induction gap generalizing pos with
  | nil =>
    simp only [isSolid, Bool.and_eq_true, bne_iff_ne, Bool.not_eq_true'] at h
    obtain ⟨⟨hslash, hbreak⟩, hblank⟩ := h
    rw [List.nil_append, skipTrivia_blank hslash, hbreak, hblank]
    rfl
  | cons b gap ih =>
    obtain ⟨rfl, hblanks⟩ := List.forall_mem_cons.1 hgap
    rw [List.cons_append, skipTrivia_blank (by decide), if_neg (by decide), if_pos (by decide),
      ih hblanks]
    simp [Nat.add_comm, Nat.add_left_comm, show (' ' : Char).utf8Size = 1 from rfl]

/-- The next token, with blanks in front of it. -/
theorem advance_of_solid (gap : List Char) (hgap : ∀ b ∈ gap, b = ' ') (h : isSolid c = true)
    (hrest : s.rest = gap ++ c :: rest) {sc : Scanned}
    (hsc : scanToken .script (s.token.span.stop + gap.length) (c :: rest) = sc) :
    (s.advance .script).token.lexeme = sc.lexeme ∧ (s.advance .script).rest = sc.rest := by
  have htrivia : triviaAfter s.token.lexeme s.token.span.stop s.rest =
      ⟨false, [], [], false, s.token.span.stop + gap.length, c :: rest⟩ := by
    rw [triviaAfter, hrest]
    exact skipTrivia_of_solid hgap h _ _ _
  unfold State.advance
  dsimp only
  rw [htrivia]
  simp only [Bool.false_and, Bool.or_false, Bool.false_eq_true, if_false, ite_self, hsc, and_self]

theorem scanToken?_dot (pos : Nat) (rest : List Char) :
    scanToken? .script pos ('.' :: rest) =
      if rest.head?.any Char.isDigit then scanNumeric pos ('.' :: rest)
      else scanMark Mark.table pos ('.' :: rest) := rfl

theorem isDotted_of_table : ∀ entry ∈ Mark.table,
    (entry.1.toList.head?.any (· != '.') || (Lexeme.mark entry.2).isDotted) = true := by
  decide

theorem scanToken_isDotted (pos : Nat) (rest : List Char) :
    (scanToken .script pos ('.' :: rest)).lexeme.isDotted = true := by
  rw [scanToken, scanToken?_dot]
  split
  · cases h : scanNumeric pos ('.' :: rest) with
    | none => rfl
    | some sc =>
      obtain ⟨n, -, rfl⟩ := Option.map_eq_some_iff.1 h
      cases n.isBig <;> simp [Lexeme.isDotted]
  · cases h : scanMark Mark.table pos ('.' :: rest) with
    | none => rfl
    | some sc =>
      obtain ⟨entry, hentry, hlexeme, hcs⟩ := scanMark_eq h
      rcases Bool.or_eq_true_iff.1 (isDotted_of_table entry hentry) with hother | hdotted
      · obtain ⟨c, hhead, hdot⟩ := (Option.any_eq_true _ _).1 hother
        obtain ⟨text, htext⟩ := List.head?_eq_some_iff.1 hhead
        rw [htext] at hcs
        exact absurd (List.cons.inj hcs).1.symm (bne_iff_ne.1 hdot)
      · rw [Option.getD_some, hlexeme]
        exact hdotted

/-- A dot with neither a digit nor another dot behind it is a token. -/
theorem scanToken_dot (pos : Nat) (hdot : c ≠ '.') (hdigit : c.isDigit = false) :
    scanToken .script pos ('.' :: c :: rest) = ⟨.mark .dot, pos + 1, c :: rest, .none⟩ := by
  have hmark : scanMark Mark.table pos ('.' :: c :: rest) =
      some ⟨.mark .dot, pos + 1, c :: rest, .none⟩ := by
    simp [scanMark, Mark.table, stripStart?, hdot.symm, show ".".length = 1 from rfl]
  rw [scanToken, scanToken?_dot, List.head?_cons, Option.any_some, hdigit, if_neg (by decide),
    hmark]
  rfl

/-- What starts with a dot starts a token of its own. -/
theorem isDotted_advance (hrest : s.rest = '.' :: rest) :
    (s.advance .script).token.lexeme.isDotted = true := by
  obtain ⟨hlexeme, -⟩ := advance_of_solid [] (by simp) (by decide) hrest rfl
  rw [hlexeme]
  exact scanToken_isDotted _ _

/-- A word is read up to the blank behind it. -/
theorem scanToken_of_isWord (h : IsWord word) (pos : Nat) (rest : List Char) :
    ∃ keyword stop fault, scanToken .script pos (word.toList ++ ' ' :: rest) =
      ⟨.word word keyword, stop, ' ' :: rest, fault⟩ := by
  obtain ⟨c, hhead, hc⟩ := (Option.any_eq_true _ _).1 h.starts
  obtain ⟨text, htext⟩ := List.head?_eq_some_iff.1 hhead
  obtain ⟨keyword, stop, fault, hread⟩ := h.reads pos rest
  refine ⟨keyword, stop, fault, ?_⟩
  rw [htext, List.cons_append] at hread ⊢
  rw [scanToken, scanToken?, if_pos hc, hread]
  rfl

theorem scanToken_eq (pos : Nat) (rest : List Char) :
    scanToken .script pos ('=' :: ' ' :: rest) = ⟨.mark .eq, pos + 1, ' ' :: rest, .none⟩ :=
  rfl

theorem behindDot_of_isWord (h : IsWord word) (hrest : s.rest = '.' :: word.toList ++ ' ' :: rest) :
    ∃ keyword, (s.advance .script).token.lexeme = .mark .dot ∧
      ((s.advance .script).advance .script).token.lexeme = .word word keyword ∧
      ((s.advance .script).advance .script).rest = ' ' :: rest := by
  obtain ⟨c, hhead, hc⟩ := (Option.any_eq_true _ _).1 h.starts
  obtain ⟨text, htext⟩ := List.head?_eq_some_iff.1 hhead
  obtain ⟨hsolid, hdigit, hdot⟩ := isSolid_of_start hc
  rw [htext, List.cons_append, List.cons_append] at hrest
  obtain ⟨hdotLexeme, hdotRest⟩ := advance_of_solid [] (by simp) (by decide) hrest
    (scanToken_dot _ hdot hdigit)
  obtain ⟨keyword, stop, fault, hword⟩ := scanToken_of_isWord h _ rest
  rw [htext, List.cons_append] at hword
  obtain ⟨hwordLexeme, hwordRest⟩ := advance_of_solid [] (by simp) hsolid hdotRest hword
  exact ⟨keyword, hdotLexeme, hwordLexeme, hwordRest⟩

/-- The tokens behind `this` where a word is assigned to. -/
theorem atAccess_of_isWord (h : IsWord word) {value : List Char}
    (hthis : ∃ text, s.token.lexeme = .word text (some .kThis))
    (hrest : s.rest = '.' :: word.toList ++ ' ' :: '=' :: ' ' :: value)
    (hunbroken : (s.further 4).isBroken = false) : s.AtAccess word := by
  obtain ⟨keyword, hdot, hword, hspace⟩ := behindDot_of_isWord h hrest
  obtain ⟨hequals, -⟩ := advance_of_solid [' '] (by simp) (by decide) hspace
    (scanToken_eq _ value)
  exact ⟨hthis, hdot, ⟨keyword, hword⟩, hequals, hunbroken⟩

end

end Revue.Syntax
