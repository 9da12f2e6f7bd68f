import Revue.Proofs.TokenPattern

/-!
# The shortest token

A text may be the declaration of a token for a name in several ways: the name may hold quotes,
colons or the word in front of a constant, so that it can be read at more than one place. All these
ways have their colon at one place, since what lies between two places at which the name is read
holds as many colons as what is skipped in front of them, which is none. So they differ in how much
of the text behind that colon is the token, and what is found is the shortest.
-/

namespace Revue.Analysis
open Text Syntax

/-! ### Ways to go on -/

section Ways
variable {p : Char → Bool} {cs rest : List Char}

theorem mem_optionalChar : rest ∈ optionalChar p cs ↔ ∃ a, IsOptional p a ∧ cs = a ++ rest := by
  refine ⟨exists_of_mem_optionalChar, ?_⟩
  rintro ⟨a, rfl | ⟨c, hc, rfl⟩, rfl⟩
  · cases cs with
    | nil => simp [optionalChar]
    | cons c cs =>
      rw [optionalChar]
      split <;> simp
  · simp [optionalChar, hc]

theorem mem_afterBlanks :
    rest ∈ afterBlanks cs ↔ ∃ gap, gap ≠ [] ∧ isBlankLine gap = true ∧ cs = gap ++ rest := by
  refine ⟨exists_of_mem_afterBlanks, ?_⟩
  rintro ⟨gap, hne, hgap, rfl⟩
  induction gap with
  | nil => exact absurd rfl hne
  | cons c gap ih =>
    rw [isBlankLine, List.all_cons, Bool.and_eq_true] at hgap
    rw [List.cons_append, afterBlanks, if_pos hgap.1, List.mem_append]
    cases gap with
    | nil => simp
    | cons d gap => exact .inl (ih (by simp) hgap.2)

theorem mem_afterReadonly :
    rest ∈ afterReadonly cs ↔ ∃ front, IsFront front ∧ cs = front ++ rest := by
  refine ⟨exists_of_mem_afterReadonly, ?_⟩
  rintro ⟨front, rfl | ⟨gap, hne, hgap, rfl⟩, rfl⟩
  · unfold afterReadonly
    split <;> simp
  · rw [afterReadonly, List.append_assoc, stripStart?_append]
    exact List.mem_append_left _ (mem_afterBlanks.2 ⟨gap, hne, hgap, rfl⟩)

end Ways

/-! ### Declarations -/

def IsTail (cs : List Char) : Prop :=
  ∃ gap mark, isBlankLine gap = true ∧ IsOptional (fun c => c == ';' || c == ',') mark ∧
    cs = gap ++ mark

theorem isSeparator_iff {cs : List Char} : isSeparator cs = true ↔ IsTail cs := by
  constructor
  · intro h
    obtain ⟨gap, hgap, hcs⟩ := exists_blanks cs
    refine ⟨gap, cs.dropWhile isBlank, hgap, ?_, hcs⟩
    unfold isSeparator at h
    split at h
    · rename_i hnil
      exact .inl hnil
    · rename_i c hsingle
      exact .inr ⟨c, h, hsingle⟩
    · cases h
  · rintro ⟨gap, mark, hgap, rfl | ⟨c, hc, rfl⟩, rfl⟩
    · rw [List.append_nil, isSeparator, List.dropWhile_eq_nil_iff.2 (List.all_eq_true.1 hgap)]
    · have hsolid : isBlank c = false := by
        rcases Bool.or_eq_true_iff.1 hc with hc | hc <;> rw [beq_iff_eq.1 hc] <;> decide
      rw [isSeparator, List.dropWhile_append_of_pos (List.all_eq_true.1 hgap),
        List.dropWhile_cons_of_neg (by simp [hsolid])]
      exact hc

/-- The text is the declaration of a token for a name, with nothing behind the token but blanks and
one separator. -/
def Declares (name token text : List Char) : Prop :=
  ∃ w : TokenText name token text, IsTail w.ending

/-! ### One colon -/

namespace TokenText
variable {name token token' text : List Char}

def skipped (w : TokenText name token text) : List Char :=
  w.front ++ w.opening

section
variable (w : TokenText name token text)
include w

theorem named_eq : w.named = w.skipped ++ name := by
  simp [named, skipped]

theorem colon_not_mem_skipped : ':' ∉ w.skipped := by
  intro hmem
  rcases List.mem_append.1 hmem with hmem | hmem
  · rcases w.isFront with hnil | ⟨gap, -, hgap, hfront⟩
    · rw [hnil] at hmem
      cases hmem
    · rw [hfront] at hmem
      rcases List.mem_append.1 hmem with hmem | hmem
      · revert hmem
        decide
      · have hblank := List.all_eq_true.1 hgap _ hmem
        revert hblank
        decide
  · have hquote := w.isOpening.of_mem hmem
    revert hquote
    decide

/-- Two ways to read a text have one colon, if the name is read no later in the first. -/
theorem behind_eq_of_le (w' : TokenText name token' text)
    (hle : w.skipped.length ≤ w'.skipped.length) : w.behind = w'.behind := by
  have heq := w.text_eq_append.symm.trans w'.text_eq_append
  obtain ⟨later, hlater, hmiddle⟩ := exists_append_of_length_le heq (by
    simpa [named_eq] using hle)
  obtain ⟨more, hmore, -⟩ := exists_append_of_length_le
    (by simpa only [named_eq, List.append_assoc] using heq) hle
  -- What lies between the two ends of the name is as long as what lies between its two starts, and
  -- has the same characters.
  have hnone : ':' ∉ later := by
    have hsame : more ++ name = name ++ later := by
      rw [named_eq, named_eq, hmore, List.append_assoc, List.append_assoc,
        List.append_cancel_left_eq] at hlater
      exact hlater
    have hcount := congrArg (List.count ':') hsame
    rw [List.count_append, List.count_append, Nat.add_comm, Nat.add_left_cancel_iff] at hcount
    rw [← List.count_eq_zero, ← hcount, List.count_eq_zero]
    intro hmem
    exact w'.colon_not_mem_skipped (hmore ▸ List.mem_append_right _ hmem)
  have hnone' : ':' ∉ later ++ w'.middle := by
    simp [hnone, w'.not_mem_middle (.inl rfl)]
  rw [← List.append_assoc] at hmiddle
  obtain ⟨before, hbefore, hcolon⟩ := exists_of_append_cons hmiddle.symm
    (w.not_mem_middle (.inl rfl))
  cases before with
  | nil => exact (List.cons.inj hcolon).2
  | cons c before =>
    refine absurd ?_ hnone'
    rw [hbefore, ← (List.cons.inj hcolon).1]
    simp

theorem behind_eq (w' : TokenText name token' text) : w.behind = w'.behind := by
  rcases Nat.le_total w.skipped.length w'.skipped.length with hle | hle
  · exact w.behind_eq_of_le w' hle
  · exact (w'.behind_eq_of_le w hle).symm

theorem dropWhile_behind : w.behind.dropWhile isBlank = token ++ w.ending := by
  rw [behind, List.dropWhile_append_of_pos (List.all_eq_true.1 w.isLead)]
  exact trimStart_append_of_solid w.token_ne fun c hc =>
    w.token_solid c (List.mem_of_mem_head? hc)

end

end TokenText

/-! ### Reading the token -/

section Token
variable {word ending token : List Char}

/-- If a token can be read, then one is, and it is no longer. -/
theorem exists_shortestToken (read : List Char) (hne : word ≠ [])
    (hsolid : ∀ c ∈ word, isBlank c = false)
    (hending : isSeparator ending = true) :
    ∃ first, first <+: word ∧
      shortestToken read (word ++ ending) = some (read.reverse ++ first) := by
  induction word generalizing read with
  | nil => exact absurd rfl hne
  | cons c word ih =>
    have hc : isBlank c = false := hsolid c List.mem_cons_self
    rw [List.cons_append, shortestToken, if_neg (by simp [hc])]
    by_cases hdone : isSeparator (word ++ ending) = true
    · rw [if_pos hdone]
      exact ⟨[c], by simp, by simp⟩
    · rw [if_neg hdone]
      have hword : word ≠ [] := by
        rintro rfl
        exact hdone hending
      obtain ⟨first, hfirst, hread⟩ := ih (c :: read) hword
        fun d hd => hsolid d (List.mem_cons_of_mem c hd)
      exact ⟨c :: first, by simpa using hfirst, by simpa using hread⟩

theorem tokenAfterColon_eq {gap rest : List Char} (hgap : isBlankLine gap = true) :
    tokenAfterColon (gap ++ ':' :: rest) = shortestToken [] (rest.dropWhile isBlank) := by
  rw [tokenAfterColon, List.dropWhile_append_of_pos (List.all_eq_true.1 hgap),
    List.dropWhile_cons_of_neg (by decide)]
  rfl

/-- What is found is what is read behind the colon. -/
theorem shortestToken_of_typeToken {name text token : String}
    (h : typeToken name text = some token) :
    ∃ w : TokenText name.toList token.toList (trim text.toList), IsTail w.ending ∧
      shortestToken [] (w.behind.dropWhile isBlank) = some token.toList := by
  obtain ⟨w, hending, hcolon⟩ := exists_tokenText h
  refine ⟨w, isSeparator_iff.1 hending, ?_⟩
  rwa [tokenAfterColon_eq w.isGap] at hcolon

/-- A declaration is one of the ways, so that something is found. -/
theorem isSome_typeToken {name text : String}
    (w : TokenText name.toList token (trim text.toList)) (hending : IsTail w.ending) :
    (typeToken name text).isSome = true := by
  obtain ⟨first, -, hread⟩ := exists_shortestToken [] w.token_ne w.token_solid
    (isSeparator_iff.2 hending)
  have hcolon : tokenAfterColon (w.gap ++ ':' :: w.behind) = some first := by
    rw [tokenAfterColon_eq w.isGap, w.dropWhile_behind]
    exact hread
  have hname : (tokenAfterName name.toList
      (name.toList ++ (w.middle ++ ':' :: w.behind))).isSome = true := by
    rw [tokenAfterName, stripStart?_append, Option.bind_some, List.findSome?_isSome_iff]
    refine ⟨w.mark ++ (w.gap ++ ':' :: w.behind),
      mem_optionalChar.2 ⟨w.closing, w.isClosing, by simp [TokenText.middle]⟩, ?_⟩
    rw [List.findSome?_isSome_iff]
    exact ⟨_, mem_optionalChar.2 ⟨w.mark, w.isMark, rfl⟩, by rw [hcolon]; rfl⟩
  rw [typeToken_eq, Option.isSome_map, List.findSome?_isSome_iff]
  refine ⟨w.opening ++ (name.toList ++ (w.middle ++ ':' :: w.behind)),
    mem_afterReadonly.2 ⟨w.front, w.isFront, ?_⟩, ?_⟩
  · have htext := w.text_eq_append
    rwa [TokenText.named, List.append_assoc, List.append_assoc] at htext
  · rw [List.findSome?_isSome_iff]
    exact ⟨_, mem_optionalChar.2 ⟨w.opening, w.isOpening, rfl⟩, hname⟩

/-- What is found is the beginning of whatever else the text declares for the name. -/
theorem isPrefix_of_typeToken {name text token : String} {other : List Char}
    (h : typeToken name text = some token)
    (hother : Declares name.toList other (trim text.toList)) : token.toList <+: other := by
  obtain ⟨w, -, hread⟩ := shortestToken_of_typeToken h
  obtain ⟨w', hending'⟩ := hother
  obtain ⟨first, hfirst, hread'⟩ := exists_shortestToken [] w'.token_ne w'.token_solid
    (isSeparator_iff.2 hending')
  rw [← w'.dropWhile_behind, ← w.behind_eq w', hread] at hread'
  obtain rfl : token.toList = first := Option.some.inj hread'
  exact hfirst

end Token

/-- A token is found exactly if the trimmed text declares one for the name, in whatever way the name
is read in it; and then what is found is declared and is the beginning of all that is. -/
theorem typeToken_shortest (name text : String) :
    ((typeToken name text).isSome = true ↔
      ∃ token, Declares name.toList token (trim text.toList)) ∧
    ∀ token, typeToken name text = some token →
      Declares name.toList token.toList (trim text.toList) ∧
      ∀ other, Declares name.toList other (trim text.toList) → token.toList <+: other := by
  have hfound : ∀ token, typeToken name text = some token →
      Declares name.toList token.toList (trim text.toList) := by
    intro token htoken
    obtain ⟨w, hending, -⟩ := shortestToken_of_typeToken htoken
    exact ⟨w, hending⟩
  refine ⟨⟨fun hsome => ?_, ?_⟩, fun token htoken =>
    ⟨hfound token htoken, fun other hother => isPrefix_of_typeToken htoken hother⟩⟩
  · obtain ⟨token, htoken⟩ := Option.isSome_iff_exists.1 hsome
    exact ⟨token.toList, hfound token htoken⟩
  · rintro ⟨token, w, hending⟩
    exact isSome_typeToken w hending

/-- Here the name is read at two places, and the token may end with a separator or not. -/
example : typeToken "\x27a" "\x27\x27a: b;;" = some "b;" := by decide +kernel

end Revue.Analysis
