import Revue.Analysis.TypeToken
import Revue.Component.Prop
import Revue.Proofs.Reindentation
import Revue.Proofs.TokenTexts

/-!
# The pattern of a type token

A token is found by trying the ways in which a text can be a name and a token with a colon between
them. What is found so is one of these ways, and the colon of a known token is the last of the text.
So whatever the text before holds, a known token is all that stands behind its colon.
-/

namespace Revue.Analysis
open Text Syntax Component

variable {c : Char} {a b name x y : List Char} {f : List Char → Option (List Char)}
  {s : SignatureText} {token : String}

/-! ### What the pattern reads -/

def IsOptional (p : Char → Bool) (cs : List Char) : Prop :=
  cs = [] ∨ ∃ c, p c = true ∧ cs = [c]

def IsFront (cs : List Char) : Prop :=
  cs = [] ∨ ∃ gap, gap ≠ [] ∧ isBlankLine gap = true ∧ cs = "readonly".toList ++ gap

/-- A text that is read as the declaration of a token for a name: `readonly "name"?: token;`. -/
structure TokenText (name token text : List Char) where
  front : List Char
  opening : List Char
  closing : List Char
  mark : List Char
  gap : List Char
  lead : List Char
  ending : List Char
  text_eq : text = front ++ (opening ++ (name ++ (closing ++ (mark ++ (gap ++
    ':' :: (lead ++ (token ++ ending)))))))
  isFront : IsFront front
  isOpening : IsOptional isQuote opening
  isClosing : IsOptional isQuote closing
  isMark : IsOptional (· == '?') mark
  isGap : isBlankLine gap = true
  isLead : isBlankLine lead = true
  token_ne : token ≠ []
  token_solid : ∀ c ∈ token, isBlank c = false
  isEnding : ∀ c ∈ ending, isBlank c = true ∨ c = ';' ∨ c = ','

section Reading
variable {p : Char → Bool} {cs rest read token : List Char}

theorem IsOptional.of_mem (h : IsOptional p cs) (hc : c ∈ cs) : p c = true := by
  rcases h with rfl | ⟨d, hd, rfl⟩
  · cases hc
  · rw [List.mem_singleton] at hc
    exact hc ▸ hd

theorem exists_of_mem_optionalChar (h : rest ∈ optionalChar p cs) :
    ∃ a, IsOptional p a ∧ cs = a ++ rest := by
  cases cs with
  | nil => exact ⟨[], Or.inl rfl, by simpa [optionalChar, eq_comm] using h⟩
  | cons c cs =>
    rw [optionalChar] at h
    split at h
    · rename_i hc
      rcases List.mem_cons.1 h with rfl | h
      · exact ⟨[c], Or.inr ⟨c, hc, rfl⟩, rfl⟩
      · exact ⟨[], Or.inl rfl, (List.mem_singleton.1 h).symm⟩
    · exact ⟨[], Or.inl rfl, (List.mem_singleton.1 h).symm⟩

theorem exists_of_mem_afterBlanks (h : rest ∈ afterBlanks cs) :
    ∃ gap, gap ≠ [] ∧ isBlankLine gap = true ∧ cs = gap ++ rest := by
  induction cs with
  | nil => cases h
  | cons c cs ih =>
    unfold afterBlanks at h
    split at h
    · rename_i hc
      rcases List.mem_append.1 h with h | h
      · obtain ⟨gap, -, hgap, rfl⟩ := ih h
        exact ⟨c :: gap, by simp, by simpa [isBlankLine, hc] using hgap, rfl⟩
      · rw [List.mem_singleton.1 h]
        exact ⟨[c], by simp, by simpa [isBlankLine] using hc, rfl⟩
    · cases h

theorem exists_of_mem_afterReadonly (h : rest ∈ afterReadonly cs) :
    ∃ front, IsFront front ∧ cs = front ++ rest := by
  unfold afterReadonly at h
  split at h
  · rename_i behind hstrip
    rcases List.mem_append.1 h with h | h
    · obtain ⟨gap, hne, hgap, rfl⟩ := exists_of_mem_afterBlanks h
      refine ⟨_, Or.inr ⟨gap, hne, hgap, rfl⟩, ?_⟩
      rw [stripStart?_eq hstrip, List.append_assoc]
    · exact ⟨[], Or.inl rfl, (List.mem_singleton.1 h).symm⟩
  · exact ⟨[], Or.inl rfl, (List.mem_singleton.1 h).symm⟩

theorem isEnding_of_isSeparator (h : isSeparator cs = true) :
    ∀ c ∈ cs, isBlank c = true ∨ c = ';' ∨ c = ',' := by
  intro c hc
  rw [← List.takeWhile_append_dropWhile (p := isBlank) (l := cs), List.mem_append] at hc
  rcases hc with hc | hc
  · exact Or.inl (List.mem_takeWhile_imp hc)
  · unfold isSeparator at h
    split at h
    · rename_i hnil
      rw [hnil] at hc
      cases hc
    · rename_i d hsingle
      rw [hsingle, List.mem_singleton] at hc
      exact Or.inr (by simpa [hc] using h)
    · cases h

theorem exists_of_shortestToken (h : shortestToken read cs = some token) :
    ∃ word ending, cs = word ++ ending ∧ token = read.reverse ++ word ∧ word ≠ [] ∧
      (∀ c ∈ word, isBlank c = false) ∧ isSeparator ending = true := by
  induction cs generalizing read with
  | nil => cases h
  | cons c cs ih =>
    unfold shortestToken at h
    split at h
    · cases h
    rename_i hc
    split at h
    · rename_i hending
      refine ⟨[c], cs, rfl, ?_, by simp, by simpa using hc, hending⟩
      rw [← Option.some.inj h, List.reverse_cons]
    · obtain ⟨word, ending, rfl, rfl, -, hword, hending⟩ := ih h
      refine ⟨c :: word, ending, rfl, by simp, by simp, ?_, hending⟩
      exact List.forall_mem_cons.2 ⟨by simpa using hc, hword⟩

theorem exists_blanks (cs : List Char) :
    ∃ gap, isBlankLine gap = true ∧ cs = gap ++ cs.dropWhile isBlank := by
  refine ⟨cs.takeWhile isBlank, ?_, List.takeWhile_append_dropWhile.symm⟩
  exact List.all_eq_true.2 fun c hc => List.mem_takeWhile_imp hc

theorem exists_of_tokenAfterColon (h : tokenAfterColon cs = some token) :
    ∃ gap lead ending, cs = gap ++ ':' :: (lead ++ (token ++ ending)) ∧
      isBlankLine gap = true ∧ isBlankLine lead = true ∧ token ≠ [] ∧
      (∀ c ∈ token, isBlank c = false) ∧ isSeparator ending = true := by
  obtain ⟨gap, hgap, hcs⟩ := exists_blanks cs
  unfold tokenAfterColon at h
  split at h
  · rename_i rest hrest
    obtain ⟨lead, hlead, hbehind⟩ := exists_blanks rest
    obtain ⟨word, ending, hword, rfl, hne, hsolid, hending⟩ := exists_of_shortestToken h
    refine ⟨gap, lead, ending, ?_, hgap, hlead, hne, hsolid, hending⟩
    rw [hcs, hrest, hbehind, hword]
  · cases h

end Reading

/-! ### The ways of the pattern -/

def tokenAfterName (name cs : List Char) : Option (List Char) :=
  (stripStart? name cs).bind fun cs =>
    (optionalChar isQuote cs).findSome? fun cs =>
      (optionalChar (· == '?') cs).findSome? tokenAfterColon

theorem typeToken_eq (name text : String) :
    typeToken name text = ((afterReadonly (trim text.toList)).findSome? fun cs =>
      (optionalChar isQuote cs).findSome? (tokenAfterName name.toList)).map String.ofList :=
  rfl

theorem stripStart?_append (first rest : List Char) :
    stripStart? first (first ++ rest) = some rest := by
  induction first with
  | nil => rfl
  | cons c first ih => simpa [stripStart?] using ih

/-- What is found is read behind the colon of one of the ways. -/
theorem exists_tokenText {name text : String} (h : typeToken name text = some token) :
    ∃ w : TokenText name.toList token.toList (trim text.toList), isSeparator w.ending = true ∧
      tokenAfterColon (w.gap ++ ':' :: (w.lead ++ (token.toList ++ w.ending))) =
        some token.toList := by
  rw [typeToken_eq] at h
  obtain ⟨chars, hchars, rfl⟩ := Option.map_eq_some_iff.1 h
  obtain ⟨behind, hbehind, hfound⟩ := List.exists_of_findSome?_eq_some hchars
  obtain ⟨front, hfront, htext⟩ := exists_of_mem_afterReadonly hbehind
  obtain ⟨quoted, hquoted, hname⟩ := List.exists_of_findSome?_eq_some hfound
  obtain ⟨opening, hopening, rfl⟩ := exists_of_mem_optionalChar hquoted
  obtain ⟨named, hnamed, hclosed⟩ := Option.bind_eq_some_iff.1 hname
  obtain ⟨marked, hmarked, hcolon⟩ := List.exists_of_findSome?_eq_some hclosed
  obtain ⟨closing, hclosing, rfl⟩ := exists_of_mem_optionalChar hmarked
  obtain ⟨spaced, hspaced, htoken⟩ := List.exists_of_findSome?_eq_some hcolon
  obtain ⟨mark, hmark, rfl⟩ := exists_of_mem_optionalChar hspaced
  obtain ⟨gap, lead, ending, rfl, hgap, hlead, hne, hsolid, hending⟩ :=
    exists_of_tokenAfterColon htoken
  rw [stripStart?_eq hnamed] at htext
  rw [String.toList_ofList]
  exact ⟨⟨front, opening, closing, mark, gap, lead, ending, htext, hfront, hopening, hclosing,
    hmark, hgap, hlead, hne, hsolid, isEnding_of_isSeparator hending⟩, hending, htoken⟩

theorem nonempty_tokenText {name text : String} (h : typeToken name text = some token) :
    Nonempty (TokenText name.toList token.toList (trim text.toList)) := by
  obtain ⟨w, -⟩ := exists_tokenText h
  exact ⟨w⟩

def TokenText.extended {name token text gap : List Char} (w : TokenText name token text)
    (hgap : isBlankLine gap = true) : TokenText name token (text ++ gap) :=
  { w with
    ending := w.ending ++ gap
    text_eq := (congrArg (· ++ gap) w.text_eq).trans (by simp)
    isEnding := by
      intro c hc
      rcases List.mem_append.1 hc with hc | hc
      · exact w.isEnding c hc
      · exact Or.inl (List.all_eq_true.1 hgap c hc) }

/-! ### Texts of signatures -/

def IsGap (marks cs : List Char) : Prop :=
  ∀ c ∈ cs.takeWhile (· ≠ '/'), isGapBlank c = true ∨ c ∈ marks

instance (marks cs : List Char) : Decidable (IsGap marks cs) :=
  decidable_of_iff
    ((cs.takeWhile (· ≠ '/')).all (fun c => isGapBlank c || marks.contains c) = true)
    (by simp only [List.all_eq_true, Bool.or_eq_true, List.contains_iff_mem, IsGap])

def IsBareKey (name key : List Char) : Prop :=
  key ≠ [] ∧ ∀ c ∈ key ++ name, isBlank c = false ∧ isQuote c = false ∧ c ≠ ':' ∧ c ≠ '/'

instance (name key : List Char) : Decidable (IsBareKey name key) :=
  decidable_of_iff
    (key ≠ [] ∧ (key ++ name).all
      (fun c => !isBlank c && (!isQuote c && (c != ':' && c != '/'))) = true)
    (by simp only [List.all_eq_true, Bool.and_eq_true, Bool.not_eq_true', bne_iff_ne, IsBareKey])

def IsEnclosedKey (name key : List Char) : Prop :=
  name.length + 2 ≤ key.length ∧
    (key.head?, key.getLast?) ∈
      [(some '\x22', some '\x22'), (some '\x27', some '\x27'), (some '[', some ']')]

instance (name key : List Char) : Decidable (IsEnclosedKey name key) :=
  inferInstanceAs (Decidable (_ ∧ _))

/-- The text of the signature of a property, cut at its key and at its type. -/
structure SignatureText where
  front : List Char
  key : List Char
  between : List Char
  type : List Char
  tail : List Char
deriving DecidableEq

namespace SignatureText

/-- What stands behind the key. -/
def rest (s : SignatureText) : List Char :=
  s.between ++ (s.type ++ s.tail)

def text (s : SignatureText) : List Char :=
  s.front ++ (s.key ++ s.rest)

structure IsLaid (s : SignatureText) (name : List Char) : Prop where
  front : s.front = [] ∨ "readonly".toList <+: s.front ∧ IsGap [] (s.front.drop 8)
  key : IsBareKey name s.key ∨ IsEnclosedKey name s.key

structure IsTyped (s : SignatureText) : Prop where
  colon : ':' ∈ s.between
  between : IsGap ['?', ':', '|', '&'] s.between
  type_ne : s.type ≠ []
  first : ∀ c ∈ s.type.head?, isBlank c = false
  last : ∀ c ∈ s.type.getLast?, isBlank c = false ∧ c ≠ ';' ∧ c ≠ ','
  tail : IsGap [';', ','] s.tail

instance (s : SignatureText) (name : List Char) : Decidable (s.IsLaid name) :=
  decidable_of_iff
    ((s.front = [] ∨ "readonly".toList <+: s.front ∧ IsGap [] (s.front.drop 8)) ∧
      (IsBareKey name s.key ∨ IsEnclosedKey name s.key))
    ⟨fun ⟨h1, h2⟩ => ⟨h1, h2⟩, fun ⟨h1, h2⟩ => ⟨h1, h2⟩⟩

instance (s : SignatureText) : Decidable s.IsTyped :=
  decidable_of_iff
    (':' ∈ s.between ∧ IsGap ['?', ':', '|', '&'] s.between ∧ s.type ≠ [] ∧
      s.type.head?.all (fun c => !isBlank c) = true ∧
      s.type.getLast?.all (fun c => !isBlank c && (c != ';' && c != ',')) = true ∧
      IsGap [';', ','] s.tail)
    (by
      simp only [Option.all_eq_true, Bool.and_eq_true, Bool.not_eq_true', bne_iff_ne]
      constructor
      · rintro ⟨h1, h2, h3, h4, h5, h6⟩
        exact ⟨h1, h2, h3, h4, h5, h6⟩
      · rintro ⟨h1, h2, h3, h4, h5, h6⟩
        exact ⟨h1, h2, h3, h4, h5, h6⟩)

end SignatureText

section Gaps
variable {marks cs : List Char} {c : Char}

theorem IsGap.of_not_mem (h : IsGap marks cs) (hslash : '/' ∉ cs) :
    ∀ c ∈ cs, isGapBlank c = true ∨ c ∈ marks := by
  have hall : cs.takeWhile (· ≠ '/') = cs :=
    List.takeWhile_eq_self_iff.2 fun c hc => by
      have hne : c ≠ '/' := fun heq => hslash (heq ▸ hc)
      simpa using hne
  unfold IsGap at h
  rwa [hall] at h

/-- What stands in front of all comments is a blank or a mark. -/
theorem IsGap.of_append (h : IsGap marks (a ++ c :: b)) (ha : '/' ∉ a) (hc : c ≠ '/') :
    isGapBlank c = true ∨ c ∈ marks := by
  refine h c ?_
  rw [List.takeWhile_append_of_pos, List.takeWhile_cons_of_pos (by simpa using hc)]
  · simp
  · intro d hd
    have hne : d ≠ '/' := fun heq => ha (heq ▸ hd)
    simpa using hne

theorem isBlank_of_isLower (h : c.isLower = true) : isBlank c = false ∧ isGapBlank c = false := by
  have hbounds : (decide (c.val ≥ 'a'.val) && decide (c.val ≤ 'z'.val)) = true := h
  have hrange : 97 ≤ c.toNat ∧ c.toNat ≤ 122 := by
    simpa [UInt32.le_iff_toNat_le] using hbounds
  have hblank : isBlank c = false := by
    unfold isBlank
    simp only [Bool.or_eq_false_iff, Bool.and_eq_false_iff, decide_eq_false_iff_not,
      beq_eq_false_iff_ne]
    omega
  refine ⟨hblank, ?_⟩
  have hfeff : c ≠ '\ufeff' := by
    rintro rfl
    cases h
  have hzero : c ≠ '\u200b' := by
    rintro rfl
    cases h
  simp [isGapBlank, hblank, hfeff, hzero]

theorem isBlank_of_isGapBlank
    (hgap : isGapBlank c = true ∨ c ∈ ['?', ':', '|', '&'])
    (htoken : isBlank c = true ∨ c.isLower = true ∨ c = ';' ∨ c = ',') : isBlank c = true := by
  rcases htoken with hblank | hlower | rfl | rfl
  · exact hblank
  · rcases hgap with hgap | hmark
    · simp [(isBlank_of_isLower hlower).2] at hgap
    · simp only [List.mem_cons, List.not_mem_nil, or_false] at hmark
      rcases hmark with rfl | rfl | rfl | rfl <;> cases hlower
  · revert hgap
    decide
  · revert hgap
    decide

theorem trimStart_append_of_solid (hne : a ≠ []) (hfirst : ∀ c ∈ a.head?, isBlank c = false) :
    trimStart (a ++ b) = a ++ b := by
  cases a with
  | nil => exact absurd rfl hne
  | cons c a => exact List.dropWhile_cons_of_neg (by simp [hfirst c rfl])

/-- Blanks do not reach past what is no blank. -/
theorem length_blanks_le {gap gap' : List Char} (hgap : isBlankLine gap = true)
    (hc : isBlank c = false) (heq : gap' ++ c :: x = gap ++ y) : gap.length ≤ gap'.length := by
  rcases List.append_eq_append_iff.1 heq with ⟨e, rfl, he⟩ | ⟨e, rfl, -⟩
  · cases e with
    | nil => simp
    | cons d e =>
      have hblank := List.all_eq_true.1 hgap d (by simp)
      rw [← (List.cons.inj he).1, hc] at hblank
      cases hblank
  · simp

theorem exists_append_of_length_le (h : a ++ b = x ++ y) (hle : a.length ≤ x.length) :
    ∃ e, x = a ++ e ∧ b = e ++ y := by
  rcases List.append_eq_append_iff.1 h with ⟨e, rfl, rfl⟩ | ⟨e, rfl, rfl⟩
  · exact ⟨e, rfl, rfl⟩
  · rw [List.length_append] at hle
    obtain rfl : e = [] := List.eq_nil_of_length_eq_zero (by omega)
    exact ⟨[], by simp, by simp⟩

theorem exists_of_append_cons (h : a ++ c :: b = x ++ y) (hx : c ∉ x) :
    ∃ e, a = x ++ e ∧ y = e ++ c :: b := by
  rcases List.append_eq_append_iff.1 h with ⟨e, rfl, he⟩ | ⟨e, rfl, rfl⟩
  · cases e with
    | nil => exact ⟨[], by simp, he.symm⟩
    | cons d e =>
      rw [(List.cons.inj he).1] at hx
      simp at hx
  · exact ⟨e, rfl, rfl⟩

theorem IsEnclosedKey.head?_cases {key : List Char} (h : IsEnclosedKey name key)
    (hc : c ∈ key.head?) : isBlank c = false ∧ c ≠ 'r' := by
  have hends := h.2
  rw [Option.mem_def.1 hc] at hends
  simp only [List.mem_cons, Prod.mk.injEq, Option.some.injEq, List.not_mem_nil, or_false] at hends
  rcases hends with ⟨rfl, -⟩ | ⟨rfl, -⟩ | ⟨rfl, -⟩ <;> decide

theorem IsEnclosedKey.exists_last {name key front a b : List Char} (h : IsEnclosedKey name key)
    (heq : front ++ key = a ++ c :: b) : ∃ d ∈ c :: b, d ∈ [']', '\x22', '\x27'] := by
  obtain ⟨d, hd, hends⟩ : ∃ d, key.getLast? = some d ∧ d ∈ [']', '\x22', '\x27'] := by
    have hcases := h.2
    simp only [List.mem_cons, Prod.mk.injEq, List.not_mem_nil, or_false] at hcases
    rcases hcases with ⟨-, hd⟩ | ⟨-, hd⟩ | ⟨-, hd⟩ <;> exact ⟨_, hd, by simp⟩
  refine ⟨d, List.mem_of_getLast? ?_, hends⟩
  have hlast := congrArg List.getLast? heq
  rwa [List.getLast?_append, hd, List.getLast?_append_cons, Option.some_or, eq_comm] at hlast

theorem SignatureText.IsLaid.key_first (h : s.IsLaid name) :
    s.key ≠ [] ∧ ∀ c ∈ s.key.head?, isBlank c = false := by
  rcases h.key with ⟨hne, hplain⟩ | hkey
  · exact ⟨hne, fun c hc => (hplain c (List.mem_append_left _ (List.mem_of_mem_head? hc))).1⟩
  · refine ⟨?_, fun c hc => (hkey.head?_cases hc).1⟩
    intro hnil
    simpa [hnil] using hkey.1

/-- Nothing is trimmed in front. -/
theorem SignatureText.IsLaid.trimStart_text (h : s.IsLaid name) : trimStart s.text = s.text := by
  rcases h.front with hnil | ⟨⟨gap, hgap⟩, -⟩
  · rw [text, hnil, List.nil_append]
    exact trimStart_append_of_solid h.key_first.1 h.key_first.2
  · refine trimStart_append_of_solid (by simp [← hgap]) fun c hc => ?_
    obtain rfl : 'r' = c := by simpa [← hgap] using hc
    decide

theorem SignatureText.IsLaid.nonempty_tokenText {name : String} (h : s.IsLaid name.toList)
    (htoken : typeToken name (String.ofList s.text) = some token) :
    Nonempty (TokenText name.toList token.toList s.text) := by
  obtain ⟨w⟩ := Analysis.nonempty_tokenText htoken
  rw [String.toList_ofList, trim, h.trimStart_text] at w
  obtain ⟨gap, htext, hgap⟩ := Vue.exists_trimEnd s.text
  rw [htext]
  exact ⟨w.extended (List.all_eq_true.2 hgap)⟩

theorem SignatureText.IsLaid.colon_not_mem_front (h : s.IsLaid name) (hslash : '/' ∉ s.front) :
    ':' ∉ s.front := by
  rcases h.front with hnil | ⟨⟨gap, hgap⟩, hfront⟩
  · simp [hnil]
  · rw [← hgap] at hfront hslash ⊢
    have hdrop : ("readonly".toList ++ gap).drop 8 = gap := rfl
    rw [hdrop] at hfront
    have hin := hfront.of_not_mem fun hmem => hslash (List.mem_append_right _ hmem)
    intro hmem
    rcases List.mem_append.1 hmem with hmem | hmem
    · revert hmem
      decide
    · have hblank := hin _ hmem
      revert hblank
      decide

end Gaps

/-! ### A known token is the type -/

namespace TokenText
variable {name token text : List Char}

/-- What stands behind the colon. -/
def behind (w : TokenText name token text) : List Char :=
  w.lead ++ (token ++ w.ending)

def named (w : TokenText name token text) : List Char :=
  w.front ++ (w.opening ++ name)

def middle (w : TokenText name token text) : List Char :=
  w.closing ++ (w.mark ++ w.gap)

section
variable (w : TokenText name token text)
include w

theorem text_eq_append : text = w.named ++ (w.middle ++ ':' :: w.behind) := by
  refine w.text_eq.trans ?_
  simp [named, middle, behind]

theorem mem_behind (hlower : token.all Char.isLower = true) (hc : c ∈ w.behind) :
    isBlank c = true ∨ c.isLower = true ∨ c = ';' ∨ c = ',' := by
  simp only [behind, List.mem_append] at hc
  rcases hc with hc | hc | hc
  · exact Or.inl (List.all_eq_true.1 w.isLead c hc)
  · exact Or.inr (Or.inl (List.all_eq_true.1 hlower c hc))
  · rcases w.isEnding c hc with hblank | hmark
    · exact Or.inl hblank
    · exact Or.inr (Or.inr hmark)

theorem mem_middle (hc : c ∈ w.middle) :
    isQuote c = true ∨ c = '?' ∨ isBlank c = true := by
  simp only [middle, List.mem_append] at hc
  rcases hc with hc | hc | hc
  · exact Or.inl (w.isClosing.of_mem hc)
  · exact Or.inr (Or.inl (by simpa using w.isMark.of_mem hc))
  · exact Or.inr (Or.inr (List.all_eq_true.1 w.isGap c hc))

theorem mem_named (hc : c ∈ w.named) :
    c ∈ "readonly".toList ∨ isBlank c = true ∨ isQuote c = true ∨ c ∈ name := by
  simp only [named, List.mem_append] at hc
  rcases hc with hc | hc | hc
  · rcases w.isFront with hnil | ⟨gap, -, hgap, hfront⟩
    · rw [hnil] at hc
      cases hc
    · rw [hfront, List.mem_append] at hc
      exact hc.imp_right fun hc => Or.inl (List.all_eq_true.1 hgap c hc)
  · exact Or.inr (Or.inr (Or.inl (w.isOpening.of_mem hc)))
  · exact Or.inr (Or.inr (Or.inr hc))

theorem not_mem_middle (hc : c = ':' ∨ c = '/') : c ∉ w.middle := by
  intro hmem
  have hkind := w.mem_middle hmem
  rcases hc with rfl | rfl <;> revert hkind <;> decide

theorem not_mem_behind (hlower : token.all Char.isLower = true) {c : Char}
    (hc : c ∈ [':', '/', ']', '\x22', '\x27']) : c ∉ w.behind := by
  intro hmem
  have hkind := w.mem_behind hlower hmem
  simp only [List.mem_cons, List.not_mem_nil, or_false] at hc
  rcases hc with rfl | rfl | rfl | rfl | rfl <;> revert hkind <;> decide

theorem not_mem_named (hc : c = ':' ∨ c = '/') (hname : c ∉ name) : c ∉ w.named := by
  intro hmem
  have hkind : c ∈ "readonly".toList ∨ isBlank c = true ∨ isQuote c = true := by
    have hcases := w.mem_named hmem
    simpa only [hname, or_false] using hcases
  rcases hc with rfl | rfl <;> revert hkind <;> decide

theorem length_named_le {front key rest : List Char}
    (htext : text = front ++ (key ++ rest)) (hfront : front = [] ∨ "readonly".toList <+: front)
    (hkey : IsEnclosedKey name key) : w.named.length ≤ (front ++ key).length := by
  have hlength := hkey.1
  have hopening : w.opening.length ≤ 1 := by
    rcases w.isOpening with hnil | ⟨c, -, hc⟩
    · simp [hnil]
    · simp [hc]
  obtain ⟨c, key, rfl⟩ : ∃ c key', key = c :: key' := by
    cases key with
    | nil => simp at hlength
    | cons c key => exact ⟨c, key, rfl⟩
  have hc := hkey.head?_cases (c := c) rfl
  rcases w.isFront with hnil | ⟨gap, -, hgap, hreadonly⟩
  · simp only [named, hnil, List.nil_append, List.length_append]
    omega
  have heq := htext.symm.trans w.text_eq_append
  simp only [named, hreadonly, List.append_assoc] at heq
  rcases hfront with rfl | ⟨gap', rfl⟩
  · exact absurd (List.cons.inj heq).1 hc.2
  · rw [List.append_assoc, List.append_cancel_left_eq] at heq
    have hle := length_blanks_le hgap hc.1 heq
    simp only [named, hreadonly, List.length_append]
    omega

end

section
variable (w : TokenText name token s.text) (hs : s.IsLaid name)
include w hs

/-- Behind the key of a signature there is a colon, in front of it no comment starts, and what is
read behind it is all that stands there. -/
theorem exists_rest (hlower : token.all Char.isLower = true) :
    ∃ before, s.rest = before ++ ':' :: w.behind ∧ ':' ∉ before ∧ '/' ∉ before := by
  have hcolon : ':' ∉ w.middle := w.not_mem_middle (Or.inl rfl)
  have hslash : '/' ∉ w.middle := w.not_mem_middle (Or.inr rfl)
  have heq : (s.front ++ s.key) ++ s.rest = w.named ++ (w.middle ++ ':' :: w.behind) := by
    rw [List.append_assoc]
    exact w.text_eq_append
  rcases hs.key with ⟨-, hplain⟩ | hkey
  · -- A name has no colon, so that the colon is the first of the whole text.
    have hcolon' : ':' ∉ w.named := w.not_mem_named (Or.inl rfl) fun hmem =>
      (hplain _ (List.mem_append_right _ hmem)).2.2.1 rfl
    have hslash' : '/' ∉ w.named := w.not_mem_named (Or.inr rfl) fun hmem =>
      (hplain _ (List.mem_append_right _ hmem)).2.2.2 rfl
    rw [← List.append_assoc] at heq
    have hnone : '/' ∉ s.front := by
      intro hmem
      have hin : '/' ∈ (w.named ++ w.middle) ++ ':' :: w.behind :=
        heq ▸ List.mem_append_left _ (List.mem_append_left _ hmem)
      have hbehind := w.not_mem_behind hlower (c := '/') (by simp)
      simp [hslash, hslash', hbehind] at hin
    have hfront : ':' ∉ s.front := hs.colon_not_mem_front hnone
    have hkey : ':' ∉ s.key := fun hmem => (hplain _ (List.mem_append_left _ hmem)).2.2.1 rfl
    obtain ⟨before, hbefore, hrest⟩ :=
      exists_of_append_cons heq.symm (by simp [hfront, hkey] : ':' ∉ s.front ++ s.key)
    refine ⟨before, hrest, fun hmem => ?_, fun hmem => ?_⟩
    · have hin : ':' ∈ w.named ++ w.middle := hbefore ▸ List.mem_append_right _ hmem
      simp [hcolon, hcolon'] at hin
    · have hin : '/' ∈ w.named ++ w.middle := hbefore ▸ List.mem_append_right _ hmem
      simp [hslash, hslash'] at hin
  · have hle := w.length_named_le rfl (hs.front.imp_right And.left) hkey
    obtain ⟨x, hx, hmiddle⟩ := exists_append_of_length_le heq.symm hle
    have hnone : ':' ∉ x := by
      intro hmem
      obtain ⟨a, b, rfl⟩ := List.append_of_mem hmem
      rw [List.append_assoc, List.cons_append,
        List.append_cons_inj_of_notMem hcolon (w.not_mem_behind hlower (by simp))] at hmiddle
      obtain ⟨d, hd, hends⟩ := hkey.exists_last (hx.trans (List.append_assoc _ _ _).symm)
      rcases List.mem_cons.1 hd with rfl | hd
      · simp at hends
      · refine w.not_mem_behind hlower (List.mem_cons_of_mem _ (List.mem_cons_of_mem _ hends)) ?_
        rw [hmiddle.2.2]
        exact List.mem_append_left _ hd
    obtain ⟨before, hbefore, hrest⟩ := exists_of_append_cons hmiddle hnone
    refine ⟨before, hrest, fun hmem => hcolon ?_, fun hmem => hslash ?_⟩
    · exact hbefore ▸ List.mem_append_right _ hmem
    · exact hbefore ▸ List.mem_append_right _ hmem

/-- A known token is the whole type, and no comment is near it. -/
theorem eq_type (htyped : s.IsTyped) (hlower : token.all Char.isLower = true) :
    token = s.type ∧ '/' ∉ s.rest := by
  obtain ⟨before, hrest, hcolon, hslash⟩ := w.exists_rest hs hlower
  have hnone : '/' ∉ s.rest := by
    have hbehind := w.not_mem_behind hlower (c := '/') (by simp)
    simp [hrest, hslash, hbehind]
  obtain ⟨hbetween, htail⟩ : '/' ∉ s.between ∧ '/' ∉ s.tail := by
    simp only [SignatureText.rest, List.mem_append, not_or] at hnone
    exact ⟨hnone.1, hnone.2.2⟩
  obtain ⟨a, b, hab⟩ := List.append_of_mem htyped.colon
  have heq : before ++ ':' :: w.behind = a ++ ':' :: (b ++ (s.type ++ s.tail)) := by
    rw [← hrest, SignatureText.rest, hab]
    simp
  have hbehind := ((List.append_cons_inj_of_notMem hcolon
    (w.not_mem_behind hlower (by simp))).1 heq).2.2
  have hb : isBlankLine b = true := by
    refine List.all_eq_true.2 fun c hc => ?_
    have hgap := htyped.between.of_not_mem hbetween c (by simp [hab, hc])
    have htoken := w.mem_behind hlower (hbehind ▸ List.mem_append_left _ hc)
    exact isBlank_of_isGapBlank hgap htoken
  have hends : token ++ w.ending = s.type ++ s.tail := by
    have hfirst : ∀ c ∈ token.head?, isBlank c = false := fun c hc =>
      w.token_solid c (List.mem_of_mem_head? hc)
    have hdrop := congrArg trimStart hbehind
    rwa [behind, Vue.trimStart_append_blank w.isLead, Vue.trimStart_append_blank hb,
      trimStart_append_of_solid w.token_ne hfirst,
      trimStart_append_of_solid htyped.type_ne htyped.first] at hdrop
  refine ⟨?_, hnone⟩
  rcases List.append_eq_append_iff.1 hends with ⟨e, htype, hending⟩ | ⟨e, htoken, he⟩
  · -- The type would end like an ending.
    rcases List.eq_nil_or_concat' e with rfl | ⟨e, c, rfl⟩
    · simp [htype]
    · have hlast := htyped.last c (by simp [htype])
      rcases w.isEnding c (by simp [hending]) with hblank | hmark
      · simp [hlast.1] at hblank
      · exact absurd hmark (by simp [hlast.2])
  · cases e with
    | nil => simpa using htoken
    | cons c e =>
      have hclower := List.all_eq_true.1 hlower c (by simp [htoken])
      rcases htyped.tail.of_not_mem htail c (by simp [he]) with hblank | hmark
      · simp [(isBlank_of_isLower hclower).2] at hblank
      · simp only [List.mem_cons, List.not_mem_nil, or_false] at hmark
        rcases hmark with rfl | rfl <;> cases hclower

/-- Without a type there is no token. -/
theorem false_of_isGap (hlower : token.all Char.isLower = true)
    (hrest : IsGap ['?', ';', ','] s.rest) : False := by
  obtain ⟨before, heq, -, hslash⟩ := w.exists_rest hs hlower
  rw [heq] at hrest
  have hcolon := hrest.of_append hslash (by decide)
  revert hcolon
  decide

end

end TokenText

/-- A signature without comments, the key of which spells its name as it is and has its mark right
behind it. -/
structure SignatureText.IsPlain (s : SignatureText) (name : List Char) (isOptional : Bool) :
    Prop where
  front : IsFront s.front
  key : s.key = name ∨ ∃ quote, isQuote quote = true ∧ s.key = quote :: (name ++ [quote])
  between : ∃ gap lead, isBlankLine gap = true ∧ isBlankLine lead = true ∧
    s.between = (if isOptional then ['?'] else []) ++ (gap ++ ':' :: lead)
  tail : ∃ gap, isBlankLine gap = true ∧ ∃ mark ∈ [[], [';'], [',']], s.tail = gap ++ mark

end Revue.Analysis
