import Mathlib.Data.List.Induction
import Revue.Proofs.ByteErasure
import Revue.Proofs.GeneratedText
import Revue.Proofs.WordTokens

/-!
# Quoted strings and keys

A string is written between quotes, with its backslashes, quotes and line breaks escaped. What
stands there is one token whose value is the string, and the scanner sees one literal and is where
it was behind it, whatever text comes next. A key is a plain name or such a string, and either way
it is read as the name that it was written for; so no two names have the same key.
-/

namespace Revue.Source

/-! ### Escaped characters -/

/-- Whether what comes behind a text in a string is escaped: an odd number of backslashes stands
right before it. -/
def isEscaped (before : List Char) : Bool :=
  (before.reverse.takeWhile (· == '\\')).length % 2 == 1

theorem isEscaped_concat (a : List Char) (c : Char) :
    isEscaped (a ++ [c]) = (c == '\\' && !isEscaped a) := by
  rw [isEscaped, isEscaped, List.reverse_append, List.reverse_singleton, List.singleton_append,
    List.takeWhile_cons]
  by_cases hc : c = '\\'
  · rw [if_pos (beq_iff_eq.2 hc), List.length_cons, beq_iff_eq.2 hc, Bool.true_and, Bool.eq_iff_iff]
    simp only [beq_iff_eq, Bool.not_eq_true', beq_eq_false_iff_ne]
    omega
  · rw [if_neg (by simpa using hc), beq_false_of_ne hc]
    rfl

/-- Text behind which nothing is escaped changes nothing further on. -/
theorem isEscaped_append {a : List Char} (h : isEscaped a = false) (b : List Char) :
    isEscaped (a ++ b) = isEscaped b := by
  induction b using List.reverseRecOn with
  | nil => rw [List.append_nil, h]; rfl
  | append_singleton b c ih => rw [← List.append_assoc, isEscaped_concat, ih, isEscaped_concat]

theorem isEscaped_singleton {c : Char} (h : c ≠ '\\') : isEscaped [c] = false := by
  rw [show [c] = [] ++ [c] from rfl, isEscaped_concat, beq_false_of_ne h, Bool.false_and]

theorem isEscaped_pair (c : Char) : isEscaped ['\\', c] = false := by
  rw [show ['\\', c] = ['\\'] ++ [c] from rfl, isEscaped_concat]
  exact Bool.and_false _

namespace StringBody
variable {q : Char} {body : List Char}

/-- The mark of a string stands in it only where it is escaped. -/
theorem isEscaped_of_append (h : StringBody q body) (hq : q ≠ '\\') {a b : List Char}
    (hbody : body = a ++ q :: b) : isEscaped a = true := by
  induction h generalizing a with
  | nil => simp at hbody
  | @char c cs hmark hescape _ _ ih =>
    cases a with
    | nil => exact absurd (List.cons.inj hbody).1 hmark
    | cons d a =>
      obtain ⟨rfl, hrest⟩ := List.cons.inj hbody
      rw [← ih hrest]
      exact isEscaped_append (isEscaped_singleton hescape) a
  | @escape c cs _ ih =>
    rcases a with - | ⟨d, - | ⟨e, a⟩⟩
    · exact absurd (List.cons.inj hbody).1.symm hq
    · obtain ⟨rfl, -⟩ := List.cons.inj hbody
      decide
    · obtain ⟨rfl, htail⟩ := List.cons.inj hbody
      rw [← ih (List.cons.inj htail).2]
      exact isEscaped_append (isEscaped_pair e) a

/-- Behind the last character of a string nothing is escaped. -/
theorem isEscaped_eq_false (h : StringBody q body) : isEscaped body = false := by
  induction h with
  | nil => rfl
  | @char c cs _ hescape _ _ ih =>
    rw [← ih]
    exact isEscaped_append (isEscaped_singleton hescape) cs
  | @escape c cs _ ih =>
    rw [← ih]
    exact isEscaped_append (isEscaped_pair c) cs

end StringBody

end Revue.Source

namespace Revue.Syntax
open Text

/-! ### Values read back -/

/-- No character is half of a surrogate pair. -/
theorem textOfCodes_map_toNat (cs : List Char) : textOfCodes (cs.map Char.toNat) = cs := by
  induction cs with
  | nil => rfl
  | cons c cs ih =>
    have hvalid : c.toNat < 0xD800 ∨ 0xDFFF < c.toNat := by
      rcases c.valid with h | h
      · exact Or.inl h
      · exact Or.inr h.1
    have hhigh : isHighSurrogate c.toNat = false := by
      simp only [isHighSurrogate, Bool.and_eq_false_iff, decide_eq_false_iff_not]
      omega
    have hlow : isLowSurrogate c.toNat = false := by
      simp only [isLowSurrogate, Bool.and_eq_false_iff, decide_eq_false_iff_not]
      omega
    rw [List.map_cons, textOfCodes.eq_def]
    simp only [hhigh, hlow, ih, Char.ofNat_toNat]
    rfl

section
variable (codes : List Nat) (pos : Nat) (rest : List Char)

theorem scanString_pair {c : Char} {code : Nat}
    (hescape : readEscape (c :: rest) = some { codes := [code], width := 1 }) :
    scanString '\x27' codes .none 0 pos ('\\' :: c :: rest) =
      scanString '\x27' (code :: codes) .none 0 (pos + 1 + c.utf8Size) rest := by
  rw [scanString, if_neg (by decide), if_neg (by decide), if_neg (by decide), if_neg (by decide),
    hescape]
  rfl

/-- A plain character is read as itself. -/
theorem scanString_char {c : Char} (hquote : c ≠ '\x27') (hslash : c ≠ '\\') (hfeed : c ≠ '\n')
    (hreturn : c ≠ '\r') :
    scanString '\x27' codes .none 0 pos (c :: rest) =
      scanString '\x27' (c.toNat :: codes) .none 0 (pos + c.utf8Size) rest := by
  rw [scanString, if_neg (by decide), if_neg hquote, if_neg (by simp [hfeed, hreturn]),
    if_pos hslash]

end

end Revue.Syntax

namespace Revue.Vue
open Text Source Syntax

/-! ### Strings -/

def replaceChar (c : Char) (by_ : List Char) (cs : List Char) : List Char :=
  cs.flatMap fun d => if d = c then by_ else [d]

/-- Escaping replaces four characters, one after the other; none of the later replacements touches
what an earlier one has put in. -/
theorem flatMap_escapeChar (cs : List Char) :
    cs.flatMap escapeChar = replaceChar '\r' ['\\', 'r'] (replaceChar '\n' ['\\', 'n']
      (replaceChar '\x27' ['\\', '\x27'] (replaceChar '\\' ['\\', '\\'] cs))) := by
  simp only [replaceChar, List.flatMap_assoc]
  congr 1
  funext c
  unfold escapeChar
  split
  · rfl
  · rfl
  · rfl
  · rfl
  · rename_i hslash hquote hfeed hreturn
    simp_all

/-- One character of a string is read back from the way it is written. -/
theorem scanString_escapeChar (c : Char) (codes : List Nat) (pos : Nat) (rest : List Char) :
    scanString '\x27' codes .none 0 pos (escapeChar c ++ rest) =
      scanString '\x27' (c.toNat :: codes) .none 0 (pos + byteLength (escapeChar c)) rest := by
  unfold escapeChar
  split
  · exact scanString_pair codes pos rest rfl
  · exact scanString_pair codes pos rest rfl
  · exact scanString_pair codes pos rest rfl
  · exact scanString_pair codes pos rest rfl
  · rename_i hslash hquote hfeed hreturn
    exact scanString_char codes pos rest hquote hslash hfeed hreturn

/-- A string is read back up to its closing quote. -/
theorem scanString_escape (cs : List Char) (codes : List Nat) (pos : Nat) (rest : List Char) :
    scanString '\x27' codes .none 0 pos (cs.flatMap escapeChar ++ '\x27' :: rest) =
      some ⟨codes.reverse ++ cs.map Char.toNat, .none,
        pos + byteLength (cs.flatMap escapeChar) + 1, rest⟩ := by
  induction cs generalizing codes pos with
  | nil =>
    rw [List.flatMap_nil, List.nil_append, scanString, if_neg (by decide), if_pos rfl]
    simp [byteLength]
  | cons c cs ih =>
    rw [List.flatMap_cons, List.append_assoc, scanString_escapeChar, ih, byteLength_append]
    simp [Nat.add_assoc]

/-- A quoted string is one token, and its value is the string. -/
theorem scanToken_quoted (v : String) (pos : Nat) (rest : List Char) :
    scanToken .script pos (quoted v ++ rest) =
      ⟨.string v, pos + byteLength (quoted v), rest, .none⟩ := by
  have hread := scanString_escape v.toList [] (pos + 1) rest
  have hsize : byteLength (quoted v) = 1 + byteLength (v.toList.flatMap escapeChar) + 1 := by
    rw [quoted, byteLength_append]
    rfl
  have htext : quoted v ++ rest = '\x27' :: (v.toList.flatMap escapeChar ++ '\x27' :: rest) := by
    simp [quoted]
  have hscan : scanToken? .script pos (quoted v ++ rest) =
      scanQuoted .script '\x27' pos (v.toList.flatMap escapeChar ++ '\x27' :: rest) := by
    rw [htext]
    rfl
  rw [scanToken, hscan, scanQuoted, hread, Option.map_some, Option.getD_some, List.reverse_nil,
    List.nil_append, textOfCodes_map_toNat, String.ofList_toList, hsize]
  simp only [Nat.add_assoc]

/-- The scanner reads a quoted string as a literal and is then where it was. -/
theorem reads_quoted (v : String) {s : Scan} (hs : s.mode = .code) (next : Option Char) :
    s.Reads next (inRegion .literal (quoted v)) s := by
  obtain ⟨mode, depth, substitutions⟩ := s
  obtain rfl : mode = .code := hs
  have hstring := Scan.reads_string (q := '\x27') (Or.inl rfl) (stringBody_escape v.toList) next
    depth substitutions
  rw [quoted, List.cons_append, inRegion_cons]
  exact .cons (t := ⟨.quote '\x27', depth, substitutions⟩) rfl (.inl (by decide)) hstring

theorem regions_inRegion (r : Region) (cs : List Char) :
    (inRegion r cs).regions = List.replicate cs.length r := by
  rw [Marked.regions, inRegion, List.map_map]
  exact List.map_const'

theorem classify_quoted (v : String) (rest : List Char) :
    classify (quoted v ++ rest) = List.replicate (quoted v).length .literal ++ classify rest := by
  have hregions := (reads_quoted v (s := {}) rfl rest.head?).regions_append rest rfl
  rwa [chars_inRegion, regions_inRegion] at hregions

theorem classifyBytes_quoted (v : String) (rest : List Char) :
    classifyBytes (quoted v ++ rest) =
      List.replicate (byteLength (quoted v)) .literal ++ classifyBytes rest := by
  have hbytes : ∀ cs, classifyBytes cs = bytewise cs (classify cs) := fun _ => rfl
  rw [hbytes, hbytes, classify_quoted, bytewise_append List.length_replicate.symm,
    bytewise_replicate]

/-! ### Keys -/

/-- The name that a key is read as: a word, or the value of a string. -/
def keyOf? : Lexeme → Option String
  | .word name _ => some name
  | .string v => some v
  | _ => none

theorem isAsciiWord_of_isAsciiWordStart {c : Char} (h : isAsciiWordStart c = true) :
    isAsciiWord c = true := by
  simp only [isAsciiWordStart, isAsciiWord, Char.isAlphanum, Bool.or_eq_true] at h ⊢
  rcases h with (halpha | hbar) | hdollar
  · exact Or.inl (Or.inl (Or.inl halpha))
  · exact Or.inl (Or.inr hbar)
  · exact Or.inr hdollar

/-- A plain name is a name without escapes. -/
theorem isNameText_of_isBareKey {name : String} (h : isBareKey name = true) :
    isNameText name.toList = true := by
  have hpart : ∀ {c : Char}, isAsciiWord c = true → isNamePart c = true := fun {c} hc => by
    rw [isNamePart, if_pos (toNat_lt_of_isAsciiWord hc)]
    exact hc
  unfold isBareKey at h
  unfold isNameText
  cases hname : name.toList with
  | nil =>
    rw [hname] at h
    cases h
  | cons c cs =>
    rw [hname] at h
    obtain ⟨hstart, hrest⟩ := Bool.and_eq_true_iff.1 h
    have hword := isAsciiWord_of_isAsciiWordStart hstart
    have hfirst : isNameStart c = true := by
      rw [isNameStart, if_pos (toNat_lt_of_isAsciiWord hword)]
      exact hstart
    have hall : (c :: cs).all isNamePart = true := by
      rw [List.all_cons, hpart hword, Bool.true_and, List.all_eq_true]
      exact fun d hd => hpart (List.all_eq_true.1 hrest d hd)
    rw [hall, List.head?_cons, Option.any_some, hfirst]
    rfl

theorem scanToken_objectKey (name : String) {rest : List Char} (hrest : endsName rest = true)
    (pos : Nat) :
    ∃ lexeme, scanToken .script pos (objectKey name ++ rest) =
        ⟨lexeme, pos + byteLength (objectKey name), rest, .none⟩ ∧ keyOf? lexeme = some name := by
  unfold objectKey
  split
  · rename_i hbare
    have hname := isNameText_of_isBareKey hbare
    obtain ⟨keyword, hword⟩ := exists_wordOf hname
    exact ⟨_, scanToken_of_isNameText hname hrest pos, by rw [hword]; rfl⟩
  · exact ⟨.string name, scanToken_quoted name pos rest, rfl⟩

theorem objectKey_injective : Function.Injective objectKey := by
  intro a b hab
  have hend : endsName [] = true := rfl
  obtain ⟨lexeme, hread, hkey⟩ := scanToken_objectKey a hend 0
  obtain ⟨lexeme', hread', hkey'⟩ := scanToken_objectKey b hend 0
  rw [hab, hread'] at hread
  obtain rfl : lexeme' = lexeme := congrArg Scanned.lexeme hread
  exact Option.some.inj (hkey.symm.trans hkey')

/-- A quoted string is escaped by four replacements. Between its quotes stands no line break and no
quote that is not escaped, and the closing quote is not. It is one token, whose value is the string;
all its bytes are a literal, and the scanner is back in the state in which it was in code. A key is
read as the name that it stands for, so that keys of distinct names are distinct. -/
theorem quoted_selfContained (v : String) :
    (∃ body, quoted v = '\x27' :: body ++ ['\x27'] ∧
      body = replaceChar '\r' ['\\', 'r'] (replaceChar '\n' ['\\', 'n']
        (replaceChar '\x27' ['\\', '\x27'] (replaceChar '\\' ['\\', '\\'] v.toList))) ∧
      '\n' ∉ body ∧ '\r' ∉ body ∧ (∀ a b, body = a ++ '\x27' :: b → isEscaped a = true) ∧
      isEscaped body = false) ∧
    (∀ pos rest, scanToken .script pos (quoted v ++ rest) =
      ⟨.string v, pos + byteLength (quoted v), rest, .none⟩) ∧
    (∀ rest, classifyBytes (quoted v ++ rest) =
      List.replicate (byteLength (quoted v)) .literal ++ classifyBytes rest) ∧
    (∀ (s : Scan) next, s.mode = .code → s.Reads next (inRegion .literal (quoted v)) s) ∧
    (∀ pos rest, endsName rest = true → ∃ lexeme,
      scanToken .script pos (objectKey v ++ rest) =
        ⟨lexeme, pos + byteLength (objectKey v), rest, .none⟩ ∧ keyOf? lexeme = some v) ∧
    ∀ w, objectKey w = objectKey v → w = v := by
  have hbody := stringBody_escape v.toList
  refine ⟨⟨v.toList.flatMap escapeChar, rfl, flatMap_escapeChar _,
    lineBreak_notMem_escape (Or.inl rfl) _, lineBreak_notMem_escape (Or.inr rfl) _,
    fun a b hab => hbody.isEscaped_of_append (by decide) hab, hbody.isEscaped_eq_false⟩,
    scanToken_quoted v, classifyBytes_quoted v, fun s next hs => reads_quoted v hs next,
    fun pos rest hrest => scanToken_objectKey v hrest pos, fun w hw => objectKey_injective hw⟩

/-- A backslash before a quote, in a substitution, and a name with a hyphen. -/
theorem quoted_selfContained_sample :
    quoted "a\\\x27\n" = "\x27a\\\\\\\x27\\n\x27".toList ∧
      Scan.Reads (some '\x7d') ⟨.code, 2, [2]⟩ (inRegion .literal (quoted "a\\\x27\n"))
        ⟨.code, 2, [2]⟩ ∧
      endsName ": 1".toList = true ∧
      ∃ lexeme, scanToken .script 4 (objectKey "data-id" ++ ": 1".toList) =
        ⟨lexeme, 13, ": 1".toList, .none⟩ ∧ keyOf? lexeme = some "data-id" := by
  obtain ⟨-, -, -, hreads, -⟩ := quoted_selfContained "a\\\x27\n"
  obtain ⟨-, -, -, -, hkey, -⟩ := quoted_selfContained "data-id"
  have hend : endsName ": 1".toList = true := by decide
  have hsize : byteLength (objectKey "data-id") = 9 := by decide
  obtain ⟨lexeme, hread, hname⟩ := hkey 4 ": 1".toList hend
  rw [hsize] at hread
  exact ⟨by decide, hreads _ _ rfl, hend, lexeme, hread, hname⟩

end Revue.Vue
