import Revue.Proofs.LexicalGrammar
import Revue.Syntax.Scan

/-!
# The texts of names and literals

What the lexer takes from a text as a name, a number, a string or a piece of a template. Names and
numbers are code in the sense of the lexical grammar, braces inside of an escape included. Strings
and pieces of templates are made of characters and escapes as the scanner sees them, although the
lexer reads an escape in full and the scanner only its first character.
-/

namespace Revue.Syntax
open Text Source

variable {pos skip : Nat} {c : Char} {fault : Fault} {d : Digits} {e : Escape} {n n' : Numeral}
  {cs escape first rest text : List Char} {p : Char → Bool}

def scannerMarks : List Char := ['\x27', '\x22', '\x60', '\x7b', '\x7d', '/']

def isInert (c : Char) : Bool := !scannerMarks.contains c

theorem isInert_iff : isInert c = true ↔ isPlain c ∧ c ≠ '/' := by
  simp [isInert, scannerMarks, isPlain, isQuoteMark, and_assoc]

/-- Characters of a class are inert if no mark of the scanner is in the class. -/
theorem isInert_of_class (hc : p c = true) (hmarks : scannerMarks.all fun d => !p d) :
    isInert c = true := by
  by_cases hmem : c ∈ scannerMarks
  · have hnot := List.all_eq_true.1 hmarks c hmem
    simp [hc] at hnot
  · simpa [isInert] using hmem

structure CodeText (text : List Char) : Prop where
  derives : Derives .code (inRegion .code text)
  slash : '/' ∉ text

namespace CodeText

theorem nil : CodeText [] := ⟨.codeEnd, by simp⟩

theorem cons (hc : isInert c = true) (h : CodeText text) : CodeText (c :: text) := by
  obtain ⟨hplain, hslash⟩ := isInert_iff.1 hc
  refine ⟨.plain hplain (fun heq => absurd heq hslash) h.derives, ?_⟩
  intro hmem
  rcases List.mem_cons.1 hmem with heq | hmem
  · exact hslash heq.symm
  · exact h.slash hmem

theorem append (hfirst : ∀ c ∈ first, isInert c = true) (h : CodeText text) :
    CodeText (first ++ text) := by
  induction first with
  | nil => exact h
  | cons c first ih =>
    exact (ih fun d hd => hfirst d (List.mem_cons_of_mem c hd)).cons (hfirst c List.mem_cons_self)

theorem of_inert (h : ∀ c ∈ text, isInert c = true) : CodeText text := by
  simpa using append h nil

theorem braced {inner : List Char} (hinner : ∀ c ∈ inner, isInert c = true) (h : CodeText text) :
    CodeText ('\x7b' :: inner ++ '\x7d' :: text) := by
  have hbraces := Derives.braces (of_inert hinner).derives h.derives
  refine ⟨by simpa using hbraces, ?_⟩
  simp [(of_inert hinner).slash, h.slash]

end CodeText

section Names

theorem isInert_of_isNamePart (h : isNamePart c = true) : isInert c = true :=
  isInert_of_class h (by decide)

def isEscapeDigit (c : Char) : Bool := c == '_' || isHexDigit c

theorem isInert_of_isEscapeDigit (h : isEscapeDigit c = true) : isInert c = true :=
  isInert_of_class h (by decide)

/-- Digits are a beginning of the text, and the separators among them count. -/
theorem readDigits_eq (isDigit : Char → Bool) (left : Nat) (cs : List Char) :
    ∃ text, cs = text ++ (readDigits isDigit left cs).rest ∧
      text.length = (readDigits isDigit left cs).width ∧
      ∀ c ∈ text, c = '_' ∨ isDigit c = true := by
  induction cs generalizing left with
  | nil => exact ⟨[], rfl, rfl, by simp⟩
  | cons c cs ih =>
    unfold readDigits
    split
    · exact ⟨[], rfl, rfl, by simp⟩
    · split
      · rename_i hc
        obtain ⟨text, htext, hlength, hdigits⟩ := ih left
        refine ⟨c :: text, ?_, ?_, ?_⟩
        · exact congrArg (c :: ·) htext
        · exact congrArg (· + 1) hlength
        · exact List.forall_mem_cons.2 ⟨Or.inl hc, hdigits⟩
      · split
        · rename_i hc
          obtain ⟨text, htext, hlength, hdigits⟩ := ih (left - 1)
          refine ⟨c :: text, ?_, ?_, ?_⟩
          · exact congrArg (c :: ·) htext
          · exact congrArg (· + 1) hlength
          · exact List.forall_mem_cons.2 ⟨Or.inr hc, hdigits⟩
        · exact ⟨[], rfl, rfl, by simp⟩

theorem readHex_eq {count n : Nat} (h : readHex count cs = some (n, d)) :
    ∃ text, cs = text ++ d.rest ∧ text.length = d.width ∧ ∀ c ∈ text, isEscapeDigit c = true := by
  unfold readHex at h
  dsimp only at h
  split at h
  · obtain ⟨value, -, heq⟩ := Option.map_eq_some_iff.1 h
    obtain ⟨-, rfl⟩ := Prod.mk.inj heq
    obtain ⟨text, htext, hlength, hdigits⟩ := readDigits_eq isHexDigit count cs
    refine ⟨text, htext, hlength, ?_⟩
    intro c hc
    simpa [isEscapeDigit] using hdigits c hc
  · cases h

/-- The text of an escape by code point: digits, or digits in braces, among which the second half of
a surrogate pair may be spelled as an escape of its own. -/
inductive UnicodeText : List Char → Prop
  | plain {ds : List Char} (hds : ∀ c ∈ ds, isEscapeDigit c = true) : UnicodeText ('u' :: ds)
  | braced {ds : List Char} (hds : ∀ c ∈ ds, isEscapeDigit c = true) :
      UnicodeText ('u' :: '\x7b' :: ds ++ ['\x7d'])
  | pair {ds es : List Char} (hds : ∀ c ∈ ds, isEscapeDigit c = true)
      (hes : ∀ c ∈ es, isEscapeDigit c = true) :
      UnicodeText ('u' :: '\x7b' :: (ds ++ '\\' :: 'u' :: es) ++ ['\x7d'])

theorem take_of_append {α : Type} {xs text rest : List α} {n : Nat} (h : xs = text ++ rest)
    (hlength : text.length = n) : xs.take n = text := by
  rw [h, ← hlength, List.take_left]

theorem readLowSurrogate_eq {n : Nat} (h : readLowSurrogate cs = some (n, d)) :
    ∃ text, cs = '\\' :: 'u' :: text ++ d.rest ∧ text.length = d.width ∧
      ∀ c ∈ text, isEscapeDigit c = true := by
  unfold readLowSurrogate at h
  split at h
  · obtain ⟨hread, -⟩ := Option.filter_eq_some_iff.1 h
    obtain ⟨text, rfl, hlength, hdigits⟩ := readHex_eq hread
    exact ⟨text, rfl, hlength, hdigits⟩
  · cases h

theorem readBraced_text (h : readBraced cs = some e) :
    UnicodeText (('u' :: '\x7b' :: cs).take e.width) := by
  obtain ⟨text, htext, hlength, hdigits⟩ := readDigits_eq isHexDigit cs.length cs
  have hds : ∀ c ∈ text, isEscapeDigit c = true := by
    intro c hc
    simpa [isEscapeDigit] using hdigits c hc
  unfold readBraced at h
  dsimp only at h
  generalize readDigits isHexDigit cs.length cs = d at h htext hlength
  split at h
  · cases h
  · rename_i n _
    -- Whether the second half of a pair follows decides how far the digits go.
    cases hsecond : (if isHighSurrogate n then readLowSurrogate d.rest else none) with
    | none =>
      rw [hsecond] at h
      dsimp only at h
      split at h
      · cases h
      · rename_i hclosed
        obtain rfl := Option.some.inj h
        have hbrace : d.rest.head? = some '\x7d' := by
          simp only [Bool.or_eq_true, not_or, bne_iff_ne, ne_eq, Decidable.not_not] at hclosed
          exact hclosed.2
        obtain ⟨rest, hrest⟩ := List.head?_eq_some_iff.1 hbrace
        have htake : ('u' :: '\x7b' :: cs).take (d.width + 3) =
            'u' :: '\x7b' :: text ++ ['\x7d'] := by
          refine take_of_append (?_ : _ = _ ++ rest) ?_
          · simp [htext, hrest]
          · simp [hlength]
        rw [htake]
        exact .braced hds
    | some pair =>
      obtain ⟨lo, d'⟩ := pair
      have hlow : readLowSurrogate d.rest = some (lo, d') := by
        split at hsecond
        · exact hsecond
        · cases hsecond
      obtain ⟨second, htext', hlength', hes⟩ := readLowSurrogate_eq hlow
      rw [hsecond] at h
      dsimp only at h
      split at h
      · cases h
      · rename_i hclosed
        obtain rfl := Option.some.inj h
        have hbrace : d'.rest.head? = some '\x7d' := by
          simp only [Bool.or_eq_true, not_or, bne_iff_ne, ne_eq, Decidable.not_not] at hclosed
          exact hclosed.2
        obtain ⟨rest, hrest⟩ := List.head?_eq_some_iff.1 hbrace
        have htake : ('u' :: '\x7b' :: cs).take (d.width + 2 + d'.width + 3) =
            'u' :: '\x7b' :: (text ++ '\\' :: 'u' :: second) ++ ['\x7d'] := by
          refine take_of_append (?_ : _ = _ ++ rest) ?_
          · simp [htext, htext', hrest]
          · simp [hlength, hlength']
            omega
        rw [htake]
        exact .pair hds hes

theorem readUnicode_text (h : readUnicode cs = some e) : UnicodeText (cs.take e.width) := by
  unfold readUnicode at h
  split at h
  · exact readBraced_text h
  · obtain ⟨⟨n, d⟩, hread, rfl⟩ := Option.map_eq_some_iff.1 h
    obtain ⟨text, rfl, hlength, hdigits⟩ := readHex_eq hread
    have htake : ('u' :: (text ++ d.rest)).take (d.width + 1) = 'u' :: text :=
      take_of_append rfl (by simp [hlength])
    rw [htake]
    exact .plain hdigits
  · cases h

theorem CodeText.unicode (hescape : UnicodeText escape) (h : CodeText text) :
    CodeText ('\\' :: (escape ++ text)) := by
  have hinert : ∀ {ds : List Char}, (∀ c ∈ ds, isEscapeDigit c = true) →
      ∀ c ∈ ds, isInert c = true := fun hds c hc => isInert_of_isEscapeDigit (hds c hc)
  cases hescape with
  | plain hds => exact ((append (hinert hds) h).cons (by decide)).cons (by decide)
  | @braced ds hds =>
    have hbraces := (((braced (hinert hds) h).cons (c := 'u') (by decide)).cons (c := '\\')
      (by decide))
    simpa using hbraces
  | @pair ds es hds hes =>
    have hinner : ∀ c ∈ ds ++ '\\' :: 'u' :: es, isInert c = true := by
      rw [List.forall_mem_append]
      refine ⟨hinert hds, ?_⟩
      exact List.forall_mem_cons.2 ⟨by decide, List.forall_mem_cons.2 ⟨by decide, hinert hes⟩⟩
    have hbraces := (((braced hinner h).cons (c := 'u') (by decide)).cons (c := '\\')
      (by decide))
    simpa using hbraces

/-- A name is code. The characters of an escape that was read ahead are passed over. -/
theorem scanName_text {hyphens : Bool} {read : List Char} {n : NameScan}
    (h : scanName hyphens read fault skip pos cs = some n) :
    ∃ text, cs.drop skip = text ++ n.rest ∧ CodeText text := by
  induction cs generalizing read fault skip pos with
  | nil =>
    obtain rfl := Option.some.inj h
    exact ⟨[], by simp, .nil⟩
  | cons c cs ih =>
    unfold scanName at h
    split at h
    · rename_i hskip
      obtain ⟨ahead, rfl⟩ := Nat.exists_eq_succ_of_ne_zero (Nat.ne_of_gt hskip)
      exact ih h
    · rename_i hskip
      obtain rfl : skip = 0 := by omega
      split at h
      · rename_i hpart
        obtain ⟨text, htext, hcode⟩ := ih h
        have hinert : isInert c = true := by
          rcases Bool.or_eq_true_iff.1 hpart with hname | hhyphen
          · exact isInert_of_isNamePart hname
          · obtain ⟨-, rfl⟩ : hyphens = true ∧ c = '-' := by simpa using hhyphen
            decide
        exact ⟨c :: text, congrArg (c :: ·) htext, hcode.cons hinert⟩
      · split at h
        · rename_i hescape
          subst hescape
          split at h
          · cases h
          · rename_i e hread
            obtain ⟨text, htext, hcode⟩ := ih h
            refine ⟨'\\' :: (cs.take e.width ++ text), ?_, hcode.unicode (readUnicode_text hread)⟩
            simp [← htext]
        · obtain rfl := Option.some.inj h
          exact ⟨[], rfl, .nil⟩

end Names

section Literals
variable {q : Char}

theorem stringBody_append (hfirst : ∀ c ∈ first, c ≠ q ∧ c ≠ '\\' ∧ c ≠ '\n')
    (h : StringBody q rest) : StringBody q (first ++ rest) := by
  induction first with
  | nil => exact h
  | cons c first ih =>
    obtain ⟨hmark, hescape, hfeed⟩ := hfirst c List.mem_cons_self
    exact .char hmark hescape hfeed (ih fun d hd => hfirst d (List.mem_cons_of_mem c hd))

/-- Characters of a class may stand in a string if no mark, backslash or line feed is in the
class. -/
theorem stringChar_of_class (hq : isQuoteMark q) (hc : p c = true)
    (hmarks : ['\x27', '\x22', '\\', '\n'].all fun d => !p d) : c ≠ q ∧ c ≠ '\\' ∧ c ≠ '\n' := by
  have hnot : ∀ d ∈ ['\x27', '\x22', '\\', '\n'], c ≠ d := by
    rintro d hd rfl
    have := List.all_eq_true.1 hmarks c hd
    simp [hc] at this
  refine ⟨?_, hnot _ (by simp), hnot _ (by simp)⟩
  rcases hq with rfl | rfl
  · exact hnot _ (by simp)
  · exact hnot _ (by simp)

theorem stringBody_unicode (hq : isQuoteMark q) (hescape : UnicodeText escape)
    (h : StringBody q rest) :
    StringBody q ('\\' :: (escape ++ rest)) := by
  have hdigits : ∀ {ds : List Char}, (∀ c ∈ ds, isEscapeDigit c = true) →
      ∀ c ∈ ds, c ≠ q ∧ c ≠ '\\' ∧ c ≠ '\n' :=
    fun hds c hc => stringChar_of_class hq (hds c hc) (by decide)
  have hbrace : ∀ {c : Char} {rest : List Char}, (c == '\x7b' || c == '\x7d') = true →
      StringBody q rest → StringBody q (c :: rest) := by
    intro c rest hc hrest
    obtain ⟨hmark, hbackslash, hfeed⟩ :=
      stringChar_of_class hq (p := fun c => c == '\x7b' || c == '\x7d') hc (by decide)
    exact .char hmark hbackslash hfeed hrest
  cases hescape with
  | plain hds => exact .escape 'u' (stringBody_append (hdigits hds) h)
  | braced hds =>
    have hclosed := hbrace (c := '\x7d') (by decide) h
    have hopened := hbrace (c := '\x7b') (by decide) (stringBody_append (hdigits hds) hclosed)
    simpa using StringBody.escape 'u' hopened
  | pair hds hes =>
    have hclosed := hbrace (c := '\x7d') (by decide) h
    have hsecond := StringBody.escape 'u' (stringBody_append (hdigits hes) hclosed)
    have hopened := hbrace (c := '\x7b') (by decide) (stringBody_append (hdigits hds) hsecond)
    simpa using StringBody.escape 'u' hopened

theorem readOctal_take (cs : List Char) (hc : isOctalDigit c = true) :
    ∃ ds, (c :: cs).take (readOctal (c :: cs)).width = c :: ds ∧
      ∀ d ∈ ds, isOctalDigit d = true := by
  let digits := ((c :: cs).take 3).takeWhile isOctalDigit
  have hcons : digits = c :: (cs.take 2).takeWhile isOctalDigit := by simp [digits, hc]
  have hprefix : ∀ n, (c :: cs).take (digits.take n).length = digits.take n := by
    intro n
    have hdigits : digits.take n <+: c :: cs :=
      (List.take_prefix n digits).trans ((List.takeWhile_prefix _).trans (List.take_prefix 3 _))
    exact (List.prefix_iff_eq_take.1 hdigits).symm
  obtain ⟨n, hn, hwidth⟩ : ∃ n, 0 < n ∧ (readOctal (c :: cs)).width = (digits.take n).length := by
    unfold readOctal
    dsimp only
    split
    · have hall : digits.take (digits.length + 1) = digits := List.take_of_length_le (by omega)
      exact ⟨digits.length + 1, by omega, by rw [hall]⟩
    · exact ⟨2, by omega, rfl⟩
  refine ⟨((cs.take 2).takeWhile isOctalDigit).take (n - 1), ?_, ?_⟩
  · rw [hwidth, hprefix, hcons]
    obtain ⟨k, rfl⟩ := Nat.exists_eq_succ_of_ne_zero (Nat.ne_of_gt hn)
    rfl
  · intro d hd
    exact List.all_eq_true.1 List.all_takeWhile d (List.mem_of_mem_take hd)

/-- What is read in full as an escape is one character for the scanner, and plain ones behind it. -/
theorem stringBody_escape (hq : isQuoteMark q) (hread : readEscape cs = some e)
    (hreturn : '\r' ∉ cs) (h : StringBody q rest) :
    StringBody q ('\\' :: (cs.take e.width ++ rest)) := by
  have hoctal : ∀ {c : Char} {cs : List Char}, isOctalDigit c = true →
      StringBody q ('\\' :: ((c :: cs).take (readOctal (c :: cs)).width ++ rest)) := by
    intro c cs hc
    obtain ⟨ds, htake, hds⟩ := readOctal_take cs hc
    rw [htake]
    exact .escape c
      (stringBody_append (fun d hd => stringChar_of_class hq (hds d hd) (by decide)) h)
  unfold readEscape at hread
  split at hread
  · cases hread
  · simp at hreturn
  · obtain ⟨⟨n, d⟩, hhex, rfl⟩ := Option.map_eq_some_iff.1 hread
    obtain ⟨text, rfl, hlength, hdigits⟩ := readHex_eq hhex
    have htake : ('x' :: (text ++ d.rest)).take (d.width + 1) = 'x' :: text :=
      take_of_append rfl (by simp [hlength])
    rw [htake]
    exact .escape 'x'
      (stringBody_append (fun c hc => stringChar_of_class hq (hdigits c hc) (by decide)) h)
  · exact stringBody_unicode hq (readUnicode_text hread) h
  · split at hread
    · obtain rfl := Option.some.inj hread
      exact hoctal (by decide)
    · obtain rfl := Option.some.inj hread
      exact .escape '0' h
  · split at hread
    · obtain rfl := Option.some.inj hread
      exact .escape _ h
    · split at hread
      · rename_i hc
        obtain rfl := Option.some.inj hread
        exact hoctal hc
      · obtain rfl := Option.some.inj hread
        exact .escape _ h

/-- A string is read to its closing mark, or to the end of the line or the text that cuts it off. -/
theorem scanString_text (hq : isQuoteMark q) {codes : List Nat} {r : StringScan}
    (hreturn : '\r' ∉ cs) (h : scanString q codes fault skip pos cs = some r) :
    ∃ body, StringBody q body ∧ (cs.drop skip = body ++ q :: r.rest ∨
      cs.drop skip = body ++ r.rest ∧ (r.rest = [] ∨ r.rest.head? = some '\n')) := by
  induction cs generalizing codes fault skip pos with
  | nil =>
    obtain rfl := Option.some.inj h
    exact ⟨[], .nil, Or.inr ⟨by simp, Or.inl rfl⟩⟩
  | cons c cs ih =>
    have hreturn' : '\r' ∉ cs := fun hmem => hreturn (List.mem_cons_of_mem c hmem)
    unfold scanString at h
    split at h
    · rename_i hskip
      obtain ⟨ahead, rfl⟩ := Nat.exists_eq_succ_of_ne_zero (Nat.ne_of_gt hskip)
      exact ih hreturn' h
    · rename_i hskip
      obtain rfl : skip = 0 := by omega
      split at h
      · rename_i hc
        obtain rfl := Option.some.inj h
        exact ⟨[], .nil, Or.inl (by simp [hc])⟩
      · rename_i hmark
        split at h
        · rename_i hbreak
          obtain rfl := Option.some.inj h
          have hc : c = '\n' := by
            rcases hbreak with hc | hc
            · exact hc
            · exact absurd (hc ▸ List.mem_cons_self) hreturn
          exact ⟨[], .nil, Or.inr ⟨rfl, Or.inr (by simp [hc])⟩⟩
        · rename_i hbreak
          split at h
          · rename_i hescape
            obtain ⟨body, hbody, htext⟩ := ih hreturn' h
            refine ⟨c :: body, .char hmark hescape (fun hc => hbreak (Or.inl hc)) hbody, ?_⟩
            rcases htext with htext | ⟨htext, hend⟩
            · exact Or.inl (congrArg (c :: ·) htext)
            · exact Or.inr ⟨congrArg (c :: ·) htext, hend⟩
          · rename_i hescape
            obtain rfl : c = '\\' := by simpa using hescape
            split at h
            · cases h
            · rename_i e hread
              obtain ⟨body, hbody, htext⟩ := ih hreturn' h
              refine ⟨'\\' :: (cs.take e.width ++ body),
                stringBody_escape hq hread hreturn' hbody, ?_⟩
              have hsplit : '\\' :: cs = '\\' :: cs.take e.width ++ cs.drop e.width := by simp
              rcases htext with htext | ⟨htext, hend⟩
              · left
                rw [List.drop_zero, hsplit, htext]
                simp
              · right
                rw [List.drop_zero, hsplit, htext]
                exact ⟨by simp, hend⟩

def pieceEnd (more : Bool) : List Char := if more then ['$', '\x7b'] else ['\x60']

theorem scanTemplate_text {valid : Bool} {t : TemplateScan}
    (h : scanTemplate valid fault pos cs = some t) :
    ∃ body, Derives .template (inRegion .literal body) ∧
      cs = body ++ pieceEnd t.more ++ t.rest := by
  fun_induction scanTemplate valid fault pos cs with
  | case1 => cases h
  | case2 =>
    obtain rfl := Option.some.inj h
    exact ⟨[], .templateEnd, rfl⟩
  | case3 => cases h
  | case4 _ _ _ e _ _ _ _ _ ih =>
    obtain ⟨body, hbody, rfl⟩ := ih h
    exact ⟨'\\' :: e :: body, .escape e hbody, rfl⟩
  | case5 =>
    obtain rfl := Option.some.inj h
    exact ⟨[], .templateEnd, rfl⟩
  | case6 _ _ _ _ hopen _ _ ih =>
    obtain ⟨body, hbody, rfl⟩ := ih h
    refine ⟨'$' :: body, .char (by decide) (by decide) (fun _ hhead => ?_) hbody, rfl⟩
    cases body with
    | nil => simp at hhead
    | cons c body =>
      obtain rfl : c = '\x7b' := by simpa using hhead
      exact hopen _ rfl
  | case7 _ _ _ c _ hmark hescape hdollar ih =>
    obtain ⟨body, hbody, rfl⟩ := ih h
    exact ⟨c :: body, .char hmark hescape (fun hc => absurd hc hdollar) hbody, rfl⟩

end Literals

def InertUpTo (cs rest : List Char) : Prop :=
  ∃ text, cs = text ++ rest ∧ ∀ c ∈ text, isInert c = true

namespace InertUpTo
variable {cs ds rest : List Char}

theorem refl (cs : List Char) : InertUpTo cs cs := ⟨[], rfl, by simp⟩

theorem trans (h : InertUpTo cs ds) (h' : InertUpTo ds rest) : InertUpTo cs rest := by
  obtain ⟨text, rfl, htext⟩ := h
  obtain ⟨text', rfl, htext'⟩ := h'
  exact ⟨text ++ text', by simp, List.forall_mem_append.2 ⟨htext, htext'⟩⟩

theorem cons (hc : isInert c = true) (h : InertUpTo cs rest) : InertUpTo (c :: cs) rest := by
  obtain ⟨text, rfl, htext⟩ := h
  exact ⟨c :: text, rfl, List.forall_mem_cons.2 ⟨hc, htext⟩⟩

theorem readDigits {isDigit : Char → Bool} (hmarks : scannerMarks.all fun d => !isDigit d)
    (left : Nat) (cs : List Char) : InertUpTo cs (Syntax.readDigits isDigit left cs).rest := by
  obtain ⟨text, htext, -, hdigits⟩ := readDigits_eq isDigit left cs
  refine ⟨text, htext, ?_⟩
  intro c hc
  rcases hdigits c hc with rfl | hdigit
  · decide
  · exact isInert_of_class hdigit hmarks

end InertUpTo

section Numbers

theorem radixDigit_marks (letter : Char) : scannerMarks.all fun d => !radixDigit letter d := by
  unfold radixDigit
  split
  · decide
  · split <;> decide

theorem alone_eq_some (h : n.alone = some n') : n' = n := by
  unfold Numeral.alone at h
  split at h
  · cases h
  · exact (Option.some.inj h).symm

theorem scanRadix_inert {letter : Char} (h : scanRadix letter cs = some n) :
    InertUpTo cs n.rest := by
  have hdigits := InertUpTo.readDigits (radixDigit_marks letter) cs.length cs
  unfold scanRadix at h
  dsimp only at h
  split at h
  · cases h
  · split at h
    · rename_i rest hrest
      obtain rfl := Option.some.inj h
      rw [hrest] at hdigits
      exact hdigits.trans (.cons (by decide) (.refl rest))
    · rw [alone_eq_some h]
      exact hdigits

theorem scanFraction_inert (n : Numeral) : InertUpTo n.rest (scanFraction n).rest := by
  unfold scanFraction
  split
  · rename_i rest hrest
    rw [hrest]
    exact .cons (by decide) (.readDigits (by decide) _ rest)
  · exact .refl _

theorem scanExponent_inert (h : scanExponent n = some n') : InertUpTo n.rest n'.rest := by
  unfold scanExponent at h
  split at h
  · rename_i e rest hrest
    rw [hrest]
    split at h
    · rename_i he
      have hletter : isInert e = true := by rcases he with rfl | rfl <;> decide
      dsimp only at h
      split at h
      · cases h
      · obtain rfl := Option.some.inj h
        refine .cons hletter (InertUpTo.trans ?_ (.readDigits (by decide) _ _))
        -- The sign is the first character behind the letter, if that is one.
        cases rest with
        | nil => exact .refl _
        | cons c rest =>
          by_cases hsign : (c == '+' || c == '-') = true
          · have hinert : isInert c = true :=
              isInert_of_class (p := fun c => c == '+' || c == '-') hsign (by decide)
            simpa [hsign] using InertUpTo.cons hinert (.refl rest)
          · simpa [hsign] using InertUpTo.refl (c :: rest)
    · obtain rfl := Option.some.inj h
      rw [hrest]
      exact .refl _
  · obtain rfl := Option.some.inj h
    exact .refl _

theorem scanDecimal_inert (h : scanDecimal cs = some n) : InertUpTo cs n.rest := by
  have hwhole : InertUpTo cs (readDigits Char.isDigit cs.length cs).rest :=
    .readDigits (by decide) _ cs
  have htail : ∀ {w : Numeral}, InertUpTo cs w.rest →
      (scanExponent (scanFraction w)).bind Numeral.alone = some n → InertUpTo cs n.rest := by
    intro w hw hn
    obtain ⟨n', hexponent, halone⟩ := Option.bind_eq_some_iff.1 hn
    rw [alone_eq_some halone]
    exact hw.trans ((scanFraction_inert w).trans (scanExponent_inert hexponent))
  unfold scanDecimal at h
  dsimp only at h
  split at h
  · rename_i rest _ hrest
    split at h
    · cases h
    · obtain rfl := Option.some.inj h
      rw [hrest] at hwhole
      exact hwhole.trans (.cons (by decide) (.refl rest))
  · split at h
    · rw [alone_eq_some h]
      exact hwhole
    · exact htail hwhole h
  · exact htail hwhole h

theorem scanNumber_inert (h : scanNumber cs = some n) : InertUpTo cs n.rest := by
  unfold scanNumber at h
  split at h
  · rename_i letter rest
    split at h
    · rename_i hletter
      have hinert : isInert letter = true :=
        isInert_of_class (p := fun c => "xXoObB".toList.contains c) hletter (by decide)
      exact .cons (by decide) (.cons hinert (scanRadix_inert h))
    · exact scanDecimal_inert h
  · exact scanDecimal_inert h

end Numbers

end Revue.Syntax
