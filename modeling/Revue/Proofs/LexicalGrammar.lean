import Revue.Proofs.ScannerRuns

/-!
# The lexical grammar

Code is made of plain characters, braces with code between them, strings, templates and comments;
a template is made of characters, escapes and substitutions, which hold code again. A derivation
gives each character its region. The scanner has no recursion, only a counter of braces and a stack
of the depths at which substitutions began; on every derived text it finds the regions of the
derivation.
-/

namespace Revue.Source
open Text

variable {c q : Char} {cs : List Char} {m : Marked} {next : Option Char}

/-- A text that lies in one region. -/
def inRegion (r : Region) (cs : List Char) : Marked := cs.map fun c => (c, r)

@[simp] theorem inRegion_nil (r : Region) : inRegion r [] = [] := rfl
@[simp] theorem inRegion_cons (r : Region) (c : Char) (cs : List Char) :
    inRegion r (c :: cs) = (c, r) :: inRegion r cs := rfl
@[simp] theorem inRegion_append (r : Region) (cs ds : List Char) :
    inRegion r (cs ++ ds) = inRegion r cs ++ inRegion r ds := List.map_append
@[simp] theorem chars_inRegion (r : Region) (cs : List Char) : (inRegion r cs).chars = cs := by
  simp [inRegion, Marked.chars, Function.comp_def]

def isQuoteMark (c : Char) : Prop := c = '\x27' ∨ c = '\x22'

theorem isQuoteMark.ne_backslash (h : isQuoteMark q) : q ≠ '\\' := by
  rcases h with rfl | rfl <;> decide

theorem isQuoteMark.ne_feed (h : isQuoteMark q) : q ≠ '\n' := by
  rcases h with rfl | rfl <;> decide

def isPlain (c : Char) : Prop := ¬ isQuoteMark c ∧ c ≠ '\x60' ∧ c ≠ '\x7b' ∧ c ≠ '\x7d'

inductive StringBody (q : Char) : List Char → Prop
  | nil : StringBody q []
  | char {c : Char} {cs : List Char} (hmark : c ≠ q) (hescape : c ≠ '\\') (hfeed : c ≠ '\n')
      (hrest : StringBody q cs) : StringBody q (c :: cs)
  | escape (c : Char) {cs : List Char} (hrest : StringBody q cs) : StringBody q ('\\' :: c :: cs)

/-- The two sorts of text that hold each other. -/
inductive TextSort where
  | code
  | template

inductive Derives : TextSort → Marked → Prop
  | codeEnd : Derives .code []
  | plain {c : Char} {m : Marked} (hplain : isPlain c)
      (hslash : c = '/' → m.chars.head? ≠ some '/' ∧ m.chars.head? ≠ some '*')
      (hrest : Derives .code m) : Derives .code ((c, .code) :: m)
  | braces {inner m : Marked} (hinner : Derives .code inner) (hrest : Derives .code m) :
      Derives .code (('\x7b', .code) :: inner ++ ('\x7d', .code) :: m)
  | string {q : Char} {cs : List Char} {m : Marked} (hmark : isQuoteMark q)
      (hbody : StringBody q cs) (hrest : Derives .code m) :
      Derives .code (inRegion .literal (q :: cs ++ [q]) ++ m)
  | template {body m : Marked} (hbody : Derives .template body) (hrest : Derives .code m) :
      Derives .code (('\x60', .literal) :: body ++ ('\x60', .literal) :: m)
  | lineComment {cs : List Char} {m : Marked} (hline : '\n' ∉ cs) (hrest : Derives .code m) :
      Derives .code (inRegion .comment ('/' :: '/' :: cs) ++ ('\n', .code) :: m)
  | blockComment {cs : List Char} {m : Marked} (hopen : ¬ ['*', '/'] <:+: cs)
      (hrest : Derives .code m) :
      Derives .code (inRegion .comment ('/' :: '*' :: cs ++ ['*', '/']) ++ m)
  | templateEnd : Derives .template []
  | char {c : Char} {m : Marked} (hmark : c ≠ '\x60') (hescape : c ≠ '\\')
      (hdollar : c = '$' → m.chars.head? ≠ some '\x7b') (hrest : Derives .template m) :
      Derives .template ((c, .literal) :: m)
  | escape (c : Char) {m : Marked} (hrest : Derives .template m) :
      Derives .template (('\\', .literal) :: (c, .literal) :: m)
  | substitution {inner m : Marked} (hinner : Derives .code inner)
      (hrest : Derives .template m) :
      Derives .template
        (('$', .literal) :: ('\x7b', .literal) :: inner ++ ('\x7d', .literal) :: m)

theorem derives_of_isPlain (h : ∀ c ∈ cs, isPlain c ∧ c ≠ '/') :
    Derives .code (inRegion .code cs) := by
  induction cs with
  | nil => exact .codeEnd
  | cons c cs ih =>
    obtain ⟨hplain, hslash⟩ := h c (by simp)
    exact .plain hplain (fun hc => absurd hc hslash) (ih fun d hd => h d (by simp [hd]))

/-- The texts of whole sources: code, and behind it perhaps a line comment that the end of the text
closes. -/
inductive SourceText : Marked → Prop
  | closed {m : Marked} (hcode : Derives .code m) : SourceText m
  | inComment {m : Marked} {cs : List Char} (hcode : Derives .code m)
      (hslash : m.getLast? ≠ some ('/', .code)) (hline : '\n' ∉ cs) :
      SourceText (m ++ inRegion .comment ('/' :: '/' :: cs))

namespace Scan

theorem step_code_plain (hplain : isPlain c)
    (hslash : c = '/' → next ≠ some '/' ∧ next ≠ some '*') (d : Nat) (xs : List Nat) :
    step ⟨.code, d, xs⟩ c next = (.code, ⟨.code, d, xs⟩) := by
  obtain ⟨hquote, htick, hopen, hclose⟩ := hplain
  have h1 : ¬ (c = '/' ∧ next = some '/') := fun h => (hslash h.1).1 h.2
  have h2 : ¬ (c = '/' ∧ next = some '*') := fun h => (hslash h.1).2 h.2
  unfold isQuoteMark at hquote
  simp [step, stepCode, h1, h2, hquote, htick, hopen, hclose]

theorem step_close_brace {d : Nat} {xs : List Nat} (hnest : ∀ x, xs.head? = some x → x ≤ d)
    (next : Option Char) :
    step ⟨.code, d + 1, xs⟩ '\x7d' next = (.code, ⟨.code, d, xs⟩) := by
  have hne : xs.head? ≠ some (d + 1) := by
    intro h
    have := hnest _ h
    omega
  simp [step, stepCode, hne]

theorem step_quote_char (hmark : c ≠ q) (hescape : c ≠ '\\') (hfeed : c ≠ '\n') (d : Nat)
    (xs : List Nat) (next : Option Char) :
    step ⟨.quote q, d, xs⟩ c next = (.literal, ⟨.quote q, d, xs⟩) := by
  simp [step, stepQuote, hmark, hescape, hfeed]

theorem reads_body (h : StringBody q cs) (next : Option Char) (d : Nat) (xs : List Nat) :
    Reads next ⟨.quote q, d, xs⟩ (inRegion .literal cs) ⟨.quote q, d, xs⟩ := by
  induction h with
  | nil => exact .nil _
  | char hmark hescape hfeed _ ih =>
    exact .cons (step_quote_char hmark hescape hfeed d xs _) (.inl hfeed) ih
  | escape c _ ih =>
    refine .cons (t := ⟨.quotePair q, d, xs⟩) (by simp [step, stepQuote]) (.inl (by decide)) ?_
    exact .cons rfl (.inr fun _ => by simp) ih

/-- From behind its first mark a string is read to behind its last. -/
theorem reads_string (hq : isQuoteMark q) (h : StringBody q cs) (next : Option Char) (d : Nat)
    (xs : List Nat) :
    Reads next ⟨.quote q, d, xs⟩ (inRegion .literal (cs ++ [q])) ⟨.code, d, xs⟩ := by
  rw [inRegion_append]
  refine (reads_body h _ d xs).append (.single ?_ (.inl hq.ne_feed))
  simp [step, stepQuote, hq.ne_backslash, hq.ne_feed]

theorem reads_line (hline : '\n' ∉ cs) (next : Option Char) (d : Nat) (xs : List Nat) :
    Reads next ⟨.lineComment, d, xs⟩ (inRegion .comment cs) ⟨.lineComment, d, xs⟩ := by
  induction cs with
  | nil => exact .nil _
  | cons c cs ih =>
    obtain ⟨hc, hcs⟩ : c ≠ '\n' ∧ '\n' ∉ cs := by
      simpa [eq_comm] using hline
    exact .cons (by simp [step, hc]) (.inl hc) (ih hcs)

/-- A block comment is read up to the first star with a slash behind it. -/
theorem reads_block (hopen : ¬ ['*', '/'] <:+: cs) (next : Option Char) (d : Nat) (xs : List Nat) :
    Reads next ⟨.blockComment, d, xs⟩ (inRegion .comment (cs ++ ['*', '/'])) ⟨.code, d, xs⟩ := by
  induction cs with
  | nil =>
    refine .cons (t := ⟨.blockEndPair, d, xs⟩) (by simp [step]) (.inl (by decide)) ?_
    exact .single rfl (.inl (by decide))
  | cons c cs ih =>
    have hcs : ¬ ['*', '/'] <:+: cs := fun h => hopen (h.trans (List.suffix_cons c cs).isInfix)
    refine .cons ?_ (.inr fun q => by simp) (ih hcs)
    have hpair : ¬ (c = '*' ∧ (cs ++ ['*', '/']).head? = some '/') := by
      rintro ⟨rfl, hhead⟩
      cases cs with
      | nil => simp at hhead
      | cons e es =>
        obtain rfl : e = '/' := by simpa using hhead
        exact hopen ⟨[], es, rfl⟩
    have hlook : ((inRegion .comment (cs ++ ['*', '/'])).chars.head?.or next) =
        (cs ++ ['*', '/']).head? := by
      cases cs <;> simp
    change step _ c ((inRegion .comment (cs ++ ['*', '/'])).chars.head?.or next) = _
    rw [hlook]
    simp only [step, if_neg hpair]

end Scan

@[simp] def TextSort.mode : TextSort → Mode
  | code => .code
  | template => .template

/-- The scanner reads a derived text with the regions of its derivation, and is then back in its
state. The depth at which the innermost substitution began is not above that of the code around, so
that a brace closes it only where the derivation does. -/
theorem Derives.reads {sort : TextSort} (h : Derives sort m) (next : Option Char)
    (hnext : isQuiet next) (d : Nat) (xs : List Nat) (hnest : ∀ x, xs.head? = some x → x ≤ d) :
    Scan.Reads next ⟨sort.mode, d, xs⟩ m ⟨sort.mode, d, xs⟩ := by
  induction h generalizing next d xs with
  | codeEnd => exact .nil _
  | templateEnd => exact .nil _
  | @plain c m hplain hslash _ ih =>
    refine .cons ?_ (.inr fun q => by simp) (ih next hnext d xs hnest)
    apply Scan.step_code_plain hplain
    intro hc
    cases m with
    | nil => exact ⟨hnext.1, hnext.2.1⟩
    | cons p m => exact hslash hc
  | @braces inner m _ _ ihInner ihRest =>
    have hopen : Scan.Reads next ⟨.code, d + 1, xs⟩ (inner ++ ('\x7d', .code) :: m)
        ⟨.code, d, xs⟩ := by
      refine Scan.Reads.append (ihInner _ ?_ (d + 1) xs fun x hx => ?_) ?_
      · exact isQuiet_some (by decide) (by decide) (by decide)
      · have := hnest x hx
        omega
      · exact .cons (Scan.step_close_brace hnest _) (.inl (by decide))
          (ihRest next hnext d xs hnest)
    exact .cons (by simp [Scan.step, Scan.stepCode]) (.inl (by decide)) hopen
  | @string q cs m hmark hbody _ ih =>
    have hstring : Scan.Reads next ⟨.quote q, d, xs⟩ (inRegion .literal (cs ++ [q]) ++ m)
        ⟨.code, d, xs⟩ :=
      Scan.Reads.append (Scan.reads_string hmark hbody _ d xs) (ih next hnext d xs hnest)
    refine .cons ?_ (.inl hmark.ne_feed) hstring
    rcases hmark with rfl | rfl <;> simp [Scan.step, Scan.stepCode]
  | @template body m _ _ ihBody ihRest =>
    have hbody : Scan.Reads next ⟨.template, d, xs⟩ (body ++ ('\x60', .literal) :: m)
        ⟨.code, d, xs⟩ := by
      refine Scan.Reads.append (ihBody _ ?_ d xs hnest) ?_
      · exact isQuiet_some (by decide) (by decide) (by decide)
      · exact .cons (by simp [Scan.step, Scan.stepTemplate]) (.inl (by decide))
          (ihRest next hnext d xs hnest)
    exact .cons (by simp [Scan.step, Scan.stepCode]) (.inl (by decide)) hbody
  | @lineComment cs m hline _ ih =>
    have hcomment : Scan.Reads next ⟨.lineComment, d, xs⟩
        (inRegion .comment cs ++ ('\n', .code) :: m) ⟨.code, d, xs⟩ := by
      refine Scan.Reads.append (Scan.reads_line hline _ d xs) ?_
      exact .cons (by simp [Scan.step]) (.inr fun q => by simp) (ih next hnext d xs hnest)
    refine .cons (t := ⟨.linePair, d, xs⟩) ?_ (.inl (by decide))
      (.cons rfl (.inl (by decide)) hcomment)
    simp [Scan.step, Scan.stepCode]
  | @blockComment cs m hopen _ ih =>
    have hcomment : Scan.Reads next ⟨.blockComment, d, xs⟩
        (inRegion .comment (cs ++ ['*', '/']) ++ m) ⟨.code, d, xs⟩ :=
      Scan.Reads.append (Scan.reads_block hopen _ d xs) (ih next hnext d xs hnest)
    refine .cons (t := ⟨.blockPair, d, xs⟩) ?_ (.inl (by decide))
      (.cons rfl (.inl (by decide)) hcomment)
    simp [Scan.step, Scan.stepCode]
  | @char c m hmark hescape hdollar _ ih =>
    refine .cons ?_ (.inr fun q => by simp) (ih next hnext d xs hnest)
    have hpair : ¬ (c = '$' ∧ m.chars.head?.or next = some '\x7b') := by
      rintro ⟨hc, hhead⟩
      cases m with
      | nil => exact hnext.2.2 hhead
      | cons p m => exact hdollar hc hhead
    simp only [Scan.step, Scan.stepTemplate, TextSort.mode, if_neg hescape, if_neg hpair,
      if_neg hmark]
  | escape c _ ih =>
    refine .cons (t := ⟨.templatePair, d, xs⟩) ?_ (.inl (by decide)) ?_
    · simp [Scan.step, Scan.stepTemplate]
    · exact .cons rfl (.inr fun q => by simp) (ih next hnext d xs hnest)
  | @substitution inner m _ _ ihInner ihRest =>
    have hcode : Scan.Reads next ⟨.code, d, d :: xs⟩ (inner ++ ('\x7d', .literal) :: m)
        ⟨.template, d, xs⟩ := by
      refine Scan.Reads.append (ihInner _ ?_ d (d :: xs) fun x hx => ?_) ?_
      · exact isQuiet_some (by decide) (by decide) (by decide)
      · simp_all
      · exact .cons (by simp [Scan.step, Scan.stepCode]) (.inl (by decide))
          (ihRest next hnext d xs hnest)
    refine .cons (t := ⟨.substitutionPair, d, d :: xs⟩) ?_ (.inl (by decide))
      (.cons rfl (.inl (by decide)) hcode)
    simp [Scan.step, Scan.stepTemplate]

namespace Scan

/-- What stands behind a character that leads back to code changes nothing, unless it makes a
comment out of a slash. -/
theorem step_before {s t : Scan} {r : Region} (h : s.step c none = (r, t)) (ht : t.mode = .code)
    (hslash : (c, r) = ('/', .code) → next ≠ some '/' ∧ next ≠ some '*') :
    s.step c next = (r, t) := by
  cases hm : s.mode with
  | code =>
    by_cases hc : c = '/'
    · subst hc
      have hcode : r = .code := by
        have := congrArg Prod.fst h
        simpa [step, stepCode, hm] using this.symm
      obtain ⟨hline, hblock⟩ := hslash (by rw [hcode])
      rw [← h]
      simp [step, stepCode, hm, hline, hblock]
    · rw [← h]
      simp [step, stepCode, hm, hc]
  | blockComment =>
    have hcomment : t.mode = .blockComment := by
      rw [← show (s.step c none).2 = t from congrArg Prod.snd h]
      simp [step, hm]
    rw [hcomment] at ht
    cases ht
  | template =>
    by_cases hc : c = '$'
    · subst hc
      have htemplate : t.mode = .template := by
        rw [← show (s.step '$' none).2 = t from congrArg Prod.snd h]
        simp [step, stepTemplate, hm]
      rw [htemplate] at ht
      cases ht
    · rw [← h]
      simp [step, stepTemplate, hm, hc]
  | _ =>
    rw [← h]
    simp [step, hm]

theorem Reads.before {s t : Scan} (h : Reads none s m t) (ht : t.mode = .code)
    (hslash : m.getLast? = some ('/', .code) → next ≠ some '/' ∧ next ≠ some '*') :
    Reads next s m t := by
  induction h with
  | nil s => exact .nil s
  | @cons s t u c r m hstep hfeed hrest ih =>
    cases m with
    | nil =>
      cases hrest
      refine .single (step_before (by simpa using hstep) ht ?_) hfeed
      simpa using hslash
    | cons p m =>
      refine .cons (by simpa using hstep) hfeed (ih ht ?_)
      simpa using hslash

end Scan

/-- The scanner reads a whole source and ends in code or in a line comment. -/
theorem SourceText.reads (h : SourceText m) :
    ∃ mode, (mode = .code ∨ mode = .lineComment) ∧ Scan.Reads none {} m ⟨mode, 0, []⟩ := by
  cases h with
  | closed hcode => exact ⟨.code, Or.inl rfl, hcode.reads none isQuiet_none 0 [] (by simp)⟩
  | @inComment m cs hcode hslash hline =>
    have hm : Scan.Reads (some '/') {} m ⟨.code, 0, []⟩ :=
      (hcode.reads none isQuiet_none 0 [] (by simp)).before rfl fun hlast => absurd hlast hslash
    have hcomment : Scan.Reads none ⟨.code, 0, []⟩ (inRegion .comment ('/' :: '/' :: cs))
        ⟨.lineComment, 0, []⟩ := by
      refine .cons (t := ⟨.linePair, 0, []⟩) ?_ (.inl (by decide))
        (.cons rfl (.inl (by decide)) (Scan.reads_line hline none 0 []))
      simp [Scan.step, Scan.stepCode]
    refine ⟨.lineComment, Or.inr rfl, Scan.Reads.append ?_ hcomment⟩
    exact hm

/-- Every character and every byte of a derived text gets the region of its derivation. -/
theorem classify_of_sourceText {m : Marked} (h : SourceText m) :
    classify m.chars = m.regions ∧
      classifyBytes m.chars = m.flatMap fun (c, r) => List.replicate c.utf8Size r := by
  obtain ⟨mode, _, hreads⟩ := h.reads
  have hclassify : classify m.chars = m.regions := hreads.regions_eq
  refine ⟨hclassify, ?_⟩
  rw [classifyBytes, hclassify, m.zip_chars_regions]

def nestedTemplate : Marked :=
  inRegion .literal ['\x60', 'é', '$', '\x7b'] ++ inRegion .code [' ', '\x7b'] ++
    inRegion .literal ['\x60', '\x7d', '\x60'] ++ inRegion .code ['\x7d'] ++
    inRegion .literal ['\x7d', '\n', '\x60'] ++ inRegion .code [';']

theorem sourceText_nestedTemplate : SourceText nestedTemplate := by
  have hinner : Derives .template (inRegion .literal ['\x7d']) :=
    .char (by decide) (by decide) (by decide) .templateEnd
  have hcode : Derives .code
      (inRegion .code [' ', '\x7b'] ++ inRegion .literal ['\x60', '\x7d', '\x60'] ++
        inRegion .code ['\x7d']) :=
    .plain (by unfold isPlain isQuoteMark; decide) (by decide)
      (.braces (.template hinner .codeEnd) .codeEnd)
  have hfeed : Derives .template (inRegion .literal ['\n']) :=
    .char (by decide) (by decide) (by decide) .templateEnd
  have hbody : Derives .template (inRegion .literal ['é', '$', '\x7b'] ++
      (inRegion .code [' ', '\x7b'] ++ inRegion .literal ['\x60', '\x7d', '\x60'] ++
        inRegion .code ['\x7d']) ++ inRegion .literal ['\x7d', '\n']) :=
    .char (by decide) (by decide) (by decide) (.substitution hcode hfeed)
  exact .closed (.template hbody
    (.plain (by unfold isPlain isQuoteMark; decide) (by decide) .codeEnd))

theorem classify_nestedTemplate :
    SourceText nestedTemplate ∧ classify nestedTemplate.chars = nestedTemplate.regions ∧
      classifyBytes nestedTemplate.chars =
        nestedTemplate.flatMap fun (c, r) => List.replicate c.utf8Size r :=
  ⟨sourceText_nestedTemplate, classify_of_sourceText sourceText_nestedTemplate⟩

end Revue.Source
