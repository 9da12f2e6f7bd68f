import Revue.Proofs.ScannerRuns
import Revue.Source.Cleaning

/-!
# Removing bind operators

A bind operator is two colons of code in front of a word and not behind an operand. Taking one out
brings the word next to what stood in front of the colons. Neither a colon nor the start of a word
makes a pair with the character before it, and a colon of code leaves the state of the scanner as it
is, so that what is left of a text has the regions that it had before.
-/

namespace Revue.Source
open Text

variable {c : Char} {s : Scan} {α β : Type} {m : Marked} {cs : List Char}

/-- A text with the regions that the scanner gives to its characters. -/
def marked (cs : List Char) : Marked := cs.zip (classify cs)

/-- The bytes of a text with the regions that the scanner gives to them. -/
def markedBytes (text : String) : List (UInt8 × Region) :=
  text.toByteArray.data.toList.zip (classifyBytes text.toList)

def colon : Char × Region := (':', .code)

def lastCode? (m : Marked) : Option Char :=
  (Marked.chars (m.filter fun (c, r) => r == .code && !isAsciiBlank c)).getLast?

def isBind (before after : Marked) : Bool :=
  after.chars.head?.any isAsciiWordStart && !(lastCode? before).any endsOperand

/-- What is left of a text behind `before` without its bind operators. -/
inductive Unbound : Marked → Marked → Marked → Prop
  | nil (before : Marked) : Unbound before [] []
  | drop {before m m' : Marked} (hbind : isBind before m = true)
      (hrest : Unbound (before ++ [colon, colon]) m m') : Unbound before (colon :: colon :: m) m'
  | keep {before m m' : Marked} {p : Char × Region}
      (hbind : ∀ rest, p :: m = colon :: colon :: rest → isBind before rest = false)
      (hrest : Unbound (before ++ [p]) m m') : Unbound before (p :: m) (p :: m')

/-- One list is another with some pairs of a value left out. -/
inductive PairsOut {α : Type} (a : α) : List α → List α → Prop
  | nil : PairsOut a [] []
  | drop {l l' : List α} (hrest : PairsOut a l l') : PairsOut a (a :: a :: l) l'
  | keep {l l' : List α} (b : α) (hrest : PairsOut a l l') : PairsOut a (b :: l) (b :: l')

namespace PairsOut
variable {α β : Type} {a : α} {l l' : List α}

theorem flatMap (f : α → List β) {b : β} (hf : f a = [b]) (h : PairsOut a l l') :
    PairsOut b (l.flatMap f) (l'.flatMap f) := by
  induction h with
  | nil => exact .nil
  | drop _ ih => simpa [hf] using PairsOut.drop ih
  | keep c _ ih =>
    rw [List.flatMap_cons, List.flatMap_cons]
    induction f c with
    | nil => exact ih
    | cons d ds ihds => exact .keep d ihds

theorem filter_eq (q : α → Bool) (hq : q a = false) (h : PairsOut a l l') :
    l.filter q = l'.filter q := by
  induction h with
  | nil => rfl
  | drop _ ih => simpa [hq] using ih
  | keep b _ ih => rw [List.filter_cons, List.filter_cons, ih]

end PairsOut

theorem Unbound.pairsOut {before m' : Marked} (h : Unbound before m m') : PairsOut colon m m' := by
  induction h with
  | nil => exact .nil
  | drop _ _ ih => exact .drop ih
  | keep _ _ ih => exact .keep _ ih

theorem lastCode?_append (m : Marked) (p : Char × Region) :
    lastCode? (m ++ [p]) = noteCode (lastCode? m) p.1 p.2 := by
  obtain ⟨c, r⟩ := p
  unfold lastCode? noteCode
  by_cases h : r = .code ∧ isAsciiBlank c = false
  · simp [List.filter_append, h]
  · have hdrop : (r == .code && !isAsciiBlank c) = false := by
      simpa using fun hr => by simpa [hr] using h
    simp [List.filter_append, hdrop, h]

theorem dropBinds_unbound (before m : Marked) :
    Unbound before m (dropBinds (lastCode? before) m) := by
  generalize hprev : lastCode? before = prev
  have hcolon : ∀ {before : Marked}, lastCode? (before ++ [colon]) = some ':' := by
    intro before
    rw [lastCode?_append]
    rfl
  fun_induction dropBinds prev m generalizing before with
  | case1 prev c r rest hbind ih =>
    refine .drop (m := (c, r) :: rest) ?_ (ih _ ?_)
    · simpa [isBind, hprev] using hbind
    · rw [List.append_cons, hcolon]
  | case2 prev c r rest hbind ih =>
    refine .keep (p := colon) ?_ (ih _ hcolon)
    rintro _ ⟨⟩
    simpa [isBind, hprev] using hbind
  | case3 prev c r rest hshort ih =>
    refine .keep ?_ (ih _ (by rw [lastCode?_append, hprev]))
    intro rest' heq
    obtain ⟨⟨rfl, rfl⟩, rfl⟩ : (c = ':' ∧ r = .code) ∧ rest = colon :: rest' := by
      simpa [colon] using heq
    cases rest' with
    | nil => rfl
    | cons p rest' => exact (hshort p.1 p.2 rest' rfl rfl rfl).elim
  | case4 prev => exact .nil _

def Scan.Marks (s : Scan) (m : Marked) : Prop := s.regions m.chars = m.regions

theorem Scan.marks_cons {r : Region} :
    s.Marks ((c, r) :: m) ↔
      (s.step c m.chars.head?).1 = r ∧ (s.step c m.chars.head?).2.Marks m := by
  simp [Scan.Marks, Scan.regions]

theorem Scan.step_colon {next : Option Char} (h : (s.step ':' next).1 = .code) :
    (s.step ':' next).2 = s := by
  obtain ⟨mode, depth, substitutions⟩ := s
  cases mode with
  | code => simp [step, stepCode]
  | quote q =>
    simp only [step, stepQuote] at h
    split at h <;> simp at h
    split at h <;> simp at h
  | template => simp [step, stepTemplate] at h
  | _ => simp [step] at h

theorem isQuiet_of_isAsciiWordStart (h : isAsciiWordStart c = true) : isQuiet (some c) := by
  refine isQuiet_some ?_ ?_ ?_ <;> rintro rfl <;> exact absurd h (by decide)

/-- If another character comes to the front, both it and the one that stood there are quiet. -/
theorem head?_dropBinds (prev : Option Char) (m : Marked) :
    (Marked.chars (dropBinds prev m)).head? = m.chars.head? ∨
      isQuiet (Marked.chars (dropBinds prev m)).head? ∧ isQuiet m.chars.head? := by
  fun_induction dropBinds prev m with
  | case1 prev c r rest hbind ih =>
    have hword : isQuiet (some c) := isQuiet_of_isAsciiWordStart hbind.1
    refine Or.inr ⟨?_, isQuiet_some (by decide) (by decide) (by decide)⟩
    rcases ih with heq | ⟨hquiet, -⟩
    · rw [heq]
      exact hword
    · exact hquiet
  | case2 => exact Or.inl rfl
  | case3 => exact Or.inl rfl
  | case4 => exact Or.inl rfl

theorem Scan.step_dropBinds (s : Scan) (c : Char) (prev : Option Char) (m : Marked) :
    s.step c (Marked.chars (dropBinds prev m)).head? = s.step c m.chars.head? := by
  rcases head?_dropBinds prev m with heq | ⟨hdropped, hbefore⟩
  · rw [heq]
  · exact step_of_isQuiet s c hdropped hbefore

theorem Scan.Marks.dropBinds (h : s.Marks m) (prev : Option Char) : s.Marks (dropBinds prev m) := by
  fun_induction Source.dropBinds prev m generalizing s with
  | case1 prev c r rest _ ih =>
    obtain ⟨hfirst, h⟩ := marks_cons.1 h
    rw [step_colon hfirst] at h
    obtain ⟨hsecond, h⟩ := marks_cons.1 h
    rw [step_colon hsecond] at h
    exact ih h
  | case2 prev c r rest _ ih =>
    obtain ⟨hfirst, h⟩ := marks_cons.1 h
    rw [marks_cons, step_dropBinds]
    exact ⟨hfirst, ih h⟩
  | case3 prev c r rest _ ih =>
    obtain ⟨hfirst, h⟩ := marks_cons.1 h
    rw [marks_cons, step_dropBinds]
    exact ⟨hfirst, ih h⟩
  | case4 => exact h

theorem length_regions (s : Scan) (cs : List Char) : (s.regions cs).length = cs.length := by
  induction cs generalizing s with
  | nil => rfl
  | cons c cs ih => simp [Scan.regions, ih]

theorem chars_marked (cs : List Char) : (marked cs).chars = cs :=
  List.map_fst_zip (Nat.le_of_eq (length_regions {} cs).symm)

theorem regions_marked (cs : List Char) : (marked cs).regions = classify cs :=
  List.map_snd_zip (Nat.le_of_eq (length_regions {} cs))

/-- What is left of a text without its bind operators keeps its regions. -/
theorem marked_removeBinds (cs : List Char) :
    marked (removeBinds cs) = dropBinds none (marked cs) := by
  have hmarks : Scan.Marks {} (marked cs) := by
    rw [Scan.Marks, chars_marked, regions_marked, classify]
  have hregions : classify (removeBinds cs) = Marked.regions (dropBinds none (marked cs)) :=
    hmarks.dropBinds none
  unfold marked at hregions ⊢
  rw [hregions]
  exact Marked.zip_chars_regions _

theorem toByteArray_toList (text : String) :
    text.toByteArray.data.toList = text.toList.flatMap String.utf8EncodeChar := by
  have hofList : text.toByteArray = text.toList.utf8Encode := by
    rw [← String.toByteArray_ofList, String.ofList_toList]
  rw [hofList]
  simp [List.utf8Encode]

theorem zip_flatMap {γ : Type} (f : α → List β) (g : α → List γ)
    (hlength : ∀ a, (f a).length = (g a).length) (l : List α) :
    (l.flatMap f).zip (l.flatMap g) = l.flatMap fun a => (f a).zip (g a) := by
  induction l with
  | nil => rfl
  | cons a l ih => rw [List.flatMap_cons, List.flatMap_cons, List.zip_append (hlength a), ih,
      List.flatMap_cons]

theorem zip_replicate_length (l : List α) (b : β) :
    l.zip (List.replicate l.length b) = l.map (·, b) := by
  induction l with
  | nil => rfl
  | cons a l ih => simp [List.replicate_succ, ih]

/-- Each byte has the region of its character. -/
theorem markedBytes_eq (text : String) :
    markedBytes text =
      (marked text.toList).flatMap fun (c, r) => (String.utf8EncodeChar c).map (·, r) := by
  have hbytes : text.toByteArray.data.toList =
      (marked text.toList).flatMap fun (c, _) => String.utf8EncodeChar c := by
    conv => lhs; rw [toByteArray_toList, ← chars_marked text.toList]
    rw [Marked.chars, List.flatMap_map]
  rw [markedBytes, hbytes, classifyBytes]
  refine (zip_flatMap _ _ ?_ _).trans ?_
  · intro p
    simp
  · congr 1
    funext ⟨c, r⟩
    dsimp only
    rw [← String.length_utf8EncodeChar c, zip_replicate_length]

theorem dropMark_eq (h : cs.head? ≠ some '\ufeff') : dropMark cs = cs := by
  unfold dropMark
  split
  · simp at h
  · rfl

theorem unifyFeeds_eq (h : ¬ ['\r', '\n'] <:+: cs) : unifyFeeds cs = cs := by
  fun_induction unifyFeeds cs with
  | case1 => rfl
  | case2 cs _ => exact (h ⟨[], cs, rfl⟩).elim
  | case3 c cs _ ih => rw [ih fun hrest => h (List.infix_cons hrest)]

/-- Cleaning a text without a byte-order mark and without carriage returns before line feeds takes
out its bind operators, which are pairs of colons of code, and nothing else. What is left has the
regions that it had, byte by byte; no byte of a comment or a literal is gone. -/
theorem clean_unbound {text : String} (hmark : text.toList.head? ≠ some '\ufeff')
    (hfeeds : ¬ ['\r', '\n'] <:+: text.toList) :
    Unbound [] (marked text.toList) (marked (clean text).toList) ∧
      PairsOut (58, .code) (markedBytes text) (markedBytes (clean text)) ∧
      (markedBytes text).filter (·.2 ≠ .code) =
        (markedBytes (clean text)).filter (·.2 ≠ .code) := by
  have hclean : marked (clean text).toList = dropBinds none (marked text.toList) := by
    rw [clean, String.toList_ofList, dropMark_eq hmark, unifyFeeds_eq hfeeds, marked_removeBinds]
  have hunbound : Unbound [] (marked text.toList) (marked (clean text).toList) := by
    rw [hclean]
    exact dropBinds_unbound [] _
  have hbytes : PairsOut (58, .code) (markedBytes text) (markedBytes (clean text)) := by
    rw [markedBytes_eq, markedBytes_eq]
    exact hunbound.pairsOut.flatMap _ (by decide)
  exact ⟨hunbound, hbytes, hbytes.filter_eq _ (by decide)⟩

/-- Bind operators in code and in a substitution; colons in a string, in a comment, and between two
operands stay. -/
theorem clean_unbound_sample :
    let text := "on(::a, \x60$\x7b::b\x7d::c\x60, '::d', /* ::e */ f::g)"
    clean text = "on(a, \x60$\x7bb\x7d::c\x60, '::d', /* ::e */ f::g)" ∧
      PairsOut (58, .code) (markedBytes text) (markedBytes (clean text)) := by
  intro text
  have hmark : text.toList.head? ≠ some '\ufeff' := by decide +kernel
  have hfeeds : ¬ ['\r', '\n'] <:+: text.toList := by decide +kernel
  exact ⟨by decide +kernel, (clean_unbound hmark hfeeds).2.1⟩

end Revue.Source
