import Mathlib.Data.List.Forall2
import Revue.Proofs.BindRemoval
import Revue.Proofs.EditOrder
import Revue.Source.Flow
import Revue.Text.LineIndex

/-!
# Overwriting characters with spaces

Erasing annotations marks some characters of a text and writes as many spaces over each as it has
bytes; line feeds stay. Whatever the marks are, no offset moves: the text keeps its length in bytes,
each byte is the one it was or a space, lines start where they did, and each line is the line it was
with some of its characters overwritten.
-/

namespace Revue.Source
open Text

variable {c : Char} {α : Type} {a cs line : List Char}

/-! ### Marked characters -/

def spelled : Char × Bool → List Char
  | (c, true) => blanked c
  | (c, false) => [c]

def overwrite (cs : List Char) (marks : List Bool) : List Char :=
  (cs.zip marks).flatMap spelled

@[simp] theorem overwrite_nil (marks : List Bool) : overwrite [] marks = [] := rfl

@[simp] theorem overwrite_cons (c : Char) (cs : List Char) (mark : Bool) (marks : List Bool) :
    overwrite (c :: cs) (mark :: marks) = spelled (c, mark) ++ overwrite cs marks := rfl

theorem spelled_feed (mark : Bool) : spelled ('\n', mark) = ['\n'] := by
  cases mark <;> rfl

/-- In the place of any other character stands no line feed, and the place is as long. -/
theorem spelled_of_ne (hc : c ≠ '\n') (mark : Bool) :
    '\n' ∉ spelled (c, mark) ∧ byteLength (spelled (c, mark)) = c.utf8Size := by
  have hspaces : ∀ n : Nat, byteLength (List.replicate n ' ') = n := by
    intro n
    induction n with
    | zero => rfl
    | succ n ih =>
      have hsize : ' '.utf8Size = 1 := by decide
      rw [List.replicate_succ, byteLength, ih, hsize, Nat.add_comm]
  cases mark with
  | false => exact ⟨by simpa [spelled] using hc.symm, by simp [spelled, byteLength]⟩
  | true =>
    have hblanked : spelled (c, true) = List.replicate c.utf8Size ' ' := by
      simp [spelled, blanked, hc]
    rw [hblanked]
    exact ⟨by simp [List.mem_replicate], hspaces _⟩

theorem byteLength_spelled (c : Char) (mark : Bool) :
    byteLength (spelled (c, mark)) = c.utf8Size := by
  by_cases hc : c = '\n'
  · subst hc
    rw [spelled_feed]
    rfl
  · exact (spelled_of_ne hc mark).2

theorem feedsFrom_of_notMem (h : '\n' ∉ a) (at_ : Nat) (cs : List Char) :
    feedsFrom at_ (a ++ cs) = feedsFrom (at_ + byteLength a) cs := by
  induction a generalizing at_ with
  | nil => rfl
  | cons c a ih =>
    obtain ⟨hc, ha⟩ : c ≠ '\n' ∧ '\n' ∉ a := by simpa [eq_comm] using h
    rw [List.cons_append, feedsFrom, if_neg hc, ih ha, byteLength, Nat.add_assoc]

section Marks
variable {cs : List Char} {marks : List Bool}

section
variable (h : marks.length = cs.length)
include h

theorem byteLength_overwrite : byteLength (overwrite cs marks) = byteLength cs := by
  induction cs generalizing marks with
  | nil => rfl
  | cons c cs ih =>
    cases marks with
    | nil => cases h
    | cons mark marks =>
      rw [overwrite_cons, byteLength_append, byteLength_spelled, ih (by simpa using h), byteLength]

theorem feedsFrom_overwrite (at_ : Nat) :
    feedsFrom at_ (overwrite cs marks) = feedsFrom at_ cs := by
  induction cs generalizing marks at_ with
  | nil => rfl
  | cons c cs ih =>
    cases marks with
    | nil => cases h
    | cons mark marks =>
      have hrest : marks.length = cs.length := by simpa using h
      rw [overwrite_cons, feedsFrom]
      by_cases hc : c = '\n'
      · subst hc
        rw [spelled_feed, List.singleton_append, feedsFrom, if_pos rfl, if_pos rfl, ih hrest]
      · obtain ⟨hfeed, hlength⟩ := spelled_of_ne hc mark
        rw [feedsFrom_of_notMem hfeed, hlength, ih hrest, if_neg hc]

/-- Lines and columns are those of the text before it was overwritten. -/
theorem ofText_overwrite : LineIndex.ofText (overwrite cs marks) = LineIndex.ofText cs := by
  rw [LineIndex.ofText, LineIndex.ofText, feedsFrom_overwrite h, byteLength_overwrite h]

end

/-! ### Lines -/

def inFront (a : List Char) : List (List Char) → List (List Char)
  | [] => [a]
  | line :: rest => (a ++ line) :: rest

theorem splitFeeds_ne_nil (cs : List Char) : splitFeeds cs ≠ [] := by
  cases cs with
  | nil => simp [splitFeeds, pieces]
  | cons c cs =>
    unfold splitFeeds pieces
    split
    · simp
    · split <;> simp

theorem splitFeeds_of_notMem (h : '\n' ∉ a) (b : List Char) :
    splitFeeds (a ++ b) = inFront a (splitFeeds b) := by
  induction a with
  | nil =>
    cases hb : splitFeeds b with
    | nil => exact absurd hb (splitFeeds_ne_nil b)
    | cons line rest => simp [hb, inFront]
  | cons c a ih =>
    obtain ⟨hc, ha⟩ : c ≠ '\n' ∧ '\n' ∉ a := by simpa [eq_comm] using h
    have hstep : splitFeeds (c :: (a ++ b)) = inFront [c] (splitFeeds (a ++ b)) := by
      rw [splitFeeds, pieces, if_neg hc]
      rfl
    rw [List.cons_append, hstep, ih ha]
    cases splitFeeds b <;> rfl

theorem splitFeeds_feed (b : List Char) : splitFeeds ('\n' :: b) = [] :: splitFeeds b := rfl

theorem splitFeeds_last (h : '\n' ∉ line) : splitFeeds line = [line] := by
  have hsplit := splitFeeds_of_notMem h []
  rwa [List.append_nil, show splitFeeds [] = [[]] from rfl, inFront, List.append_nil] at hsplit

theorem splitFeeds_line (h : '\n' ∉ line) (cs : List Char) :
    splitFeeds (line ++ '\n' :: cs) = line :: splitFeeds cs := by
  rw [splitFeeds_of_notMem h, splitFeeds_feed, inFront, List.append_nil]

/-- A text is its last line, or a line with a line feed and a text behind. -/
theorem line_induction {P : List Char → Prop} (last : ∀ line, '\n' ∉ line → P line)
    (feed : ∀ line cs, '\n' ∉ line → P cs → P (line ++ '\n' :: cs)) (cs : List Char) : P cs := by
  have hbehind : ∀ line : List Char, '\n' ∉ line → P (line ++ cs) := by
    induction cs with
    | nil =>
      intro line hline
      rw [List.append_nil]
      exact last line hline
    | cons c cs ih =>
      intro line hline
      by_cases hc : c = '\n'
      · subst hc
        exact feed line cs hline (ih [] List.not_mem_nil)
      · rw [List.append_cons]
        exact ih (line ++ [c]) (by simp [hline, Ne.symm hc])
  exact hbehind [] List.not_mem_nil

/-- What holds of the lines behind holds with text in front of the first of them. -/
theorem forall₂_inFront {R : List Char → List Char → Prop} {a' : List Char}
    {ls ls' : List (List Char)} (h : List.Forall₂ R ls ls') (hnil : R a a')
    (hcons : ∀ {l l'}, R l l' → R (a ++ l) (a' ++ l')) :
    List.Forall₂ R (inFront a ls) (inFront a' ls') := by
  cases h with
  | nil => exact .cons hnil .nil
  | cons hfirst hrest => exact .cons (hcons hfirst) hrest

def Overwrites (cs cs' : List Char) : Prop :=
  ∃ marks : List Bool, marks.length = cs.length ∧ cs' = overwrite cs marks

theorem Overwrites.cons {cs' : List Char} (h : Overwrites cs cs') (c : Char) (mark : Bool) :
    Overwrites (c :: cs) (spelled (c, mark) ++ cs') := by
  obtain ⟨marks, hlength, rfl⟩ := h
  exact ⟨mark :: marks, by simp [hlength], rfl⟩

theorem overwrites_nil : Overwrites [] [] := ⟨[], rfl, rfl⟩

/-- Each line is the line that it was, with some of its characters overwritten. -/
theorem splitFeeds_overwrite (h : marks.length = cs.length) :
    List.Forall₂ Overwrites (splitFeeds cs) (splitFeeds (overwrite cs marks)) := by
  induction cs generalizing marks with
  | nil => exact .cons overwrites_nil .nil
  | cons c cs ih =>
    cases marks with
    | nil => cases h
    | cons mark marks =>
      have hrest : List.Forall₂ Overwrites (splitFeeds cs) (splitFeeds (overwrite cs marks)) :=
        ih (by simpa using h)
      rw [overwrite_cons]
      by_cases hc : c = '\n'
      · subst hc
        rw [spelled_feed, List.singleton_append, splitFeeds_feed, splitFeeds_feed]
        exact .cons overwrites_nil hrest
      · have hline : splitFeeds (c :: cs) = inFront [c] (splitFeeds cs) :=
          splitFeeds_of_notMem (a := [c]) (by simpa [eq_comm] using hc) cs
        rw [hline, splitFeeds_of_notMem (spelled_of_ne hc mark).1]
        refine forall₂_inFront hrest ?_ fun hl => hl.cons c mark
        simpa using overwrites_nil.cons c mark

end Marks

/-! ### Bytes -/

def bytesOf (cs : List Char) : List UInt8 := cs.flatMap String.utf8EncodeChar

@[simp] theorem bytesOf_nil : bytesOf [] = [] := rfl

@[simp] theorem bytesOf_cons (c : Char) (cs : List Char) :
    bytesOf (c :: cs) = String.utf8EncodeChar c ++ bytesOf cs := rfl

@[simp] theorem bytesOf_append (a b : List Char) : bytesOf (a ++ b) = bytesOf a ++ bytesOf b :=
  List.flatMap_append

theorem length_bytesOf (cs : List Char) : (bytesOf cs).length = byteLength cs := by
  induction cs with
  | nil => rfl
  | cons c cs ih => rw [bytesOf_cons, List.length_append, ih, String.length_utf8EncodeChar,
      byteLength]

def bytewise {α : Type} (cs : List Char) (marks : List α) : List α :=
  (cs.zip marks).flatMap fun (c, a) => List.replicate c.utf8Size a

@[simp] theorem bytewise_nil (marks : List α) : bytewise [] marks = [] := rfl

@[simp] theorem bytewise_cons (c : Char) (cs : List Char) (a : α) (marks : List α) :
    bytewise (c :: cs) (a :: marks) = List.replicate c.utf8Size a ++ bytewise cs marks := rfl

theorem length_bytewise {marks : List α} (h : marks.length = cs.length) :
    (bytewise cs marks).length = byteLength cs := by
  induction cs generalizing marks with
  | nil => rfl
  | cons c cs ih =>
    cases marks with
    | nil => cases h
    | cons a marks =>
      rw [bytewise_cons, List.length_append, List.length_replicate, ih (by simpa using h),
        byteLength]

/-- A byte as it stands, or a space in its place; a line feed stays. -/
def spelledByte (b : UInt8) (mark : Bool) : UInt8 := if mark && b != 10 then 32 else b

def overwriteBytes (bytes : List UInt8) (marks : List Bool) : List UInt8 :=
  List.zipWith spelledByte bytes marks

theorem utf8EncodeChar_of_lt (h : c.toNat < 128) :
    String.utf8EncodeChar c = [UInt8.ofNat c.toNat] := by
  have hle : c.val.toNat ≤ 127 := Nat.le_of_lt_succ h
  simp only [String.utf8EncodeChar, if_pos hle]
  rfl

/-- The bytes of a character that is not of ASCII are not either. -/
theorem le_of_mem_utf8EncodeChar (h : 128 ≤ c.toNat) {b : UInt8}
    (hb : b ∈ String.utf8EncodeChar c) : 128 ≤ b.toNat := by
  have hgt : ¬ c.val.toNat ≤ 127 := Nat.not_le.2 h
  simp only [String.utf8EncodeChar, if_neg hgt] at hb
  split at hb
  · simp only [List.mem_cons, List.not_mem_nil, or_false] at hb
    rcases hb with rfl | rfl <;> simp only [UInt8.toNat_ofNat'] <;> omega
  · split at hb
    · simp only [List.mem_cons, List.not_mem_nil, or_false] at hb
      rcases hb with rfl | rfl | rfl <;> simp only [UInt8.toNat_ofNat'] <;> omega
    · simp only [List.mem_cons, List.not_mem_nil, or_false] at hb
      rcases hb with rfl | rfl | rfl | rfl <;> simp only [UInt8.toNat_ofNat'] <;> omega

/-- A line feed is a byte of no other character. -/
theorem feed_notMem_utf8EncodeChar (hc : c ≠ '\n') : (10 : UInt8) ∉ String.utf8EncodeChar c := by
  intro hmem
  by_cases hascii : c.toNat < 128
  · rw [utf8EncodeChar_of_lt hascii, List.mem_singleton] at hmem
    have hnat := congrArg UInt8.toNat hmem
    rw [UInt8.toNat_ofNat', Nat.mod_eq_of_lt (by omega)] at hnat
    exact hc (Char.toNat_inj.1 hnat.symm)
  · exact absurd (le_of_mem_utf8EncodeChar (Nat.not_lt.1 hascii) hmem) (by decide)

theorem overwriteBytes_append {a b : List UInt8} {ms ns : List Bool} (h : a.length = ms.length) :
    overwriteBytes (a ++ b) (ms ++ ns) = overwriteBytes a ms ++ overwriteBytes b ns :=
  List.zipWith_append h

theorem overwriteBytes_replicate (bytes : List UInt8) (mark : Bool) :
    overwriteBytes bytes (List.replicate bytes.length mark) =
      bytes.map fun b => spelledByte b mark := by
  induction bytes with
  | nil => rfl
  | cons b bytes ih =>
    rw [List.length_cons, List.replicate_succ, List.map_cons, ← ih]
    rfl

/-- The bytes in the place of a character are its own bytes, or spaces over them. -/
theorem bytesOf_spelled (c : Char) (mark : Bool) :
    bytesOf (spelled (c, mark)) =
      overwriteBytes (String.utf8EncodeChar c) (List.replicate c.utf8Size mark) := by
  rw [← String.length_utf8EncodeChar c, overwriteBytes_replicate]
  cases mark with
  | false => simp [spelled, bytesOf, spelledByte]
  | true =>
    by_cases hc : c = '\n'
    · subst hc
      decide
    · have hspaces : ∀ n : Nat, bytesOf (List.replicate n ' ') = List.replicate n 32 := by
        intro n
        induction n with
        | zero => rfl
        | succ n ih =>
          rw [List.replicate_succ, bytesOf_cons, ih, List.replicate_succ]
          rfl
      have hfeed : ∀ b ∈ String.utf8EncodeChar c, b ≠ 10 := by
        rintro b hb rfl
        exact feed_notMem_utf8EncodeChar hc hb
      have hmap : (String.utf8EncodeChar c).map (fun b => spelledByte b true) =
          List.replicate c.utf8Size 32 := by
        rw [← String.length_utf8EncodeChar c, List.eq_replicate_iff]
        refine ⟨by simp, fun b hb => ?_⟩
        obtain ⟨b', hb', rfl⟩ := List.mem_map.1 hb
        simp [spelledByte, hfeed b' hb']
      simp [spelled, blanked, hc, hspaces, hmap]

theorem bytesOf_overwrite {marks : List Bool} (h : marks.length = cs.length) :
    bytesOf (overwrite cs marks) = overwriteBytes (bytesOf cs) (bytewise cs marks) := by
  induction cs generalizing marks with
  | nil => rfl
  | cons c cs ih =>
    cases marks with
    | nil => cases h
    | cons mark marks =>
      have hlength : (String.utf8EncodeChar c).length =
          (List.replicate c.utf8Size mark).length := by simp
      rw [overwrite_cons, bytesOf_append, bytesOf_spelled, ih (by simpa using h), bytesOf_cons,
        bytewise_cons, overwriteBytes_append hlength]

/-! ### The pass that erases annotations -/

/-- Where the pass stands: the last character of code that is left, whether only white space stands
before on the line, which of the next characters are to be overwritten, and how many are left of a
statement. -/
structure Eraser where
  prev : Option Char := none
  lineStart : Bool := true
  due : List Bool := []
  skip : Nat := 0

namespace Eraser

def lineStartBehind (e : Eraser) (c : Char) : Bool := c == '\n' || (e.lineStart && isAsciiBlank c)

def erasure (e : Eraser) (c : Char) (rest : List Char) (region : Region) : Erasure :=
  if region = .code then erasureAt e.prev e.lineStart c rest else .keep

def step (e : Eraser) (c : Char) (rest : List Char) (region : Region) (pragma : Bool) :
    Bool × Eraser :=
  if e.skip > 0 then (true, ⟨e.prev, e.lineStartBehind c, [], e.skip - 1⟩)
  else
    match (e.erasure c rest region).statementLength? with
    | some n => (true, ⟨e.prev, e.lineStartBehind c, [], n - 1⟩)
    | none =>
      let due := mergeDue e.due (e.erasure c rest region).due
      let mark := pragma || due.headD false
      (mark, ⟨if mark then e.prev else noteCode e.prev c region, e.lineStartBehind c, due.tail, 0⟩)

/-- All that a step can do: it goes on with a statement, begins one, or overwrites what is due. -/
theorem step_cases (e : Eraser) (c : Char) (rest : List Char) (region : Region) (pragma : Bool) :
    (0 < e.skip ∧
      e.step c rest region pragma = (true, ⟨e.prev, e.lineStartBehind c, [], e.skip - 1⟩)) ∨
    (e.skip = 0 ∧ ∃ n, e.erasure c rest region = .statement n ∧
      e.step c rest region pragma = (true, ⟨e.prev, e.lineStartBehind c, [], n - 1⟩)) ∨
    (e.skip = 0 ∧ (e.erasure c rest region).statementLength? = none ∧
      ∃ due mark, due = mergeDue e.due (e.erasure c rest region).due ∧
        mark = (pragma || due.headD false) ∧
        e.step c rest region pragma =
          (mark, ⟨if mark then e.prev else noteCode e.prev c region, e.lineStartBehind c,
            due.tail, 0⟩)) := by
  by_cases hskip : e.skip > 0
  · exact Or.inl ⟨hskip, by rw [step, if_pos hskip]⟩
  · have hzero : e.skip = 0 := Nat.eq_zero_of_not_pos hskip
    rw [step, if_neg hskip]
    cases herasure : e.erasure c rest region with
    | statement n => exact Or.inr (Or.inl ⟨hzero, n, rfl, rfl⟩)
    | keep => exact Or.inr (Or.inr ⟨hzero, rfl, _, _, rfl, rfl, rfl⟩)
    | mark skip n => exact Or.inr (Or.inr ⟨hzero, rfl, _, _, rfl, rfl, rfl⟩)

def marks (e : Eraser) : List Char → List (Region × Bool) → List Bool
  | c :: cs, (region, pragma) :: ms =>
    (e.step c cs region pragma).1 :: (e.step c cs region pragma).2.marks cs ms
  | _, _ => []

theorem erase_eq (e : Eraser) (cs : List Char) (ms : List (Region × Bool)) :
    erase e.prev e.lineStart e.due e.skip cs ms = overwrite cs (e.marks cs ms) := by
  induction cs generalizing e ms with
  | nil => rfl
  | cons c cs ih =>
    cases ms with
    | nil => rfl
    | cons p ms =>
      obtain ⟨region, pragma⟩ := p
      rw [erase, marks, overwrite_cons, ← ih]
      dsimp only
      rw [show (if region = .code then erasureAt e.prev e.lineStart c cs else .keep) =
        e.erasure c cs region from rfl]
      obtain ⟨hskip, hstep⟩ | ⟨hskip, n, herasure, hstep⟩ |
        ⟨hskip, hlength, due, mark, rfl, hmark, hstep⟩ := e.step_cases c cs region pragma
      · rw [if_pos hskip, hstep]
        rfl
      · rw [if_neg (by omega), herasure, hstep]
        rfl
      · rw [if_neg (by omega), hlength, hstep]
        dsimp only
        rw [← hmark]
        cases mark <;> rfl

theorem length_marks (e : Eraser) (cs : List Char) (ms : List (Region × Bool))
    (h : ms.length = cs.length) : (e.marks cs ms).length = cs.length := by
  induction cs generalizing e ms with
  | nil => rfl
  | cons c cs ih =>
    cases ms with
    | nil => cases h
    | cons p ms => rw [marks, List.length_cons, List.length_cons, ih _ ms (by simpa using h)]

end Eraser

theorem length_classify (cs : List Char) : (classify cs).length = cs.length := length_regions {} cs

theorem pragmaMarks_last (h : '\n' ∉ line) :
    pragmaMarks line = List.replicate line.length (isPragmaLine line) := by
  rw [pragmaMarks, splitFeeds_last h, List.flatMap_singleton, List.take_replicate,
    Nat.min_eq_left (Nat.le_succ _)]

theorem pragmaMarks_line (h : '\n' ∉ line) (cs : List Char) :
    pragmaMarks (line ++ '\n' :: cs) =
      List.replicate line.length (isPragmaLine line) ++ isPragmaLine line :: pragmaMarks cs := by
  rw [pragmaMarks, splitFeeds_line h, List.flatMap_cons, List.take_append, List.take_replicate,
    List.length_replicate, List.length_append, List.length_cons, Nat.min_eq_right (by omega),
    List.replicate_succ', List.append_assoc, List.singleton_append, pragmaMarks]
  congr 3
  omega

theorem length_pragmaMarks (cs : List Char) : (pragmaMarks cs).length = cs.length := by
  induction cs using line_induction with
  | last line hfeed => rw [pragmaMarks_last hfeed, List.length_replicate]
  | feed line cs hfeed ih =>
    rw [pragmaMarks_line hfeed, List.length_append, List.length_append, List.length_replicate,
      List.length_cons, List.length_cons, ih]

/-- The region of each character and whether it stands on a pragma line. -/
def annotations (cs : List Char) : List (Region × Bool) := (classify cs).zip (pragmaMarks cs)

theorem length_annotations (cs : List Char) : (annotations cs).length = cs.length := by
  rw [annotations, List.length_zip, length_classify, length_pragmaMarks, Nat.min_self]

def erasedMarks (cs : List Char) : List Bool := Eraser.marks {} cs (annotations cs)

theorem length_erasedMarks (cs : List Char) : (erasedMarks cs).length = cs.length :=
  Eraser.length_marks _ _ _ (length_annotations cs)

theorem toList_eraseFlow (text : String) :
    (eraseFlow text).toList = overwrite text.toList (erasedMarks text.toList) := by
  rw [eraseFlow, String.toList_ofList]
  exact Eraser.erase_eq {} text.toList (annotations text.toList)

end Revue.Source
