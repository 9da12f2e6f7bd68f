import Mathlib.Data.List.TakeWhile
import Revue.Proofs.PragmaErasure

/-!
# Words that are overwritten

A character of a word in code is overwritten for one of three reasons: its line is a pragma, it lies
in an import of types by value, or it belongs to the word of a check predicate. The first two hold
of a whole word or of none of it. The third holds of the six characters behind a percent sign, and
if the word goes on behind them it is cut.
-/

namespace Revue.Source
open Text

variable {c d : Char} {cs rest : List Char} {i k n : Nat} {text : String}

/-! ### Imports and check predicates -/

def ImportAt (cs : List Char) (start : Nat) : Prop :=
  startsLine (cs.take start) = true ∧ "import typeof ".toList <+: cs.drop start ∧
    (classify cs)[start]? = some Region.code

/-- A check predicate starts here: it stands in code, and not in an import. -/
structure ChecksAt (cs : List Char) (k : Nat) : Prop where
  code : (classify cs)[k]? = some Region.code
  spelled : '%' :: "checks".toList <+: cs.drop k
  outside : ¬ InImport cs k

def OverChecks (cs : List Char) (k : Nat) : Prop := ∃ j < k, ChecksAt cs j ∧ k ≤ j + 6

theorem startsLine_eq_false {a b : List Char} (hc : isAsciiBlank c = false) (hb : '\n' ∉ b) :
    startsLine (a ++ c :: b) = false := by
  have hfeed : ∀ d ∈ b.reverse, (d != '\n') = true := by
    intro d hd
    rw [List.mem_reverse] at hd
    exact bne_iff_ne.2 fun h => hb (h ▸ hd)
  have hne : (c != '\n') = true := by
    refine bne_iff_ne.2 ?_
    rintro rfl
    cases hc
  have hreverse : (a ++ c :: b).reverse = b.reverse ++ c :: a.reverse := by simp
  rw [startsLine, hreverse, List.takeWhile_append_of_pos hfeed, List.takeWhile_cons, if_pos hne,
    List.all_append, List.all_cons, hc, Bool.false_and, Bool.and_false]

theorem statementLength_le (cs : List Char) :
    statementLength cs ≤ (cs.takeWhile (· != '\n')).length := by
  have hbody : ((cs.takeWhile (· != '\n')).takeWhile (· != ';')).length ≤
      (cs.takeWhile (· != '\n')).length := (List.takeWhile_prefix _).length_le
  unfold statementLength
  dsimp only
  split <;> omega

/-- A statement ends behind its semicolon or at the end of its line. -/
theorem statementLength_end (cs : List Char) :
    cs[statementLength cs - 1]? = some ';' ∨ cs[statementLength cs]?.all (· == '\n') = true := by
  have hhead : ∀ (a : Char) (l : List Char), (l.dropWhile (· != a)).head?.all (· == a) = true := by
    intro a l
    have hstop := List.head?_dropWhile_not (· != a) l
    cases hl : (l.dropWhile (· != a)).head? with
    | none => rfl
    | some d =>
      rw [hl] at hstop
      simpa using hstop
  obtain ⟨line, after, hcs, hline, hafter⟩ : ∃ line after, cs = line ++ after ∧
      cs.takeWhile (· != '\n') = line ∧ after.head?.all (· == '\n') = true :=
    ⟨_, _, (List.takeWhile_append_dropWhile).symm, rfl, hhead '\n' cs⟩
  obtain ⟨body, tail, hsplit, hbody, htail⟩ : ∃ body tail, line = body ++ tail ∧
      line.takeWhile (· != ';') = body ∧ tail.head?.all (· == ';') = true :=
    ⟨_, _, (List.takeWhile_append_dropWhile).symm, rfl, hhead ';' line⟩
  rw [statementLength, hline, hbody]
  cases tail with
  | nil =>
    rw [List.append_nil] at hsplit
    subst hsplit
    rw [if_neg (Nat.lt_irrefl _), hcs, List.getElem?_append_right (Nat.le_refl _), Nat.sub_self,
      ← List.head?_eq_getElem?]
    exact Or.inr hafter
  | cons d tail =>
    obtain rfl : d = ';' := by simpa using htail
    subst hsplit
    rw [if_pos (by simp), hcs, Nat.add_sub_cancel, List.append_assoc,
      List.getElem?_append_right (Nat.le_refl _), Nat.sub_self]
    exact Or.inl rfl

/-- A statement lies on one line. -/
theorem feed_notMem_statement (h : n ≤ statementLength cs) : '\n' ∉ cs.take n := by
  intro hmem
  have hle := Nat.le_trans h (statementLength_le cs)
  have hbegins : cs.take n <+: cs.takeWhile (· != '\n') := by
    refine List.prefix_of_prefix_length_le (List.take_prefix n cs) (List.takeWhile_prefix _) ?_
    exact Nat.le_trans (List.length_take_le n cs) hle
  exact absurd (List.mem_takeWhile_imp (hbegins.subset hmem)) (by simp)

namespace ImportAt
variable {cs : List Char} {start : Nat}

/-- What stands right before an import is white space. -/
theorem isAsciiBlank_before (h : ImportAt cs (n + 1)) (hc : cs[n]? = some c) :
    isAsciiBlank c = true := by
  have htake : cs.take (n + 1) = cs.take n ++ [c] := by
    rw [List.take_add_one, hc]
    rfl
  have hstart := h.1
  rw [htake] at hstart
  by_contra hdark
  rw [startsLine_eq_false (Bool.eq_false_iff.2 hdark) List.not_mem_nil] at hstart
  cases hstart

theorem drop_eq (h : ImportAt cs start) : ∃ rest, cs.drop start = 'i' :: rest := by
  obtain ⟨rest, hrest⟩ := h.2.1
  exact ⟨_, hrest.symm⟩

theorem not_inside (h : ImportAt cs start) (hk : start < k)
    (hend : k < start + statementLength (cs.drop start)) : ¬ ImportAt cs k := by
  intro hinner
  obtain ⟨rest, hrest⟩ := h.drop_eq
  obtain ⟨n, rfl⟩ : ∃ n, k = start + (n + 1) := ⟨k - start - 1, by omega⟩
  have hfeed : '\n' ∉ (cs.drop start).take (n + 1) := feed_notMem_statement (by omega)
  have htake : cs.take (start + (n + 1)) = cs.take start ++ 'i' :: rest.take n := by
    rw [List.take_add, hrest]
    rfl
  rw [hrest, List.take_succ_cons] at hfeed
  have hline := hinner.1
  rw [htake, startsLine_eq_false (by decide) fun hmem => hfeed (List.mem_cons_of_mem _ hmem)]
    at hline
  cases hline

end ImportAt

namespace ChecksAt
variable {cs : List Char} {k : Nat}

theorem getElem?_word (h : ChecksAt cs k) (hi : i < 7) :
    cs[k + i]? = ('%' :: "checks".toList)[i]? := by
  obtain ⟨rest, hrest⟩ := h.spelled
  rw [← List.getElem?_drop, ← hrest, List.getElem?_append_left hi]

/-- A check predicate does not reach into an import. -/
theorem not_inImport (h : ChecksAt cs k) (hk : k ≤ n) (hn : n ≤ k + 6) : ¬ InImport cs n := by
  rintro ⟨start, hle, hlt, himport⟩
  rcases Nat.lt_or_ge k start with hbefore | hbehind
  · obtain ⟨i, rfl⟩ : ∃ i, start = k + i + 1 := ⟨start - k - 1, by omega⟩
    have hi : i < 7 := by omega
    obtain ⟨c, hc⟩ : ∃ c, ('%' :: "checks".toList)[i]? = some c :=
      ⟨_, List.getElem?_eq_getElem hi⟩
    have hblank := ImportAt.isAsciiBlank_before himport ((h.getElem?_word hi).trans hc)
    have hdark : ('%' :: "checks".toList).all (fun c => !isAsciiBlank c) = true := by decide
    have hnot := List.all_eq_true.1 hdark c (List.mem_of_getElem? hc)
    rw [hblank] at hnot
    cases hnot
  · exact h.outside ⟨start, hbehind, by omega, himport⟩

end ChecksAt

/-! ### The pass over words -/

theorem headD_iff_getElem?_zero {bs : List Bool} : bs.headD false = true ↔ bs[0]? = some true := by
  cases bs <;> simp

theorem erasureAt_due_of_isAsciiWord (hc : isAsciiWord c = true) (prev : Option Char)
    (lineStart : Bool) (rest : List Char) : (erasureAt prev lineStart c rest).due = [] := by
  have hne : ∀ a : Char, isAsciiWord a = false → c ≠ a := fun a => ne_of_isAsciiWord hc
  obtain ⟨rfl, -, -⟩ | ⟨rfl, -, -⟩ | ⟨hmem, -⟩ | ⟨-, -, heq⟩ | heq :=
    erasureAt_cases prev lineStart c rest
  · exact absurd rfl (hne _ (by decide))
  · exact absurd rfl (hne _ (by decide))
  · simp only [List.mem_cons, List.not_mem_nil, or_false] at hmem
    rcases hmem with rfl | rfl | rfl | rfl <;> exact absurd rfl (hne _ (by decide))
  · rw [heq]
    rfl
  · rw [heq]
    rfl

theorem erasureAt_checks (h : "checks".toList <+: rest) (prev : Option Char) (lineStart : Bool) :
    erasureAt prev lineStart '%' rest = .mark 0 7 := by
  have hbegins := List.isPrefixOf_iff_prefix.2 h
  rw [erasureAt]
  simp only [hbegins]
  simp

/-- What becomes due over a word behind a character of code is a check predicate that starts at
this character. -/
theorem erasureAt_due_iff (hd : rest[i]? = some d) (hword : isAsciiWord d = true)
    (prev : Option Char) (lineStart : Bool) :
    (erasureAt prev lineStart c rest).due[i + 1]? = some true ↔
      '%' :: "checks".toList <+: c :: rest ∧ i < 6 := by
  by_cases hchecks : '%' :: "checks".toList <+: c :: rest
  · obtain ⟨rfl, hrest⟩ := List.cons_prefix_cons.1 hchecks
    have hseven : (Erasure.mark 0 7).due = List.replicate 7 true := rfl
    rw [and_iff_right hchecks, erasureAt_checks hrest, hseven, List.getElem?_replicate,
      Option.ite_none_right_eq_some]
    exact ⟨fun h => by omega, fun h => ⟨by omega, rfl⟩⟩
  · refine iff_of_false (fun hdue => ?_) fun h => hchecks h.1
    obtain ⟨-, ⟨t, rfl⟩, heq⟩ | ⟨rfl, hrest, -⟩ | ⟨-, heq⟩ | ⟨-, -, heq⟩ | heq :=
      erasureAt_cases prev lineStart c rest
    -- the bar behind an opening brace is no character of a word
    · rw [heq] at hdue
      rcases i with - | i
      · obtain rfl : '|' = d := Option.some.inj hd
        cases hword
      · cases hdue
    · exact hchecks (List.cons_prefix_cons.2 ⟨rfl, hrest⟩)
    all_goals
      rw [heq] at hdue
      cases hdue

theorem erasureAt_import (h : "import typeof ".toList <+: c :: rest) (prev : Option Char) :
    erasureAt prev true c rest = .statement (statementLength (c :: rest)) := by
  obtain rfl : c = 'i' := by
    obtain ⟨t, ht⟩ := h
    exact (List.cons.inj ht).1.symm
  have hbegins := List.isPrefixOf_iff_prefix.2 h
  rw [erasureAt]
  simp only [hbegins]
  simp

/-- The pass stands behind `done`: it knows of each import that it has come to, and what is due over
words are the check predicates that it has come to. -/
structure Follows (cs : List Char) (e : Eraser) (done rest : List Char) (s : Scan) : Prop
    extends Tracks cs e done rest s where
  covers : ∀ start < done.length, ImportAt cs start →
    start + statementLength (cs.drop start) ≤ done.length + e.skip
  dueIff : ∀ (i : Nat) (c : Char), rest[i]? = some c → isAsciiWord c = true →
    (e.due[i]? = some true ↔ ∃ j < done.length, ChecksAt cs j ∧ done.length + i ≤ j + 6)

namespace Follows
variable {cs : List Char} {e : Eraser} {done : List Char} {c : Char} {rest : List Char} {s : Scan}

section
variable (h : Follows cs e done (c :: rest) s)
include h

theorem drop_eq : cs.drop done.length = c :: rest := by
  rw [h.text, List.drop_left]

theorem region : (classify cs)[done.length]? = some (s.step c rest.head?).1 := h.regions 0

theorem importAt_iff :
    ImportAt cs done.length ↔ e.lineStart = true ∧ "import typeof ".toList <+: c :: rest ∧
      (s.step c rest.head?).1 = .code := by
  have htake : cs.take done.length = done := by rw [h.text, List.take_left]
  rw [ImportAt, htake, h.drop_eq, h.region, h.lineStart, Option.some.injEq]

/-- A character that starts no import, and is not in the middle of one, is in none. -/
theorem not_inImport (hskip : e.skip = 0) (hstart : ¬ ImportAt cs done.length) :
    ¬ InImport cs done.length := by
  rintro ⟨start, hle, hlt, himport⟩
  rcases Nat.lt_or_eq_of_le hle with hbefore | rfl
  · have hcovered := h.covers start hbefore himport
    omega
  · exact hstart himport

theorem not_importAt (hnone : (e.erasure c rest (s.step c rest.head?).1).statementLength? = none) :
    ¬ ImportAt cs done.length := by
  rw [h.importAt_iff]
  rintro ⟨hstart, himport, hcode⟩
  rw [Eraser.erasure, if_pos hcode, hstart, erasureAt_import himport] at hnone
  cases hnone

end

/-- Inside of an import no check predicate is open. -/
theorem not_checksAt (himport : InImport cs n) (i : Nat) :
    ¬ ∃ j < n + 1, ChecksAt cs j ∧ n + 1 + i ≤ j + 6 := by
  rintro ⟨j, hj, hchecks, hle⟩
  exact hchecks.not_inImport (Nat.le_of_lt_succ hj) (by omega) himport

/-- One more character of an import. -/
theorem of_inImport {e' : Eraser} {s' : Scan} (htracks : Tracks cs e' (done ++ [c]) rest s')
    (hinside : InImport cs done.length) (hdue : e'.due = [])
    (hcovers : ∀ start < done.length + 1, ImportAt cs start →
      start + statementLength (cs.drop start) ≤ done.length + 1 + e'.skip) :
    Follows cs e' (done ++ [c]) rest s' := by
  have hlength : (done ++ [c]).length = done.length + 1 := by simp
  refine ⟨htracks, by rwa [hlength], fun i d _ _ => ?_⟩
  rw [hlength, hdue]
  exact iff_of_false (by simp) (not_checksAt hinside i)

section
variable (h : Follows cs e done (c :: rest) s)
include h

/-- With one more character, as many as `skip` may be left of an import. -/
theorem covers_succ {skip : Nat} (hskip : e.skip ≤ skip + 1)
    (hhere : ImportAt cs done.length → statementLength (cs.drop done.length) ≤ skip + 1) :
    ∀ start < done.length + 1, ImportAt cs start →
      start + statementLength (cs.drop start) ≤ done.length + 1 + skip := by
  intro start hlt himport
  rcases Nat.lt_or_eq_of_le (Nat.le_of_lt_succ hlt) with hbefore | rfl
  · have hcovered := h.covers start hbefore himport
    omega
  · have hlength := hhere himport
    omega

theorem erasure_due_iff (houtside : ¬ InImport cs done.length) (hd : rest[i]? = some d)
    (hword : isAsciiWord d = true) :
    (e.erasure c rest (s.step c rest.head?).1).due[i + 1]? = some true ↔
      ChecksAt cs done.length ∧ i < 6 := by
  by_cases hcode : (s.step c rest.head?).1 = .code
  · rw [Eraser.erasure, if_pos hcode, erasureAt_due_iff hd hword, ← h.drop_eq]
    refine and_congr_left fun _ => ⟨fun hspelled => ?_, ChecksAt.spelled⟩
    exact ⟨h.region.trans (congrArg some hcode), hspelled, houtside⟩
  · rw [Eraser.erasure, if_neg hcode]
    refine iff_of_false (by simp [Erasure.due]) fun hchecks => hcode ?_
    exact Option.some.inj (h.region.symm.trans hchecks.1.code)

/-- One character: the pass goes on, and a character of a word in code is overwritten exactly if it
has one of three reasons. -/
theorem step (pragma : Bool) :
    Follows cs (e.step c rest (s.step c rest.head?).1 pragma).2 (done ++ [c]) rest
        (s.step c rest.head?).2 ∧
      (isAsciiWord c = true → (s.step c rest.head?).1 = .code →
        ((e.step c rest (s.step c rest.head?).1 pragma).1 = true ↔
          pragma = true ∨ InImport cs done.length ∨ OverChecks cs done.length)) := by
  have htracks := (h.toTracks.step pragma).1
  have hlength : (done ++ [c]).length = done.length + 1 := by simp
  obtain ⟨hskip, hstep⟩ | ⟨hskip, n, herasure, hstep⟩ |
    ⟨hskip, hnone, due, mark, hdue, hmark, hstep⟩ :=
      e.step_cases c rest (s.step c rest.head?).1 pragma
  · have hinside := h.inImport hskip
    rw [hstep] at htracks ⊢
    refine ⟨of_inImport htracks hinside rfl ?_,
      fun _ _ => iff_of_true rfl (Or.inr (Or.inl hinside))⟩
    refine h.covers_succ (Nat.le_succ_of_pred_le (Nat.le_refl _)) fun himport => ?_
    -- an import that starts here is the one that the pass is in
    obtain ⟨first, hle, hend, hfirst⟩ := h.skip hskip
    obtain rfl : first = done.length := by
      refine Nat.le_antisymm hle (Nat.not_lt.1 fun hlt => ?_)
      exact ImportAt.not_inside hfirst hlt (by omega) himport
    dsimp only
    omega
  · obtain ⟨hr, hstart, himport, rfl⟩ := Eraser.erasure_statement herasure
    have hat : ImportAt cs done.length := h.importAt_iff.2 ⟨hstart, himport, hr⟩
    have hpos := (statementLength_pos himport).2
    have hinside : InImport cs done.length :=
      ⟨done.length, Nat.le_refl _, by rw [h.drop_eq]; omega, hat⟩
    rw [hstep] at htracks ⊢
    refine ⟨of_inImport htracks hinside rfl (h.covers_succ (by omega) fun _ => ?_),
      fun _ _ => iff_of_true rfl (Or.inr (Or.inl hinside))⟩
    rw [h.drop_eq]
    exact Nat.le_succ_of_pred_le (Nat.le_refl _)
  · have hat := h.not_importAt hnone
    have houtside := h.not_inImport hskip hat
    rw [hstep] at htracks ⊢
    refine ⟨⟨htracks, ?_, fun i d hd hword => ?_⟩, fun hword hcode => ?_⟩
    · rw [hlength]
      exact h.covers_succ (by omega) fun himport => absurd himport hat
    · rw [hlength, List.getElem?_tail, hdue, getElem?_mergeDue_iff,
        h.dueIff (i + 1) d (by simpa using hd) hword, h.erasure_due_iff houtside hd hword]
      constructor
      · rintro (⟨j, hj, hchecks, hle⟩ | ⟨hchecks, hi⟩)
        · exact ⟨j, by omega, hchecks, by omega⟩
        · exact ⟨done.length, Nat.lt_succ_self _, hchecks, by omega⟩
      · rintro ⟨j, hj, hchecks, hle⟩
        rcases Nat.lt_or_eq_of_le (Nat.le_of_lt_succ hj) with hbefore | rfl
        · exact Or.inl ⟨j, hbefore, hchecks, by omega⟩
        · exact Or.inr ⟨hchecks, by omega⟩
    · have hkeep : (e.erasure c rest (s.step c rest.head?).1).due = [] := by
        rw [Eraser.erasure, if_pos hcode]
        exact erasureAt_due_of_isAsciiWord hword _ _ _
      have hover := h.dueIff 0 c List.getElem?_cons_zero hword
      rw [hmark, hdue, hkeep, mergeDue_nil_right, Bool.or_eq_true, headD_iff_getElem?_zero, hover]
      simp only [houtside, false_or, OverChecks, Nat.add_zero]

end

/-- From any place on, words in code are overwritten for the same three reasons. -/
theorem marks (h : Follows cs e done rest s) {pragmas : List Bool}
    (hlength : pragmas.length = rest.length) (hc : rest[k]? = some c)
    (hword : isAsciiWord c = true) (hcode : (s.regions rest)[k]? = some Region.code) :
    (e.marks rest ((s.regions rest).zip pragmas))[k]? = some true ↔
      pragmas[k]? = some true ∨ InImport cs (done.length + k) ∨
        OverChecks cs (done.length + k) := by
  induction rest generalizing e done s pragmas k with
  | nil => cases hc
  | cons d rest ih =>
    cases pragmas with
    | nil => cases hlength
    | cons pragma pragmas =>
      obtain ⟨hnext, hmark⟩ := h.step pragma
      cases k with
      | zero =>
        obtain rfl : d = c := Option.some.inj hc
        have hfirst : (e.marks (d :: rest) ((s.regions (d :: rest)).zip (pragma :: pragmas)))[0]? =
            some (e.step d rest (s.step d rest.head?).1 pragma).1 := rfl
        rw [hfirst, List.getElem?_cons_zero, Option.some.injEq, Option.some.injEq]
        exact hmark hword (Option.some.inj hcode)
      | succ k =>
        have hrest := ih hnext (by simpa using hlength) hc hcode
        rw [List.length_append, List.length_singleton, Nat.add_assoc, Nat.add_comm 1] at hrest
        exact hrest

end Follows

structure CodeWord (cs : List Char) (k : Nat) : Prop where
  word : ∃ c, cs[k]? = some c ∧ isAsciiWord c = true
  code : (classify cs)[k]? = some Region.code

theorem CodeWord.erasedMarks_iff (h : CodeWord cs k) :
    (erasedMarks cs)[k]? = some true ↔
      (pragmaMarks cs)[k]? = some true ∨ InImport cs k ∨ OverChecks cs k := by
  have hinit : Follows cs {} [] cs {} := {
    toTracks := Tracks.init cs
    covers := fun start hlt => absurd hlt (Nat.not_lt_zero start)
    dueIff := fun i c _ _ => by simp }
  obtain ⟨c, hc, hword⟩ := h.word
  have hmarks := hinit.marks (length_pragmaMarks cs) hc hword h.code
  rwa [List.length_nil, Nat.zero_add] at hmarks

/-! ### One word -/

namespace CodeWord
variable {cs : List Char} {k : Nat}

theorem not_isAsciiBlank (hc : isAsciiWord c = true) : isAsciiBlank c = false := by
  have hne : ∀ a : Char, isAsciiWord a = false → c ≠ a := fun a => ne_of_isAsciiWord hc
  simp [isAsciiBlank, hne ' ' (by decide), hne '\t' (by decide), hne '\n' (by decide),
    hne '\x0c' (by decide), hne '\r' (by decide)]

/-- Two neighbours in a word stand on the same line. -/
theorem pragmaMarks_succ (hc : cs[k]? = some c) (hd : cs[k + 1]? = some d) (hne : c ≠ '\n') :
    (pragmaMarks cs)[k + 1]? = (pragmaMarks cs)[k]? := by
  induction cs using line_induction generalizing k with
  | last line hfeed =>
    obtain ⟨hlt, -⟩ := List.getElem?_eq_some_iff.1 hd
    rw [pragmaMarks_last hfeed, List.getElem?_replicate, List.getElem?_replicate, if_pos hlt,
      if_pos (Nat.lt_of_succ_lt hlt)]
  | feed line cs hfeed ih =>
    rcases Nat.lt_trichotomy k line.length with hlt | rfl | hgt
    · rw [getElem?_pragmaMarks_line hfeed cs hlt, getElem?_pragmaMarks_line hfeed cs hlt.le]
    · rw [List.getElem?_append_right (Nat.le_refl _), Nat.sub_self] at hc
      exact absurd (Option.some.inj hc).symm hne
    · obtain ⟨j, rfl⟩ : ∃ j, k = line.length + 1 + j := ⟨k - (line.length + 1), by omega⟩
      have hbehind : ∀ i : Nat, (line ++ '\n' :: cs)[line.length + 1 + i]? = cs[i]? := fun i => by
        rw [List.append_cons, List.getElem?_append_right (by simp)]
        simp
      rw [hbehind] at hc
      rw [Nat.add_assoc (line.length + 1), hbehind] at hd
      rw [Nat.add_assoc (line.length + 1), getElem?_pragmaMarks_behind hfeed,
        getElem?_pragmaMarks_behind hfeed, ih hc hd]

theorem inImport_succ (h : CodeWord cs k) (h' : CodeWord cs (k + 1)) :
    InImport cs (k + 1) ↔ InImport cs k := by
  obtain ⟨c, hc, hword⟩ := h.word
  obtain ⟨d, hd, hword'⟩ := h'.word
  constructor
  · rintro ⟨start, hle, hlt, himport⟩
    rcases Nat.lt_or_eq_of_le hle with hbefore | rfl
    · exact ⟨start, Nat.le_of_lt_succ hbefore, by omega, himport⟩
    · have hblank := ImportAt.isAsciiBlank_before himport hc
      rw [not_isAsciiBlank hword] at hblank
      cases hblank
  · rintro ⟨start, hle, hlt, himport⟩
    refine ⟨start, by omega, ?_, himport⟩
    by_contra hend
    have hlength : statementLength (cs.drop start) = k + 1 - start := by omega
    rcases statementLength_end (cs.drop start) with hsemicolon | hfeed
    · rw [hlength, List.getElem?_drop, show start + (k + 1 - start - 1) = k by omega, hc,
        Option.some.injEq] at hsemicolon
      subst hsemicolon
      cases hword
    · rw [hlength, List.getElem?_drop, show start + (k + 1 - start) = k + 1 by omega, hd] at hfeed
      obtain rfl : d = '\n' := by simpa using hfeed
      cases hword'

end CodeWord

theorem ChecksAt.codeWord (h : ChecksAt cs k) (hi : i < 6) : CodeWord cs (k + 1 + i) := by
  rw [Nat.add_assoc, Nat.add_comm 1]
  have hlt : i + 1 < ('%' :: "checks".toList).length := Nat.succ_lt_succ hi
  obtain ⟨rest, hrest⟩ := h.spelled
  have hlength : (cs.take k).length = k := by
    have hpos : 0 < (cs.drop k).length := by
      rw [← hrest]
      exact Nat.succ_pos _
    rw [List.length_drop] at hpos
    rw [List.length_take]
    omega
  have hregion : ∀ j : Nat, (classify cs)[k + j]? =
      ((Scan.after {} (cs.take k) (cs.drop k)).regions (cs.drop k))[j]? := fun j => by
    have happend := Scan.getElem?_regions_append {} (cs.take k) (cs.drop k) j
    rwa [List.take_append_drop, hlength] at happend
  have hmode : (Scan.after {} (cs.take k) (cs.drop k)).mode = .code := by
    have hcode := (hregion 0).symm.trans h.code
    rw [← hrest] at hcode ⊢
    exact Scan.mode_of_code (c := '%') (by decide) (Option.some.inj hcode)
  constructor
  · have hword : "checks".toList.all isAsciiWord = true := by decide
    refine ⟨_, (h.getElem?_word hlt).trans (List.getElem?_eq_getElem hlt),
      List.all_eq_true.1 hword _ ?_⟩
    exact List.getElem_mem (l := "checks".toList) hi
  · rw [hregion]
    rw [← hrest] at hmode ⊢
    exact Scan.regions_of_isPlain hmode (by decide) rest hlt

/-! ### Bytes of a word -/

section Ascii
variable {cs : List Char} {k : Nat} {c : Char}

/-- A character of ASCII is found at its byte. -/
theorem getElem?_asChars (hc : c.toNat < 128) :
    (asChars (bytesOf cs))[k]? = some c ↔ cs[charIndex cs k]? = some c := by
  induction cs generalizing k with
  | nil => simp [asChars]
  | cons d cs ih =>
    have hlength : (asChars (String.utf8EncodeChar d)).length = d.utf8Size := by
      rw [asChars, List.length_map, String.length_utf8EncodeChar]
    rw [bytesOf_cons, asChars_append, charIndex]
    by_cases hk : k < d.utf8Size
    · rw [if_pos hk, List.getElem?_append_left (by rwa [hlength]), List.getElem?_cons_zero]
      by_cases hd : d.toNat < 128
      · obtain rfl : k = 0 := by
          rw [utf8Size_of_lt hd] at hk
          exact Nat.lt_one_iff.1 hk
        rw [asChars_of_lt hd, List.getElem?_cons_zero]
      · refine iff_of_false (fun hbyte => ?_) fun heq => ?_
        · have hhigh := (asChars_of_le (Nat.not_lt.1 hd)).2 c (List.mem_of_getElem? hbyte)
          omega
        · exact hd (Option.some.inj heq ▸ hc)
    · rw [if_neg hk, List.getElem?_append_right (by rw [hlength]; omega), hlength,
        List.getElem?_cons_succ, ih]

/-- A character of ASCII starts at its byte. -/
theorem byteLength_take_charIndex (h : cs[charIndex cs k]? = some c) (hc : c.toNat < 128) :
    byteLength (cs.take (charIndex cs k)) = k := by
  induction cs generalizing k with
  | nil => cases h
  | cons d cs ih =>
    rw [charIndex] at h ⊢
    by_cases hk : k < d.utf8Size
    · rw [if_pos hk] at h ⊢
      obtain rfl : d = c := Option.some.inj h
      rw [utf8Size_of_lt hc] at hk
      exact (Nat.lt_one_iff.1 hk).symm
    · rw [if_neg hk] at h ⊢
      rw [List.take_succ_cons, byteLength, ih h]
      omega

theorem byteLength_take_succ (h : cs[k]? = some c) (hc : c.toNat < 128) :
    byteLength (cs.take (k + 1)) = byteLength (cs.take k) + 1 := by
  rw [List.take_add_one, h, byteLength_append, Option.toList_some, byteLength, utf8Size_of_lt hc,
    byteLength]

theorem charIndex_succ (h : cs[charIndex cs k]? = some c) (hc : c.toNat < 128) :
    charIndex cs (k + 1) = charIndex cs k + 1 := by
  obtain ⟨hlt, -⟩ := List.getElem?_eq_some_iff.1 h
  have hnext := byteLength_take_succ h hc
  rw [byteLength_take_charIndex h hc] at hnext
  exact hnext ▸ charIndex_byteLength hlt

end Ascii

structure WordAt (text : String) (k : Nat) : Prop where
  byte : ∃ b, text.toByteArray.data.toList[k]? = some b ∧ isAsciiWord (asChar b) = true
  code : (classifyBytes text.toList)[k]? = some Region.code

instance (text : String) (k : Nat) : Decidable (WordAt text k) :=
  decidable_of_iff (text.toByteArray.data.toList[k]?.any (fun b => isAsciiWord (asChar b)) = true ∧
      (classifyBytes text.toList)[k]? = some Region.code)
    ⟨fun h => ⟨Option.any_eq_true _ _ |>.1 h.1, h.2⟩, fun h =>
      ⟨Option.any_eq_true _ _ |>.2 h.byte, h.code⟩⟩

theorem wordAt_iff : WordAt text k ↔ CodeWord text.toList (charIndex text.toList k) := by
  have hbytes : text.toByteArray.data.toList = bytesOf text.toList := toByteArray_toList text
  constructor
  · rintro ⟨⟨b, hb, hword⟩, hcode⟩
    rw [getElem?_classifyBytes] at hcode
    refine ⟨⟨asChar b, (getElem?_asChars (toNat_lt_of_isAsciiWord hword)).1 ?_, hword⟩, hcode⟩
    rw [asChars, List.getElem?_map, ← hbytes, hb, Option.map_some]
  · rintro ⟨⟨c, hc, hword⟩, hcode⟩
    have hbyte := (getElem?_asChars (toNat_lt_of_isAsciiWord hword)).2 hc
    rw [asChars, List.getElem?_map, ← hbytes, Option.map_eq_some_iff] at hbyte
    obtain ⟨b, hb, rfl⟩ := hbyte
    exact ⟨⟨b, hb, hword⟩, by rwa [getElem?_classifyBytes]⟩

/-- The bytes from one offset up to another are left as they are. -/
def Kept (text : String) (start stop : Nat) : Prop :=
  ∀ k, start ≤ k → k < stop →
    (eraseFlow text).toByteArray.data.toList[k]? = text.toByteArray.data.toList[k]?

/-- The bytes from one offset up to another are overwritten by spaces. -/
def Overwritten (text : String) (start stop : Nat) : Prop :=
  ∀ k, start ≤ k → k < stop → (eraseFlow text).toByteArray.data.toList[k]? = some 32

/-- A byte of a word is overwritten if its character is marked, and is left as it is otherwise. -/
theorem WordAt.erased (h : WordAt text k) :
    ((eraseFlow text).toByteArray.data.toList[k]? = some 32 ↔
      (erasedMarks text.toList)[charIndex text.toList k]? = some true) ∧
    ((eraseFlow text).toByteArray.data.toList[k]? = text.toByteArray.data.toList[k]? ↔
      ¬ (erasedMarks text.toList)[charIndex text.toList k]? = some true) := by
  have hmarks := length_erasedMarks text.toList
  obtain ⟨b, hb, hword⟩ := h.byte
  have hspace : b ≠ 32 := by
    rintro rfl
    cases hword
  have hfeed : b ≠ 10 := by
    rintro rfl
    cases hword
  obtain ⟨mark, hmark⟩ : ∃ mark,
      (erasedMarks text.toList)[charIndex text.toList k]? = some mark := by
    obtain ⟨c, hc, -⟩ := (wordAt_iff.1 h).word
    obtain ⟨hlt, -⟩ := List.getElem?_eq_some_iff.1 hc
    exact ⟨_, List.getElem?_eq_getElem (by rwa [hmarks])⟩
  have hout : (eraseFlow text).toByteArray.data.toList[k]? = some (spelledByte b mark) := by
    rw [toByteArray_toList, ← bytesOf, toList_eraseFlow, bytesOf_overwrite hmarks, overwriteBytes,
      List.getElem?_zipWith, getElem?_bytewise hmarks, hmark, bytesOf, ← toByteArray_toList, hb]
  rw [hout, hb, hmark]
  cases mark <;> simp [spelledByte, hfeed, hspace, Ne.symm hspace]

/-! ### Words as runs of bytes -/

/-- A word in code: bytes that belong to words in code, with no more such bytes around them. -/
structure CodeRun (text : String) (start stop : Nat) : Prop where
  lt : start < stop
  word : ∀ k, start ≤ k → k < stop → WordAt text k
  before : ∀ k, k + 1 = start → ¬ WordAt text k
  behind : ¬ WordAt text stop

instance (text : String) (start stop : Nat) : Decidable (CodeRun text start stop) :=
  decidable_of_iff (start < stop ∧ (∀ k < stop, start ≤ k → WordAt text k) ∧
      (∀ k < start, k + 1 = start → ¬ WordAt text k) ∧ ¬ WordAt text stop)
    ⟨fun h => ⟨h.1, fun k hle hlt => h.2.1 k hlt hle, fun k hk => h.2.2.1 k (by omega) hk, h.2.2.2⟩,
      fun h => ⟨h.lt, fun k hlt hle => h.word k hle hlt, fun k _ hk => h.before k hk, h.behind⟩⟩

def ErasedWhole (cs : List Char) (k : Nat) : Prop :=
  (pragmaMarks cs)[k]? = some true ∨ InImport cs k

def BehindPercent (cs : List Char) (k : Nat) : Prop := ∃ q, q + 1 = k ∧ ChecksAt cs q

/-- A word goes on behind the word of a check predicate, and not on a pragma line. -/
structure Cut (text : String) (start stop : Nat) : Prop where
  checks : BehindPercent text.toList (charIndex text.toList start)
  pragma : (pragmaMarks text.toList)[charIndex text.toList start]? = some false
  long : start + 6 < stop

theorem Cut.not_erasedWhole {start stop : Nat} (h : Cut text start stop) :
    ¬ ErasedWhole text.toList (charIndex text.toList start) := by
  rintro (hpragma | himport)
  · rw [h.pragma] at hpragma
    cases hpragma
  · obtain ⟨q, hq, hchecks⟩ := h.checks
    exact hchecks.not_inImport (by omega) (by omega) himport

namespace CodeRun
variable {text : String} {start stop : Nat}

section
variable (h : CodeRun text start stop)
include h

theorem first : CodeWord text.toList (charIndex text.toList start) :=
  wordAt_iff.1 (h.word start (Nat.le_refl _) h.lt)

theorem codeWord (hi : start + i < stop) :
    CodeWord text.toList (charIndex text.toList start + i) ∧
      charIndex text.toList (start + i) = charIndex text.toList start + i := by
  induction i with
  | zero => exact ⟨h.first, rfl⟩
  | succ i ih =>
    obtain ⟨hword, hindex⟩ := ih (by omega)
    obtain ⟨c, hc, hascii⟩ := hword.word
    have hnext := charIndex_succ (hindex ▸ hc) (toNat_lt_of_isAsciiWord hascii)
    rw [hindex] at hnext
    exact ⟨hnext ▸ wordAt_iff.1 (h.word (start + (i + 1)) (by omega) hi), hnext⟩

theorem not_codeWord_before {q : Nat} (hq : q + 1 = charIndex text.toList start) :
    ¬ CodeWord text.toList q := by
  intro hword
  obtain ⟨c, hc, hascii⟩ := hword.word
  obtain ⟨d, hd, hascii'⟩ := h.first.word
  have hstart := byteLength_take_charIndex hd (toNat_lt_of_isAsciiWord hascii')
  rw [← hq, byteLength_take_succ hc (toNat_lt_of_isAsciiWord hascii)] at hstart
  refine h.before _ hstart (wordAt_iff.2 ?_)
  rwa [charIndex_byteLength (Nat.le_of_lt (List.getElem?_eq_some_iff.1 hc).1)]

/-- Only from the start of a word on can a check predicate lie over it. -/
theorem overChecks_iff (hi : start + i < stop) :
    OverChecks text.toList (charIndex text.toList start + i) ↔
      BehindPercent text.toList (charIndex text.toList start) ∧ i < 6 := by
  constructor
  · rintro ⟨q, hlt, hchecks, hle⟩
    have hpercent : text.toList[q]? = some '%' := hchecks.getElem?_word (i := 0) (by decide)
    have hbefore : q < charIndex text.toList start := by
      by_contra hge
      obtain ⟨c, hc, hword⟩ :=
        (h.codeWord (i := q - charIndex text.toList start) (by omega)).1.word
      rw [Nat.add_sub_cancel' (Nat.not_lt.1 hge), hpercent] at hc
      obtain rfl : '%' = c := Option.some.inj hc
      cases hword
    have hfirst : q + 1 = charIndex text.toList start := by
      by_contra hne
      have hword := hchecks.codeWord (i := charIndex text.toList start - (q + 2)) (by omega)
      exact h.not_codeWord_before (by omega) hword
    exact ⟨⟨q, hfirst, hchecks⟩, by omega⟩
  · rintro ⟨⟨q, hq, hchecks⟩, hshort⟩
    exact ⟨q, by omega, hchecks, by omega⟩

/-- A word lies in an import, or on a pragma line, as a whole. -/
theorem reasons_eq (hi : start + i < stop) :
    ((pragmaMarks text.toList)[charIndex text.toList start + i]? =
        (pragmaMarks text.toList)[charIndex text.toList start]?) ∧
      (InImport text.toList (charIndex text.toList start + i) ↔
        InImport text.toList (charIndex text.toList start)) := by
  induction i with
  | zero => exact ⟨rfl, Iff.rfl⟩
  | succ i ih =>
    obtain ⟨hpragma, himport⟩ := ih (by omega)
    have hword := (h.codeWord (i := i) (by omega)).1
    have hnext := (h.codeWord hi).1
    obtain ⟨c, hc, hascii⟩ := hword.word
    obtain ⟨d, hd, -⟩ := hnext.word
    have hfeed := ne_of_isAsciiWord hascii (a := '\n') (by decide)
    exact ⟨(CodeWord.pragmaMarks_succ hc hd hfeed).trans hpragma,
      (hword.inImport_succ hnext).trans himport⟩

/-- A byte of a word is overwritten for a reason that the whole word has, or because it is among
the first six behind the percent sign of a check predicate. -/
theorem erased_iff (hle : start ≤ k) (hlt : k < stop) :
    ((eraseFlow text).toByteArray.data.toList[k]? = some 32 ↔
      ErasedWhole text.toList (charIndex text.toList start) ∨
        BehindPercent text.toList (charIndex text.toList start) ∧ k < start + 6) ∧
    ((eraseFlow text).toByteArray.data.toList[k]? = text.toByteArray.data.toList[k]? ↔
      ¬ (ErasedWhole text.toList (charIndex text.toList start) ∨
        BehindPercent text.toList (charIndex text.toList start) ∧ k < start + 6)) := by
  have hmark : (erasedMarks text.toList)[charIndex text.toList k]? = some true ↔
      ErasedWhole text.toList (charIndex text.toList start) ∨
        BehindPercent text.toList (charIndex text.toList start) ∧ k < start + 6 := by
    obtain ⟨i, rfl⟩ := Nat.exists_eq_add_of_le hle
    obtain ⟨hword, hindex⟩ := h.codeWord hlt
    obtain ⟨hpragma, himport⟩ := h.reasons_eq hlt
    rw [hindex, hword.erasedMarks_iff, hpragma, himport, h.overChecks_iff hlt, ErasedWhole,
      or_assoc, Nat.add_lt_add_iff_left]
  rw [← hmark]
  exact (h.word k hle hlt).erased

theorem cut_of_not_erasedWhole (hwhole : ¬ ErasedWhole text.toList (charIndex text.toList start))
    (hchecks : BehindPercent text.toList (charIndex text.toList start)) (hlong : start + 6 < stop) :
    Cut text start stop := by
  refine ⟨hchecks, ?_, hlong⟩
  obtain ⟨c, hc, -⟩ := h.first.word
  obtain ⟨hlt, -⟩ := List.getElem?_eq_some_iff.1 hc
  rw [← length_pragmaMarks] at hlt
  have hpragma : ¬ (pragmaMarks text.toList)[charIndex text.toList start]? = some true :=
    fun hpragma => hwhole (Or.inl hpragma)
  rw [List.getElem?_eq_getElem hlt] at hpragma ⊢
  simpa using hpragma

end

end CodeRun

/-- A word in code is left as it is or overwritten as a whole, unless it goes on behind the word of
a check predicate. Such a word is cut: its first six bytes are overwritten and the others are
left. -/
theorem eraseFlow_whole_iff {text : String} {start stop : Nat} (h : CodeRun text start stop) :
    (Kept text start stop ∨ Overwritten text start stop ↔ ¬ Cut text start stop) ∧
    (Cut text start stop →
      Overwritten text start (start + 6) ∧ Kept text (start + 6) stop) := by
  have hcut : Cut text start stop →
      Overwritten text start (start + 6) ∧ Kept text (start + 6) stop := by
    intro hcut
    have hlong := hcut.long
    refine ⟨fun k hle hlt => ?_, fun k hle hlt => ?_⟩
    · exact (h.erased_iff hle (by omega)).1.2 (Or.inr ⟨hcut.checks, hlt⟩)
    · refine (h.erased_iff (by omega) hlt).2.2 ?_
      rintro (hwhole | ⟨-, hshort⟩)
      · exact hcut.not_erasedWhole hwhole
      · omega
  refine ⟨⟨?_, fun hwhole => ?_⟩, hcut⟩
  -- the first byte of a word that is cut is overwritten, and the seventh is left
  · intro huniform hcuts
    have hlong := hcuts.long
    obtain ⟨hover, hkept⟩ := hcut hcuts
    have hfirst := h.erased_iff (Nat.le_refl start) h.lt
    have hseventh := h.erased_iff (Nat.le_add_right start 6) hlong
    rcases huniform with hall | hall
    · exact hfirst.2.1 (hall start (Nat.le_refl _) h.lt)
        (hfirst.1.1 (hover start (Nat.le_refl _) (by omega)))
    · exact hseventh.2.1 (hkept _ (Nat.le_refl _) hlong)
        (hseventh.1.1 (hall _ (by omega) hlong))
  · by_cases herased : ErasedWhole text.toList (charIndex text.toList start)
    · exact Or.inr fun k hle hlt => (h.erased_iff hle hlt).1.2 (Or.inl herased)
    by_cases hchecks : BehindPercent text.toList (charIndex text.toList start)
    · have hshort : ¬ start + 6 < stop := fun hlong =>
        hwhole (h.cut_of_not_erasedWhole herased hchecks hlong)
      exact Or.inr fun k hle hlt => (h.erased_iff hle hlt).1.2 (Or.inr ⟨hchecks, by omega⟩)
    · refine Or.inl fun k hle hlt => (h.erased_iff hle hlt).2.2 ?_
      rintro (hwhole | ⟨hpercent, -⟩)
      · exact herased hwhole
      · exact hchecks hpercent

theorem eraseFlow_whole_predicate :
    let text := "f(x): boolean %checks \x7b\x7d"
    CodeRun text 15 21 ∧ ¬ Cut text 15 21 ∧ (Kept text 15 21 ∨ Overwritten text 15 21) := by
  intro text
  have hrun : CodeRun text 15 21 := by decide +kernel
  have hshort : ¬ Cut text 15 21 := fun hcut => absurd hcut.long (by decide)
  exact ⟨hrun, hshort, (eraseFlow_whole_iff hrun).1.2 hshort⟩

/-- The remainder of a word by which another is divided: its first six letters are gone. -/
theorem eraseFlow_cuts_word :
    let text := "a %checksum"
    eraseFlow text = "a        um" ∧ CodeRun text 3 11 ∧
      ¬ (Kept text 3 11 ∨ Overwritten text 3 11) := by
  intro text
  have herased : eraseFlow text = "a        um" := by decide +kernel
  refine ⟨herased, by decide +kernel, ?_⟩
  rintro (hall | hall)
  · have hfirst := hall 3 (by decide) (by decide)
    rw [herased] at hfirst
    exact absurd hfirst (by decide +kernel)
  · have hseventh := hall 9 (by decide) (by decide)
    rw [herased] at hseventh
    exact absurd hseventh (by decide +kernel)

end Revue.Source
