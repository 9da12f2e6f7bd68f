import Mathlib.Data.List.Forall2
import Revue.Proofs.LexicalGrammar
import Revue.Vue.Layout

/-!
# Runs of the scanner, line by line

A run over a text is cut at its line feeds. A line that does not start in a literal starts in code
or in a block comment, where blanks mean nothing, and a line whose feed is not part of a literal
ends in code or in a comment, where they mean nothing either. So the lines of a text may be given
other margins: the text is still read the same way, and its marks are the same up to blanks outside
of literals.
-/

namespace Revue.Source
open Text

variable {c : Char} {w : List Char} {m : Marked} {next : Option Char} {r : Region} {s t : Scan}

def IsMargin (w : List Char) : Prop := ∀ c ∈ w, isBlank c = true ∧ c ≠ '\n'

theorem isMargin_nil : IsMargin [] := by simp [IsMargin]

theorem isMargin_replicate (n : Nat) : IsMargin (List.replicate n ' ') := by
  intro c hc
  rw [List.eq_of_mem_replicate hc]
  decide

theorem IsMargin.isBlankLine (h : IsMargin w) : isBlankLine w = true :=
  List.all_eq_true.2 fun c hc => (h c hc).1

theorem ne_of_isBlank {d : Char} (hc : isBlank c = true) (hd : isBlank d = false) : c ≠ d := by
  rintro rfl
  rw [hc] at hd
  cases hd

theorem isQuiet_of_isBlank (hc : isBlank c = true) : isQuiet (some c) :=
  isQuiet_some (ne_of_isBlank hc (by decide)) (ne_of_isBlank hc (by decide))
    (ne_of_isBlank hc (by decide))

/-- The marks of a text without the blanks that are not part of a literal. -/
def Marked.essence (m : Marked) : Marked :=
  m.filter fun (c, r) => r == .literal || !isBlank c

theorem Marked.essence_append (a b : Marked) : (a ++ b).essence = a.essence ++ b.essence :=
  List.filter_append a b

theorem essence_of_margin (hw : IsMargin w) (hr : r ≠ .literal) : (inRegion r w).essence = [] := by
  simp only [Marked.essence, List.filter_eq_nil_iff, inRegion, List.mem_map]
  rintro _ ⟨c, hc, rfl⟩
  simp [hr, (hw c hc).1]

namespace Scan

def IsCalm (s : Scan) : Prop :=
  s.mode = .code ∨ s.mode = .lineComment ∨ s.mode = .blockComment

def calmRegion (s : Scan) : Region :=
  if s.mode = .code then .code else .comment

theorem calmRegion_ne_literal (s : Scan) : s.calmRegion ≠ .literal := by
  unfold calmRegion
  split <;> simp

theorem step_calm (hs : s.IsCalm) (hc : isBlank c = true) (hfeed : c ≠ '\n') (next : Option Char) :
    s.step c next = (s.calmRegion, s) := by
  have h1 : c ≠ '/' := ne_of_isBlank hc (by decide)
  have h2 : c ≠ '\x27' := ne_of_isBlank hc (by decide)
  have h3 : c ≠ '\x22' := ne_of_isBlank hc (by decide)
  have h4 : c ≠ '\x60' := ne_of_isBlank hc (by decide)
  have h5 : c ≠ '\x7b' := ne_of_isBlank hc (by decide)
  have h6 : c ≠ '\x7d' := ne_of_isBlank hc (by decide)
  have h7 : c ≠ '*' := ne_of_isBlank hc (by decide)
  rcases hs with hm | hm | hm
  · simp [step, stepCode, calmRegion, hm, h1, h2, h3, h4, h5, h6]
  · simp [step, calmRegion, hm, hfeed]
  · simp [step, calmRegion, hm, h7]

theorem reads_margin (hs : s.IsCalm) (hw : IsMargin w) (next : Option Char) :
    Reads next s (inRegion s.calmRegion w) s := by
  induction w with
  | nil => exact .nil s
  | cons c w ih =>
    obtain ⟨hc, hfeed⟩ := hw c (by simp)
    exact .cons (step_calm hs hc hfeed _) (.inl hfeed) (ih fun d hd => hw d (by simp [hd]))

theorem Reads.eq_of_margin (hs : s.IsCalm) (hm : IsMargin m.chars) (h : Reads next s m t) :
    m = inRegion s.calmRegion m.chars ∧ t = s := by
  induction m generalizing t with
  | nil =>
    cases h
    exact ⟨rfl, rfl⟩
  | cons p m ih =>
    cases h with
    | @cons _ u _ c r _ hstep _ hrest =>
      obtain ⟨hc, hfeed⟩ := hm c (by simp)
      rw [step_calm hs hc hfeed, Prod.mk.injEq] at hstep
      obtain ⟨rfl, rfl⟩ := hstep
      obtain ⟨hm', rfl⟩ := ih (fun d hd => hm d (by simp [hd])) hrest
      refine ⟨?_, rfl⟩
      rw [Marked.chars_cons, inRegion_cons, ← hm']

/-- The second character of a pair comes behind the first, and a string is between two marks. -/
def Awaits (s : Scan) (next : Option Char) : Prop :=
  match s.mode with
  | .linePair => next = some '/'
  | .blockPair => next = some '*'
  | .blockEndPair => next = some '/'
  | .substitutionPair => next = some '\x7b'
  | .quote q => isQuoteMark q
  | .quotePair q => isQuoteMark q
  | _ => True

theorem stepCode_awaits (hm : s.mode = .code) (c : Char) (next : Option Char) :
    (s.stepCode c next).2.Awaits next := by
  unfold stepCode
  by_cases h1 : c = '/' ∧ next = some '/'
  · simp [h1, Awaits]
  by_cases h2 : c = '/' ∧ next = some '*'
  · simp [h2, Awaits]
  rw [if_neg h1, if_neg h2]
  by_cases h3 : c = '\x27' ∨ c = '\x22'
  · rw [if_pos h3]
    exact h3
  rw [if_neg h3]
  split
  · trivial
  split
  · trivial
  split
  · simp [Awaits, hm]
  split <;> simp [Awaits, hm]

theorem step_awaits (h : s.step c next = (r, t)) (hs : s.Awaits (some c)) : t.Awaits next := by
  rw [← show (s.step c next).2 = t from congrArg Prod.snd h]
  cases hm : s.mode with
  | code =>
    simp only [step, hm]
    exact stepCode_awaits hm c next
  | blockComment =>
    simp only [step, hm]
    split
    · rename_i hpair
      exact hpair.2
    · simp [Awaits, hm]
  | lineComment =>
    simp only [step, hm]
    split <;> simp [Awaits, hm]
  | template =>
    simp only [step, stepTemplate, hm]
    split
    · trivial
    split
    · rename_i hpair
      exact hpair.2
    split <;> simp [Awaits, hm]
  | quote q =>
    simp only [Awaits, hm] at hs
    simp only [step, stepQuote, hm]
    split
    · exact hs
    split
    · trivial
    split
    · trivial
    · simpa [Awaits, hm] using hs
  | quotePair q =>
    simp only [Awaits, hm] at hs
    simp only [step, hm]
    exact hs
  | _ => simp [step, hm, Awaits]

theorem Reads.awaits (h : Reads next s m t) (hs : s.Awaits (m.chars.head?.or next)) :
    t.Awaits next := by
  induction h with
  | nil s => simpa using hs
  | cons hstep _ _ ih => exact ih (step_awaits hstep hs)

/-- Behind a blank the scanner is inside a literal as long as it was before. -/
theorem step_blank_of_not_calm (hc : isBlank c = true) (hs : s.Awaits (some c))
    (hcalm : ¬ s.IsCalm) (h : s.step c next = (r, t)) (hfeed : c ≠ '\n') : ¬ t.IsCalm := by
  rw [← show (s.step c next).2 = t from congrArg Prod.snd h]
  have hslash : c ≠ '\\' := ne_of_isBlank hc (by decide)
  have htick : c ≠ '\x60' := ne_of_isBlank hc (by decide)
  have hdollar : c ≠ '$' := ne_of_isBlank hc (by decide)
  cases hm : s.mode with
  | code => exact absurd (Or.inl hm) hcalm
  | lineComment => exact absurd (Or.inr (Or.inl hm)) hcalm
  | blockComment => exact absurd (Or.inr (Or.inr hm)) hcalm
  | quote q =>
    have hq : c ≠ q := by
      simp only [Awaits, hm] at hs
      rcases hs with rfl | rfl <;> exact ne_of_isBlank hc (by decide)
    simp [step, stepQuote, hm, hslash, hfeed, hq, IsCalm]
  | quotePair q => simp [step, hm, IsCalm]
  | template => simp [step, stepTemplate, hm, hslash, htick, hdollar, IsCalm]
  | templatePair => simp [step, hm, IsCalm]
  | linePair | blockPair | blockEndPair | substitutionPair =>
    simp only [Awaits, hm, Option.some.injEq] at hs
    subst hs
    exact absurd hc (by decide)

/-- A run over blanks that ends in code or in a comment has begun there. -/
theorem Reads.isCalm_of_margin (h : Reads next s m t) (hs : s.Awaits (m.chars.head?.or next))
    (hm : IsMargin m.chars) (ht : t.IsCalm) : s.IsCalm := by
  induction h with
  | nil s => exact ht
  | @cons s t u c r m hstep _ _ ih =>
    obtain ⟨hc, hfeed⟩ := hm c (by simp)
    have htcalm := ih (step_awaits hstep hs) (fun d hd => hm d (by simp [hd])) ht
    exact Classical.byContradiction fun hcalm =>
      step_blank_of_not_calm hc hs hcalm hstep hfeed htcalm

def StartsLine (inLiteral : Bool) (s : Scan) : Prop :=
  if inLiteral then s.mode = .template ∨ ∃ q, isQuoteMark q ∧ s.mode = .quote q
  else s.mode = .code ∨ s.mode = .blockComment

theorem StartsLine.awaits {b : Bool} (h : s.StartsLine b) (next : Option Char) : s.Awaits next := by
  cases b with
  | false => rcases h with h | h <;> simp [Awaits, h]
  | true =>
    rcases h with h | ⟨q, hq, h⟩
    · simp [Awaits, h]
    · simpa [Awaits, h] using hq

theorem StartsLine.isCalm (h : s.StartsLine false) : s.IsCalm := by
  rcases h with h | h
  · exact Or.inl h
  · exact Or.inr (Or.inr h)

theorem StartsLine.not_isCalm (h : s.StartsLine true) : ¬ s.IsCalm := by
  rcases h with h | ⟨q, _, h⟩ <;> simp [IsCalm, h]

theorem step_feed (s : Scan) (next : Option Char) : s.step '\n' next = s.step '\n' none := by
  cases hm : s.mode <;> simp [step, stepCode, stepQuote, stepTemplate, hm]

/-- A line feed that breaks no string: whether it belongs to a literal says where the next line
starts, and if it does not, the line ends where blanks mean nothing. -/
theorem step_feed_cases (h : s.step '\n' none = (r, t)) (hs : s.Awaits (some '\n'))
    (hquote : ∀ q, s.mode ≠ .quote q) :
    t.StartsLine (r == .literal) ∧ (r ≠ .literal → s.IsCalm) := by
  have ht : (s.step '\n' none).2 = t := congrArg Prod.snd h
  have hr : (s.step '\n' none).1 = r := congrArg Prod.fst h
  subst ht hr
  cases hm : s.mode with
  | code => simp [step, stepCode, hm, StartsLine, IsCalm]
  | lineComment => simp [step, hm, StartsLine, IsCalm]
  | blockComment => simp [step, hm, StartsLine, IsCalm]
  | quote q => exact absurd hm (hquote q)
  | quotePair q =>
    simp only [Awaits, hm] at hs
    simp [step, hm, StartsLine, hs]
  | template => simp [step, stepTemplate, hm, StartsLine]
  | templatePair => simp [step, hm, StartsLine]
  | linePair | blockPair | blockEndPair | substitutionPair => simp [Awaits, hm] at hs

end Scan

end Revue.Source

namespace Revue.Vue
open Text Source

variable {k : Line} {M m : Marked}

inductive ReadsLines : Scan → Bool → List Line → Marked → Scan → Prop
  | last {s t : Scan} {b : Bool} {m : Marked} (hrun : s.Reads none m t) (hline : '\n' ∉ m.chars) :
      ReadsLines s b [⟨m.chars, b, false⟩] m t
  | cons {s t u v : Scan} {b : Bool} {r : Region} {m rest : Marked} {ls : List Line}
      (hrun : s.Reads (some '\n') m t) (hline : '\n' ∉ m.chars) (hquote : ∀ q, t.mode ≠ .quote q)
      (hfeed : t.step '\n' none = (r, u)) (hrest : ReadsLines u (r == .literal) ls rest v) :
      ReadsLines s b (⟨m.chars, b, r == .literal⟩ :: ls) (m ++ ('\n', r) :: rest) v

variable {b : Bool} {next : Option Char} {s t : Scan}

def Line.withText (l : Line) (text : List Char) : Line := { l with text := text }

/-- The line `k` is `l` but for its margins, where these are not part of a literal. -/
def Line.Fits (l k : Line) : Prop :=
  ∃ w m v n, l.text = w ++ m ++ v ∧ k = l.withText (List.replicate n ' ' ++ m) ∧ IsMargin w ∧
    IsMargin v ∧ (l.inLiteral = true → w = [] ∧ n = 0) ∧ (l.continuesLiteral = true → v = [])

theorem head?_or_isQuiet {w : List Char} (hw : IsMargin w) (hnext : isQuiet next) :
    isQuiet (w.head?.or next) := by
  cases w with
  | nil => simpa using hnext
  | cons c w => exact isQuiet_of_isBlank (hw c (by simp)).1

/-- The margin in front of a line may be another one. -/
theorem reads_leading {w' : List Char} (h : s.Reads next m t) (hs : s.StartsLine b)
    (hm : IsMargin m.chars) (hw' : IsMargin w') (hb : b = true → m.chars = [] ∧ w' = []) :
    t = s ∧ m.essence = [] ∧
      ∃ m' : Marked, m'.chars = w' ∧ (∀ n, s.Reads n m' s) ∧ m'.essence = [] := by
  cases b with
  | true =>
    obtain ⟨hnil, rfl⟩ := hb rfl
    obtain rfl : m = [] := by simpa [Marked.chars] using hnil
    cases h
    exact ⟨rfl, rfl, [], rfl, fun _ => .nil s, rfl⟩
  | false =>
    obtain ⟨hmarks, rfl⟩ := h.eq_of_margin hs.isCalm hm
    refine ⟨rfl, ?_, inRegion t.calmRegion w', chars_inRegion _ _,
      fun n => Scan.reads_margin hs.isCalm hw' n, ?_⟩
    · rw [hmarks]
      exact essence_of_margin hm t.calmRegion_ne_literal
    · exact essence_of_margin hw' t.calmRegion_ne_literal

/-- The margin behind a line may be left out. -/
theorem reads_trailing (h : s.Reads next m t) (hs : s.Awaits (m.chars.head?.or next))
    (hm : IsMargin m.chars) (hend : m.chars = [] ∨ t.IsCalm) : t = s ∧ m.essence = [] := by
  rcases hend with hnil | hcalm
  · obtain rfl : m = [] := by simpa [Marked.chars] using hnil
    cases h
    exact ⟨rfl, rfl⟩
  · obtain ⟨hmarks, rfl⟩ := h.eq_of_margin (h.isCalm_of_margin hs hm hcalm) hm
    rw [hmarks]
    exact ⟨rfl, essence_of_margin hm t.calmRegion_ne_literal⟩

/-- A line with other margins is read to the same end, with the same marks up to blanks. -/
theorem reads_of_fits {c : Bool} (h : s.Reads next M t) (hnext : isQuiet next)
    (hs : s.StartsLine b) (hfits : Line.Fits ⟨M.chars, b, c⟩ k) (hc : c = false → t.IsCalm) :
    ∃ M' : Marked, k = ⟨M'.chars, b, c⟩ ∧ s.Reads next M' t ∧ M'.essence = M.essence := by
  obtain ⟨w, m, v, n, hchars, rfl, hw, hv, hlead, htrail⟩ := hfits
  obtain ⟨Mwm, Mv, rfl, hwm, rfl⟩ := Marked.exists_of_chars_eq_append hchars
  obtain ⟨Mw, Mm, rfl, rfl, rfl⟩ := Marked.exists_of_chars_eq_append hwm
  obtain ⟨s2, hwm', hrunv⟩ := Scan.Reads.of_append h
  obtain ⟨s1, hrunw, hrunm⟩ := Scan.Reads.of_append hwm'
  have hspaces : b = true → Mw.chars = [] ∧ List.replicate n ' ' = [] := by
    intro hb
    obtain ⟨hnil, rfl⟩ := hlead hb
    exact ⟨hnil, rfl⟩
  obtain ⟨rfl, hessw, Mw', hchars', hrunw', hessw'⟩ :=
    reads_leading hrunw hs hw (isMargin_replicate n) hspaces
  have hend : Mv.chars = [] ∨ t.IsCalm := by
    cases c with
    | true => exact Or.inl (htrail rfl)
    | false => exact Or.inr (hc rfl)
  obtain ⟨rfl, hessv⟩ := reads_trailing hrunv (hrunm.awaits (hs.awaits _)) hv hend
  refine ⟨Mw' ++ Mm, by simp [Line.withText, hchars'], Scan.Reads.append (hrunw' _) ?_, ?_⟩
  · exact hrunm.of_isQuiet (head?_or_isQuiet hv hnext) hnext
  · simp [Marked.essence_append, hessw, hessw', hessv]

theorem Line.Fits.notMem {l : Line} (h : l.Fits k) {c : Char} (hc : c ≠ ' ') (hl : c ∉ l.text) :
    c ∉ k.text := by
  obtain ⟨w, m, v, n, hchars, rfl, -⟩ := h
  rw [hchars] at hl
  simp only [Line.withText, List.mem_append, not_or] at hl ⊢
  exact ⟨fun hmem => hc (List.eq_of_mem_replicate hmem), hl.1.2⟩

/-- Lines with other margins are read to the same end, with the same marks up to blanks. -/
theorem ReadsLines.of_fits {ls ks : List Line} (h : ReadsLines s b ls M t) (hs : s.StartsLine b)
    (ht : t.IsCalm) (hfits : List.Forall₂ Line.Fits ls ks) :
    ∃ M', ReadsLines s b ks M' t ∧ M'.essence = M.essence := by
  induction h generalizing ks with
  | last hrun hline =>
    obtain ⟨k, _, hfit, hnil, rfl⟩ := List.forall₂_cons_left_iff.1 hfits
    cases hnil
    obtain ⟨M', rfl, hrun', hess⟩ := reads_of_fits hrun isQuiet_none hs hfit fun _ => ht
    exact ⟨M', .last hrun' (hfit.notMem (by decide) hline), hess⟩
  | @cons s t u v b r m rest ls hrun hline hquote hfeed hrest ih =>
    obtain ⟨k, ks, hfit, hfits', rfl⟩ := List.forall₂_cons_left_iff.1 hfits
    have hawaits : t.Awaits (some '\n') := hrun.awaits (hs.awaits _)
    obtain ⟨hstart, hcalm⟩ := Scan.step_feed_cases hfeed hawaits hquote
    have hquiet : isQuiet (some '\n') := isQuiet_of_isBlank (by decide)
    obtain ⟨m', rfl, hrun', hess⟩ := reads_of_fits hrun hquiet hs hfit fun hr =>
      hcalm (by simpa using hr)
    obtain ⟨M', hlines, hess'⟩ := ih hstart ht hfits'
    have hline' := hfit.notMem (by decide) hline
    refine ⟨m' ++ ('\n', r) :: M', .cons hrun' hline' hquote hfeed hlines, ?_⟩
    rw [Marked.essence_append, Marked.essence_append, hess]
    congr 1
    simp only [Marked.essence, List.filter_cons] at hess' ⊢
    rw [hess']

end Revue.Vue
