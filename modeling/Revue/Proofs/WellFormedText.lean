import Mathlib.Data.List.DropRight
import Revue.Proofs.Weaving

/-!
# Well-formed texts

A text is well formed if the lexical grammar derives it, it has no carriage return, and its last
line is not blank. Such a text spells its lines, also without the braces around it and without the
blanks at its ends.
-/

namespace Revue.Source
open Text

variable {d : Nat} {t : Scan} {m : Marked} {r : Region} {a b text v : List Char}
  {next : Option Char}

def lastLine (text : List Char) : List Char := (text.reverse.takeWhile (· != '\n')).reverse

theorem lastLine_append (a : List Char) (hb : '\n' ∉ b) : lastLine (a ++ b) = lastLine a ++ b := by
  have hpos : ∀ c ∈ b.reverse, (c != '\n') = true := by
    intro c hc
    rw [List.mem_reverse] at hc
    simpa using fun h : c = '\n' => hb (h ▸ hc)
  simp [lastLine, List.takeWhile_append_of_pos hpos]

theorem lastLine_append_feed (a : List Char) (hb : '\n' ∉ b) : lastLine (a ++ '\n' :: b) = b := by
  rw [List.append_cons, lastLine_append _ hb]
  simp [lastLine]

theorem lastLine_of_notMem (hb : '\n' ∉ b) : lastLine b = b :=
  lastLine_append [] hb

/-- Blanks at the end of a text lie on its last line if that is not blank. -/
theorem isMargin_of_lastLine (hv : ∀ c ∈ v, isBlank c = true)
    (h : isBlankLine (lastLine (a ++ v)) = false) : IsMargin v := by
  intro c hc
  refine ⟨hv c hc, ?_⟩
  rintro rfl
  obtain ⟨x, y, hxy, hx⟩ := List.eq_append_cons_of_mem (List.mem_reverse.2 hc)
  obtain rfl : v = y.reverse ++ '\n' :: x.reverse := by
    rw [← List.reverse_reverse v, hxy]
    simp
  rw [← List.append_assoc, lastLine_append_feed _ (by simpa using hx)] at h
  have hblank : isBlankLine x.reverse = true :=
    List.all_eq_true.2 fun c hc => hv c (by simp at hc; simp [hc])
  rw [hblank] at h
  cases h

structure WellFormed (grammar : Marked → Prop) (text : List Char) : Prop where
  derived : ∃ m, grammar m ∧ m.chars = text
  noReturn : '\r' ∉ text
  lastLine : isBlankLine (lastLine text) = false

def Closes (text : List Char) : Prop :=
  ∃ m d, m.chars = text ∧ Scan.Reads none {} m ⟨.code, d, []⟩

namespace Closes

theorem append (ha : Closes a) (hb : Closes b) (hseam : Seam a b) : Closes (a ++ b) := by
  obtain ⟨m, d, rfl, hm⟩ := ha
  obtain ⟨k, e, rfl, hk⟩ := hb
  obtain ⟨t, hk', ht⟩ := hk.of_similar (Scan.similar_of_no_substitution 0 d)
  obtain ⟨e', rfl⟩ := ht.eq_of_no_substitution
  refine ⟨m ++ k, e', by simp, Scan.Reads.append ?_ hk'⟩
  simpa using hm.of_seam hseam

theorem of_derives (h : Derives .code m) : Closes m.chars :=
  ⟨m, 0, rfl, h.reads none isQuiet_none 0 [] (by simp)⟩

end Closes

def isSimple (c : Char) : Bool :=
  c != '\x27' && c != '\x22' && c != '\x60' && c != '/'

theorem closes_of_isSimple (h : text.all isSimple = true) : Closes text := by
  suffices hreads : ∀ d, ∃ m e, Marked.chars m = text ∧
      Scan.Reads none ⟨.code, d, []⟩ m ⟨.code, e, []⟩ by
    obtain ⟨m, e, hm⟩ := hreads 0
    exact ⟨m, e, hm⟩
  induction text with
  | nil => exact fun d => ⟨[], d, rfl, .nil _⟩
  | cons c text ih =>
    intro d
    rw [List.all_cons, Bool.and_eq_true] at h
    obtain ⟨⟨⟨h1, h2⟩, h3⟩, h4⟩ : ((c ≠ '\x27' ∧ c ≠ '\x22') ∧ c ≠ '\x60') ∧ c ≠ '/' := by
      simpa [isSimple] using h.1
    have hstep : ∃ e, ∀ next, Scan.step ⟨.code, d, []⟩ c next = (.code, ⟨.code, e, []⟩) := by
      by_cases h5 : c = '\x7b'
      · exact ⟨d + 1, fun _ => by simp [Scan.step, Scan.stepCode, h5]⟩
      by_cases h6 : c = '\x7d'
      · exact ⟨d - 1, fun _ => by simp [Scan.step, Scan.stepCode, h6]⟩
      exact ⟨d, fun _ => by simp [Scan.step, Scan.stepCode, h1, h2, h3, h4, h5, h6]⟩
    obtain ⟨e, hstep⟩ := hstep
    obtain ⟨m, e', rfl, hm⟩ := ih h.2 e
    exact ⟨(c, .code) :: m, e', rfl, .cons (hstep _) (.inr fun q => by simp) hm⟩

theorem reads_blanks {xs : List Nat} (h : Scan.Reads next ⟨.code, d, xs⟩ m t)
    (hm : ∀ c ∈ m.chars, isBlank c = true) :
    m = inRegion .code m.chars ∧ t = ⟨.code, d, xs⟩ := by
  induction m generalizing t with
  | nil =>
    cases h
    exact ⟨rfl, rfl⟩
  | cons p m ih =>
    cases h with
    | @cons _ u _ c r _ hstep _ hrest =>
      have hc : isBlank c = true := hm c (by simp)
      have hplain : isPlain c :=
        ⟨fun h => by rcases h with rfl | rfl <;> exact absurd hc (by decide),
          ne_of_isBlank hc (by decide), ne_of_isBlank hc (by decide), ne_of_isBlank hc (by decide)⟩
      rw [Scan.step_code_plain hplain fun h => absurd h (ne_of_isBlank hc (by decide)),
        Prod.mk.injEq] at hstep
      obtain ⟨rfl, rfl⟩ := hstep
      obtain ⟨hmarks, rfl⟩ := ih hrest fun e he => hm e (by simp [he])
      refine ⟨?_, rfl⟩
      rw [Marked.chars_cons, inRegion_cons, ← hmarks]

theorem Scan.step_brace_to_code {s : Scan} (h : s.step '\x7d' next = (r, t))
    (hs : s.Awaits (some '\x7d')) (ht : t.mode = .code) :
    s.mode = .code ∧ s.substitutions = t.substitutions ∧ r = .code := by
  obtain ⟨rfl, rfl⟩ : (s.step '\x7d' next).1 = r ∧ (s.step '\x7d' next).2 = t := by rw [h]; simp
  cases hm : s.mode with
  | code =>
    by_cases hsub : s.substitutions.head? = some s.depth
    · simp [step, stepCode, hm, hsub] at ht
    · simp [step, stepCode, hm, hsub]
  | quote q =>
    have hq : '\x7d' ≠ q := by
      simp only [Awaits, hm] at hs
      rcases hs with rfl | rfl <;> decide
    simp [step, stepQuote, hm, hq] at ht
  | linePair | blockPair | blockEndPair | substitutionPair => simp [Awaits, hm] at hs
  | _ => simp [step, stepTemplate, hm] at ht

def Marked.literals (m : Marked) : Marked := m.filter fun (_, r) => r == .literal

theorem Marked.literals_append (a b : Marked) : (a ++ b).literals = a.literals ++ b.literals :=
  List.filter_append a b

theorem literals_inRegion (hr : r ≠ .literal) (cs : List Char) : (inRegion r cs).literals = [] := by
  simp only [Marked.literals, List.filter_eq_nil_iff, inRegion, List.mem_map]
  rintro _ ⟨c, hc, rfl⟩
  simpa using hr

/-- Blanks at both ends of a text change nothing. -/
theorem reads_trim (h : Scan.Reads none {} m ⟨.code, d, []⟩) {w : List Char}
    (hchars : m.chars = w ++ text ++ v) (hw : ∀ c ∈ w, isBlank c = true) (hv : IsMargin v) :
    ∃ k : Marked, k.chars = text ∧ Scan.Reads none {} k ⟨.code, d, []⟩ ∧
      m.literals = k.literals := by
  obtain ⟨mt, mv, rfl, hmt, rfl⟩ := Marked.exists_of_chars_eq_append hchars
  obtain ⟨mw, k, rfl, rfl, rfl⟩ := Marked.exists_of_chars_eq_append hmt
  obtain ⟨s2, hwt, hrunv⟩ := h.of_append
  obtain ⟨s1, hrunw, hrunk⟩ := hwt.of_append
  obtain ⟨hmw, rfl⟩ := reads_blanks hrunw hw
  have hawaits := hrunk.awaits (by simp [Scan.Awaits])
  have hcalm : s2.IsCalm := hrunv.isCalm_of_margin hawaits hv (Or.inl rfl)
  obtain ⟨hmv, rfl⟩ := hrunv.eq_of_margin hcalm hv
  refine ⟨k, rfl, hrunk.of_isQuiet (Vue.head?_or_isQuiet hv isQuiet_none) isQuiet_none, ?_⟩
  rw [hmw, hmv]
  simp only [Marked.literals_append, literals_inRegion (Scan.calmRegion_ne_literal _),
    literals_inRegion (show Region.code ≠ .literal by simp), List.nil_append, List.append_nil]

/-- What stands between the braces around a text is read as a text of its own. -/
theorem reads_inside (h : Scan.Reads none {} m ⟨.code, d, []⟩) {inner : List Char}
    (hchars : m.chars = '\x7b' :: (inner ++ ['\x7d'])) :
    ∃ (k : Marked) (e : Nat), k.chars = inner ∧ Scan.Reads none {} k ⟨.code, e, []⟩ ∧
      m.literals = k.literals := by
  cases h with
  | nil => simp at hchars
  | @cons _ s1 _ o r m hopen _ hrest =>
    obtain ⟨rfl, hinner⟩ : o = '\x7b' ∧ m.chars = inner ++ ['\x7d'] := by simpa using hchars
    obtain ⟨rfl, rfl⟩ : Region.code = r ∧ (⟨.code, 1, []⟩ : Scan) = s1 := by
      simpa [Scan.step, Scan.stepCode] using hopen
    obtain ⟨k, mc, rfl, rfl, hmc⟩ := Marked.exists_of_chars_eq_append hinner
    obtain ⟨⟨c, r'⟩, rfl, rfl⟩ : ∃ p : Char × Region, mc = [p] ∧ p.1 = '\x7d' := by
      simpa [Marked.chars, List.map_eq_cons_iff] using hmc
    obtain ⟨s2, hk, hlast⟩ := hrest.of_append
    have hawaits := hk.awaits (by simp [Scan.Awaits])
    cases hlast with
    | @cons _ s3 _ _ _ _ hclose _ hnil =>
      cases hnil
      obtain ⟨hmode, hsub, rfl⟩ := Scan.step_brace_to_code hclose (by simpa using hawaits) rfl
      obtain ⟨mode, e, subs⟩ := s2
      obtain ⟨rfl, rfl⟩ : mode = .code ∧ subs = [] := ⟨hmode, hsub⟩
      obtain ⟨t, hk', ht⟩ := hk.of_similar (Scan.similar_of_no_substitution 1 0)
      obtain ⟨e', rfl⟩ := ht.eq_of_no_substitution
      have hbrace : isQuiet (some '\x7d') := isQuiet_some (by decide) (by decide) (by decide)
      refine ⟨k, e', rfl, hk'.of_isQuiet (by simpa using hbrace) isQuiet_none, ?_⟩
      have hcode : ∀ c : Char, Marked.literals [(c, Region.code)] = [] := fun _ => rfl
      rw [← List.singleton_append, Marked.literals_append, Marked.literals_append, hcode, hcode,
        List.nil_append, List.append_nil]

/-- A well-formed text without the blanks at its ends. -/
theorem WellFormed.reads_trim (h : WellFormed (Derives .code) text) :
    ∃ (k : Marked) (d : Nat), k.chars = trim text ∧ Scan.Reads none {} k ⟨.code, d, []⟩ ∧
      Vue.literalText text = k.literals.chars := by
  obtain ⟨m, hm, rfl⟩ := h.derived
  have hreads := hm.reads none isQuiet_none 0 [] (by simp)
  obtain ⟨w, v, htrim, hw, hv⟩ := Vue.exists_trim m.chars
  have hmargin : IsMargin v := isMargin_of_lastLine hv (htrim ▸ h.lastLine)
  obtain ⟨k, hk, hkreads, hlit⟩ := Source.reads_trim hreads htrim hw hmargin
  refine ⟨k, 0, hk, hkreads, ?_⟩
  have hclassify : classify m.chars = m.regions := hreads.regions_eq
  rw [Vue.literalText, hclassify, m.zip_chars_regions, ← hlit]
  rfl

end Revue.Source

namespace Revue.Vue
open Text Source

variable {l : Line} {mode : Mode} {m : Marked} {inner : List Char}

theorem spells_of_reads {d : Nat} (h : Scan.Reads none {} m ⟨mode, d, []⟩) (hmode : endsLine mode)
    (hreturn : '\r' ∉ m.chars) (hlast : isBlankLine (lastLine m.chars) = false) :
    ∃ ls, Spells mode ls m.chars := by
  obtain ⟨ls, hls⟩ := exists_readsLines h false
  refine ⟨ls, ⟨m, d, hls⟩, hmode, hls.chars_eq.symm, hreturn, fun l hl => ?_⟩
  obtain ⟨init, rfl⟩ := List.getLast?_eq_some_iff.1 hl
  have hfeed : '\n' ∉ l.text := hls.feed_notMem (by simp)
  have hline : lastLine m.chars = l.text := by
    rw [hls.chars_eq]
    cases init with
    | nil => exact lastLine_of_notMem hfeed
    | cons k init =>
      rw [sheetText_append (by simp) (by simp)]
      exact lastLine_append_feed _ hfeed
  simp [Line.isBlank, ← hline, hlast]

variable {c : Char} {text : List Char} {ls : List Line}

theorem spells_of_wellFormed (h : WellFormed (Derives .code) text) :
    ∃ ls, Spells .code ls text := by
  obtain ⟨m, hm, rfl⟩ := h.derived
  exact spells_of_reads (hm.reads none isQuiet_none 0 [] (by simp)) (Or.inl rfl) h.noReturn
    h.lastLine

theorem spells_of_sourceText (h : WellFormed SourceText text) : ∃ mode ls, Spells mode ls text := by
  obtain ⟨m, hm, rfl⟩ := h.derived
  obtain ⟨mode, hmode, hreads⟩ := hm.reads
  exact ⟨mode, spells_of_reads hreads hmode h.noReturn h.lastLine⟩

theorem lastLine_isBlank (hlast : text.getLast? = some c) (hc : isBlank c = false) :
    isBlankLine (lastLine text) = false := by
  obtain ⟨a, rfl⟩ := List.getLast?_eq_some_iff.1 hlast
  have hfeed : c ≠ '\n' := by
    rintro rfl
    exact absurd hc (by decide)
  simp [lastLine, hfeed, isBlankLine, hc]

theorem spells_of_closes (h : Closes text) (hreturn : '\r' ∉ text)
    (hlast : text.getLast? = some c) (hc : isBlank c = false) : ∃ ls, Spells .code ls text := by
  obtain ⟨m, d, rfl, hm⟩ := h
  exact spells_of_reads hm (Or.inl rfl) hreturn (lastLine_isBlank hlast hc)

theorem trim_of_insideBraces (h : insideBraces? text = some inner) :
    trim text = '\x7b' :: (inner ++ ['\x7d']) := by
  unfold insideBraces? at h
  split at h
  · rename_i rest htrim
    split at h
    · rename_i hlast
      obtain ⟨ys, rfl⟩ := List.getLast?_eq_some_iff.1 hlast
      obtain rfl : ys = inner := by simpa using h
      exact htrim
    · cases h
  · cases h

theorem mem_sheetText (hl : l ∈ ls) (hc : c ∈ l.text) : c ∈ sheetText ls := by
  induction ls with
  | nil => cases hl
  | cons k ls ih =>
    cases ls with
    | nil =>
      obtain rfl := List.mem_singleton.1 hl
      exact hc
    | cons j ls =>
      rw [sheetText_cons_cons]
      rcases List.mem_cons.1 hl with rfl | hl
      · exact List.mem_append_left _ hc
      · exact List.mem_append_right _ (List.mem_cons_of_mem _ (ih hl))

theorem of_mem_sheetText (hc : c ∈ sheetText ls) : c = '\n' ∨ ∃ l ∈ ls, c ∈ l.text := by
  induction ls with
  | nil => cases hc
  | cons k ls ih =>
    cases ls with
    | nil => exact Or.inr ⟨k, by simp, hc⟩
    | cons j ls =>
      rw [sheetText_cons_cons] at hc
      rcases List.mem_append.1 hc with hc | hc
      · exact Or.inr ⟨k, by simp, hc⟩
      rcases List.mem_cons.1 hc with rfl | hc
      · exact Or.inl rfl
      rcases ih hc with hfeed | ⟨l, hl, hc⟩
      · exact Or.inl hfeed
      · exact Or.inr ⟨l, List.mem_cons_of_mem _ hl, hc⟩

theorem mem_of_mem_dropBlankEnds (h : l ∈ dropBlankEnds ls) : l ∈ ls := by
  unfold dropBlankEnds at h
  rw [List.mem_reverse] at h
  have h' := (List.dropWhile_sublist _).subset h
  rw [List.mem_reverse] at h'
  exact (List.dropWhile_sublist _).subset h'

theorem dropBlankEnds_dropBlankEnds (ls : List Line) :
    dropBlankEnds (dropBlankEnds ls) = dropBlankEnds ls := by
  change dropBlankTail ((dropBlankTail (ls.dropWhile Line.isBlank)).dropWhile Line.isBlank) =
    dropBlankTail (ls.dropWhile Line.isBlank)
  have htail : ∀ ks, dropBlankTail (dropBlankTail ks) = dropBlankTail ks := by
    intro ks
    simp only [dropBlankTail, List.reverse_reverse, List.dropWhile_idempotent]
  cases hls : ls.dropWhile Line.isBlank with
  | nil => rfl
  | cons l ks =>
    have hl : l.isBlank = false := by
      have := List.head?_dropWhile_not Line.isBlank ls
      rw [hls] at this
      simpa using this
    obtain ⟨js, hjs⟩ : ∃ js, dropBlankTail (l :: ks) = l :: js := by
      rw [dropBlankTail_cons]
      split
      · exact ⟨[], by simp [hl]⟩
      · exact ⟨_, rfl⟩
    rw [hjs, List.dropWhile_cons_of_neg (by simp [hl]), ← hjs, htail]

theorem Settles.relaid_dropBlankEnds {mode' : Mode} {m' : Marked} (h : Settles mode ls m)
    (hmode : endsLine mode) (hreturn : '\r' ∉ sheetText ls)
    (h' : Settles mode' (Vue.dropBlankEnds ls) m') (hmode' : endsLine mode')
    (hess : m'.essence = m.essence) :
    Spells mode' (Vue.dropBlankEnds ls) (sheetText (Vue.dropBlankEnds ls)) ∧
      Relaid (sheetText ls) (sheetText (Vue.dropBlankEnds ls)) := by
  have hreturn' : '\r' ∉ sheetText (Vue.dropBlankEnds ls) := by
    intro hmem
    rcases of_mem_sheetText hmem with hfeed | ⟨l, hl, hc⟩
    · exact absurd hfeed (by decide)
    · exact hreturn (mem_sheetText (mem_of_mem_dropBlankEnds hl) hc)
  refine ⟨⟨⟨m', h'⟩, hmode', rfl, hreturn', fun l hl => dropBlankTail_last hl⟩, ?_, ?_⟩
  · rw [programLines, h'.dropBlankEnds_splitLines hmode' hreturn', dropBlankEnds_dropBlankEnds,
      programLines, h.dropBlankEnds_splitLines hmode hreturn]
  · rw [h'.essence_eq, hess, h.essence_eq]

theorem block_carries (h : WellFormed (Derives .code) text)
    (hin : insideBraces? text = some inner) :
    (dropBlankEnds (splitLines inner) = [] ∧ (Piece.body text).LaidOutAs []) ∨
      dropBlankEnds (splitLines inner) ≠ [] ∧ ∃ mode, Carries mode [Piece.body text]
        (joinWith ['\n'] ((dropBlankEnds (splitLines inner)).map
          (Line.outdent (commonMargin (dropBlankEnds (splitLines inner)))))) := by
  obtain ⟨k, d, hk, hreads, hlit⟩ := h.reads_trim
  have htrim := trim_of_insideBraces hin
  obtain ⟨k', e, rfl, hreads', hlit'⟩ := reads_inside hreads (hk.trans htrim)
  obtain ⟨ls, hls⟩ := exists_readsLines hreads' false
  have hsettles : Settles .code ls k' := ⟨e, hls⟩
  have hinner := hsettles.chars_eq
  have hreturn : '\r' ∉ k'.chars := by
    intro hmem
    obtain ⟨w, v, htext, -⟩ := exists_trim text
    refine h.noReturn ?_
    rw [htext, htrim]
    simp [hmem]
  have hshown : (Piece.body text).shown = k'.chars := by simp [Piece.body, hin]
  have hliterals : literalText k'.chars = literalText text := by
    have hclassify : classify k'.chars = k'.regions := hreads'.regions_eq
    rw [hlit, hlit', literalText, hclassify, k'.zip_chars_regions]
    rfl
  rw [hinner] at hreturn hshown hliterals ⊢
  rw [hsettles.dropBlankEnds_splitLines (Or.inl rfl) hreturn]
  rcases hsettles.dropBlankEnds (Or.inl rfl) with ⟨hnil, hess⟩ | ⟨mode, m', hmode, hm', hess⟩
  · have hempty : Relaid (sheetText ls) [] := by
      refine ⟨?_, ?_⟩
      · rw [programLines, programLines,
          hsettles.dropBlankEnds_splitLines (Or.inl rfl) hreturn, hnil]
        rfl
      · rw [hsettles.essence_eq, hess]
        rfl
    refine Or.inl ⟨hnil, hshown ▸ hempty, ?_⟩
    exact hempty.literalText_eq.trans hliterals
  · obtain ⟨hspells, hrelaid⟩ :=
      hsettles.relaid_dropBlankEnds (Or.inl rfl) hreturn hm' hmode hess
    have hrelaid' := hrelaid.trans hspells.outdent.2
    refine Or.inr ⟨hm'.ne_nil, mode, hspells.outdent.1.carries_piece ⟨hshown ▸ hrelaid', ?_⟩⟩
    exact hrelaid'.literalText_eq.trans hliterals

end Revue.Vue
