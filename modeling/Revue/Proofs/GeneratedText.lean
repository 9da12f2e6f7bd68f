import Revue.Proofs.WellFormedText
import Revue.Vue.Options

/-!
# Texts that are generated

What generation writes around the pieces of a source is tame: keys and names in quotes, headers,
default values. A text that carries pieces still carries them with a header and braces around it,
below comments, and among the entries of an object.
-/

namespace Revue.Vue
open Text Source Component

variable {c : Char} {a b e header text word : List Char} {texts : List (List Char)}
  {pss : List (List Piece)}

/-- A text that is read from code to code and has no carriage return. -/
structure Tame (text : List Char) : Prop where
  closes : Closes text
  noReturn : '\r' ∉ text

namespace Tame

variable {a b : List Char}

theorem append (ha : Tame a) (hb : Tame b) (hseam : Seam a b) : Tame (a ++ b) :=
  ⟨ha.closes.append hb.closes hseam, by simp [ha.noReturn, hb.noReturn]⟩

theorem of_isSimple (h : (text.all fun c => isSimple c && c != '\r') = true) : Tame text := by
  rw [List.all_eq_true] at h
  refine ⟨closes_of_isSimple (List.all_eq_true.2 fun c hc => ?_), fun hmem => ?_⟩
  · exact (Bool.and_eq_true_iff.1 (h c hc)).1
  · exact absurd (h _ hmem) (by decide)

section
variable (h : Tame a) (hlast : isBlankLine (lastLine a) = false)
include h hlast

theorem spells : ∃ ls, Spells .code ls a := by
  obtain ⟨m, d, rfl, hm⟩ := h.closes
  exact spells_of_reads hm (Or.inl rfl) h.noReturn hlast

theorem carries : Carries .code [] a := by
  obtain ⟨ls, hls⟩ := h.spells hlast
  exact hls.carries

theorem carriesTail : CarriesTail .code [] a := by
  obtain ⟨ls, hls⟩ := h.spells hlast
  exact hls.carriesTail

end

end Tame

theorem Spells.tame {ls : List Line} (h : Spells .code ls text) : Tame text := by
  obtain ⟨m, d, hm⟩ := h.settles
  exact ⟨⟨m, d, hm.chars_eq.trans h.text_eq, hm.reads⟩, h.noReturn⟩

theorem seam_of_isQuiet (h : isQuiet b.head?) : Seam a b := Or.inl h

theorem seam_of_isStill (hlast : a.getLast? = some c) (hc : isStill c) : Seam a b := by
  refine Or.inr fun d hd => ?_
  obtain rfl : c = d := by simpa [hlast] using hd
  exact hc

/-! ### Names -/

theorem stringBody_escape (cs : List Char) : StringBody '\x27' (cs.flatMap escapeChar) := by
  induction cs with
  | nil => exact .nil
  | cons c cs ih =>
    rw [List.flatMap_cons]
    unfold escapeChar
    split
    · exact .escape _ ih
    · exact .escape _ ih
    · exact .escape _ ih
    · exact .escape _ ih
    · rename_i hslash hquote hfeed hreturn
      exact .char hquote hslash hfeed ih

/-- Neither a line feed nor a carriage return is left. -/
theorem lineBreak_notMem_escape {d : Char} (hd : d = '\n' ∨ d = '\r') (cs : List Char) :
    d ∉ cs.flatMap escapeChar := by
  simp only [List.mem_flatMap, not_exists, not_and]
  intro c _
  unfold escapeChar
  split
  · rcases hd with rfl | rfl <;> decide
  · rcases hd with rfl | rfl <;> decide
  · rcases hd with rfl | rfl <;> decide
  · rcases hd with rfl | rfl <;> decide
  · rename_i hfeed hreturn
    rw [List.mem_singleton]
    rintro rfl
    exact hd.elim hfeed hreturn

theorem tame_quoted (s : String) : Tame (quoted s) := by
  have hderives : Derives .code
      (inRegion .literal ('\x27' :: s.toList.flatMap escapeChar ++ ['\x27']) ++ []) :=
    .string (Or.inl rfl) (stringBody_escape s.toList) .codeEnd
  have hcloses := Closes.of_derives hderives
  rw [List.append_nil, chars_inRegion] at hcloses
  refine ⟨hcloses, ?_⟩
  have := lineBreak_notMem_escape (Or.inr rfl) s.toList
  simp [quoted, this]

theorem isSimple_of_isAsciiWord (h : isAsciiWord c = true) : (isSimple c && c != '\r') = true := by
  have hne : ∀ d, isAsciiWord d = false → c ≠ d := by
    rintro d hd rfl
    rw [h] at hd
    cases hd
  simp [isSimple, hne '\x27' (by decide), hne '\x22' (by decide), hne '\x60' (by decide),
    hne '/' (by decide), hne '\r' (by decide)]

theorem tame_objectKey (s : String) : Tame (objectKey s) := by
  unfold objectKey
  split
  · rename_i hbare
    refine .of_isSimple (List.all_eq_true.2 fun c hc => isSimple_of_isAsciiWord ?_)
    unfold isBareKey at hbare
    split at hbare
    · cases hbare
    · rename_i first rest hs
      rw [hs] at hc
      rw [Bool.and_eq_true, List.all_eq_true] at hbare
      rcases List.mem_cons.1 hc with rfl | hc
      · have := hbare.1
        simp only [isAsciiWordStart, isAsciiWord, Char.isAlphanum, Bool.or_eq_true] at this ⊢
        grind
      · exact hbare.2 c hc
  · exact tame_quoted s

/-! ### Layout -/

structure Header (text : List Char) : Prop where
  tame : Tame text
  solid : isBlankLine (lastLine text) = false

theorem Header.of_last (h : Tame text) (hlast : text.getLast? = some c) (hc : isBlank c = false) :
    Header text :=
  ⟨h, lastLine_isBlank hlast hc⟩

theorem Header.append (h : Header a) (he : (e.all fun c => isSimple c && c != '\r') = true)
    (hfeed : '\n' ∉ e) (hquiet : isQuiet e.head?) : Header (a ++ e) := by
  refine ⟨h.tame.append (.of_isSimple he) (seam_of_isQuiet hquiet), ?_⟩
  rw [lastLine_append _ hfeed, isBlankLine, List.all_append, ← isBlankLine, h.solid, Bool.false_and]

theorem Header.carries (h : Header text) : Carries .code [] text :=
  h.tame.carries h.solid

theorem isQuiet_space : isQuiet (some ' ') := isQuiet_some (by decide) (by decide) (by decide)

namespace Carries

variable {mode : Mode} {ps : List Piece} {a : List Char}

theorem with_empty (h : Carries mode [] a) {p : Piece} (hp : p.LaidOutAs []) :
    Carries mode [p] a := by
  obtain ⟨ls, hls, -⟩ := h
  refine ⟨ls, hls, fun width => ?_⟩
  simpa using Weaves.cons (sheetText (ls.map (indentLine width))) hp (.nil [])

theorem append_simple (h : Carries .code ps a)
    (he : (e.all fun c => isSimple c && c != '\r') = true)
    (hsolid : isBlankLine (lastLine e) = false) (hquiet : isQuiet e.head?) :
    Carries .code ps (a ++ e) := by
  have := h.behind ((Tame.of_isSimple he).carriesTail hsolid) (seam_of_isQuiet hquiet)
  rwa [List.append_nil] at this

theorem braced (h : Carries mode ps a) (hheader : Header header) :
    Carries .code ps (braced header a) := by
  have hopen : Header (header ++ " \x7b".toList) :=
    hheader.append (by decide) (by decide) isQuiet_space
  have hclose : Header "\x7d".toList := ⟨.of_isSimple (by decide), by decide⟩
  have hcarries := (hopen.carries.below (h.indent 2)).below hclose.carries
  rw [List.nil_append, List.append_nil] at hcarries
  simpa [Vue.braced] using hcarries

end Carries

@[simp] theorem joinWith_singleton (sep a : List Char) : joinWith sep [a] = a := rfl

theorem joinWith_cons_cons (sep a b : List Char) (texts : List (List Char)) :
    joinWith sep (a :: b :: texts) = a ++ sep ++ joinWith sep (b :: texts) := by
  simp [joinWith]

theorem joinWith_append (sep : List Char) {as bs : List (List Char)} (ha : as ≠ []) (hb : bs ≠ []) :
    joinWith sep (as ++ bs) = joinWith sep as ++ sep ++ joinWith sep bs := by
  obtain ⟨b, bs, rfl⟩ := List.exists_cons_of_ne_nil hb
  induction as with
  | nil => exact absurd rfl ha
  | cons a as ih =>
    cases as with
    | nil => exact joinWith_cons_cons sep a b bs
    | cons a' as =>
      have := ih (by simp)
      rw [List.cons_append] at this
      rw [List.cons_append, List.cons_append, joinWith_cons_cons, this, joinWith_cons_cons]
      simp

/-- Entries on lines of their own with commas between them. -/
theorem carries_joinCommas (h : List.Forall₂ (Carries .code) pss texts) (hne : texts ≠ []) :
    Carries .code pss.flatten (joinWith ",\n".toList texts) := by
  induction h with
  | nil => exact absurd rfl hne
  | @cons ps text pss texts hp hrest ih =>
    rw [List.flatten_cons]
    cases hrest with
    | nil =>
      rw [List.flatten_nil, List.append_nil]
      exact hp
    | cons hp' hrest' =>
      have hcomma : Carries .code ps (text ++ ",".toList) :=
        hp.append_simple (by decide) (by decide)
          (isQuiet_some (by decide) (by decide) (by decide))
      rw [joinWith_cons_cons]
      have := hcomma.below (ih (by simp))
      simpa using this

/-- Texts on lines of their own. -/
theorem carries_joinFeeds
    (h : List.Forall₂ (fun ps text => ∃ mode, Carries mode ps text) pss texts) (hne : texts ≠ []) :
    ∃ mode, Carries mode pss.flatten (joinWith ['\n'] texts) := by
  induction h with
  | nil => exact absurd rfl hne
  | @cons ps text pss texts hp hrest ih =>
    obtain ⟨mode, hp⟩ := hp
    rw [List.flatten_cons]
    cases hrest with
    | nil =>
      rw [List.flatten_nil, List.append_nil]
      exact ⟨mode, hp⟩
    | cons hp' hrest' =>
      obtain ⟨mode', hjoin⟩ := ih (by simp)
      refine ⟨mode', ?_⟩
      rw [joinWith_cons_cons]
      simpa using hp.below hjoin

theorem Carries.objectSection {entries : List (List Char)}
    (h : List.Forall₂ (Carries .code) pss entries) (hne : entries ≠ []) {name : List Char}
    (hname : Header (name ++ [':'])) :
    Carries .code pss.flatten (objectSection name entries) :=
  (carries_joinCommas h hne).braced hname

section
variable (h : WellFormed (Derives .code) text)
include h

theorem carries_dedentTail : Carries .code [.whole text] (dedentTail text) := by
  obtain ⟨ls, hls⟩ := spells_of_wellFormed h
  exact hls.dedentTail.1.carries_piece (Piece.laidOutAs_whole hls.dedentTail.2)

theorem carriesTail_dedentTail : CarriesTail .code [.whole text] (dedentTail text) := by
  obtain ⟨ls, hls⟩ := spells_of_wellFormed h
  exact hls.dedentTail.1.carriesTail_piece (Piece.laidOutAs_whole hls.dedentTail.2)

/-- A value behind a word that is read on its own. -/
theorem carries_behind_word (hword : Header word) (hlast : word.getLast? = some c)
    (hc : isStill c) :
    Carries .code [.whole text] (word ++ dedentTail text) :=
  hword.carries.behind (carriesTail_dedentTail h) (seam_of_isStill hlast hc)

theorem carries_return :
    Carries .code [.whole text] ("return ".toList ++ dedentTail text ++ [';']) := by
  have hreturn : Header "return ".toList := ⟨.of_isSimple (by decide), by decide⟩
  refine (carries_behind_word h hreturn (c := ' ') (by decide) ?_).append_simple (e := ";".toList)
    (by decide) (by decide) (isQuiet_some (by decide) (by decide) (by decide))
  unfold isStill
  decide

/-- A function with lines in front of its body. -/
theorem carries_functionBlock (hheader : Header header) {before : List (List Char)}
    (hbefore : ∀ b ∈ before, Carries .code [] b) :
    Carries .code [.body text] (functionBlock header before text) := by
  unfold functionBlock blockLines?
  cases hin : insideBraces? text with
  | none =>
    have hspace : Header (header ++ " ".toList) :=
      hheader.append (by decide) (by decide) isQuiet_space
    have hcarries := carries_behind_word h hspace (c := ' ') (by simp) (by unfold isStill; decide)
    have hbody : Piece.body text = .whole text := by simp [Piece.body, Piece.whole, hin]
    rw [hbody]
    simpa using hcarries
  | some inner =>
    have hjoin : before ≠ [] → ∃ mode, Carries mode [] (joinWith ['\n'] before) := by
      intro hne
      have hall : List.Forall₂ (fun ps text => ∃ mode, Carries mode ps text)
          (before.map fun _ => []) before := by
        rw [List.forall₂_map_left_iff, List.forall₂_same]
        exact fun b hb => ⟨_, hbefore b hb⟩
      simpa using carries_joinFeeds hall hne
    simp only [Option.map_some]
    rcases block_carries h hin with ⟨hnil, hp⟩ | ⟨hne, mode, hcarries⟩
    · rw [hnil, List.map_nil, List.append_nil]
      cases before with
      | nil =>
        have hempty : Header (header ++ " \x7b\x7d".toList) :=
          hheader.append (by decide) (by decide) isQuiet_space
        exact hempty.carries.with_empty hp
      | cons b bs =>
        obtain ⟨mode, hb⟩ := hjoin (by simp)
        exact (hb.with_empty hp).braced hheader
    · generalize hlines : (dropBlankEnds (splitLines inner)).map _ = lines at hcarries ⊢
      have hlines' : lines ≠ [] := by
        rw [← hlines]
        simpa using hne
      cases before with
      | nil =>
        obtain ⟨line, rest, rfl⟩ := List.exists_cons_of_ne_nil hlines'
        exact hcarries.braced hheader
      | cons b bs =>
        obtain ⟨mode', hb⟩ := hjoin (by simp)
        have hboth := hb.below hcarries
        have hjoined : joinWith ['\n'] ((b :: bs) ++ lines) = _ :=
          joinWith_append ['\n'] (by simp) hlines'
        rw [List.append_assoc, List.singleton_append] at hjoined
        rw [← hjoined, List.nil_append] at hboth
        exact hboth.braced hheader

end

theorem carries_withComments {comments : List String} {ps : List Piece}
    (hcomments : ∀ c ∈ comments, WellFormed SourceText c.toList) (h : Carries .code ps text) :
    Carries .code ps (withComments comments text) := by
  unfold withComments
  cases comments with
  | nil => exact h
  | cons c cs =>
    have hall : List.Forall₂ (fun ps text => ∃ mode, Carries mode ps text)
        ((c :: cs).map fun _ => []) ((c :: cs).map fun c => dedentTail c.toList) := by
      rw [List.forall₂_map_left_iff, List.forall₂_map_right_iff, List.forall₂_same]
      intro d hd
      obtain ⟨mode, ls, hls⟩ := spells_of_sourceText (hcomments d hd)
      exact ⟨mode, hls.dedentTail.1.carries⟩
    obtain ⟨mode, hjoin⟩ := carries_joinFeeds hall (by simp)
    rw [joinWith_append ['\n'] (by simp) (by simp), List.append_assoc]
    simpa using hjoin.below h

/-! ### Default values -/

theorem trim_last (h : isBlankLine (lastLine text) = false) :
    ∃ c, (trim text).getLast? = some c ∧ isBlank c = false := by
  cases hlast : (trim text).getLast? with
  | some c =>
    refine ⟨c, rfl, ?_⟩
    rw [trim, trimEnd, List.getLast?_reverse] at hlast
    have := List.head?_dropWhile_not isBlank (trimStart text).reverse
    rw [hlast] at this
    simpa using this
  | none =>
    obtain ⟨w, v, htext, hw, hv⟩ := exists_trim text
    rw [List.getLast?_eq_none_iff.1 hlast, List.append_nil] at htext
    have hblank : isBlankLine (lastLine text) = true := by
      refine List.all_eq_true.2 fun c hc => ?_
      have hmem : c ∈ text := by
        rw [lastLine, List.mem_reverse] at hc
        exact List.mem_reverse.1 ((List.takeWhile_sublist _).subset hc)
      rw [htext] at hmem
      rcases List.mem_append.1 hmem with hc | hc
      · exact hw c hc
      · exact hv c hc
    rw [hblank] at h
    cases h

theorem tame_dedentTail_trim (h : WellFormed (Derives .code) text) :
    Tame (dedentTail (trim text)) := by
  obtain ⟨k, d, hk, hreads, -⟩ := h.reads_trim
  obtain ⟨c, hlast, hc⟩ := trim_last h.lastLine
  have hreturn : '\r' ∉ trim text := by
    intro hmem
    obtain ⟨w, v, htext, -⟩ := exists_trim text
    refine h.noReturn ?_
    rw [htext]
    simp [hmem]
  obtain ⟨ls, hls⟩ := spells_of_closes ⟨k, d, hk, hreads⟩ hreturn hlast hc
  exact hls.dedentTail.1.tame

theorem tame_defaultValue {value : String} (h : WellFormed (Derives .code) value.toList) :
    Tame (defaultValue value) := by
  have htext := tame_dedentTail_trim h
  have hopen : Tame "() => (".toList := .of_isSimple (by decide)
  have hclose : Tame [')'] := .of_isSimple (by decide)
  have hwrapped : Tame ("() => (".toList ++ dedentTail (trim value.toList) ++ [')']) := by
    refine (hopen.append htext ?_).append hclose ?_
    · exact seam_of_isStill (c := '(') (by decide) (by unfold isStill; decide)
    · exact seam_of_isQuiet (isQuiet_some (by decide) (by decide) (by decide))
  unfold defaultValue
  dsimp only
  split
  · exact hwrapped
  · exact hwrapped
  · exact htext

theorem tame_word_append (hword : (word.all fun c => isSimple c && c != '\r') = true)
    (hlast : word.getLast? = some c) (hc : isStill c) (h : Tame text) : Tame (word ++ text) :=
  (Tame.of_isSimple hword).append h (seam_of_isStill hlast hc)

theorem isStill_space : isStill ' ' := by
  unfold isStill
  decide

theorem PropEntry.tame_of_mem_parts {e : PropEntry} {part : List Char} (hpart : part ∈ e.parts)
    (h : ∀ v, e.default = some v → WellFormed (Derives .code) v.toList) : Tame part := by
  simp only [PropEntry.parts, List.mem_append, Option.mem_toList, Option.map_eq_some_iff] at hpart
  rcases hpart with ((⟨t, -, rfl⟩ | hrequired) | ⟨v, hv, rfl⟩) | hvalidator
  · exact .of_isSimple (by cases t <;> decide)
  · split at hrequired
    · obtain rfl := List.mem_singleton.1 hrequired
      exact .of_isSimple (by decide)
    · cases hrequired
  · exact tame_word_append (c := ' ') (by decide) (by decide) isStill_space
      (tame_defaultValue (h v hv))
  · split at hvalidator
    · obtain rfl := List.mem_singleton.1 hvalidator
      exact .of_isSimple (by decide)
    · cases hvalidator

theorem tame_joinCommas (h : ∀ text ∈ texts, Tame text) : Tame (joinWith ", ".toList texts) := by
  induction texts with
  | nil => exact .of_isSimple (by decide)
  | cons a texts ih =>
    cases texts with
    | nil => exact h a (by simp)
    | cons b texts =>
      rw [joinWith_cons_cons, List.append_assoc]
      refine (h a (by simp)).append (tame_word_append (c := ' ') (by decide) (by decide)
        isStill_space (ih fun text htext => h text (by simp [htext]))) ?_
      exact seam_of_isQuiet (isQuiet_some (by decide) (by decide) (by decide))

theorem PropEntry.tame_render {e : PropEntry}
    (h : ∀ v, e.default = some v → WellFormed (Derives .code) v.toList) : Tame e.render := by
  unfold PropEntry.render
  split
  · exact .of_isSimple (by decide)
  · have hparts := tame_joinCommas fun part hpart => PropEntry.tame_of_mem_parts hpart h
    refine Tame.append (tame_word_append (c := ' ') (by decide) (by decide) isStill_space hparts)
      (.of_isSimple (by decide)) ?_
    exact seam_of_isQuiet isQuiet_space

theorem PropEntry.render_last (e : PropEntry) : e.render.getLast? = some '\x7d' := by
  unfold PropEntry.render
  split
  · rfl
  · rw [List.getLast?_append]
    rfl

end Revue.Vue
