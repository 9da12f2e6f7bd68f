import Revue.Proofs.ListedProps

/-!
# Default values that are made anew

A default value that is an object or an array has to be made anew for each instance, by a function
that returns it. Whether a value is one is told by the first character of its text. So a literal in
parentheses is not seen as one, and all instances share it; each other literal gets its function.
-/

namespace Revue.Syntax

/-- The character at which an object, an array or an expression in parentheses starts. -/
def Kind.opening? : Kind → Option Char
  | .object => some '\x7b'
  | .array => some '['
  | .parenthesized => some '('
  | _ => none

end Revue.Syntax

namespace Revue.Vue
open Text Syntax Component Analysis

section Heads
variable {c : Char} {cs : List Char}

theorem trimEnd_cons (hc : isBlank c = false) : trimEnd (c :: cs) = c :: trimEnd cs := by
  rw [trimEnd, trimEnd, List.reverse_cons, List.dropWhile_append]
  split <;> simp_all

theorem exists_lines_cons (cs : List Char) (hc : isBlank c = false) :
    ∃ p ls, lines (c :: cs) = (c :: p) :: ls := by
  have hfeed : c ≠ '\n' := by rintro rfl; cases hc
  have hreturn : c ≠ '\r' := by rintro rfl; cases hc
  obtain ⟨p, ps, hpieces⟩ : ∃ p ps, splitFeeds (c :: cs) = (c :: p) :: ps := by
    rw [splitFeeds, pieces, if_neg hfeed]
    cases pieces '\n' cs <;> exact ⟨_, _, rfl⟩
  rw [lines, hpieces]
  cases ps with
  | nil => exact ⟨p, [], rfl⟩
  | cons q qs =>
    rw [linesOfPieces.eq_3 _ _ (List.cons_ne_nil _ _), dropReturn]
    split
    · rename_i hlast
      cases p with
      | nil => exact absurd (Option.some.inj hlast) hreturn
      | cons d p => exact ⟨_, _, rfl⟩
    · exact ⟨_, _, rfl⟩

theorem exists_dedentTail_cons (cs : List Char) (hc : isBlank c = false) :
    ∃ rest, dedentTail (c :: cs) = c :: rest := by
  obtain ⟨p, ls, hlines⟩ := exists_lines_cons cs hc
  obtain ⟨first, rest, hsplit, hfirst⟩ : ∃ first rest, splitLines (c :: cs) = first :: rest ∧
      first.text = c :: p := by
    rw [splitLines, hlines]
    exact ⟨_, _, rfl, rfl⟩
  obtain ⟨q, hq⟩ : ∃ q, first.trimmed = c :: q := by
    rw [Line.trimmed, hfirst, trimEnd_cons hc]
    split <;> exact ⟨_, rfl⟩
  rw [dedentTail, hsplit]
  cases rest <;> simp [joinWith, hq]

end Heads

/-- A function that returns a value. -/
def factory (value : List Char) : List Char := "() => (".toList ++ value ++ [')']

theorem defaultValue_eq {source : String} {c : Char} (hc : isBlank c = false)
    (h : source.toList.head? = some c) :
    defaultValue source =
      if c = '\x7b' ∨ c = '[' then factory (dedentTail (trim source.toList))
      else dedentTail (trim source.toList) := by
  obtain ⟨cs, hcs⟩ := List.head?_eq_some_iff.1 h
  obtain ⟨rest, hrest⟩ : ∃ rest, dedentTail (trim source.toList) = c :: rest := by
    rw [hcs, trim, trimStart, List.dropWhile_cons_of_neg (by simp [hc]), trimEnd_cons hc]
    exact exists_dedentTail_cons _ hc
  unfold defaultValue factory
  dsimp only
  rw [hrest]
  split
  · rename_i heq
    rw [if_pos (Or.inl (List.cons.inj heq).1)]
  · rename_i heq
    rw [if_pos (Or.inr (List.cons.inj heq).1)]
  · rename_i hbrace hbracket
    refine (if_neg ?_).symm
    rintro (rfl | rfl)
    · exact hbrace _ rfl
    · exact hbracket _ rfl

theorem factory_ne (value : List Char) : value ≠ factory value := by
  unfold factory
  generalize "() => (".toList = opening
  intro h
  have hlength := congrArg List.length h
  simp only [List.length_append, List.length_singleton] at hlength
  omega

section Values
variable {s : Setup} {component name : String} {value : Tree}

/-- The value in the last entry that gives a prop a default value. -/
def lastDefault? (s : Setup) (component name : String) : Option Tree :=
  (((moduleFields s).filter fun x => x.component = component ∧ x.field = .defaultProps).flatMap
    fun x => x.object.parts).reverse.find? (fun e => (defaultValue? s.reading e).any (·.1 = name))
    |>.bind entryValue?

theorem last?_filterMap (f : Tree → Option (String × String)) (name : String) (es : List Tree) :
    Table.last? name (es.filterMap f) =
      (es.reverse.find? fun e => (f e).any (·.1 = name)).bind fun e => (f e).map (·.2) := by
  induction es using List.reverseRecOn with
  | nil => rfl
  | append_singleton es e ih =>
    rw [List.filterMap_append, List.reverse_concat, List.find?_cons]
    cases he : f e with
    | none => simpa [he] using ih
    | some entry =>
      rw [List.filterMap_cons_some he, List.filterMap_nil, Table.last?_concat, ih]
      by_cases hname : entry.1 = name <;> simp [hname, he]

theorem last?_recordedDefaults (h : lastDefault? s component name = some value) :
    Table.last? name (recordedDefaults s component) = some (s.reading.text value.span) := by
  obtain ⟨e, hlast, hvalue⟩ := Option.bind_eq_some_iff.1 h
  obtain ⟨hkind, hvalue⟩ : e.kind = .property ∧ e.get? .value = some value := by
    simpa [entryValue?] using hvalue
  have hnamed := List.find?_some hlast
  obtain ⟨entry, hread, -⟩ := (Option.any_eq_true _ _).1 hnamed
  unfold recordedDefaults
  rw [← List.filterMap_flatMap, last?_filterMap, hlast, Option.bind_some, hread]
  rw [defaultValue?, hkind, hvalue] at hread
  obtain ⟨_, -, hread⟩ := Option.bind_eq_some_iff.1 hread
  obtain ⟨_, -, hread⟩ := Option.bind_eq_some_iff.1 hread
  cases hread
  rfl

theorem mem_parts_of_default {entry : PropEntry} {source : String}
    (h : entry.default = some source) :
    "default: ".toList ++ defaultValue source ∈ entry.parts := by
  refine List.mem_append_left _ (List.mem_append_right _ (Option.mem_toList.2 ?_))
  rw [h, Option.map_some]

theorem defaultValue_factory_iff
    (hliteral : value.withoutParens.kind = .object ∨ value.withoutParens.kind = .array)
    {source : String} (hopens : source.toList.head? = value.kind.opening?) :
    defaultValue source = factory (dedentTail (trim source.toList)) ↔
      value.kind ≠ .parenthesized := by
  by_cases hparen : value.kind = .parenthesized
  · rw [hparen] at hopens
    rw [defaultValue_eq (by decide) hopens, if_neg (by decide)]
    simp [hparen, factory_ne]
  · have hself : value.withoutParens = value := by
      unfold Tree.withoutParens
      split
      · exact absurd rfl hparen
      · rfl
    rw [hself] at hliteral
    refine iff_of_true ?_ hparen
    rcases hliteral with hkind | hkind
    · rw [hkind] at hopens
      rw [defaultValue_eq (by decide) hopens, if_pos (Or.inl rfl)]
    · rw [hkind] at hopens
      rw [defaultValue_eq (by decide) hopens, if_pos (Or.inr rfl)]

/-- A default value that is an object or an array, in parentheses or not, is emitted in a function
that returns it if and only if it has no parentheses. -/
theorem default_factory_iff {m : Model} (h : modelOf s = .ok m)
    (hvalue : lastDefault? s component name = some value)
    (hliteral : value.withoutParens.kind = .object ∨ value.withoutParens.kind = .array)
    (hopens : (s.reading.text value.span).toList.head? = value.kind.opening?) :
    ∃ entry emitted, (name, entry) ∈ propEntries m component ∧
      entry.default.map defaultValue = some emitted ∧
      "default: ".toList ++ emitted ∈ entry.parts ∧
      (emitted = factory (dedentTail (trim (s.reading.text value.span).toList)) ↔
        value.kind ≠ .parenthesized) := by
  have hdefault := last?_recordedDefaults hvalue
  refine ⟨⟨Table.last? name (recorded s (contractsOf s component)), _⟩, _, ?_,
    congrArg (Option.map defaultValue) hdefault, mem_parts_of_default hdefault,
    defaultValue_factory_iff hliteral hopens⟩
  rw [propEntries_eq (propTypes_lists h component) (defaultProps_lists h component)]
  have hname : name ∈ Table.keys (recordedDefaults s component) :=
    List.mem_map.2 ⟨_, List.mem_reverse.1 (Table.mem_of_get? hdefault), rfl⟩
  exact List.mem_map.2 ⟨name, List.mem_eraseDups.2 (List.mem_append_right _ hname), rfl⟩

end Values

/-- A default value that is given twice, at last as an array. -/
def repeatedDefault : String := "A.defaultProps=\x7ba:1,a:[2]\x7d"

set_option maxRecDepth 100000 in
theorem default_factory_repeatedDefault :
    ∃ s m entry emitted, setupOf? {} repeatedDefault = some s ∧ modelOf s = .ok m ∧
      ("a", entry) ∈ propEntries m "A" ∧ "default: ".toList ++ emitted ∈ entry.parts ∧
      emitted = factory (dedentTail (trim "[2]".toList)) := by
  obtain ⟨s, m, value, hs, hm, hvalue, hkind, hself, htext⟩ := exists_found? {} repeatedDefault
    (fun s => lastDefault? s "A" "a")
    (fun s _ value => value.kind = .array ∧ value.withoutParens.kind = .array ∧
      s.reading.text value.span = "[2]")
    (by decide +kernel)
  obtain ⟨entry, emitted, hentry, -, hparts, hfactory⟩ := default_factory_iff hm hvalue
    (Or.inr hself) (by rw [htext, hkind]; decide)
  refine ⟨s, m, entry, emitted, hs, hm, hentry, hparts, ?_⟩
  rw [← htext]
  exact hfactory.2 (by simp [hkind])

/-- A default value in parentheses. -/
def enclosedDefault : String := "class A \x7b\x7d\nA.defaultProps = \x7b a: (\x7b\x7d) \x7d;"

set_option maxRecDepth 100000 in
/-- Its text is emitted as it stands. -/
theorem default_shared_enclosedDefault :
    ∃ s m value, setupOf? {} enclosedDefault = some s ∧ modelOf s = .ok m ∧
      lastDefault? s "A" "a" = some value ∧ value.withoutParens.kind = .object ∧
      propEntries m "A" = [("a", ⟨none, some "(\x7b\x7d)"⟩)] ∧
      defaultValue "(\x7b\x7d)" = "(\x7b\x7d)".toList := by
  obtain ⟨s, m, value, hs, hm, hvalue, hkind, hentries⟩ := exists_found? {} enclosedDefault
    (fun s => lastDefault? s "A" "a")
    (fun _ m value => value.withoutParens.kind = .object ∧
      propEntries m "A" = [("a", ⟨none, some "(\x7b\x7d)"⟩)])
    (by decide +kernel)
  exact ⟨s, m, value, hs, hm, hvalue, hkind, hentries, by decide +kernel⟩

end Revue.Vue
