import Revue.Source.Region

/-!
# Runs of the scanner

`Reads next s m t` says that the scanner goes from `s` to `t` over the characters of `m`, gives each
the region that it has in `m`, and breaks no string by a line feed; `next` is the character behind.
Runs can be cut and put together, a run from a state carries over to every state with the same
nesting of substitutions, and blanks in code or in a comment change nothing.
-/

namespace Revue.Source
open Text

variable {d e : Nat} {c : Char} {mode : Mode} {s t : Scan} {m : Marked} {xs ys : List Nat}
  {a b : List Char} {k n : Option Char}

/-- A text with the region of each of its characters. -/
abbrev Marked := List (Char × Region)

namespace Marked

def chars (m : Marked) : List Char := m.map Prod.fst
def regions (m : Marked) : List Region := m.map Prod.snd

@[simp] theorem chars_nil : chars [] = [] := rfl
@[simp] theorem chars_cons (p : Char × Region) (m : Marked) : chars (p :: m) = p.1 :: chars m := rfl
@[simp] theorem chars_append (a b : Marked) : chars (a ++ b) = chars a ++ chars b :=
  List.map_append
@[simp] theorem regions_nil : regions [] = [] := rfl
@[simp] theorem regions_cons (p : Char × Region) (m : Marked) :
    regions (p :: m) = p.2 :: regions m := rfl
@[simp] theorem regions_append (a b : Marked) : regions (a ++ b) = regions a ++ regions b :=
  List.map_append

theorem exists_of_chars_eq_append (h : m.chars = a ++ b) :
    ∃ x y : Marked, m = x ++ y ∧ x.chars = a ∧ y.chars = b :=
  List.map_eq_append_iff.1 h

theorem zip_chars_regions (m : Marked) : m.chars.zip m.regions = m :=
  (List.zip_of_prod rfl rfl).symm

end Marked

/-- Whether a character behind a slash, star or dollar sign leaves it what it is. -/
def isQuiet (next : Option Char) : Prop :=
  next ≠ some '/' ∧ next ≠ some '*' ∧ next ≠ some '\x7b'

theorem isQuiet_none : isQuiet none := by simp [isQuiet]

theorem isQuiet_some (h1 : c ≠ '/') (h2 : c ≠ '*') (h3 : c ≠ '\x7b') :
    isQuiet (some c) := by simp [isQuiet, h1, h2, h3]

def isStill (c : Char) : Prop := c ≠ '/' ∧ c ≠ '*' ∧ c ≠ '$'

/-- No mark of two characters lies across the end of one text and the start of another. -/
def Seam (a b : List Char) : Prop := isQuiet b.head? ∨ ∀ c ∈ a.getLast?, isStill c

theorem Seam.of_suffix {x : List Char} (h : Seam (x ++ a) b) : Seam a b := by
  rcases h with h | h
  · exact Or.inl h
  · refine Or.inr fun c hc => h c ?_
    rw [Option.mem_def] at hc ⊢
    simp [List.getLast?_append, hc]

namespace Scan

theorem step_of_isStill (s : Scan) (hc : isStill c) (n k : Option Char) :
    s.step c n = s.step c k := by
  obtain ⟨h1, h2, h3⟩ := hc
  cases hm : s.mode <;> simp [step, stepCode, stepTemplate, hm, h1, h2, h3]

theorem step_of_isQuiet (s : Scan) (c : Char) (hn : isQuiet n) (hk : isQuiet k) :
    s.step c n = s.step c k := by
  obtain ⟨n1, n2, n3⟩ := hn
  obtain ⟨k1, k2, k3⟩ := hk
  cases hm : s.mode <;>
    simp [step, stepCode, stepTemplate, hm, n1, n2, n3, k1, k2, k3]

/-- A run of the scanner in which no line feed breaks a string. -/
inductive Reads (next : Option Char) : Scan → Marked → Scan → Prop
  | nil (s : Scan) : Reads next s [] s
  | cons {s t u : Scan} {c : Char} {r : Region} {m : Marked}
      (hstep : s.step c (m.chars.head?.or next) = (r, t))
      (hfeed : c ≠ '\n' ∨ ∀ q, s.mode ≠ .quote q) (hrest : Reads next t m u) :
      Reads next s ((c, r) :: m) u

namespace Reads

variable {next : Option Char} {s t u : Scan} {m m' : Marked}

theorem regions_append (h : Reads next s m t) (rest : List Char) (hrest : rest.head? = next) :
    s.regions (m.chars ++ rest) = m.regions ++ t.regions rest := by
  induction h with
  | nil s => rfl
  | @cons s t u c r m hstep _ _ ih =>
    have hhead : (m.chars ++ rest).head? = m.chars.head?.or next := by
      rw [← hrest]
      cases m.chars <;> simp
    simp [Scan.regions, hhead, hstep, ih]

/-- A run gives every character its region. -/
theorem regions_eq (h : Reads none s m t) : s.regions m.chars = m.regions := by
  simpa [Scan.regions] using h.regions_append [] rfl

theorem append (h : Reads (m'.chars.head?.or next) s m t) (h' : Reads next t m' u) :
    Reads next s (m ++ m') u := by
  induction h with
  | nil s => exact h'
  | @cons s t _ c r m hstep hfeed _ ih =>
    refine .cons ?_ hfeed (ih h')
    rw [← hstep]
    congr 1
    cases m <;> simp

theorem of_append (h : Reads next s (m ++ m') u) :
    ∃ t, Reads (m'.chars.head?.or next) s m t ∧ Reads next t m' u := by
  induction m generalizing s with
  | nil => exact ⟨s, .nil s, h⟩
  | cons p m ih =>
    cases h with
    | cons hstep hfeed hrest =>
      obtain ⟨v, hm, hm'⟩ := ih hrest
      refine ⟨v, .cons ?_ hfeed hm, hm'⟩
      rw [← hstep]
      congr 1
      cases m <;> simp

/-- The character behind a run does not matter as long as it is quiet. -/
theorem of_isQuiet (hn : isQuiet n) (hk : isQuiet k) (h : Reads n s m t) : Reads k s m t := by
  induction h with
  | nil s => exact .nil s
  | @cons s t u c r m hstep hfeed _ ih =>
    refine .cons ?_ hfeed ih
    cases m with
    | nil =>
      rw [← hstep]
      simpa using step_of_isQuiet s c hk hn
    | cons p m => simpa using hstep

theorem single {r : Region} (hstep : s.step c next = (r, t))
    (hfeed : c ≠ '\n' ∨ ∀ q, s.mode ≠ .quote q) : Reads next s [(c, r)] t :=
  .cons (by simpa using hstep) hfeed (.nil t)

/-- A run is the same in front of a text with which it makes no pair. -/
theorem of_seam (h : Reads none s m t) (hseam : Seam m.chars b) : Reads b.head? s m t := by
  induction h with
  | nil s => exact .nil s
  | @cons s t u c r m hstep hfeed _ ih =>
    refine .cons ?_ hfeed (ih (Seam.of_suffix (x := [c]) hseam))
    cases m with
    | nil =>
      rw [← hstep]
      rcases hseam with hquiet | hstill
      · simpa using step_of_isQuiet s c hquiet isQuiet_none
      · simpa using step_of_isStill s (hstill c (by simp)) _ _
    | cons p m => simpa using hstep

end Reads

/-- The depths of substitutions, seen from the depth of the code around, are the same. -/
def SameNesting : Nat → List Nat → Nat → List Nat → Prop
  | _, [], _, [] => True
  | d, x :: xs, e, y :: ys => x ≤ d ∧ y ≤ e ∧ d + y = e + x ∧ SameNesting x xs y ys
  | _, _, _, _ => False

/-- States between which the scanner cannot tell. -/
def Similar (s t : Scan) : Prop :=
  s.mode = t.mode ∧ SameNesting s.depth s.substitutions t.depth t.substitutions

theorem similar_of_no_substitution (d e : Nat) : Similar ⟨mode, d, []⟩ ⟨mode, e, []⟩ :=
  ⟨rfl, trivial⟩

theorem Similar.eq_of_no_substitution (h : Similar ⟨mode, d, []⟩ t) : ∃ e, t = ⟨mode, e, []⟩ := by
  obtain ⟨tmode, e, ys⟩ := t
  obtain ⟨hm, hn⟩ := h
  dsimp only at hm hn
  subst hm
  cases ys with
  | nil => exact ⟨e, rfl⟩
  | cons y ys => exact hn.elim

section
variable (h : SameNesting d xs e ys)
include h

/-- The innermost substitution ends at the same brace. -/
theorem SameNesting.head?_eq : xs.head? = some d ↔ ys.head? = some e := by
  match xs, ys, h with
  | [], [], _ => simp
  | x :: xs, y :: ys, h =>
    obtain ⟨_, _, hsum, _⟩ := h
    simp only [List.head?_cons, Option.some.injEq]
    omega

theorem SameNesting.tail (hd : xs.head? = some d) : SameNesting d xs.tail e ys.tail := by
  match xs, ys, h with
  | [], [], _ => simp at hd
  | x :: xs, y :: ys, h =>
    have hy := h.head?_eq.1 hd
    simp only [List.head?_cons, Option.some.injEq] at hd hy
    subst hd hy
    exact h.2.2.2

theorem SameNesting.succ : SameNesting (d + 1) xs (e + 1) ys := by
  match xs, ys, h with
  | [], [], _ => trivial
  | x :: xs, y :: ys, h =>
    obtain ⟨hx, hy, hsum, hrest⟩ := h
    exact ⟨by omega, by omega, by omega, hrest⟩

theorem SameNesting.pred (hd : xs.head? ≠ some d) : SameNesting (d - 1) xs (e - 1) ys := by
  match xs, ys, h with
  | [], [], _ => trivial
  | x :: xs, y :: ys, h =>
    obtain ⟨hx, hy, hsum, hrest⟩ := h
    simp only [List.head?_cons, ne_eq, Option.some.injEq] at hd
    exact ⟨by omega, by omega, by omega, hrest⟩

end

theorem stepCode_similar (h : SameNesting s.depth s.substitutions t.depth t.substitutions)
    (hm : s.mode = t.mode) (c : Char) (next : Option Char) :
    (s.stepCode c next).1 = (t.stepCode c next).1 ∧
      Similar (s.stepCode c next).2 (t.stepCode c next).2 := by
  have hhead := h.head?_eq
  unfold stepCode
  by_cases h1 : c = '/' ∧ next = some '/'
  · simp only [if_pos h1]
    exact ⟨trivial, rfl, h⟩
  by_cases h2 : c = '/' ∧ next = some '*'
  · simp only [if_neg h1, if_pos h2]
    exact ⟨trivial, rfl, h⟩
  by_cases h3 : c = '\x27' ∨ c = '\x22'
  · simp only [if_neg h1, if_neg h2, if_pos h3]
    exact ⟨trivial, rfl, h⟩
  by_cases h4 : c = '\x60'
  · simp only [if_neg h1, if_neg h2, if_neg h3, if_pos h4]
    exact ⟨trivial, rfl, h⟩
  simp only [if_neg h1, if_neg h2, if_neg h3, if_neg h4]
  by_cases h5 : c = '\x7d' ∧ s.substitutions.head? = some s.depth
  · have h5' : c = '\x7d' ∧ t.substitutions.head? = some t.depth := ⟨h5.1, hhead.1 h5.2⟩
    simp only [if_pos h5, if_pos h5']
    exact ⟨trivial, rfl, h.tail h5.2⟩
  have h5' : ¬ (c = '\x7d' ∧ t.substitutions.head? = some t.depth) := by
    rintro ⟨hc, ht⟩
    exact h5 ⟨hc, hhead.2 ht⟩
  simp only [if_neg h5, if_neg h5']
  by_cases h6 : c = '\x7b'
  · simp only [if_pos h6]
    exact ⟨trivial, hm, h.succ⟩
  by_cases h7 : c = '\x7d'
  · simp only [if_neg h6, if_pos h7]
    exact ⟨trivial, hm, h.pred fun hd => h5 ⟨h7, hd⟩⟩
  · simp only [if_neg h6, if_neg h7]
    exact ⟨trivial, hm, h⟩

/-- One step keeps states similar and gives the same region. -/
theorem step_similar (h : Similar s t) (c : Char) (next : Option Char) :
    (s.step c next).1 = (t.step c next).1 ∧ Similar (s.step c next).2 (t.step c next).2 := by
  obtain ⟨smode, sdepth, ssubs⟩ := s
  obtain ⟨tmode, tdepth, tsubs⟩ := t
  obtain ⟨hm, hn⟩ := h
  dsimp only at hm hn
  subst hm
  have hsame : ∀ mode, Similar ⟨mode, sdepth, ssubs⟩ ⟨mode, tdepth, tsubs⟩ := fun _ => ⟨rfl, hn⟩
  cases smode with
  | code =>
    exact stepCode_similar (s := ⟨.code, sdepth, ssubs⟩) (t := ⟨.code, tdepth, tsubs⟩) hn rfl c next
  | lineComment =>
    simp only [step]
    split <;> exact ⟨rfl, hsame _⟩
  | blockComment =>
    simp only [step]
    split <;> exact ⟨rfl, hsame _⟩
  | quote q =>
    simp only [step, stepQuote]
    split
    · exact ⟨rfl, hsame _⟩
    · split
      · exact ⟨rfl, hsame _⟩
      · split <;> exact ⟨rfl, hsame _⟩
  | template =>
    simp only [step, stepTemplate]
    split
    · exact ⟨rfl, hsame _⟩
    · split
      · exact ⟨rfl, rfl, Nat.le_refl _, Nat.le_refl _, Nat.add_comm _ _, hn⟩
      · split <;> exact ⟨rfl, hsame _⟩
  | linePair => exact ⟨rfl, hsame _⟩
  | blockPair => exact ⟨rfl, hsame _⟩
  | blockEndPair => exact ⟨rfl, hsame _⟩
  | quotePair q => exact ⟨rfl, hsame _⟩
  | templatePair => exact ⟨rfl, hsame _⟩
  | substitutionPair => exact ⟨rfl, hsame _⟩

/-- A run carries over to a similar state. -/
theorem Reads.of_similar {next : Option Char} {s' : Scan} (h : Reads next s m t)
    (hs : Similar s s') : ∃ t', Reads next s' m t' ∧ Similar t t' := by
  induction h generalizing s' with
  | nil s => exact ⟨s', .nil s', hs⟩
  | @cons s t u c r m hstep hfeed _ ih =>
    obtain ⟨hregion, hsim⟩ := step_similar hs c (m.chars.head?.or next)
    rw [hstep] at hregion hsim
    obtain ⟨u', hu, husim⟩ := ih hsim
    have hstep' : s'.step c (m.chars.head?.or next) = (r, (s'.step c (m.chars.head?.or next)).2) :=
      Prod.ext hregion.symm rfl
    refine ⟨u', .cons hstep' ?_ hu, husim⟩
    rwa [← hs.1]

end Scan

end Revue.Source
