import Revue.Text.Edit

/-!
# Edits that do not overlap

Sorting is stable, so edits that are pairwise apart come out one behind the other if, among those
that start at one offset, the empty ones were given first. Such a batch is used as a whole: no edit
is skipped and none fails. A boundary of a text is one of every slice that contains it. What stands
in front of all edits is kept, and they do to the rest what they would do if the text began there.
-/

namespace Revue.Text

variable {last n : Nat} {s : Span} {a b c cs d piece : List Char}

@[simp] theorem byteLength_append (a b : List Char) :
    byteLength (a ++ b) = byteLength a + byteLength b := by
  induction a with
  | nil => simp [byteLength]
  | cons c a ih => simp [byteLength, ih, Nat.add_assoc]

theorem cut?_append (a b : List Char) : cut? (byteLength a) (a ++ b) = some (a, b) := by
  induction a with
  | nil => simp [byteLength, cut?]
  | cons c a ih =>
    have hc := Char.utf8Size_pos c
    obtain ⟨n, hn⟩ : ∃ n, c.utf8Size + byteLength a = n + 1 :=
      ⟨c.utf8Size + byteLength a - 1, by omega⟩
    have hrest : n + 1 - c.utf8Size = byteLength a := by omega
    have hle : c.utf8Size ≤ n + 1 := by omega
    rw [byteLength, hn, List.cons_append, cut?, if_pos hle, hrest, ih]
    rfl

theorem eq_append_of_cut? (h : cut? n cs = some (a, b)) : cs = a ++ b ∧ byteLength a = n := by
  fun_induction cut? n cs generalizing a with
  | case1 cs =>
    obtain ⟨rfl, rfl⟩ : [] = a ∧ cs = b := by simpa using h
    exact ⟨rfl, rfl⟩
  | case2 => cases h
  | case3 n c cs hle ih =>
    obtain ⟨⟨a, b⟩, hcut, heq⟩ := Option.map_eq_some_iff.1 h
    obtain ⟨rfl, rfl⟩ := Prod.mk.inj heq
    obtain ⟨rfl, hlength⟩ := ih hcut
    refine ⟨rfl, ?_⟩
    rw [byteLength]
    omega
  | case4 => cases h

theorem cut?_eq_some_iff : cut? n cs = some (a, b) ↔ cs = a ++ b ∧ byteLength a = n := by
  refine ⟨eq_append_of_cut?, ?_⟩
  rintro ⟨rfl, rfl⟩
  exact cut?_append a b

theorem isBoundary_zero (cs : List Char) : isBoundary cs 0 = true := by
  simp [isBoundary, cut?]

theorem isBoundary_iff : isBoundary cs n = true ↔ ∃ a b, cs = a ++ b ∧ byteLength a = n := by
  rw [isBoundary, Option.isSome_iff_exists]
  constructor
  · rintro ⟨⟨a, b⟩, h⟩
    exact ⟨a, b, cut?_eq_some_iff.1 h⟩
  · rintro ⟨a, b, h⟩
    exact ⟨(a, b), cut?_eq_some_iff.2 h⟩

theorem cut?_eq_none_iff : cut? n cs = none ↔ isBoundary cs n = false := by
  rw [isBoundary, Option.isSome_eq_false_iff, Option.isNone_iff_eq_none]

theorem isBoundary.le_byteLength (h : isBoundary cs n = true) : n ≤ byteLength cs := by
  obtain ⟨a, b, rfl, rfl⟩ := isBoundary_iff.1 h
  simp

/-- Of two starts of a text the shorter one is a start of the longer one. -/
theorem exists_append_of_byteLength_le (h : a ++ b = c ++ d) (hle : byteLength a ≤ byteLength c) :
    ∃ e, c = a ++ e ∧ b = e ++ d := by
  rcases List.append_eq_append_iff.1 h with ⟨e, rfl, rfl⟩ | ⟨e, rfl, rfl⟩
  · exact ⟨e, rfl, rfl⟩
  · have hzero : byteLength e = 0 := by
      rw [byteLength_append] at hle
      omega
    cases e with
    | nil => exact ⟨[], by simp, by simp⟩
    | cons x e =>
      have := Char.utf8Size_pos x
      simp only [byteLength] at hzero
      omega

theorem append_inj_of_byteLength_eq (h : a ++ b = c ++ d) (heq : byteLength a = byteLength c) :
    a = c ∧ b = d := by
  have hcut : cut? (byteLength a) (a ++ b) = some (c, d) := by
    rw [h, heq]
    exact cut?_append c d
  rw [cut?_append] at hcut
  exact Prod.mk.inj (Option.some.inj hcut)

namespace Span

theorem slice?_eq_some_iff :
    s.slice? cs = some piece ↔
      ∃ a b, cs = a ++ (piece ++ b) ∧ byteLength a = s.start ∧
        s.start + byteLength piece = s.stop := by
  unfold slice?
  split
  · rename_i hle
    simp only [Option.bind_eq_some_iff, Option.map_eq_some_iff, Prod.exists]
    constructor
    · rintro ⟨a, rest, hcut, piece', b, hcut', rfl⟩
      obtain ⟨rfl, hstart⟩ := cut?_eq_some_iff.1 hcut
      obtain ⟨rfl, hlength⟩ := cut?_eq_some_iff.1 hcut'
      exact ⟨a, b, rfl, hstart, by omega⟩
    · rintro ⟨a, b, rfl, hstart, hstop⟩
      exact ⟨a, piece ++ b, cut?_eq_some_iff.2 ⟨rfl, hstart⟩, piece, b,
        cut?_eq_some_iff.2 ⟨rfl, by omega⟩, rfl⟩
  · rename_i hle
    simp only [reduceCtorEq, false_iff, not_exists, not_and]
    intro a b _ _ hstop
    omega

theorem slice?_zero (htext : cs = a ++ b) (hn : byteLength a = n) : slice? ⟨0, n⟩ cs = some a :=
  slice?_eq_some_iff.2 ⟨[], b, htext, rfl, (Nat.zero_add _).trans hn⟩

theorem exists_slice? (hle : s.start ≤ s.stop) (hstart : isBoundary cs s.start = true)
    (hstop : isBoundary cs s.stop = true) :
    ∃ piece, s.slice? cs = some piece := by
  obtain ⟨a, rest, rfl, ha⟩ := isBoundary_iff.1 hstart
  obtain ⟨c, b, hc, hlength⟩ := isBoundary_iff.1 hstop
  obtain ⟨piece, rfl, rfl⟩ := exists_append_of_byteLength_le hc (by omega)
  refine ⟨piece, slice?_eq_some_iff.2 ⟨a, b, rfl, ha, ?_⟩⟩
  rw [byteLength_append] at hlength
  omega

theorem slice?_append {x y : List Char} {a b c : Nat} (hx : slice? ⟨a, b⟩ cs = some x)
    (hy : slice? ⟨b, c⟩ cs = some y) : slice? ⟨a, c⟩ cs = some (x ++ y) := by
  obtain ⟨p, q, rfl, hp, hlength⟩ := slice?_eq_some_iff.1 hx
  obtain ⟨p', q', heq, hp', hlength'⟩ := slice?_eq_some_iff.1 hy
  dsimp only at hp hlength hp' hlength'
  rw [← List.append_assoc] at heq
  obtain ⟨-, rfl⟩ := append_inj_of_byteLength_eq heq (by rw [byteLength_append]; omega)
  refine slice?_eq_some_iff.2 ⟨p, q', by simp, hp, ?_⟩
  rw [byteLength_append]
  dsimp only
  omega

theorem isBoundary_slice (h : s.slice? cs = some piece) (hn : isBoundary cs n = true)
    (hstart : s.start ≤ n) (hstop : n ≤ s.stop) :
    isBoundary piece (n - s.start) = true := by
  obtain ⟨a, b, rfl, ha, hpiece⟩ := slice?_eq_some_iff.1 h
  obtain ⟨c, d, hcd, hc⟩ := isBoundary_iff.1 hn
  obtain ⟨e, rfl, he⟩ := exists_append_of_byteLength_le hcd (by omega)
  rw [byteLength_append] at hc
  obtain ⟨f, rfl, -⟩ := exists_append_of_byteLength_le he.symm (by omega)
  exact isBoundary_iff.2 ⟨e, f, rfl, by omega⟩

end Span

/-! ### Sorting -/

section Sorting
variable {α : Type} {key stop : α → Nat}

theorem insertOn_perm (key : α → Nat) (a : α) (l : List α) : (insertOn key a l).Perm (a :: l) := by
  induction l with
  | nil => exact .refl _
  | cons b l ih =>
    rw [insertOn]
    split
    · exact .refl _
    · exact (ih.cons b).trans (.swap a b l)

theorem sortOn_perm (key : α → Nat) (l : List α) : (sortOn key l).Perm l := by
  induction l with
  | nil => exact .refl _
  | cons a l ih => exact (insertOn_perm key a (sortOn key l)).trans (ih.cons a)

/-- Elements may stand in this order if the first ends where the second starts or before, or the
second has to be moved in front of the first. -/
def Sortable (key stop : α → Nat) (a b : α) : Prop :=
  stop a ≤ key b ∨ stop b ≤ key a ∧ key b < key a

theorem insertOn_pairwise {a : α} {l : List α} (ha : key a ≤ stop a)
    (hl : ∀ b ∈ l, key b ≤ stop b) (hpair : l.Pairwise fun b c => stop b ≤ key c)
    (hsort : ∀ b ∈ l, Sortable key stop a b) :
    (insertOn key a l).Pairwise fun b c => stop b ≤ key c := by
  induction l with
  | nil => simp [insertOn]
  | cons b l ih =>
    obtain ⟨hb, hpair'⟩ := List.pairwise_cons.1 hpair
    rw [insertOn]
    split
    · rename_i hle
      refine List.pairwise_cons.2 ⟨fun c hc => ?_, hpair⟩
      have hbc : key b ≤ key c := by
        rcases List.mem_cons.1 hc with rfl | hc
        · exact Nat.le_refl _
        · exact Nat.le_trans (hl b (by simp)) (hb c hc)
      rcases hsort c hc with h | ⟨-, h⟩
      · exact h
      · omega
    · rename_i hlt
      refine List.pairwise_cons.2 ⟨fun c hc => ?_, ?_⟩
      · rcases List.mem_cons.1 ((insertOn_perm key a l).mem_iff.1 hc) with rfl | hc
        · rcases hsort b (by simp) with h | ⟨h, -⟩
          · omega
          · exact h
        · exact hb c hc
      · exact ih (fun c hc => hl c (by simp [hc])) hpair' fun c hc => hsort c (by simp [hc])

theorem sortOn_pairwise {l : List α} (hl : ∀ a ∈ l, key a ≤ stop a)
    (hsort : l.Pairwise (Sortable key stop)) :
    (sortOn key l).Pairwise fun a b => stop a ≤ key b := by
  induction l with
  | nil => exact .nil
  | cons a l ih =>
    obtain ⟨ha, hsort'⟩ := List.pairwise_cons.1 hsort
    have hmem : ∀ {b}, b ∈ sortOn key l → b ∈ l := fun hb => (sortOn_perm key l).mem_iff.1 hb
    refine insertOn_pairwise (hl a (by simp)) (fun b hb => hl b (by simp [hmem hb])) ?_
      fun b hb => ha b (hmem hb)
    exact ih (fun b hb => hl b (by simp [hb])) hsort'

theorem sortOn_eq_self {l : List α} (h : l.Pairwise fun a b => key a ≤ key b) :
    sortOn key l = l := by
  induction l with
  | nil => rfl
  | cons a l ih =>
    obtain ⟨ha, hl⟩ := List.pairwise_cons.1 h
    rw [sortOn, ih hl]
    cases l with
    | nil => rfl
    | cons b l => rw [insertOn, if_pos (ha b (by simp))]

theorem sortOn_map {β : Type} {key' : β → Nat} {f : α → β}
    (h : ∀ a b, key' (f a) ≤ key' (f b) ↔ key a ≤ key b) (l : List α) :
    sortOn key' (l.map f) = (sortOn key l).map f := by
  have hinsert : ∀ a l, insertOn key' (f a) (l.map f) = (insertOn key a l).map f := by
    intro a l
    induction l with
    | nil => rfl
    | cons b l ih =>
      simp only [List.map_cons, insertOn, h, ih]
      split <;> rfl
  induction l with
  | nil => rfl
  | cons a l ih => rw [List.map_cons, sortOn, sortOn, ih, hinsert]

end Sorting

/-! ### Batches of edits -/

/-- Both ends of a span are character boundaries of a text, in either order. -/
structure Span.Aligned (cs : List Char) (s : Span) : Prop where
  start_boundary : isBoundary cs s.start = true
  stop_boundary : isBoundary cs s.stop = true

instance (cs : List Char) (s : Span) : Decidable (s.Aligned cs) :=
  decidable_of_iff (isBoundary cs s.start = true ∧ isBoundary cs s.stop = true)
    ⟨fun ⟨h1, h2⟩ => ⟨h1, h2⟩, fun ⟨h1, h2⟩ => ⟨h1, h2⟩⟩

/-- A span of a text in order and on character boundaries. -/
structure Span.Within (cs : List Char) (s : Span) : Prop where
  ordered : s.start ≤ s.stop
  start_boundary : isBoundary cs s.start = true
  stop_boundary : isBoundary cs s.stop = true

instance (cs : List Char) (s : Span) : Decidable (s.Within cs) :=
  decidable_of_iff (s.start ≤ s.stop ∧ isBoundary cs s.start = true ∧ isBoundary cs s.stop = true)
    ⟨fun ⟨h1, h2, h3⟩ => ⟨h1, h2, h3⟩, fun ⟨h1, h2, h3⟩ => ⟨h1, h2, h3⟩⟩

theorem Span.Within.aligned (h : s.Within cs) : s.Aligned cs :=
  ⟨h.start_boundary, h.stop_boundary⟩

theorem Span.isSome_slice?_iff : (s.slice? cs).isSome = true ↔ s.Within cs := by
  rw [Option.isSome_iff_exists]
  constructor
  · rintro ⟨piece, hpiece⟩
    obtain ⟨a, b, rfl, hstart, hstop⟩ := slice?_eq_some_iff.1 hpiece
    refine ⟨by omega, isBoundary_iff.2 ⟨a, piece ++ b, rfl, hstart⟩, ?_⟩
    refine isBoundary_iff.2 ⟨a ++ piece, b, by simp, ?_⟩
    rw [byteLength_append]
    omega
  · intro h
    exact exists_slice? h.ordered h.start_boundary h.stop_boundary

theorem Span.slice?_of_le {a b c : Nat} (hpiece : slice? ⟨a, b⟩ cs = some piece) (hle : b ≤ c) :
    slice? ⟨a, c⟩ cs = (slice? ⟨b, c⟩ cs).map (piece ++ ·) := by
  cases hrest : slice? ⟨b, c⟩ cs with
  | some rest => exact slice?_append hpiece hrest
  | none =>
    have hb : isBoundary cs b = true :=
      (isSome_slice?_iff.1 (Option.isSome_of_eq_some hpiece)).stop_boundary
    rw [← Option.not_isSome_iff_eq_none, isSome_slice?_iff] at hrest
    rw [Option.map_none, ← Option.not_isSome_iff_eq_none, isSome_slice?_iff]
    exact fun hwithin => hrest ⟨hle, hb, hwithin.stop_boundary⟩

namespace Edit

variable {cs : List Char} {es : List Edit}

/-- Edits one behind the other are all used. -/
theorem select_eq_self (haligned : ∀ e ∈ es, e.range.Aligned cs)
    (hpair : es.Pairwise fun a b => a.range.stop ≤ b.range.start)
    (hlast : ∀ e ∈ es, last ≤ e.range.start) : select cs last es = es := by
  induction es generalizing last with
  | nil => rfl
  | cons e es ih =>
    obtain ⟨he, hpair'⟩ := List.pairwise_cons.1 hpair
    have hin := haligned e (by simp)
    have husable : e.usable cs last = true := by
      simp [usable, hlast e (by simp), isBoundary.le_byteLength hin.stop_boundary,
        hin.start_boundary]
    rw [select, if_pos husable, ih (fun f hf => haligned f (by simp [hf])) hpair' he]

/-- The cuts between edits succeed: what is skipped leaves the last cut where it was. -/
theorem isSome_splice_select (hes : ∀ e ∈ es, isBoundary cs e.range.stop = true)
    (hlast : isBoundary cs last = true) : (splice cs last (select cs last es)).isSome = true := by
  induction es generalizing last with
  | nil => rwa [select, splice, Option.isSome_map]
  | cons e es ih =>
    obtain ⟨he, hrest⟩ := List.forall_mem_cons.1 hes
    rw [select]
    split
    · rename_i husable
      obtain ⟨⟨hle, -⟩, hstart⟩ : (last ≤ e.range.start ∧ e.range.stop ≤ byteLength cs) ∧
          isBoundary cs e.range.start = true := by simpa [usable] using husable
      obtain ⟨piece, hpiece⟩ := Span.exists_slice? (s := ⟨last, e.range.start⟩) hle hlast hstart
      rw [splice, hpiece, Option.bind_some, Option.isSome_map]
      exact ih hrest he
    · exact ih hrest hlast

/-- Text in front of all edits is kept, and the rest is edited as if it began behind it. -/
theorem splice_of_le (hpiece : Span.slice? ⟨last, n⟩ cs = some piece)
    (hes : ∀ e ∈ es, n ≤ e.range.start) :
    splice cs last es = (splice cs n es).map (piece ++ ·) := by
  cases es with
  | nil =>
    obtain ⟨a, b, rfl, hstart, hstop⟩ := Span.slice?_eq_some_iff.1 hpiece
    have hlast : cut? last (a ++ (piece ++ b)) = some (a, piece ++ b) :=
      cut?_eq_some_iff.2 ⟨rfl, hstart⟩
    have hn : cut? n (a ++ (piece ++ b)) = some (a ++ piece, b) := by
      refine cut?_eq_some_iff.2 ⟨by simp, ?_⟩
      rw [byteLength_append, hstart]
      exact hstop
    simp [splice, hlast, hn]
  | cons e es =>
    rw [splice, splice, Span.slice?_of_le hpiece (hes e List.mem_cons_self)]
    simp [Option.map_bind, Option.bind_map, Function.comp_def]

end Edit

end Revue.Text
