import Revue.Proofs.Overwriting

/-!
# Bytes read as characters

The tests that tell an annotation from other code are for characters of ASCII. Such a character is
its only byte, and no byte of another character is one of ASCII, so that each test gives the same
answer over the bytes of a text as over its characters. Lengths are counted in bytes then.
-/

namespace Revue.Source
open Text

variable {a c : Char}

def asChar (b : UInt8) : Char := Char.ofNat b.toNat

def asChars (bytes : List UInt8) : List Char := bytes.map asChar

theorem toNat_asChar (b : UInt8) : (asChar b).toNat = b.toNat := by
  have hvalid : b.toNat.isValidChar := Or.inl (Nat.lt_trans b.toNat_lt (by decide))
  rw [asChar, Char.ofNat, dif_pos hvalid]
  rfl

theorem asChar_ofNat (h : c.toNat < 128) : asChar (UInt8.ofNat c.toNat) = c := by
  apply Char.toNat_inj.1
  rw [toNat_asChar, UInt8.toNat_ofNat', Nat.mod_eq_of_lt (by omega)]

/-- A character of ASCII is its only byte. -/
theorem asChars_of_lt (h : c.toNat < 128) : asChars (String.utf8EncodeChar c) = [c] := by
  rw [utf8EncodeChar_of_lt h, asChars, List.map_singleton, asChar_ofNat h]

/-- Any other character has bytes none of which is of ASCII. -/
theorem asChars_of_le (h : 128 ≤ c.toNat) :
    asChars (String.utf8EncodeChar c) ≠ [] ∧
      ∀ d ∈ asChars (String.utf8EncodeChar c), 128 ≤ d.toNat := by
  refine ⟨?_, fun d hd => ?_⟩
  · have hlength := String.length_utf8EncodeChar c
    have hpos := c.utf8Size_pos
    intro hnil
    rw [asChars, List.map_eq_nil_iff] at hnil
    simp [hnil] at hlength
    omega
  · obtain ⟨b, hb, rfl⟩ := List.mem_map.1 hd
    rw [toNat_asChar]
    exact le_of_mem_utf8EncodeChar h hb

@[simp] theorem asChars_nil : asChars [] = [] := rfl

@[simp] theorem asChars_append (a b : List UInt8) : asChars (a ++ b) = asChars a ++ asChars b :=
  List.map_append

theorem length_asChars_bytesOf (cs : List Char) :
    (asChars (bytesOf cs)).length = byteLength cs := by
  rw [asChars, List.length_map, length_bytesOf]

theorem asChars_bytesOf_cons (h : c.toNat < 128) (cs : List Char) :
    asChars (bytesOf (c :: cs)) = c :: asChars (bytesOf cs) := by
  rw [bytesOf_cons, asChars_append, asChars_of_lt h, List.singleton_append]

/-- A character that is not of ASCII is not read as one that is. -/
theorem exists_asChars_bytesOf_cons (h : ¬ c.toNat < 128) (cs : List Char) :
    ∃ d ds, asChars (bytesOf (c :: cs)) = d :: ds ∧ 128 ≤ d.toNat := by
  obtain ⟨hne, hhigh⟩ := asChars_of_le (Nat.not_lt.1 h)
  obtain ⟨d, ds, hd⟩ := List.exists_cons_of_ne_nil hne
  refine ⟨d, ds ++ asChars (bytesOf cs), ?_, hhigh d (by rw [hd]; exact List.mem_cons_self)⟩
  rw [bytesOf_cons, asChars_append, hd, List.cons_append]

theorem ne_of_le_of_lt (hc : 128 ≤ c.toNat) (ha : a.toNat < 128) : c ≠ a := by
  rintro rfl
  omega

section Ascii
variable {p : Char → Bool}

theorem any_head?_asChars (hp : ∀ c : Char, 128 ≤ c.toNat → p c = false) (cs : List Char) :
    (asChars (bytesOf cs)).head?.any p = cs.head?.any p := by
  cases cs with
  | nil => rfl
  | cons c cs =>
    by_cases hc : c.toNat < 128
    · rw [asChars_bytesOf_cons hc]
      rfl
    · obtain ⟨d, ds, hd, hhigh⟩ := exists_asChars_bytesOf_cons hc cs
      rw [hd, List.head?_cons, List.head?_cons, Option.any_some, Option.any_some, hp d hhigh,
        hp c (Nat.not_lt.1 hc)]

theorem head?_asChars (ha : a.toNat < 128) (cs : List Char) :
    (asChars (bytesOf cs)).head? = some a ↔ cs.head? = some a := by
  have hany := any_head?_asChars (p := (· == a))
    (fun c hc => beq_false_of_ne (ne_of_le_of_lt hc ha)) cs
  rw [Bool.eq_iff_iff] at hany
  simpa [Option.any_eq_true] using hany

theorem dropWhile_asChars (hp : ∀ c : Char, 128 ≤ c.toNat → p c = false) (cs : List Char) :
    (asChars (bytesOf cs)).dropWhile p = asChars (bytesOf (cs.dropWhile p)) := by
  induction cs with
  | nil => rfl
  | cons c cs ih =>
    by_cases hc : c.toNat < 128
    · rw [asChars_bytesOf_cons hc, List.dropWhile_cons, List.dropWhile_cons, ih]
      split
      · rfl
      · rw [asChars_bytesOf_cons hc]
    · obtain ⟨d, ds, hd, hhigh⟩ := exists_asChars_bytesOf_cons hc cs
      have hfirst : ¬ p d = true := by simp [hp d hhigh]
      have hchar : ¬ p c = true := by simp [hp c (Nat.not_lt.1 hc)]
      rw [List.dropWhile_cons_of_neg hchar, hd, List.dropWhile_cons_of_neg hfirst]

theorem takeWhile_asChars (hp : ∀ c : Char, 128 ≤ c.toNat → p c = true) (cs : List Char) :
    (asChars (bytesOf cs)).takeWhile p = asChars (bytesOf (cs.takeWhile p)) := by
  induction cs with
  | nil => rfl
  | cons c cs ih =>
    by_cases hc : c.toNat < 128
    · rw [asChars_bytesOf_cons hc, List.takeWhile_cons, List.takeWhile_cons, ih]
      split
      · rw [asChars_bytesOf_cons hc]
      · rfl
    · obtain ⟨-, hhigh⟩ := asChars_of_le (Nat.not_lt.1 hc)
      rw [List.takeWhile_cons, if_pos (hp c (Nat.not_lt.1 hc)), bytesOf_cons, asChars_append,
        List.takeWhile_append_of_pos fun d hd => hp d (hhigh d hd), ih, bytesOf_cons,
        asChars_append]

theorem isPrefixOf_asChars {w : List Char} (hw : w.all (·.toNat < 128) = true) (cs : List Char) :
    w.isPrefixOf (asChars (bytesOf cs)) = w.isPrefixOf cs := by
  induction w generalizing cs with
  | nil => simp
  | cons a w ih =>
    obtain ⟨ha, hw⟩ : a.toNat < 128 ∧ w.all (·.toNat < 128) = true := by simpa using hw
    cases cs with
    | nil => rfl
    | cons c cs =>
      by_cases hc : c.toNat < 128
      · rw [asChars_bytesOf_cons hc, List.isPrefixOf_cons_cons, List.isPrefixOf_cons_cons, ih hw]
      · obtain ⟨d, ds, hd, hhigh⟩ := exists_asChars_bytesOf_cons hc cs
        rw [hd, List.isPrefixOf_cons_cons, List.isPrefixOf_cons_cons,
          beq_false_of_ne (ne_of_le_of_lt hhigh ha).symm,
          beq_false_of_ne (ne_of_le_of_lt (Nat.not_lt.1 hc) ha).symm, Bool.false_and,
          Bool.false_and]

end Ascii

/-! ### Texts of ASCII -/

theorem asChars_bytesOf_eq_self {cs : List Char}
    (h : (asChars (bytesOf cs)).all (·.toNat < 128) = true) : asChars (bytesOf cs) = cs := by
  induction cs with
  | nil => rfl
  | cons c cs ih =>
    by_cases hc : c.toNat < 128
    · rw [asChars_bytesOf_cons hc] at h ⊢
      rw [ih (by simpa [hc] using h)]
    · obtain ⟨d, ds, hd, hhigh⟩ := exists_asChars_bytesOf_cons hc cs
      rw [hd, List.all_cons, Bool.and_eq_true, decide_eq_true_eq] at h
      omega

/-- The characters of a text. Where all its bytes are of ASCII they are read off without being
decoded, which is quick to evaluate. -/
def readChars (text : String) : List Char :=
  let chars := asChars text.toByteArray.data.toList
  if chars.all (·.toNat < 128) then chars else text.toList

theorem readChars_eq (text : String) : readChars text = text.toList := by
  have hbytes : text.toByteArray.data.toList = bytesOf text.toList := by
    rw [← String.utf8Encode_toList, List.utf8Encode, List.toList_data_toByteArray, bytesOf]
  unfold readChars
  rw [hbytes]
  dsimp only
  split
  · rename_i hascii
    exact asChars_bytesOf_eq_self hascii
  · rfl

/-! ### What is overwritten at a byte -/

theorem isAsciiWord_eq_false (h : 128 ≤ c.toNat) : isAsciiWord c = false := by
  have hne : ∀ a : Char, a.toNat < 128 → c ≠ a := fun a ha => ne_of_le_of_lt h ha
  have hnat : 128 ≤ c.val.toNat := h
  have hupper : c.isUpper = decide (c.val ≥ 'A'.val ∧ c.val ≤ 'Z'.val) := rfl
  have hlower : c.isLower = (decide (c.val ≥ 'a'.val) && decide (c.val ≤ 'z'.val)) := rfl
  have halpha : c.isAlpha = (c.isUpper || c.isLower) := rfl
  simp [isAsciiWord, hne, Char.isAlphanum, halpha, hupper, hlower, Char.isDigit,
    UInt32.le_iff_toNat_le]
  omega

theorem toNat_lt_of_isAsciiWord (h : isAsciiWord c = true) : c.toNat < 128 := by
  refine Nat.lt_of_not_le fun hle => ?_
  rw [isAsciiWord_eq_false hle] at h
  cases h

theorem ne_of_isAsciiWord (hc : isAsciiWord c = true) (ha : isAsciiWord a = false) : c ≠ a := by
  rintro rfl
  rw [ha] at hc
  cases hc

theorem startsType_eq_false (h : 128 ≤ c.toNat) : startsType c = false := by
  have hne : ∀ a : Char, a.toNat < 128 → c ≠ a := fun a ha => ne_of_le_of_lt h ha
  simp [startsType, isAsciiWord_eq_false h, hne]

theorem tail_asChars (cs : List Char) :
    (if (asChars (bytesOf cs)).head? = some '?' then (asChars (bytesOf cs)).tail
      else asChars (bytesOf cs)) =
    asChars (bytesOf (if cs.head? = some '?' then cs.tail else cs)) := by
  by_cases hmark : cs.head? = some '?'
  · rw [if_pos hmark, if_pos ((head?_asChars (by decide) cs).2 hmark)]
    obtain ⟨rest, rfl⟩ := List.head?_eq_some_iff.1 hmark
    rw [asChars_bytesOf_cons (by decide), List.tail_cons, List.tail_cons]
  · rw [if_neg hmark, if_neg (mt (head?_asChars (by decide) cs).1 hmark)]

theorem isVarianceTarget_asChars (cs : List Char) :
    isVarianceTarget (asChars (bytesOf cs)) = isVarianceTarget cs := by
  have hblank : ∀ c : Char, 128 ≤ c.toNat → (c == ' ') = false := fun c hc =>
    beq_false_of_ne (ne_of_le_of_lt hc (by decide))
  have hstart : ∀ c : Char, 128 ≤ c.toNat → (isAsciiWord c && !c.isDigit) = false :=
    fun c hc => by rw [isAsciiWord_eq_false hc, Bool.false_and]
  have hcolon : ∀ cs : List Char,
      ((asChars (bytesOf cs)).head? == some ':') = (cs.head? == some ':') := fun cs => by
    rw [Bool.eq_iff_iff, beq_iff_eq, beq_iff_eq, head?_asChars (by decide)]
  unfold isVarianceTarget
  dsimp only
  rw [dropWhile_asChars (fun c hc => isAsciiWord_eq_false hc), tail_asChars,
    dropWhile_asChars hblank, any_head?_asChars hstart, hcolon]

/-- A statement has as many bytes as its characters have together. -/
theorem statementLength_asChars (cs : List Char) :
    statementLength (asChars (bytesOf cs)) = byteLength (cs.take (statementLength cs)) := by
  have hother : ∀ a : Char, a.toNat < 128 → ∀ c : Char, 128 ≤ c.toNat → (c != a) = true :=
    fun a ha c hc => bne_iff_ne.2 (ne_of_le_of_lt hc ha)
  unfold statementLength
  dsimp only
  rw [takeWhile_asChars (hother '\n' (by decide)), takeWhile_asChars (hother ';' (by decide)),
    length_asChars_bytesOf, length_asChars_bytesOf]
  obtain ⟨behind, hbehind⟩ : cs.takeWhile (· != '\n') <+: cs := List.takeWhile_prefix _
  generalize cs.takeWhile (· != '\n') = line at hbehind ⊢
  have hline : line.takeWhile (· != ';') ++ line.dropWhile (· != ';') = line :=
    List.takeWhile_append_dropWhile
  have hend := List.head?_dropWhile_not (· != ';') line
  generalize line.takeWhile (· != ';') = body at hline ⊢
  generalize line.dropWhile (· != ';') = rest at hline hend
  subst hline hbehind
  cases rest with
  | nil => simp
  | cons c rest =>
    obtain rfl : c = ';' := by simpa using hend
    have hsize : ';'.utf8Size = 1 := by decide
    have hlength : byteLength body < byteLength (body ++ ';' :: rest) := by
      rw [byteLength_append, byteLength, hsize]
      omega
    rw [if_pos hlength, if_pos (by simp), List.append_assoc, List.take_append]
    simp [byteLength_append, byteLength, hsize, List.take_of_length_le]

def Alike (x y : Option Char) : Prop := ∀ a : Char, a.toNat < 128 → (x = some a ↔ y = some a)

theorem Alike.refl (x : Option Char) : Alike x x := fun _ _ => Iff.rfl

theorem Alike.of_le {d : Char} (hc : 128 ≤ c.toNat) (hd : 128 ≤ d.toNat) :
    Alike (some c) (some d) := by
  intro a ha
  simp [ne_of_le_of_lt hc ha, ne_of_le_of_lt hd ha]

def Erasure.inBytes (cs : List Char) : Erasure → Erasure
  | .statement n => .statement (byteLength (cs.take n))
  | .mark skip n => .mark skip n
  | .keep => .keep

theorem erasureAt_of_le (h : 128 ≤ c.toNat) (prev : Option Char) (lineStart : Bool)
    (rest : List Char) : erasureAt prev lineStart c rest = .keep := by
  have hne : ∀ a : Char, a.toNat < 128 → c ≠ a := fun a ha => ne_of_le_of_lt h ha
  have himport : ¬ "import typeof ".toList.isPrefixOf (c :: rest) = true := by
    obtain ⟨w, hw⟩ : ∃ w, "import typeof ".toList = 'i' :: w := ⟨_, rfl⟩
    rw [hw, List.isPrefixOf_cons_cons, beq_false_of_ne (hne 'i' (by decide)).symm,
      Bool.false_and]
    exact Bool.false_ne_true
  rw [erasureAt, if_neg fun h => hne '\x7b' (by decide) h.1,
    if_neg fun h => hne '|' (by decide) h.1, if_neg fun h => hne '%' (by decide) h.1,
    if_neg fun h => hne '?' (by decide) h.1,
    if_neg fun h => h.1.elim (hne '+' (by decide)) (hne '-' (by decide)),
    if_neg fun h => himport h.2]

/-- At a character of ASCII the same is overwritten, whether characters or bytes are read. -/
theorem erasureAt_asChars {prev prev' : Option Char} (hprev : Alike prev prev') (lineStart : Bool)
    (hc : c.toNat < 128) (rest : List Char) :
    erasureAt prev' lineStart c (asChars (bytesOf rest)) =
      (erasureAt prev lineStart c rest).inBytes (c :: rest) := by
  have hbar := head?_asChars (by decide : '|'.toNat < 128) rest
  have hbrace := head?_asChars (by decide : '\x7d'.toNat < 128) rest
  have hchecks := isPrefixOf_asChars (w := "checks".toList) (by decide) rest
  have hstarts := any_head?_asChars (fun c hc => startsType_eq_false hc) rest
  have hvariance := isVarianceTarget_asChars rest
  have himport := isPrefixOf_asChars (w := "import typeof ".toList) (by decide) (c :: rest)
  have hlength := statementLength_asChars (c :: rest)
  rw [asChars_bytesOf_cons hc] at himport hlength
  unfold erasureAt
  generalize "checks".toList = checks at hchecks ⊢
  generalize "import typeof ".toList = keyword at himport ⊢
  simp only [hbar, hbrace, ← hprev ':' (by decide), ← hprev '<' (by decide),
    ← hprev '\x7b' (by decide), ← hprev ',' (by decide), ← hprev ';' (by decide), hchecks, hstarts,
    hvariance, himport, hlength, apply_ite (Erasure.inBytes (c :: rest))]
  rfl

end Revue.Source
