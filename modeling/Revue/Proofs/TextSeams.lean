import Revue.Proofs.PragmaErasure

/-!
# Texts put together

The scanner knows of the text in front of it only its mode, the brace depth and the depths at which
the open substitutions began. With no substitution open the depth does not matter: it is compared
only with depths that are pushed later on, and it never falls below these. So a text that is left in
code, with nothing open and with no start of a comment across the seam, can be cut off, and the rest
is classified as if it stood alone, however many braces are left open or closed too often.
-/

namespace Revue.Source
open Text

namespace Scan
variable {s t : Scan} {a b : List Char}

theorem Similar.regions_eq (h : Similar s t) (cs : List Char) : s.regions cs = t.regions cs := by
  induction cs generalizing s t with
  | nil => rfl
  | cons c cs ih =>
    obtain ⟨hregion, hnext⟩ := step_similar h c cs.head?
    exact congrArg₂ List.cons hregion (ih hnext)

/-- No start of a comment lies across the end of one text and the start of another. -/
def OpensNoComment (a b : List Char) : Prop :=
  a.getLast? = some '/' → b.head? ≠ some '/' ∧ b.head? ≠ some '*'

/-- A character that leaves the scanner in code makes a pair with the next one only as the start of
a comment. -/
theorem step_of_mode_code {c : Char} {next : Option Char} (h : (s.step c none).2.mode = .code)
    (hpair : c = '/' → next ≠ some '/' ∧ next ≠ some '*') : s.step c next = s.step c none := by
  obtain ⟨mode, depth, substitutions⟩ := s
  cases mode with
  | code =>
    have hline : ¬ (c = '/' ∧ next = some '/') := fun hc => (hpair hc.1).1 hc.2
    have hblock : ¬ (c = '/' ∧ next = some '*') := fun hc => (hpair hc.1).2 hc.2
    simp [step, stepCode, hline, hblock]
  | blockComment => simp [step] at h
  | template =>
    have hmark : ¬ (c = '$' ∧ next = some '\x7b') := by
      rintro ⟨rfl, -⟩
      simp [step, stepTemplate] at h
    simp [step, stepTemplate, hmark]
  | _ => rfl

/-- The regions of a text behind another one that is left in code. -/
theorem regions_append_of_code (hmode : (s.after a []).mode = .code) (hseam : OpensNoComment a b) :
    s.regions (a ++ b) = s.regions a ++ (s.after a []).regions b := by
  induction a generalizing s with
  | nil => rfl
  | cons c a ih =>
    rw [after, List.append_nil] at hmode ⊢
    have hstep : s.step c (a ++ b).head? = s.step c a.head? := by
      cases a with
      | nil => exact step_of_mode_code hmode fun hc => hseam (congrArg some hc)
      | cons d a => rfl
    have hrest : OpensNoComment a b := by
      intro hlast
      refine hseam ?_
      rw [List.getLast?_cons, hlast, Option.getD_some]
    rw [List.cons_append, regions, hstep]
    exact congrArg (List.cons _) (ih hmode hrest)

end Scan

/-- Whether a text that is scanned from its start leaves the scanner in code with no substitution
open. -/
def IsClosed (cs : List Char) : Prop :=
  (Scan.after {} cs []).mode = .code ∧ (Scan.after {} cs []).substitutions = []

/-- A text behind one that is closed is classified as if it stood alone, character by character and
byte by byte. -/
theorem classify_append {a b : List Char} (hclosed : IsClosed a)
    (hseam : Scan.OpensNoComment a b) :
    classify (a ++ b) = classify a ++ classify b ∧
      classifyBytes (a ++ b) = classifyBytes a ++ classifyBytes b := by
  obtain ⟨hmode, hnone⟩ := hclosed
  have hstart : Scan.Similar (Scan.after {} a []) {} := by
    refine ⟨hmode, ?_⟩
    rw [hnone]
    trivial
  have hchars : classify (a ++ b) = classify a ++ classify b := by
    rw [classify, Scan.regions_append_of_code hmode hseam, hstart.regions_eq]
    rfl
  refine ⟨hchars, ?_⟩
  rw [classifyBytes, hchars, List.zip_append (length_classify a).symm, List.flatMap_append]
  rfl

/-- A text with braces closed too often and two left open, before one that closes them. -/
def seamSample : List Char × List Char :=
  ("\x7d \x7d \x60é$\x7b \x7b b: '\x7d' \x7d \x7d\x60 \x7b\x7b /* \x60 */".toList,
    "\x7d \x60c$\x7b \x7b\x7d \x7d\x60 \x7d // \x60\n\x22é\x22".toList)

theorem classify_append_sample :
    IsClosed seamSample.1 ∧ Scan.OpensNoComment seamSample.1 seamSample.2 ∧
      (Scan.after {} seamSample.1 []).depth = 2 ∧
      classify (seamSample.1 ++ seamSample.2) = classify seamSample.1 ++ classify seamSample.2 ∧
      classifyBytes (seamSample.1 ++ seamSample.2) =
        classifyBytes seamSample.1 ++ classifyBytes seamSample.2 := by
  have hclosed : IsClosed seamSample.1 := by
    unfold IsClosed
    decide +kernel
  have hseam : Scan.OpensNoComment seamSample.1 seamSample.2 := by
    unfold Scan.OpensNoComment
    decide +kernel
  exact ⟨hclosed, hseam, by decide +kernel, classify_append hclosed hseam⟩

end Revue.Source
