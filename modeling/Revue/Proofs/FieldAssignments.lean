import Revue.Analysis.Assembly
import Revue.Proofs.ItemSteps
import Revue.Proofs.SiteExactness
import Revue.Proofs.WrappedText

/-!
# Fields become assignments

The value of a field is a fragment with text in front and behind, and its sites move along, so that
rewriting it gives the same as rewriting the value alone. What stands in front is the name of the
field behind `this.`, as it was spelled. That is no access to a member unless the name is an
identifier, and so a source without a caveat may become a text that is not a module.
-/

namespace Revue.Analysis
open Text Syntax Component Vue

theorem addInstanceField_assigns {r : Reading} (d : ClassDraft) {value : Tree} {name : String}
    (hlaid : Laid r.source value) (hname : name ≠ "state") :
    ∃ statement text, (addInstanceField r d value name).created = d.created ++ [statement] ∧
      replaceSites (fragmentOf r (.classMember none) value) = some text ∧
      replaceSites statement =
        some (("this." ++ name ++ " = ").toList ++ (text ++ [';'])) := by
  obtain ⟨hwithin, hpair⟩ := fragmentOf_ordered (.classMember none) hlaid
  obtain ⟨-, text, -, htext⟩ := replaceSites_uses hwithin hpair
  refine ⟨(fragmentOf r (.classMember none) value).wrapped ("this." ++ name ++ " = ") ";", text, ?_,
    htext, ?_⟩
  · simp [addInstanceField, hname, ClassDraft.addUpdaters]
  · rw [replaceSites_wrapped _ _ fun a ha => (hwithin a ha).inside, htext]
    rfl

def outputOf? (options : Options) (source : String) : Option String :=
  match analyze options source with
  | .ok m => if m.caveats.isEmpty then generate m else none
  | .error _ => none

theorem outputOf?_eq {options : Options} {source : String} {s : Setup} {m : Model}
    (hsetup : setupOf? options source = some s) (hmodel : modelOf s = .ok m)
    (hcaveats : m.caveats.isEmpty = true) : outputOf? options source = generate m := by
  delta outputOf?
  rw [analyze_of_setupOf? hsetup, hmodel]
  exact if_pos hcaveats

def isModule (options : Options) (text : String) : Bool :=
  (parse (Source.preprocess text options.isFlow).toList).isOk

theorem isModule_eq (options : Options) (text : String) : isModule options text =
    (parse (preparedChars options.isFlow (Source.readChars text))).isOk := by
  rw [isModule, toList_preprocess, Source.readChars_eq]

set_option maxRecDepth 100000 in
/-- Not every output is a module: a name that is no identifier is assigned to as if it were one. -/
theorem outputOf?_not_isModule :
    ¬ ∀ options source text, outputOf? options source = some text → isModule options text := by
  intro h
  obtain ⟨s, m, hsetup, hmodel, hcaveats, htext⟩ := exists_of_analysis? {}
    "class A \x7b \x27aria-label\x27 = 1; \x7d" (fun _ m => m.caveats.isEmpty = true ∧
      generate m = some ("export default \x7b\n  name: \x27A\x27,\n" ++
        "  created() \x7b\n    this.aria-label = 1;\n  \x7d\n\x7d;\n")) (by decide +kernel)
  have hmodule := h _ _ _ ((outputOf?_eq hsetup hmodel hcaveats).trans htext)
  rw [isModule_eq] at hmodule
  revert hmodule
  decide +kernel

end Revue.Analysis
