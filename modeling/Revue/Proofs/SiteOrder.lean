import Mathlib.Data.List.Pairwise
import Mathlib.Data.List.TakeDrop
import Revue.Proofs.SiteSpec

/-!
# The order of sites

Sites that are found in a laid tree lie in its span and on character boundaries, and they are apart.
The walk does not go through a text from left to right, but a place for an insertion is found before
the sites behind it, and so the stable sort puts every site behind the end of the one before.
-/

namespace Revue.Analysis
open Text Syntax Component

variable {a b : Site} {s : Span} {p t : Tree} {r : Reading} {source : List Char}

structure InSpan (base : Span) (a : Site) : Prop where
  start_le : base.start ≤ a.range.start
  stop_le : a.range.stop ≤ base.stop
  start_lt : a.range.start < base.stop

abbrev SiteSortable : Site → Site → Prop := Sortable (·.range.start) (·.range.stop)

theorem siteSortable_iff : SiteSortable a b ↔
    a.range.stop ≤ b.range.start ∨ b.range.stop ≤ a.range.start ∧ b.range.start < a.range.start :=
  Iff.rfl

theorem nested_le (h : NodeLaid source t) (hp : p ∈ t.parts) :
    t.span.start ≤ p.span.start ∧ p.span.stop ≤ t.span.stop := by
  simpa [Span.containsSpan] using h.nested p hp

theorem InSpan.of_part (h : NodeLaid source t) (hp : p ∈ t.parts) (ha : InSpan p.span a) :
    InSpan t.span a := by
  obtain ⟨hstart, hstop⟩ := nested_le h hp
  obtain ⟨h1, h2, h3⟩ := ha
  exact ⟨by omega, by omega, by omega⟩

theorem inSpan_self (h : s.start < s.stop) (kind : SiteKind) : InSpan s ⟨s, kind⟩ :=
  ⟨Nat.le_refl _, Nat.le_refl _, h⟩

/-- Sites in parts that are apart may be found in either order. -/
theorem sortable_of_apart {u : Span} (h : apart s u) (ha : InSpan s a) (hb : InSpan u b) :
    SiteSortable a b := by
  obtain ⟨ha1, ha2, ha3⟩ := ha
  obtain ⟨hb1, hb2, hb3⟩ := hb
  rw [siteSortable_iff]
  rcases h with h | h
  · exact Or.inl (by omega)
  · exact Or.inr ⟨by omega, by omega⟩

theorem Laid.lt_of_namedMember? (h : Laid source t) {access : Tree × String}
    (hnamed : namedMember? t = some access) :
    t.span.start < t.span.stop := by
  obtain ⟨name, -, hparts, hname⟩ := namedMember?_eq_some hnamed
  have hmem : name ∈ t.parts := by simp [hparts]
  have hlt := (h.part hmem).node.token (by simp [hname, Kind.isToken])
  obtain ⟨hstart, hstop⟩ := nested_le h.node hmem
  omega

theorem Laid.lt_of_name? (h : Laid source t) {name : String} (hname : t.name? = some name) :
    t.span.start < t.span.stop := by
  apply h.node.token
  simp [kind_of_name? hname, Kind.isToken]

theorem StopsAt.inSpan {setting : Setting} (h : StopsAt setting t a) (hlaid : Laid source t) :
    a.range.Within source ∧ InSpan t.span a := by
  have hself : ∀ {access kind}, namedMember? t = some access →
      t.span.Within source ∧ InSpan t.span ⟨t.span, kind⟩ := fun hnamed =>
    ⟨hlaid.node.within, inSpan_self (hlaid.lt_of_namedMember? hnamed) _⟩
  have hobject : ∀ {object name kind}, namedMember? t = some (object, name) →
      (Laid source object → object.span.start < object.span.stop) →
      object.span.Within source ∧ InSpan t.span ⟨object.span, kind⟩ := by
    intro object name kind hnamed hlt
    obtain ⟨node, -, hparts, -⟩ := namedMember?_eq_some hnamed
    have hmem : object ∈ t.parts := by simp [hparts]
    have hpart := hlaid.part hmem
    exact ⟨hpart.node.within, .of_part hlaid.node hmem (inSpan_self (hlt hpart) _)⟩
  have hthis : ∀ {object : Tree} {name}, memberOfThis? object = some name →
      Laid source object → object.span.start < object.span.stop := by
    intro object name hname hobject
    obtain ⟨inner, hinner, -⟩ := memberOfThis?_eq_some hname
    exact hobject.lt_of_namedMember? hinner
  cases h with
  | children hnamed _ => exact hself hnamed
  | propsMember hnamed _ hprops => exact hobject hnamed (hthis hprops)
  | stateMember hnamed hstate => exact hobject hnamed (hthis hstate)
  | propsObject hprops =>
    obtain ⟨object, hnamed, -⟩ := memberOfThis?_eq_some hprops
    exact hself hnamed
  | stateObject hstate =>
    obtain ⟨object, hnamed, -⟩ := memberOfThis?_eq_some hstate
    exact hself hnamed
  | binding hnamed hsome hbinding =>
    obtain ⟨name, hname⟩ := Option.isSome_iff_exists.1 hsome
    exact hobject hnamed fun hpart => hpart.lt_of_name? (hbinding.trans hname)
  | functionalChildren hnamed _ _ => exact hself hnamed

/-- The place behind a parenthesis lies behind the offset from which it was looked for. -/
theorem exists_paren_of_afterParen? {source : List Char} {from_ pos : Nat}
    (h : afterParen? source from_ = some pos) :
    ∃ before rest, source = before ++ '(' :: rest ∧ byteLength before + 1 = pos ∧ from_ < pos := by
  obtain ⟨⟨a, rest⟩, hcut, hpos⟩ := Option.bind_eq_some_iff.1 h
  obtain ⟨rfl, ha⟩ := cut?_eq_some_iff.1 hcut
  have hrest : rest.takeWhile (· != '(') ++ rest.dropWhile (· != '(') = rest :=
    List.takeWhile_append_dropWhile
  have hhead := List.head?_dropWhile_not (· != '(') rest
  dsimp only at hpos
  rw [List.span_eq_takeWhile_dropWhile] at hpos
  dsimp only at hpos
  cases hafter : rest.dropWhile (· != '(') with
  | nil => simp [hafter] at hpos
  | cons c after =>
    rw [hafter] at hpos hrest hhead
    obtain rfl : c = '(' := by simpa using hhead
    obtain rfl : from_ + byteLength (rest.takeWhile (· != '(')) + 1 = pos := by simpa using hpos
    refine ⟨a ++ rest.takeWhile (· != '('), after, by rw [List.append_assoc, hrest], ?_, by omega⟩
    rw [byteLength_append]
    omega

theorem afterParen?_spec {from_ pos : Nat} (h : afterParen? source from_ = some pos) :
    from_ < pos ∧ isBoundary source pos = true := by
  obtain ⟨before, rest, rfl, rfl, hlt⟩ := exists_paren_of_afterParen? h
  refine ⟨hlt, isBoundary_iff.2 ⟨before ++ ['('], rest, by simp, ?_⟩⟩
  rw [byteLength_append]
  rfl

theorem span_of_paren_notMem {gap : List Char} (h : '(' ∉ gap) (rest : List Char) :
    (gap ++ rest).span (· != '(') =
      (gap ++ rest.takeWhile (· != '('), rest.dropWhile (· != '(')) := by
  have hgap : ∀ c ∈ gap, (c != '(') = true := by
    intro c hc
    simp only [bne_iff_ne]
    rintro rfl
    exact h hc
  rw [List.span_eq_takeWhile_dropWhile, List.takeWhile_append_of_pos hgap,
    List.dropWhile_append_of_pos hgap]

theorem afterParen?_append {before gap rest : List Char} (h : '(' ∉ gap) :
    afterParen? (before ++ (gap ++ '(' :: rest)) (byteLength before) =
      some (byteLength before + byteLength gap + 1) := by
  rw [afterParen?, cut?_append, Option.bind_some]
  dsimp only
  rw [span_of_paren_notMem h]
  simp

theorem afterParen?_eq_none {before gap : List Char} (h : '(' ∉ gap) :
    afterParen? (before ++ gap) (byteLength before) = none := by
  rw [afterParen?, cut?_append, Option.bind_some]
  dsimp only
  rw [← List.append_nil gap, span_of_paren_notMem h]
  rfl

structure MarksLaid (source : List Char) (base : Span) (as : List Site) : Prop where
  within : ∀ a ∈ as, a.range.Within source
  inSpan : ∀ a ∈ as, InSpan base a
  sortable : as.Pairwise SiteSortable

/-- Where the arguments of a change of state are opened. -/
theorem NodeLaid.exists_afterParen? {callee : Tree} (h : NodeLaid source t)
    (hkind : t.kind = .call) (hupdate : isStateUpdate t = true)
    (hcallee : t.get? .callee = some callee) :
    ∃ pos, afterParen? source callee.span.stop = some pos ∧ pos < t.span.stop ∧
      ∀ p ∈ t.parts, p.role = .argument → pos ≤ p.span.start := by
  have hopen := h.update hkind hupdate
  rw [opensBeforeArguments, hcallee, Option.bind_some] at hopen
  cases hpos : afterParen? source callee.span.stop with
  | none => simp [hpos] at hopen
  | some pos =>
    simp only [hpos, Bool.and_eq_true, decide_eq_true_eq, List.all_eq_true] at hopen
    refine ⟨pos, rfl, hopen.1, fun p hp hrole => hopen.2 p ?_⟩
    exact List.mem_filter.2 ⟨hp, by simp [hrole]⟩

theorem update_marksLaid (hlaid : Laid source t) (hkind : t.kind = .call)
    (hupdate : isStateUpdate t = true) :
    MarksLaid source t.span (updateSites source t) ∧
      ∀ a ∈ updateSites source t, ∀ p ∈ t.parts, p.role = .argument →
        ∀ b, InSpan p.span b → SiteSortable a b := by
  obtain ⟨callee, hcallee, hthis⟩ : ∃ callee, t.get? .callee = some callee ∧
      memberOfThis? callee = some "setState" := by
    simpa [isStateUpdate, Option.any_eq_true] using hupdate
  have hmem : callee ∈ t.parts := List.mem_of_find?_eq_some hcallee
  have hpart := hlaid.part hmem
  obtain ⟨inner, hinner, -⟩ := memberOfThis?_eq_some hthis
  have hlt := hpart.lt_of_namedMember? hinner
  obtain ⟨hstart, hstop⟩ := nested_le hlaid.node hmem
  obtain ⟨pos, hpos, hend, hargs⟩ := hlaid.node.exists_afterParen? hkind hupdate hcallee
  obtain ⟨hbehind, hboundary⟩ := afterParen?_spec hpos
  have hsites : updateSites source t =
      [⟨callee.span, .setStateCallee⟩, ⟨⟨pos, pos⟩, .setStateArgs⟩] := by
    simp [updateSites, hcallee, hthis, hpos]
  rw [hsites]
  refine ⟨⟨?_, ?_, ?_⟩, ?_⟩
  · simp only [List.mem_cons, List.not_mem_nil, or_false, forall_eq_or_imp, forall_eq]
    exact ⟨hpart.node.within, Nat.le_refl _, hboundary, hboundary⟩
  · simp only [List.mem_cons, List.not_mem_nil, or_false, forall_eq_or_imp, forall_eq]
    refine ⟨⟨hstart, hstop, ?_⟩, ⟨?_, Nat.le_of_lt hend, hend⟩⟩ <;> dsimp only <;> omega
  · simp only [List.pairwise_cons, List.mem_singleton, forall_eq, List.not_mem_nil, false_imp_iff,
      implies_true, List.Pairwise.nil, and_true, siteSortable_iff]
    exact Or.inl (Nat.le_of_lt hbehind)
  · intro a ha p hp hrole b hb
    have hle := hargs p hp hrole
    have hb1 := hb.start_le
    rw [siteSortable_iff]
    simp only [List.mem_cons, List.not_mem_nil, or_false] at ha
    rcases ha with rfl | rfl
    · exact Or.inl (by dsimp only; omega)
    · exact Or.inl (by dsimp only; omega)

theorem attribute_marksLaid (hlaid : Laid source t) :
    MarksLaid source t.span (attributeSites t) ∧
      ∀ a ∈ attributeSites t, ∀ p ∈ t.parts, p.role = .value →
        ∀ b, InSpan p.span b → SiteSortable a b := by
  unfold attributeSites
  split
  · rename_i name hname
    split
    · rename_i hclass
      have hmem : name ∈ t.parts := List.mem_of_find?_eq_some hname
      have hrole : name.role = .name := by simpa using List.find?_some hname
      have hpart := hlaid.part hmem
      have hin : InSpan name.span ⟨name.span, .classNameAttr⟩ :=
        inSpan_self (hpart.lt_of_name? hclass) _
      refine ⟨⟨?_, ?_, by simp⟩, ?_⟩
      · simpa using hpart.node.within
      · simpa using hin.of_part hlaid.node hmem
      · intro a ha p hp hvalue b hb
        obtain rfl := List.mem_singleton.1 ha
        have hne : name ≠ p := by
          rintro rfl
          rw [hrole] at hvalue
          cases hvalue
        have : Std.Symm fun a b : Tree => apart a.span b.span := ⟨fun _ _ h => Or.symm h⟩
        exact sortable_of_apart (hlaid.node.apart.forall hmem hp hne) hin hb
    · exact ⟨⟨by simp, by simp, .nil⟩, by simp⟩
  · exact ⟨⟨by simp, by simp, .nil⟩, by simp⟩

/-- One step: the sites that are found at a node, also in view of those in the parts that are
entered. -/
theorem marksAt_laid (setting : Setting) (hlaid : Laid source t) :
    MarksLaid source t.span (marksAt source setting t) ∧
      ∀ a ∈ marksAt source setting t, ∀ p ∈ t.parts,
        (step source setting t).visits p.role = true →
          ∀ b, InSpan p.span b → SiteSortable a b := by
  rcases step_cases source setting t with ⟨a, hstop, hstep⟩ | ⟨hstep, -⟩ |
    ⟨hkind, hupdate, hmarks, hvisits⟩ | ⟨-, hmarks, hvisits⟩
  · obtain ⟨hwithin, hin⟩ := hstop.inSpan hlaid
    have hmarks : marksAt source setting t = [a] := by
      simp [marksAt, hstep, Step.stop, Finding.mark?]
    rw [hmarks, hstep]
    exact ⟨⟨by simpa using hwithin, by simpa using hin, by simp⟩, by simp [Step.stop]⟩
  · have hmarks : marksAt source setting t = [] := by simp [marksAt, hstep, Step.go]
    rw [hmarks]
    exact ⟨⟨by simp, by simp, .nil⟩, by simp⟩
  · have hstate : isStateUpdate t = true := by
      cases setting with
      | classMember binding => simpa [isUpdateIn, hkind] using hupdate
      | functional props => simp [isUpdateIn, hkind] at hupdate
    obtain ⟨hlaid', hargs⟩ := update_marksLaid hlaid hkind hstate
    rw [hmarks, hvisits]
    exact ⟨hlaid', fun a ha p hp hrole => hargs a ha p hp (by simpa using hrole)⟩
  · obtain ⟨hlaid', hvalue⟩ := attribute_marksLaid hlaid
    rw [hmarks, hvisits]
    exact ⟨hlaid', fun a ha p hp hrole => hvalue a ha p hp (by simpa using hrole)⟩

/-- The whole walk. -/
theorem marks_laid (setting : Setting) (t : Tree) (hlaid : Laid source t) :
    MarksLaid source t.span (marks source setting t) := by
  induction t using Tree.induction with
  | h r k s ps ih =>
    obtain ⟨⟨hwithin, hin, hsortable⟩, hnext⟩ := marksAt_laid setting hlaid
    have hparts : ∀ p ∈ ps, MarksLaid source p.span (marks source setting p) := fun p hp =>
      ih p hp (hlaid.part hp)
    have hpart : ∀ {p}, p ∈ (Syntax.Tree.node r k s ps).parts.filter (fun p =>
        (step source setting (.node r k s ps)).visits p.role) → p ∈ ps :=
      fun hp => (List.mem_filter.1 hp).1
    rw [marks_eq]
    refine ⟨fun a ha => ?_, fun a ha => ?_, List.pairwise_append.2 ⟨hsortable, ?_, ?_⟩⟩
    · rcases List.mem_append.1 ha with ha | ha
      · exact hwithin a ha
      · obtain ⟨p, hp, ha⟩ := List.mem_flatMap.1 ha
        exact (hparts p (hpart hp)).within a ha
    · rcases List.mem_append.1 ha with ha | ha
      · exact hin a ha
      · obtain ⟨p, hp, ha⟩ := List.mem_flatMap.1 ha
        exact ((hparts p (hpart hp)).inSpan a ha).of_part hlaid.node (hpart hp)
    · refine List.pairwise_flatMap.2 ⟨fun p hp => (hparts p (hpart hp)).sortable, ?_⟩
      refine (hlaid.node.apart.filter _).imp_of_mem fun hp hq hapart a ha b hb => ?_
      exact sortable_of_apart hapart ((hparts _ (hpart hp)).inSpan a ha)
        ((hparts _ (hpart hq)).inSpan b hb)
    · intro a ha b hb
      obtain ⟨p, hp, hb⟩ := List.mem_flatMap.1 hb
      exact hnext a ha p (hpart hp) (List.mem_filter.1 hp).2 b ((hparts p (hpart hp)).inSpan b hb)

def Site.relativeTo (base : Nat) (a : Site) : Site := ⟨a.range.relativeTo base, a.kind⟩

section
variable (setting : Setting) (hlaid : Laid r.source t)
include setting hlaid

theorem fragmentOf_sites :
    (fragmentOf r setting t).sites =
      sortOn (·.range.start) ((marks r.source setting t).map (Site.relativeTo t.span.start)) := by
  have hin := (marks_laid setting t hlaid).inSpan
  have hsites : ∀ fs : List Finding, (∀ a ∈ fs.filterMap Finding.mark?, InSpan t.span a) →
      fs.filterMap (Finding.site? t.span) =
        (fs.filterMap Finding.mark?).map (Site.relativeTo t.span.start) := by
    intro fs hfs
    induction fs with
    | nil => rfl
    | cons f fs ih =>
      cases f with
      | site range kind =>
        have hrange := hfs ⟨range, kind⟩ (by simp [Finding.mark?])
        have hcontains : t.span.containsSpan range = true := by
          simp [Span.containsSpan, hrange.start_le, hrange.stop_le]
        have hrest := ih fun a ha => hfs a (by simp [Finding.mark?, ha])
        simp [Finding.site?, Finding.mark?, hcontains, hrest, Site.relativeTo]
      | updater range =>
        have hnone : Finding.mark? (.updater range) = none := rfl
        rw [List.filterMap_cons_none hnone] at hfs ⊢
        rw [List.filterMap_cons_none rfl]
        exact ih hfs
  unfold fragmentOf
  dsimp only
  rw [hsites _ hin]
  rfl

theorem fragmentOf_text : t.span.slice? r.source = some (fragmentOf r setting t).text.toList := by
  obtain ⟨hle, hstart, hstop⟩ := hlaid.node.within
  obtain ⟨piece, hpiece⟩ := Span.exists_slice? hle hstart hstop
  simp [fragmentOf, Reading.text, hpiece]

/-- The sites of a fragment stand one behind the other, inside of its text. -/
theorem fragmentOf_ordered :
    (∀ a ∈ (fragmentOf r setting t).sites,
        a.range.Within (fragmentOf r setting t).text.toList) ∧
      (fragmentOf r setting t).sites.Pairwise fun a b => a.range.stop ≤ b.range.start := by
  obtain ⟨hwithin, hin, hsortable⟩ := marks_laid setting t hlaid
  have htext := fragmentOf_text setting hlaid
  have hmap : ∀ a ∈ (marks r.source setting t).map (Site.relativeTo t.span.start),
      a.range.Within (fragmentOf r setting t).text.toList := by
    intro a ha
    obtain ⟨b, hb, rfl⟩ := List.mem_map.1 ha
    obtain ⟨hle, hstart, hstop⟩ := hwithin b hb
    obtain ⟨h1, h2, -⟩ := hin b hb
    refine ⟨Nat.sub_le_sub_right hle _, ?_, ?_⟩
    · exact Span.isBoundary_slice htext hstart h1 (by omega)
    · exact Span.isBoundary_slice htext hstop (by omega) h2
  rw [fragmentOf_sites setting hlaid]
  refine ⟨fun a ha => hmap a ((sortOn_perm _ _).mem_iff.1 ha), ?_⟩
  refine sortOn_pairwise (fun a ha => (hmap a ha).ordered) (List.pairwise_map.2 ?_)
  refine hsortable.imp_of_mem fun {a b} ha hb hab => ?_
  have ha1 := (hin a ha).start_le
  have hb1 := (hin b hb).start_le
  have hble := (hwithin b hb).ordered
  have hale := (hwithin a ha).ordered
  rw [siteSortable_iff] at hab
  change a.range.stop - _ ≤ b.range.start - _ ∨
    b.range.stop - _ ≤ a.range.start - _ ∧ b.range.start - _ < a.range.start - _
  omega

end

end Revue.Analysis
