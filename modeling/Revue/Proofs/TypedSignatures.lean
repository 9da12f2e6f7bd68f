import Revue.Proofs.CallParens
import Revue.Proofs.ClassNotes
import Revue.Proofs.DeclaredProps
import Revue.Proofs.ShortestTokens
import Revue.Proofs.SourceSlices

/-!
# Props that types declare

The type of a prop is decided by the text of a member. For members that are laid out like their
text, the decision agrees with the tree: a property has a known type only if its type is a function
or is written as a known word and as nothing else, and a property that is written plainly has the
type that its word names.
-/

namespace Revue.Component

theorem PropSpec.type?_ofToken (kind : PropKind) (token : Option String) (isRequired : Bool) :
    (PropSpec.ofToken kind token isRequired).type? = token.bind PropType.ofToken? :=
  rfl

end Revue.Component

namespace Revue.Analysis
open Text Syntax Component

/-! ### A plain signature has a token -/

namespace SignatureText
variable {s : SignatureText} {name x : List Char} {isOptional : Bool}

theorem trimEnd_concat {c : Char} (hc : isBlank c = false) : trimEnd (x ++ [c]) = x ++ [c] := by
  simp [trimEnd, hc]

theorem IsPlain.exists_trimEnd (h : s.IsPlain name isOptional)
    (hsolid : ∀ c ∈ s.type, isBlank c = false) (hne : s.type ≠ []) :
    ∃ ending, trimEnd (x ++ (s.type ++ s.tail)) = x ++ (s.type ++ ending) ∧ IsTail ending := by
  obtain ⟨gap, hgap, mark, hmark, htail⟩ := h.tail
  simp only [List.mem_cons, List.not_mem_nil, or_false] at hmark
  -- A mark is no blank, and neither is the last character of the type.
  have hmarked : ∀ c, isBlank c = false → (c == ';' || c == ',') = true → mark = [c] →
      ∃ ending, trimEnd (x ++ (s.type ++ s.tail)) = x ++ (s.type ++ ending) ∧ IsTail ending := by
    rintro c hc hkind rfl
    refine ⟨gap ++ [c], ?_, gap, [c], hgap, .inr ⟨c, hkind, rfl⟩, rfl⟩
    rw [htail, ← List.append_assoc, ← List.append_assoc, trimEnd_concat hc, List.append_assoc,
      List.append_assoc]
  rcases hmark with rfl | hmark | hmark
  · refine ⟨[], ?_, [], [], rfl, .inl rfl, rfl⟩
    obtain ⟨type, c, htype⟩ := (List.eq_nil_or_concat' s.type).resolve_left hne
    rw [htail, List.append_nil, ← List.append_assoc, Vue.trimEnd_append, if_pos hgap,
      List.append_nil, htype, ← List.append_assoc]
    exact trimEnd_concat (hsolid c (by simp [htype]))
  · exact hmarked ';' (by decide) (by decide) hmark
  · exact hmarked ',' (by decide) (by decide) hmark

theorem IsPlain.exists_key (h : s.IsPlain name isOptional) :
    ∃ opening closing, s.key = opening ++ (name ++ closing) ∧ IsOptional isQuote opening ∧
      IsOptional isQuote closing := by
  rcases h.key with hkey | ⟨quote, hquote, hkey⟩
  · exact ⟨[], [], by simpa using hkey, .inl rfl, .inl rfl⟩
  · exact ⟨[quote], [quote], hkey, .inr ⟨quote, hquote, rfl⟩, .inr ⟨quote, hquote, rfl⟩⟩

theorem IsPlain.declares (h : s.IsPlain name isOptional) (hs : s.IsLaid name)
    (hsolid : ∀ c ∈ s.type, isBlank c = false) (hne : s.type ≠ []) :
    Declares name s.type (trim s.text) := by
  obtain ⟨gap, lead, hgap, hlead, hbetween⟩ := h.between
  obtain ⟨opening, closing, hkey, hopening, hclosing⟩ := h.exists_key
  obtain ⟨ending, htrim, hending⟩ :=
    h.exists_trimEnd (x := s.front ++ (s.key ++ s.between)) hsolid hne
  have hmark : IsOptional (· == '?') (if isOptional then ['?'] else []) := by
    cases isOptional
    · exact .inl rfl
    · exact .inr ⟨'?', rfl, rfl⟩
  have hparts : s.text = s.front ++ (s.key ++ s.between) ++ (s.type ++ s.tail) := by
    simp [text, rest]
  have htext : trim s.text = s.front ++ (opening ++ (name ++ (closing ++
      ((if isOptional then ['?'] else []) ++ (gap ++ ':' :: (lead ++ (s.type ++ ending))))))) := by
    rw [trim, hs.trimStart_text, hparts, htrim, hkey, hbetween]
    simp
  exact ⟨⟨s.front, opening, closing, _, gap, lead, ending, htext, h.front, hopening, hclosing, hmark,
    hgap, hlead, hne, hsolid, isEnding_of_isSeparator (isSeparator_iff.2 hending)⟩, hending⟩

/-- The type is declared, and a known word that is the beginning of it is all of it. -/
theorem IsPlain.typeToken_eq {name : String} (h : s.IsPlain name.toList isOptional)
    (hs : s.IsLaid name.toList) (htyped : s.IsTyped) (hlower : s.type.all Char.isLower = true) :
    typeToken name (String.ofList s.text) = some (String.ofList s.type) := by
  have hall := List.all_eq_true.1 hlower
  obtain ⟨w, hending⟩ : Declares name.toList s.type (trim (String.ofList s.text).toList) := by
    rw [String.toList_ofList]
    exact h.declares hs (fun c hc => (isBlank_of_isLower (hall c hc)).1) htyped.type_ne
  obtain ⟨token, htoken⟩ := Option.isSome_iff_exists.1 (isSome_typeToken w hending)
  have hbegins := isPrefix_of_typeToken htoken ⟨w, hending⟩
  obtain ⟨w'⟩ := hs.nonempty_tokenText htoken
  have heq := (w'.eq_type hs htyped (List.all_eq_true.2 fun c hc => hall c (hbegins.subset hc))).1
  rw [htoken, ← heq, String.ofList_toList]

end SignatureText

/-! ### Texts of members -/

def signatureText (r : Reading) (t key : Tree) : Option Tree → SignatureText
  | some type =>
    { front := (r.text ⟨t.span.start, key.span.start⟩).toList
      key := (r.text key.span).toList
      between := (r.text ⟨key.span.stop, type.span.start⟩).toList
      type := (r.text type.span).toList
      tail := (memberText r t.span).toList.drop
        (r.text ⟨t.span.start, type.span.stop⟩).toList.length }
  | none =>
    { front := (r.text ⟨t.span.start, key.span.start⟩).toList
      key := (r.text key.span).toList
      between := (memberText r t.span).toList.drop
        (r.text ⟨t.span.start, key.span.stop⟩).toList.length
      type := []
      tail := [] }

section Texts
variable {r : Reading} {t key type : Tree}

theorem Reading.text_append {a b c : Nat} (hab : Span.Within r.source ⟨a, b⟩)
    (hbc : Span.Within r.source ⟨b, c⟩) :
    (r.text ⟨a, b⟩).toList ++ (r.text ⟨b, c⟩).toList = (r.text ⟨a, c⟩).toList := by
  have hwithin : Span.Within r.source ⟨a, c⟩ :=
    ⟨hab.ordered.trans hbc.ordered, hab.start_boundary, hbc.stop_boundary⟩
  have hac := Span.slice?_append (Reading.text_of_within hab) (Reading.text_of_within hbc)
  exact (Option.some.inj ((Reading.text_of_within hwithin).symm.trans hac)).symm

theorem text_prefix_memberText (s : Span) :
    (r.text s).toList <+: (memberText r s).toList := by
  unfold memberText
  dsimp only
  split
  · split
    · simp
    · exact List.prefix_refl _
  · exact List.prefix_refl _

theorem memberText_prefix {stop : Nat} (ht : t.span.Within r.source)
    (hstop : isBoundary r.source stop = true) (hstart : t.span.start ≤ stop)
    (hle : stop ≤ t.span.stop) :
    (r.text ⟨t.span.start, stop⟩).toList <+: (memberText r t.span).toList := by
  have hfirst : Span.Within r.source ⟨t.span.start, stop⟩ := ⟨hstart, ht.start_boundary, hstop⟩
  have hrest : Span.Within r.source ⟨stop, t.span.stop⟩ := ⟨hle, hstop, ht.stop_boundary⟩
  refine List.IsPrefix.trans ?_ (text_prefix_memberText t.span)
  exact ⟨_, Reading.text_append hfirst hrest⟩

theorem mem_subtrees_of_declaredType? (h : declaredType? t = some type) :
    type ∈ t.subtrees := by
  unfold declaredType? at h
  split at h
  · rename_i hget
    obtain rfl := Option.some.inj h
    refine Tree.mem_subtrees_trans (Tree.mem_subtrees_of_get? hget) ?_
    exact Tree.mem_subtrees_of_part List.mem_cons_self (Tree.mem_subtrees_self _)
  · cases h

/-- The pieces of a member make up its text. -/
theorem text_signatureText (hlaid : Laid r.source t) (hkey : t.get? .key = some key)
    (horder : ∀ type ∈ declaredType? t, key.span.stop ≤ type.span.start) :
    (signatureText r t key (declaredType? t)).text = (memberText r t.span).toList := by
  have hkeymem := Tree.mem_subtrees_of_get? hkey
  have hkeyin := (hlaid.subtree hkeymem).node.within
  have hkeyle := hlaid.subtree_le hkeymem
  have ht := hlaid.node.within
  have hstart : t.span.start ≤ key.span.stop := hkeyle.1.trans hkeyin.ordered
  have hkeyed : (r.text ⟨t.span.start, key.span.start⟩).toList ++ (r.text key.span).toList =
      (r.text ⟨t.span.start, key.span.stop⟩).toList :=
    Reading.text_append ⟨hkeyle.1, ht.start_boundary, hkeyin.start_boundary⟩ hkeyin
  cases htype : declaredType? t with
  | none =>
    have hpre := memberText_prefix ht hkeyin.stop_boundary hstart hkeyle.2
    rw [List.prefix_iff_eq_append] at hpre
    simpa [signatureText, SignatureText.text, SignatureText.rest, ← hkeyed] using hpre
  | some type =>
    have htypemem := mem_subtrees_of_declaredType? htype
    have htypein := (hlaid.subtree htypemem).node.within
    have htypele := hlaid.subtree_le htypemem
    have hle := horder type htype
    have hcolon : (r.text ⟨t.span.start, key.span.stop⟩).toList ++
        (r.text ⟨key.span.stop, type.span.start⟩).toList =
        (r.text ⟨t.span.start, type.span.start⟩).toList :=
      Reading.text_append ⟨hstart, ht.start_boundary, hkeyin.stop_boundary⟩
        ⟨hle, hkeyin.stop_boundary, htypein.start_boundary⟩
    have htyped : (r.text ⟨t.span.start, type.span.start⟩).toList ++ (r.text type.span).toList =
        (r.text ⟨t.span.start, type.span.stop⟩).toList :=
      Reading.text_append ⟨htypele.1, ht.start_boundary, htypein.start_boundary⟩ htypein
    have hpre := memberText_prefix ht htypein.stop_boundary
      (htypele.1.trans htypein.ordered) htypele.2
    rw [List.prefix_iff_eq_append] at hpre
    simpa [signatureText, SignatureText.text, SignatureText.rest, ← htyped, ← hcolon, ← hkeyed]
      using hpre

end Texts

/-! ### Types that are words -/

def isWordType (type : Tree) : Bool :=
  match type.kind with
  | .typeKeyword _ => true
  | .typeRef => (plainTypeName? type).isSome
  | _ => false

def isPropertySignature : Kind → Bool
  | .propertySignature _ => true
  | _ => false

/-- How the signature of a property is written. A type of small letters alone is a word, a truth
value or the type of the object itself. -/
structure SignatureLaid (r : Reading) (t : Tree) : Prop where
  laid : Laid r.source t
  order : ∀ key ∈ t.get? .key, ∀ type ∈ declaredType? t, key.span.stop ≤ type.span.start
  key : ∀ key ∈ t.get? .key, ∀ name ∈ memberName? t,
    (signatureText r t key (declaredType? t)).IsLaid name.toList
  typed : ∀ key ∈ t.get? .key, ∀ type ∈ declaredType? t,
    (signatureText r t key (some type)).IsTyped
  untyped : ∀ key ∈ t.get? .key, declaredType? t = none →
    IsGap ['?', ';', ','] (signatureText r t key none).rest
  word : ∀ type ∈ declaredType? t, (r.text type.span).toList.all Char.isLower = true →
    isWordType type = true ∨ r.text type.span ∈ ["true", "false", "this"]

instance (r : Reading) (t : Tree) : Decidable (SignatureLaid r t) :=
  decidable_of_iff
    (Laid r.source t ∧
      (∀ key ∈ t.get? .key, ∀ type ∈ declaredType? t, key.span.stop ≤ type.span.start) ∧
      (∀ key ∈ t.get? .key, ∀ name ∈ memberName? t,
        (signatureText r t key (declaredType? t)).IsLaid name.toList) ∧
      (∀ key ∈ t.get? .key, ∀ type ∈ declaredType? t,
        (signatureText r t key (some type)).IsTyped) ∧
      (∀ key ∈ t.get? .key, declaredType? t = none →
        IsGap ['?', ';', ','] (signatureText r t key none).rest) ∧
      ∀ type ∈ declaredType? t, (r.text type.span).toList.all Char.isLower = true →
        isWordType type = true ∨ r.text type.span ∈ ["true", "false", "this"])
    ⟨fun ⟨h1, h2, h3, h4, h5, h6⟩ => ⟨h1, h2, h3, h4, h5, h6⟩,
      fun ⟨h1, h2, h3, h4, h5, h6⟩ => ⟨h1, h2, h3, h4, h5, h6⟩⟩

/-- All properties among some members are written so. -/
def SignaturesLaid (r : Reading) (members : List Tree) : Prop :=
  ∀ t ∈ members, isPropertySignature t.kind = true → SignatureLaid r t

instance (r : Reading) (members : List Tree) : Decidable (SignaturesLaid r members) :=
  inferInstanceAs (Decidable (∀ t ∈ members, isPropertySignature t.kind = true → SignatureLaid r t))

section Words
variable {word : String} {type : PropType}

theorem isLower_of_ofToken? (h : PropType.ofToken? word = some type) :
    word.toList.all Char.isLower = true ∧ word ∉ ["true", "false", "this"] := by
  unfold PropType.ofToken? at h
  split at h <;> first | decide | cases h

theorem isFunctionType_of_isWordType {t : Tree} (h : isWordType t = true) :
    isFunctionType t = false := by
  obtain ⟨role, kind, span, parts⟩ := t
  cases kind <;> simp_all [isWordType, isFunctionType, Tree.kind]

end Words

/-! ### What a signature says -/

def isOptionalSignature : Kind → Bool
  | .propertySignature isOptional | .methodSignature isOptional => isOptional
  | _ => false

structure SignatureLaw (r : Reading) (t : Tree) (name : String) (prop : PropSpec) : Prop where
  required : prop.isRequired = !isOptionalSignature t.kind
  accepts : prop.acceptsAll = prop.type?.isNone
  method : isPropertySignature t.kind = false → prop.type? = some .function
  function : (declaredType? t).any isFunctionType = true → prop.type? = some .function
  known : ∀ type, isPropertySignature t.kind = true →
    (declaredType? t).any isFunctionType = false → prop.type? = some type →
    ∃ ty ∈ declaredType? t, PropType.ofToken? (r.text ty.span) = some type ∧
      isWordType ty = true ∧
      ∀ key ∈ t.get? .key, '/' ∉ (signatureText r t key (some ty)).rest
  plain : ∀ key ∈ t.get? .key, ∀ ty ∈ declaredType? t, ∀ type,
    isPropertySignature t.kind = true →
    (signatureText r t key (some ty)).IsPlain name.toList (isOptionalSignature t.kind) →
    PropType.ofToken? (r.text ty.span) = some type → prop.type? = some type

section Signatures
variable {r : Reading} {t key : Tree} {name : String} {prop : PropSpec} {type : PropType}

theorem exists_key_of_memberName? (h : memberName? t = some name) :
    ∃ key, t.get? .key = some key := by
  unfold memberName? at h
  cases hkey : t.get? .key with
  | none => simp [hkey] at h
  | some key => exact ⟨key, rfl⟩

theorem exists_of_typeToken (hlaid : SignatureLaid r t) (hkey : t.get? .key = some key)
    (hname : memberName? t = some name)
    (h : (typeToken name (memberText r t.span)).bind PropType.ofToken? = some type) :
    ∃ ty ∈ declaredType? t, PropType.ofToken? (r.text ty.span) = some type ∧
      isWordType ty = true ∧
      '/' ∉ (signatureText r t key (some ty)).rest := by
  obtain ⟨token, htoken, htype⟩ := Option.bind_eq_some_iff.1 h
  obtain ⟨hlower, hother⟩ := isLower_of_ofToken? htype
  have hkeylaid := hlaid.key key hkey name hname
  have htext := text_signatureText hlaid.laid hkey (hlaid.order key hkey)
  have hpieces : String.ofList (signatureText r t key (declaredType? t)).text =
      memberText r t.span := by
    rw [htext, String.ofList_toList]
  rw [← hpieces] at htoken
  obtain ⟨w⟩ := hkeylaid.nonempty_tokenText htoken
  cases hdeclared : declaredType? t with
  | none =>
    rw [hdeclared] at w hkeylaid
    exact (w.false_of_isGap hkeylaid hlower (hlaid.untyped key hkey hdeclared)).elim
  | some ty =>
    rw [hdeclared] at w hkeylaid
    obtain ⟨heq, hslash⟩ := w.eq_type hkeylaid (hlaid.typed key hkey ty hdeclared) hlower
    obtain rfl : token = r.text ty.span := String.toList_injective heq
    refine ⟨ty, rfl, htype, ?_, hslash⟩
    exact (hlaid.word ty hdeclared hlower).resolve_right hother

theorem typeToken_of_isPlain {ty : Tree} (hlaid : SignatureLaid r t)
    (hkey : t.get? .key = some key) (hname : memberName? t = some name)
    (hdeclared : declaredType? t = some ty)
    (hplain : (signatureText r t key (some ty)).IsPlain name.toList
      (isOptionalSignature t.kind))
    (htype : PropType.ofToken? (r.text ty.span) = some type) :
    (typeToken name (memberText r t.span)).bind PropType.ofToken? = some type ∧
      isFunctionType ty = false := by
  obtain ⟨hlower, hother⟩ := isLower_of_ofToken? htype
  have hkeylaid := hlaid.key key hkey name hname
  have htext := text_signatureText hlaid.laid hkey (hlaid.order key hkey)
  rw [hdeclared] at hkeylaid htext
  have htoken := hplain.typeToken_eq hkeylaid (hlaid.typed key hkey ty hdeclared) hlower
  rw [htext, String.ofList_toList] at htoken
  have hty : String.ofList (signatureText r t key (some ty)).type =
      r.text ty.span := String.ofList_toList
  rw [htoken, hty, Option.bind_some]
  refine ⟨htype, isFunctionType_of_isWordType ?_⟩
  exact (hlaid.word ty hdeclared hlower).resolve_right hother

theorem signatureLaw_of_memberProp? (h : memberProp? r typeToken t = some (name, prop))
    (hlaid : isPropertySignature t.kind = true → SignatureLaid r t) :
    SignatureLaw r t name prop := by
  obtain ⟨name', hname, h⟩ := Option.bind_eq_some_iff.1 h
  split at h
  · rename_i isOptional hkind
    have hlaid := hlaid (by rw [hkind]; rfl)
    split at h
    · rename_i hfunction
      obtain ⟨rfl, rfl⟩ := Prod.mk.inj (Option.some.inj h)
      refine ⟨by rw [hkind]; rfl, rfl, fun _ => rfl, fun _ => rfl, fun type _ hother => ?_,
        fun key hkey ty hty type _ hplain htype => ?_⟩
      · rw [hfunction] at hother
        cases hother
      · have hno := (typeToken_of_isPlain hlaid hkey hname hty hplain htype).2
        rw [Option.mem_def.1 hty, Option.any_some, hno] at hfunction
        cases hfunction
    · rename_i hother
      generalize htoken : typeToken name' (memberText r t.span) = token at h
      obtain ⟨rfl, rfl⟩ := Prod.mk.inj (Option.some.inj h)
      refine ⟨by rw [hkind]; rfl, rfl, fun hmethod => ?_, fun hfunction => absurd hfunction hother,
        fun type _ _ htype => ?_, fun key hkey ty hty type _ hplain htype => ?_⟩
      · rw [hkind] at hmethod
        cases hmethod
      · rw [PropSpec.type?_ofToken, ← htoken] at htype
        obtain ⟨key, hkey⟩ := exists_key_of_memberName? hname
        obtain ⟨ty, hty, hknown, hword, hslash⟩ :=
          exists_of_typeToken hlaid hkey hname htype
        refine ⟨ty, hty, hknown, hword, fun key' hkey' => ?_⟩
        rwa [Option.mem_unique hkey' hkey]
      · rw [PropSpec.type?_ofToken, ← htoken]
        exact (typeToken_of_isPlain hlaid hkey hname hty hplain htype).1
  · rename_i isOptional hkind
    obtain ⟨rfl, rfl⟩ := Prod.mk.inj (Option.some.inj h)
    have hmethod : isPropertySignature t.kind = false := by
      rw [hkind]
      rfl
    refine ⟨by rw [hkind]; rfl, rfl, fun _ => rfl, fun _ => rfl, fun type hproperty => ?_,
      fun key _ ty _ type hproperty => ?_⟩
    · rw [hmethod] at hproperty
      cases hproperty
    · rw [hmethod] at hproperty
      cases hproperty
  · cases h

/-- A prop is what the last signature with its name says. -/
theorem get?_typedProps {component : String} {reader : TokenReader} {before after : List Tree}
    (hread : memberProp? r reader t = some (name, prop)) (hlast : name ∉ signatureNames after) :
    (typedProps r reader component (before ++ t :: after)).table.get? name = some prop := by
  have hnone : Table.last? name (after.filterMap (memberProp? r reader)) = none := by
    refine Option.eq_none_iff_forall_ne_some.2 fun other hother => hlast ?_
    have hmem := List.mem_reverse.1 (Table.mem_of_get? hother)
    exact (mem_keys_memberProps r reader after).1 (Table.mem_keys hmem)
  rw [typedProps_eq, (Table.lists_extend _).values, ← List.singleton_append, List.filterMap_append,
    List.filterMap_append, Table.last?_append, Table.last?_append, hnone]
  simp [hread, Table.last?, Table.get?]

end Signatures

/-- The props of a type are those that its signatures name, and of each prop the last signature with
its name decides. -/
theorem typedProps_follow_signatures (r : Reading) (component : String) (members : List Tree)
    (hlaid : SignaturesLaid r members) :
    (∀ name, name ∈ (typedProps r typeToken component members).table.keys ↔
      name ∈ signatureNames members) ∧
    ∀ before t after name, members = before ++ t :: after → isPropSignature t.kind = true →
      memberName? t = some name → name ∉ signatureNames after →
      ∃ prop, (typedProps r typeToken component members).table.get? name = some prop ∧
        SignatureLaw r t name prop := by
  refine ⟨fun name => mem_keys_typedProps r typeToken members, ?_⟩
  rintro before t after name rfl hkind hname hlast
  obtain ⟨prop, hread⟩ : ∃ prop, memberProp? r typeToken t = some (name, prop) :=
    memberProp?_isSome_iff.2 ⟨hkind, hname⟩
  refine ⟨prop, get?_typedProps hread hlast, signatureLaw_of_memberProp? hread ?_⟩
  exact hlaid t (by simp)

def firstMembers? (s : Setup) : Option (List Tree) :=
  (s.reading.module.items.findSome? fun t => contractMembers? (itemDeclaration t)).map (·.2)

structure SignatureView where
  kind : Kind
  name : String
  text : SignatureText
  isWord : Bool
  isFunction : Bool
deriving DecidableEq

def signatureView? (r : Reading) (t : Tree) : Option SignatureView := do
  let key ← t.get? .key
  let name ← memberName? t
  let type ← declaredType? t
  return ⟨t.kind, name, signatureText r t key (some type), isWordType type, isFunctionType type⟩

theorem signatureView?_eq_some {r : Reading} {t : Tree} {v : SignatureView}
    (h : signatureView? r t = some v) :
    ∃ key type, t.get? .key = some key ∧ memberName? t = some v.name ∧
      declaredType? t = some type ∧ t.kind = v.kind ∧
      signatureText r t key (some type) = v.text ∧ isWordType type = v.isWord ∧
      isFunctionType type = v.isFunction := by
  obtain ⟨key, hkey, h⟩ := Option.bind_eq_some_iff.1 h
  obtain ⟨name, hname, h⟩ := Option.bind_eq_some_iff.1 h
  obtain ⟨type, htype, h⟩ := Option.bind_eq_some_iff.1 h
  obtain rfl := Option.some.inj h
  exact ⟨key, type, hkey, hname, htype, rfl, rfl, rfl, rfl⟩

def mixedSignatures : String :=
  "interface P \x7b readonly 'a-b'? : string; c: number | func \x7d\nclass A extends C<P> \x7b\x7d"

set_option maxRecDepth 100000 in
/-- The first has its type, and the second has none. -/
theorem typedProps_follow_mixedSignatures :
    ∃ s m members, setupOf? { isTyped := true } mixedSignatures = some s ∧ modelOf s = .ok m ∧
      firstMembers? s = some members ∧
      SignaturesLaid s.reading members ∧ signatureNames members = ["a-b", "c"] ∧
      (∃ prop, (typedProps s.reading typeToken "A" members).table.get? "a-b" = some prop ∧
        prop.type? = some .string ∧ prop.isRequired = false) ∧
      ∃ prop, (typedProps s.reading typeToken "A" members).table.get? "c" = some prop ∧
        prop.type? = none ∧ prop.acceptsAll = true := by
  obtain ⟨s, m, members, hsetup, hmodel, hmembers, hviews, hnames, hlaid⟩ :=
    exists_found? { isTyped := true } mixedSignatures firstMembers? (fun s _ members =>
      members.map (signatureView? s.reading) =
        [some ⟨.propertySignature true, "a-b", ⟨"readonly ".toList, "'a-b'".toList, "? : ".toList,
            "string".toList, ";".toList⟩, true, false⟩,
          some ⟨.propertySignature false, "c", ⟨[], "c".toList, ": ".toList,
            "number | func".toList, []⟩, false, false⟩] ∧
      signatureNames members = ["a-b", "c"] ∧ SignaturesLaid s.reading members)
      (by decide +kernel)
  refine ⟨s, m, members, hsetup, hmodel, hmembers, hlaid, hnames, ?_⟩
  have hlaw := (typedProps_follow_signatures s.reading "A" members hlaid).2
  obtain ⟨first, rest, rfl, hfirst, hrest⟩ := List.map_eq_cons_iff.1 hviews
  obtain ⟨second, rest, rfl, hsecond, hrest⟩ := List.map_eq_cons_iff.1 hrest
  obtain rfl := List.map_eq_nil_iff.1 hrest
  obtain ⟨key, type, hkey, hname, htype, hkind, htext, -, -⟩ := signatureView?_eq_some hfirst
  obtain ⟨-, type', -, hname', htype', hkind', -, hword', hfunction'⟩ :=
    signatureView?_eq_some hsecond
  dsimp only at hname hkind htext hname' hkind' hword' hfunction'
  constructor
  · obtain ⟨prop, hprop, hruled⟩ := hlaw [] first [second] "a-b" rfl (by rw [hkind]; rfl) hname
      (by simp [signatureNames, hkind', isPropSignature, hname'])
    refine ⟨prop, hprop, ?_, by rw [hruled.required, hkind]; rfl⟩
    have hword : s.reading.text type.span = "string" :=
      String.toList_injective (congrArg SignatureText.type htext)
    refine hruled.plain key hkey type htype .string (by rw [hkind]; rfl) ?_ (by rw [hword]; rfl)
    rw [htext, hkind]
    exact ⟨Or.inr ⟨[' '], by simp, by decide, rfl⟩, Or.inr ⟨'\x27', by decide, by decide⟩,
      ⟨[' '], [' '], by decide, by decide, by decide⟩, ⟨[], rfl, [';'], by simp, rfl⟩⟩
  · obtain ⟨prop, hprop, hruled⟩ := hlaw [first] second [] "c" rfl (by rw [hkind']; rfl) hname'
      (by simp [signatureNames])
    have hnone : prop.type? = none := by
      cases hknown : prop.type? with
      | none => rfl
      | some known =>
        obtain ⟨ty, hty, -, hword, -⟩ := hruled.known known (by rw [hkind']; rfl)
          (by simp [htype', hfunction']) hknown
        rw [Option.mem_unique hty htype', hword'] at hword
        cases hword
    exact ⟨prop, hprop, hnone, by rw [hruled.accepts, hnone]; rfl⟩

def markedSignature : String :=
  "interface P \x7b a:\ufeffstring \x7d\nclass A extends C<P> \x7b\x7d"

set_option maxRecDepth 100000 in
/-- The mark is a blank between tokens, but no white space of the pattern. -/
theorem typedProps_fails_markedSignature :
    ∃ s m members, setupOf? { isTyped := true } markedSignature = some s ∧ modelOf s = .ok m ∧
      firstMembers? s = some members ∧
      members.map (signatureView? s.reading) =
        [some ⟨.propertySignature false, "a",
          ⟨[], "a".toList, ":\ufeff".toList, "string".toList, []⟩, true, false⟩] ∧
      isGapBlank '\ufeff' = true ∧ PropType.ofToken? "string" = some .string ∧
      m.propTypes = [("A", [("a", ⟨.typed, none, true, true⟩)])] :=
  exists_found? _ _ firstMembers? _ (by decide +kernel)

end Revue.Analysis
