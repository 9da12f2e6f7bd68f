import Revue.Proofs.GeneratedText
import Revue.Proofs.Tables

/-!
# Generation preserves fragments

A generated component holds every fragment of its model, with its sites replaced, line by line as
it was: only margins, blank lines at the ends and the braces around a body are written anew. The
indentation is taken away and put back at each level, and each time the whole is read again to find
the literals; since every piece is well formed, each reading finds the same ones.
-/

namespace Revue.Vue
open Text Source Component

variable {m : Model} {v : String} {f : Fragment} {name : List Char} {c : ClassComponent}
  {p : String × PropEntry}

/-- The text of a fragment with its sites replaced, empty if a site cuts a character. -/
def rewritten (f : Fragment) : List Char := (replaceSites f).getD []

def bodyPiece (m : Member) : Piece := .body (rewritten m.body)

def isHookRole : MemberRole → Bool
  | .lifecycle _ => true
  | _ => false

def classPieces (c : ClassComponent) : List Piece :=
  c.state.toList.map (fun f => .whole (rewritten f)) ++
    (c.members.filter (·.role = .getter)).map bodyPiece ++
    (c.members.filter fun x => isMethodRole x.role).map bodyPiece ++
    (c.members.filter fun x => isHookRole x.role).map bodyPiece ++
    c.created.map (fun f => .whole (rewritten f)) ++
    (c.members.find? (·.role = .render)).toList.map bodyPiece

def functionalPiece (c : FunctionalComponent) : Piece :=
  match c.body with
  | .block f => .body (rewritten f)
  | .expr f => .whole (rewritten f)

/-- The fragments of the component that a model is about. -/
def modelPieces (m : Model) : List Piece :=
  match m.classComponent with
  | some c => classPieces c
  | none => (m.primaryFunctional.map functionalPiece).toList

def FragmentWellFormed (f : Fragment) : Prop :=
  ∃ text, replaceSites f = some text ∧ WellFormed (Derives .code) text

structure MemberWellFormed (m : Member) : Prop where
  body : FragmentWellFormed m.body
  params : ∃ k, Derives .code k ∧ k.chars = m.params.toList
  paramsNoReturn : '\r' ∉ m.params.toList
  comments : ∀ c ∈ m.leadingComments, WellFormed SourceText c.toList

/-- Every text that a model takes from a source for its component is well formed. -/
structure ModelWellFormed (m : Model) : Prop where
  state : ∀ c ∈ m.classComponent, ∀ f ∈ c.state, FragmentWellFormed f
  created : ∀ c ∈ m.classComponent, ∀ f ∈ c.created, FragmentWellFormed f
  members : ∀ c ∈ m.classComponent, ∀ x ∈ c.members, MemberWellFormed x
  functional : ∀ c ∈ m.primaryFunctional, FragmentWellFormed c.body.fragment
  bindings : ∀ c ∈ m.primaryFunctional, ∀ b ∈ c.propsBinding,
    WellFormed (Derives .code) b.toList
  defaults : ∀ component table, m.defaultProps.get? component = some table →
    ∀ entry ∈ table, WellFormed (Derives .code) entry.2.toList

theorem FragmentWellFormed.replaceSites_eq (h : FragmentWellFormed f) :
    replaceSites f = some (rewritten f) := by
  obtain ⟨text, htext, -⟩ := h
  simp [rewritten, htext]

theorem FragmentWellFormed.wellFormed (h : FragmentWellFormed f) :
    WellFormed (Derives .code) (rewritten f) := by
  obtain ⟨text, htext, hwell⟩ := h
  simpa [rewritten, htext] using hwell

def CarriesAll (ps : List Piece) (texts : List (List Char)) : Prop :=
  ∃ pss, List.Forall₂ (Carries .code) pss texts ∧ pss.flatten = ps

namespace CarriesAll

variable {ps qs : List Piece} {texts texts' : List (List Char)} {text : List Char}

theorem nil : CarriesAll [] [] := ⟨[], .nil, rfl⟩

theorem single (h : Carries .code ps text) : CarriesAll ps [text] :=
  ⟨[ps], .cons h .nil, by simp⟩

theorem cons (h : Carries .code ps text) (h' : CarriesAll qs texts) :
    CarriesAll (ps ++ qs) (text :: texts) := by
  obtain ⟨pss, hpss, rfl⟩ := h'
  exact ⟨ps :: pss, .cons h hpss, by simp⟩

theorem append (h : CarriesAll ps texts) (h' : CarriesAll qs texts') :
    CarriesAll (ps ++ qs) (texts ++ texts') := by
  obtain ⟨pss, hpss, rfl⟩ := h
  obtain ⟨qss, hqss, rfl⟩ := h'
  exact ⟨pss ++ qss, List.rel_append hpss hqss, by simp⟩

end CarriesAll

theorem carriesAll_mapM {α : Type} {f : α → Option (List Char)} {piece : α → Piece} {as : List α}
    (h : ∀ a ∈ as, ∃ text, f a = some text ∧ Carries .code [piece a] text) :
    ∃ texts, as.mapM f = some texts ∧ CarriesAll (as.map piece) texts := by
  induction as with
  | nil => exact ⟨[], rfl, .nil⟩
  | cons a as ih =>
    obtain ⟨text, htext, hcarries⟩ := h a (by simp)
    obtain ⟨texts, htexts, hall⟩ := ih fun b hb => h b (by simp [hb])
    exact ⟨text :: texts, by simp [List.mapM_cons, htext, htexts], .cons hcarries hall⟩

/-! ### Methods -/

theorem tame_params {m : Member} (h : MemberWellFormed m) : Tame m.params.toList := by
  obtain ⟨k, hk, hchars⟩ := h.params
  exact ⟨hchars ▸ Closes.of_derives hk, h.paramsNoReturn⟩

theorem header_memberHeader {m : Member} (h : MemberWellFormed m) (hname : Tame name)
    (hquiet : isQuiet name.head?) : Header (memberHeader m name) := by
  have hasync : Tame (if m.isAsync then "async ".toList else []) := by
    split <;> exact .of_isSimple (by decide)
  have hstar : Tame (if m.isGenerator then ['*'] else []) := by
    split <;> exact .of_isSimple (by decide)
  have hfront : Seam (if m.isAsync then "async ".toList else [])
      (if m.isGenerator then ['*'] else []) := by
    refine Or.inr fun c hc => ?_
    split at hc
    · obtain rfl : ' ' = c := by simpa using hc
      exact isStill_space
    · cases hc
  have hparams : Tame (['('] ++ m.params.toList) :=
    tame_word_append (c := '(') (by decide) (by decide) (by unfold isStill; decide) (tame_params h)
  have htame : Tame (memberHeader m name) := by
    unfold memberHeader
    refine (((hasync.append hstar hfront).append hname (seam_of_isQuiet hquiet)).append hparams
      (seam_of_isQuiet ?_)).append (.of_isSimple (by decide)) (seam_of_isQuiet ?_)
    · exact isQuiet_some (by decide) (by decide) (by decide)
    · exact isQuiet_some (by decide) (by decide) (by decide)
  refine Header.of_last htame (c := ')') ?_ (by decide)
  rw [memberHeader, List.getLast?_append]
  rfl

theorem carries_memberAs {m : Member} (h : MemberWellFormed m) (hname : Tame name)
    (hquiet : isQuiet name.head?) :
    ∃ text, memberAs name m = some text ∧ Carries .code [bodyPiece m] text := by
  refine ⟨_, by simp only [memberAs, h.body.replaceSites_eq]; rfl, ?_⟩
  exact carries_withComments h.comments
    (carries_functionBlock h.body.wellFormed (header_memberHeader h hname hquiet) (by simp))

theorem isQuiet_objectKey (s : String) : isQuiet (objectKey s).head? := by
  unfold objectKey
  split
  · rename_i hbare
    unfold isBareKey at hbare
    split at hbare
    · cases hbare
    · rename_i c cs hs
      rw [hs]
      have hstart : isAsciiWordStart c = true := (Bool.and_eq_true_iff.1 hbare).1
      have hne : ∀ d, isAsciiWordStart d = false → c ≠ d := by
        rintro d hd rfl
        rw [hstart] at hd
        cases hd
      exact isQuiet_some (hne _ (by decide)) (hne _ (by decide)) (hne _ (by decide))
  · exact isQuiet_some (by decide) (by decide) (by decide)

theorem carriesAll_methodsSection (name : String) (ms : List Member)
    (hname : Header (name.toList ++ [':'])) (h : ∀ m ∈ ms, MemberWellFormed m) :
    ∃ texts, methodsSection name ms = some texts ∧ CarriesAll (ms.map bodyPiece) texts := by
  obtain ⟨entries, hentries, pss, hpss, hflat⟩ :
      ∃ texts, ms.mapM member = some texts ∧ CarriesAll (ms.map bodyPiece) texts :=
    carriesAll_mapM fun m hm =>
      carries_memberAs (h m hm) (tame_objectKey m.name) (isQuiet_objectKey m.name)
  unfold methodsSection
  rw [hentries]
  cases entries with
  | nil =>
    cases hpss
    exact ⟨[], rfl, [], .nil, hflat⟩
  | cons entry entries =>
    refine ⟨_, rfl, ?_⟩
    rw [← hflat]
    exact .single (Carries.objectSection hpss (by simp) hname)

theorem carriesAll_hookSections (h : ∀ m ∈ c.members, MemberWellFormed m) :
    ∃ texts, hookSections c = some texts ∧
      CarriesAll ((c.members.filter fun x => isHookRole x.role).map bodyPiece) texts := by
  unfold hookSections
  generalize c.members = members at h ⊢
  induction members with
  | nil => exact ⟨[], rfl, .nil⟩
  | cons m members ih =>
    obtain ⟨texts, htexts, hall⟩ := ih fun x hx => h x (by simp [hx])
    cases hrole : m.role with
    | lifecycle hook =>
      have hname : Tame hook.optionName.toList := .of_isSimple (by cases hook <;> decide)
      have hquiet : isQuiet hook.optionName.toList.head? := by
        unfold isQuiet
        cases hook <;> decide
      obtain ⟨text, htext, hcarries⟩ := carries_memberAs (h m (by simp)) hname hquiet
      refine ⟨text :: texts, ?_, ?_⟩
      · simp [hookSection?, hrole, htext, htexts, List.mapM_cons]
      · simpa [hrole, isHookRole] using CarriesAll.cons hcarries hall
    | _ =>
      exact ⟨texts, by simpa [hookSection?, hrole] using htexts,
        by simpa [hrole, isHookRole] using hall⟩

theorem carriesAll_renderSection (h : ∀ m ∈ c.members, MemberWellFormed m) :
    ∃ texts, renderSection c = some texts ∧
      CarriesAll ((c.members.find? (·.role = .render)).toList.map bodyPiece) texts := by
  unfold renderSection
  cases hfind : c.members.find? (·.role = .render) with
  | none => exact ⟨[], rfl, .nil⟩
  | some m =>
    have hm := h m (List.mem_of_find?_eq_some hfind)
    have hheader : Header "render(h)".toList := ⟨.of_isSimple (by decide), by decide⟩
    refine ⟨_, by simp only [hm.body.replaceSites_eq]; rfl, ?_⟩
    exact .single (carries_withComments hm.comments
      (carries_functionBlock hm.body.wellFormed hheader (by simp)))

theorem carriesAll_stateSection (h : ∀ f ∈ c.state, FragmentWellFormed f) :
    ∃ texts, stateSection c = some texts ∧
      CarriesAll (c.state.toList.map fun f => .whole (rewritten f)) texts := by
  unfold stateSection
  cases hstate : c.state with
  | none => exact ⟨[], rfl, .nil⟩
  | some f =>
    have hf := h f hstate
    have hheader : Header "data()".toList := ⟨.of_isSimple (by decide), by decide⟩
    refine ⟨_, by simp only [hf.replaceSites_eq]; rfl, ?_⟩
    exact .single ((carries_return hf.wellFormed).braced hheader)

theorem carriesAll_createdSection (h : ∀ f ∈ c.created, FragmentWellFormed f) :
    ∃ texts, createdSection c = some texts ∧
      CarriesAll (c.created.map fun f => .whole (rewritten f)) texts := by
  obtain ⟨statements, hstatements, pss, hpss, hflat⟩ :
      ∃ texts, (c.created.mapM fun f => (replaceSites f).map dedentTail) = some texts ∧
        CarriesAll (c.created.map fun f => .whole (rewritten f)) texts := by
    refine carriesAll_mapM fun f hf => ⟨_, by rw [(h f hf).replaceSites_eq]; rfl, ?_⟩
    exact carries_dedentTail (h f hf).wellFormed
  unfold createdSection
  rw [hstatements]
  cases statements with
  | nil =>
    cases hpss
    exact ⟨[], rfl, [], .nil, hflat⟩
  | cons statement statements =>
    have hheader : Header "created()".toList := ⟨.of_isSimple (by decide), by decide⟩
    obtain ⟨mode, hjoin⟩ :=
      carries_joinFeeds (hpss.imp fun _ _ hcarries => ⟨_, hcarries⟩) (by simp)
    refine ⟨_, rfl, ?_⟩
    rw [← hflat]
    exact .single (hjoin.braced hheader)

/-! ### Names and props -/

theorem tame_nameSection (m : Model) (component : String) : Tame (nameSection m component) :=
  tame_word_append (c := ' ') (by decide) (by decide) isStill_space (tame_quoted _)

theorem carries_nameSection (m : Model) (component : String) :
    Carries .code [] (nameSection m component) := by
  refine (Header.of_last (tame_nameSection m component) (c := '\x27') ?_ (by decide)).carries
  delta nameSection quoted
  rw [List.getLast?_append, List.getLast?_append]
  rfl

theorem default_of_mem_addDefaults {values : Table String} {t : Table PropEntry}
    (hp : p ∈ values.foldl (fun t (name, value) => addDefault t name value) t)
    (hv : p.2.default = some v) :
    (∃ entry ∈ values, entry.2 = v) ∨ ∃ q ∈ t, q.2.default = some v := by
  induction values generalizing t with
  | nil => exact Or.inr ⟨p, hp, hv⟩
  | cons entry values ih =>
    rcases ih hp with ⟨entry', hmem, rfl⟩ | ⟨q, hq, hqv⟩
    · exact Or.inl ⟨entry', by simp [hmem], rfl⟩
    · rcases Table.mem_insert hq with hq | rfl
      · exact Or.inr ⟨q, hq, hqv⟩
      · exact Or.inl ⟨entry, by simp, Option.some.inj hqv⟩

theorem default_mem_defaultProps {component : String} (hp : p ∈ propEntries m component)
    (hv : p.2.default = some v) :
    ∃ table, m.defaultProps.get? component = some table ∧ ∃ entry ∈ table, entry.2 = v := by
  rcases default_of_mem_addDefaults hp hv with ⟨entry, hentry, hval⟩ | ⟨q, hq, hqv⟩
  · cases htable : m.defaultProps.get? component with
    | none => simp [htable] at hentry
    | some table => exact ⟨table, rfl, entry, by simpa [htable] using hentry, hval⟩
  · rcases Table.mem_extend hq with hq | hq
    · cases hq
    · obtain ⟨spec, -, rfl⟩ := List.mem_map.1 hq
      cases hqv

theorem tame_prop (name : String) {e : PropEntry} (h : Tame e.render) :
    Tame (objectKey name ++ ": ".toList ++ e.render) := by
  rw [List.append_assoc]
  exact (tame_objectKey name).append
    (tame_word_append (c := ' ') (by decide) (by decide) isStill_space h)
    (seam_of_isQuiet (isQuiet_some (by decide) (by decide) (by decide)))

theorem carriesAll_propsSection (h : ModelWellFormed m) (component : String) :
    CarriesAll [] (propsSection? m component).toList := by
  unfold propsSection?
  have hentry : ∀ p ∈ propEntries m component,
      Carries .code [] (objectKey p.1 ++ ": ".toList ++ p.2.render) := by
    intro p hp
    have hrender : Tame p.2.render := by
      refine PropEntry.tame_render fun v hv => ?_
      obtain ⟨table, htable, entry, hentry, rfl⟩ := default_mem_defaultProps hp hv
      exact h.defaults component table htable entry hentry
    refine (Header.of_last (tame_prop p.1 hrender) (c := '\x7d') ?_ (by decide)).carries
    rw [List.getLast?_append, p.2.render_last]
    rfl
  have hheader : Header ("props".toList ++ [':']) := ⟨.of_isSimple (by decide), by decide⟩
  generalize hentries : propEntries m component = entries at hentry
  cases entries with
  | nil => exact .nil
  | cons p entries =>
    have hall : List.Forall₂ (Carries .code) ((p :: entries).map fun _ => [])
        ((p :: entries).map fun p => objectKey p.1 ++ ": ".toList ++ p.2.render) := by
      rw [List.forall₂_map_left_iff, List.forall₂_map_right_iff, List.forall₂_same]
      exact hentry
    have hsection := Carries.objectSection hall (by simp) hheader
    exact .single (by simpa using hsection)

/-! ### Whole components -/

theorem carriesAll_classSections (h : ModelWellFormed m) (hc : m.classComponent = some c) :
    ∃ texts, classSections m c = some texts ∧ CarriesAll (classPieces c) texts := by
  have hmembers := h.members c hc
  obtain ⟨state, hstate, cstate⟩ := carriesAll_stateSection (h.state c hc)
  obtain ⟨computed, hcomputed, ccomputed⟩ := carriesAll_methodsSection "computed"
    (c.members.filter (·.role = .getter)) ⟨.of_isSimple (by decide), by decide⟩
    fun m hm => hmembers m (List.mem_of_mem_filter hm)
  obtain ⟨methods, hmethods, cmethods⟩ := carriesAll_methodsSection "methods"
    (c.members.filter fun x => isMethodRole x.role) ⟨.of_isSimple (by decide), by decide⟩
    fun m hm => hmembers m (List.mem_of_mem_filter hm)
  obtain ⟨hooks, hhooks, chooks⟩ := carriesAll_hookSections hmembers
  obtain ⟨created, hcreated, ccreated⟩ := carriesAll_createdSection (h.created c hc)
  obtain ⟨render, hrender, crender⟩ := carriesAll_renderSection hmembers
  have cname := CarriesAll.cons (carries_nameSection m c.name) (carriesAll_propsSection h c.name)
  refine ⟨_, by
    simp only [classSections, hstate, hcomputed, hmethods, hhooks, hcreated, hrender]
    rfl, ?_⟩
  have hall := cname.append (cstate.append (ccomputed.append (cmethods.append
    (chooks.append (ccreated.append crender)))))
  simpa [classPieces] using hall

theorem carries_propsBinding {binding : String} (h : WellFormed (Derives .code) binding.toList) :
    Carries .code [] (propsBinding binding) := by
  have hbind : ∀ {pattern rest : List Char}, Tame pattern →
      (rest.all fun c => isSimple c && c != '\r') = true → isQuiet rest.head? →
      rest.getLast? = some ';' → Carries .code [] ("const ".toList ++ pattern ++ rest) := by
    intro pattern rest hpattern hsimple hquiet hlast
    have htame : Tame ("const ".toList ++ pattern ++ rest) :=
      (tame_word_append (c := ' ') (by decide) (by decide) isStill_space hpattern).append
        (.of_isSimple hsimple) (seam_of_isQuiet hquiet)
    refine (Header.of_last htame (c := ';') ?_ (by decide)).carries
    rw [List.getLast?_append, hlast]
    rfl
  obtain ⟨ls, hls⟩ := spells_of_wellFormed h
  unfold propsBinding
  split
  · dsimp only
    split
    · exact hbind hls.dedentTail.1.tame (by decide) isQuiet_space (by decide)
    · exact hbind hls.dedentTail.1.tame (by decide) isQuiet_space (by decide)
  · exact hbind hls.tame (by decide) isQuiet_space (by decide)

theorem carries_functionalRender (h : ModelWellFormed m) {c : FunctionalComponent}
    (hc : m.primaryFunctional = some c) :
    ∃ text, functionalRender c = some text ∧ Carries .code [functionalPiece c] text := by
  have hbody := h.functional c hc
  have hheader : Header "render(h, context)".toList := ⟨.of_isSimple (by decide), by decide⟩
  have hbefore : ∀ b ∈ (c.propsBinding.map propsBinding).toList, Carries .code [] b := by
    intro b hb
    obtain ⟨binding, hbinding, rfl⟩ := Option.map_eq_some_iff.1 (Option.mem_toList.1 hb)
    exact carries_propsBinding (h.bindings c hc binding hbinding)
  unfold functionalRender functionalPiece
  cases hkind : c.body with
  | block f =>
    rw [hkind] at hbody
    refine ⟨_, by simp only [Body.fragment] at hbody; simp only [hbody.replaceSites_eq]; rfl, ?_⟩
    exact carries_functionBlock (FragmentWellFormed.wellFormed hbody) hheader hbefore
  | expr f =>
    rw [hkind] at hbody
    refine ⟨_, by simp only [Body.fragment] at hbody; simp only [hbody.replaceSites_eq]; rfl, ?_⟩
    have hreturn := carries_return (FragmentWellFormed.wellFormed hbody)
    generalize (c.propsBinding.map propsBinding).toList = before at hbefore ⊢
    have hall : List.Forall₂ (fun ps text => ∃ mode, Carries mode ps text)
        (before.map (fun _ => []) ++ [[.whole (rewritten f)]])
        (before ++ ["return ".toList ++ dedentTail (rewritten f) ++ [';']]) := by
      refine List.rel_append ?_ (.cons ⟨_, hreturn⟩ .nil)
      rw [List.forall₂_map_left_iff, List.forall₂_same]
      exact fun b hb => ⟨_, hbefore b hb⟩
    obtain ⟨mode, hjoin⟩ := carries_joinFeeds hall (by simp)
    simpa using hjoin.braced hheader

theorem carriesAll_functionalSections (h : ModelWellFormed m) {c : FunctionalComponent}
    (hc : m.primaryFunctional = some c) :
    ∃ texts, functionalSections m c = some texts ∧ CarriesAll [functionalPiece c] texts := by
  obtain ⟨render, hrender, crender⟩ := carries_functionalRender h hc
  have hflag : Header "functional: true".toList := ⟨.of_isSimple (by decide), by decide⟩
  refine ⟨_, by simp only [functionalSections, hrender]; rfl, ?_⟩
  exact .cons (carries_nameSection m c.name)
    (.cons hflag.carries ((carriesAll_propsSection h c.name).append (.single crender)))

theorem weaves_exportDefault {ps : List Piece} {sections : List (List Char)}
    (h : CarriesAll ps sections) : Weaves ps (exportDefault sections) := by
  obtain ⟨pss, hpss, rfl⟩ := h
  unfold exportDefault
  cases sections with
  | nil =>
    cases hpss
    exact .nil _
  | cons s ss =>
    have hbody := (carries_joinCommas hpss (by simp)).weaves_indent 2
    unfold braced
    exact ((hbody.behind_gap _).before_gap _).before_gap _

/-- Every fragment of a component stands in what is generated, in the fixed order. Its lines are
those of the fragment with its sites replaced, up to margins and blank lines at the ends, and the
characters of its literals are the same. -/
theorem generate_preserves_fragments {m : Model} (h : ModelWellFormed m) :
    ∃ out, generate m = some out ∧ Weaves (modelPieces m) out.toList := by
  obtain ⟨sections, primary, hsections, hweaves⟩ : ∃ sections primary,
      primarySections m = some (sections, primary) ∧
        Weaves (modelPieces m) (exportDefault sections) := by
    unfold primarySections modelPieces
    cases hc : m.classComponent with
    | some c =>
      obtain ⟨texts, htexts, hall⟩ := carriesAll_classSections h hc
      exact ⟨texts, some c.name, by simp [htexts], weaves_exportDefault hall⟩
    | none =>
      cases hf : m.primaryFunctional with
      | some c =>
        obtain ⟨texts, htexts, hall⟩ := carriesAll_functionalSections h hf
        exact ⟨texts, some c.name, by simp [htexts], weaves_exportDefault hall⟩
      | none => exact ⟨_, _, rfl, .nil _⟩
  refine ⟨_, by simp only [generate, hsections]; rfl, ?_⟩
  rw [String.toList_ofList]
  refine Weaves.before_gap ?_ _
  generalize importBlock m ++ m.declarations.map (·.toList) ++ helperBlocks m primary = blocks
  cases blocks with
  | nil => exact hweaves
  | cons block blocks =>
    rw [joinWith_append _ (by simp) (by simp)]
    exact hweaves.behind_gap _

def sampleModel : Model :=
  { classComponent := some
      { name := "A"
        span := ⟨0, 0⟩
        state := some ⟨"\x60a\n  b\x60", []⟩
        created := []
        members :=
          [{ name := "m"
             role := .method
             params := ""
             body := ⟨"\x7b\n    return this.props.x;\n  \x7d", [⟨⟨13, 23⟩, .propsMember⟩]⟩
             isAsync := false
             isGenerator := false
             leadingComments := ["// c"] }] } }

theorem sampleModel_wellFormed : ModelWellFormed sampleModel := by
  have htemplate : Derives .template (inRegion .literal ['a', '\n', ' ', ' ', 'b']) := by
    repeat refine .char (by decide) (by decide) (by decide) ?_
    exact .templateEnd
  have hstate : FragmentWellFormed ⟨"\x60a\n  b\x60", []⟩ :=
    ⟨_, rfl, ⟨_, .template htemplate .codeEnd, rfl⟩, by decide, by decide⟩
  have hinner : Derives .code (inRegion .code "\n    return this.x;\n  ".toList) := by
    refine derives_of_isPlain ?_
    simp [isPlain, isQuoteMark]
  have hbody : FragmentWellFormed
      ⟨"\x7b\n    return this.props.x;\n  \x7d", [⟨⟨13, 23⟩, .propsMember⟩]⟩ :=
    ⟨"\x7b\n    return this.x;\n  \x7d".toList, by decide +kernel,
      ⟨_, .braces hinner .codeEnd, rfl⟩, by decide, by decide⟩
  have hline : SourceText ([] ++ inRegion .comment ('/' :: '/' :: " c".toList)) :=
    .inComment .codeEnd (by simp) (by decide)
  have hcomment : WellFormed SourceText "// c".toList := ⟨⟨_, hline, rfl⟩, by decide, by decide⟩
  refine ⟨?_, ?_, ?_, by rintro c ⟨⟩, by rintro c ⟨⟩, by rintro c table ⟨⟩⟩
  · rintro c ⟨⟩ f ⟨⟩
    exact hstate
  · rintro c ⟨⟩ f ⟨⟩
  · rintro c ⟨⟩ m hm
    obtain rfl := List.mem_singleton.1 hm
    refine ⟨hbody, ⟨[], .codeEnd, rfl⟩, by decide, fun d hd => ?_⟩
    obtain rfl := List.mem_singleton.1 hd
    exact hcomment

theorem generate_preserves_sampleModel :
    ModelWellFormed sampleModel ∧
      ∃ out, generate sampleModel = some out ∧ Weaves (modelPieces sampleModel) out.toList :=
  ⟨sampleModel_wellFormed, generate_preserves_fragments sampleModel_wellFormed⟩

end Revue.Vue
