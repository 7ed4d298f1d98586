/-
# What reading puts into a document

Every term map of a document that was read is one that a draft was completed to, and the draft was
read from a part of the tree.  So the datatype and the language of a constant stand with it.
-/
import RdfMapping.Proofs.Given
import RdfMapping.Proofs.Mapping.Tags
import RdfMapping.Proofs.Shorthand.Parsing
import RdfMapping.Proofs.Shorthand.ValueClasses

namespace RdfMapping.Shorthand

open Mapping
open Iri (PrefixTable)
open Yaml (Node Entry)

variable {scope : Scope} {site : Site} {tm : TermMap} {text : String} {d : Draft}
  {n root : Option Node} {place : Place} {settings : Settings} {parsed : Parsed}

/-! ## Drafts and what they are completed to -/

/-- A draft has both tags only if its node states both. -/
def Drafted (n : Node) (d : Draft) : Prop :=
  d.datatype ≠ "" → d.language ≠ "" → ∃ t l,
    valueOf? termKeys n .datatype = some t ∧ t.target.text = d.datatype ∧
    valueOf? termKeys n .language = some l ∧ l.target.text = d.language

/-- A constant is completed; only a literal may have tags. -/
theorem completeConstant_eq_ok_iff {stated : Option TermType} {d : TermMap} :
    scope.completeConstant site stated d text = .ok tm ↔ ∃ kind value,
      constantKind site stated d.isTagged = kind ∧ scope.constantValue site kind text = .ok value ∧
      (kind ≠ .literal → d.datatype = "" ∧ d.language = "") ∧
      tm = ⟨some (.constant ⟨kind, value, d.datatype, d.language⟩), kind, "", "", d.span⟩ := by
  obtain ⟨v, termType, datatype, language, span⟩ := d
  unfold Scope.completeConstant
  dsimp only
  generalize constantKind site stated _ = kind
  cases hvalue : scope.constantValue site kind text with
  | error e =>
    refine ⟨fun h => (by cases h), ?_⟩
    rintro ⟨_, value, rfl, hok, -⟩
    cases hvalue.symm.trans hok
  | ok value =>
    change (if _ then _ else _) = _ ↔ _
    by_cases hkind : kind = .literal
    · rw [if_pos hkind]
      constructor
      · intro h
        cases h
        exact ⟨_, value, rfl, hvalue, fun hne => absurd hkind hne, by rw [hkind]⟩
      · rintro ⟨_, value', rfl, hok, -, rfl⟩
        cases hvalue.symm.trans hok
        rw [hkind]
        rfl
    · rw [if_neg hkind]
      have huntagged : (⟨v, termType, datatype, language, span⟩ : TermMap).isTagged = true ↔
          ¬ (datatype = "" ∧ language = "") := by
        simp [TermMap.isTagged, imp_iff_not_or]
      by_cases htags : datatype = "" ∧ language = ""
      · rw [if_neg (fun h => huntagged.1 h htags)]
        obtain ⟨rfl, rfl⟩ := htags
        constructor
        · intro h
          cases h
          exact ⟨_, value, rfl, hvalue, fun _ => ⟨rfl, rfl⟩, rfl⟩
        · rintro ⟨_, value', rfl, hok, -, rfl⟩
          cases hvalue.symm.trans hok
          rfl
      · rw [if_pos (huntagged.2 htags)]
        refine ⟨fun h => (by cases h), ?_⟩
        rintro ⟨_, value', rfl, -, hnone, -⟩
        exact absurd (hnone hkind) htags

/-- How a draft is completed: a constant, a template or the value. -/
theorem of_complete (h : scope.complete site d = .ok tm) :
    tm.span = d.span ∧ scope.resolveOptional d.datatype = .ok tm.termDatatype ∧
      ((tm.TagsPlaced ∧ ∃ term, tm.value = some (.constant term) ∧ term.language = d.language) ∨
        (∃ pattern, tm.value = some (.template pattern)) ∨
        tm.value = some d.value ∧ ∀ term, d.value ≠ .constant term) := by
  unfold Scope.complete at h
  cases hdatatype : scope.resolveOptional d.datatype with
  | error e =>
    rw [hdatatype] at h
    cases h
  | ok datatype =>
    rw [hdatatype] at h
    change scope.completeValue site d datatype = .ok tm at h
    unfold Scope.completeValue at h
    dsimp only at h
    split at h
    · obtain ⟨kind, value, -, -, huntagged, rfl⟩ := completeConstant_eq_ok_iff.1 h
      refine ⟨rfl, rfl, .inl ⟨fun term hterm => ?_, _, rfl, rfl⟩⟩
      cases hterm
      exact ⟨rfl, rfl, huntagged⟩
    · next pattern hpattern =>
      unfold Scope.completeTemplate at h
      dsimp only at h
      split at h
      · split at h
        · cases h
          exact ⟨rfl, rfl, .inr (.inl ⟨_, rfl⟩)⟩
        · cases h
      · cases h
        have hvalue : some d.value = some (.template pattern) := congrArg some hpattern
        refine ⟨rfl, ?_, .inr (.inl ⟨pattern, hvalue⟩)⟩
        rw [TermMap.termDatatype, TermMap.constant?, hvalue]
        rfl
    · next hconstant htemplate =>
      cases h
      refine ⟨rfl, ?_, .inr (.inr ⟨rfl, fun term hterm => hconstant term hterm⟩)⟩
      unfold TermMap.termDatatype TermMap.constant?
      dsimp only
      split
      · next term hterm => exact absurd (Option.some.inj hterm) (hconstant term)
      · rfl

/-- **A draft is completed to a term map with its tags in place.** -/
theorem tagsPlaced_of_complete (h : scope.complete site d = .ok tm) : tm.TagsPlaced := by
  rcases (of_complete h).2.2 with ⟨hplaced, -⟩ | ⟨pattern, hvalue⟩ | ⟨hvalue, hconstant⟩
  · exact hplaced
  · intro term hterm
    rw [hvalue] at hterm
    cases hterm
  · intro term hterm
    rw [hvalue] at hterm
    exact absurd (Option.some.inj hterm) (hconstant term)

/-- The term maps inside a draft are those inside the term map it is completed to. -/
theorem every_of_complete {P : TermMap → Prop} (h : scope.complete site d = .ok tm)
    (hvalue : d.value.Every P) (htm : P tm) : tm.Every P := by
  refine TermMap.forall_nested.2 ⟨htm, fun v hv => ?_⟩
  rcases (of_complete h).2.2 with ⟨-, term, hterm, -⟩ | ⟨pattern, hpattern⟩ | ⟨hkept, -⟩
  · rw [hterm] at hv
    cases hv
    exact Value.every_of_nested_eq_nil rfl
  · rw [hpattern] at hv
    cases hv
    exact Value.every_of_nested_eq_nil rfl
  · rw [hkept] at hv
    cases hv
    exact hvalue

/-- What a scalar stands for has no term maps inside it. -/
theorem nested_of_inferValue {v : Value} (h : inferValue text = .ok v) :
    v.nested = [] := by
  rcases cases_of_inferValue h with ⟨term, rfl⟩ | ⟨name, rfl, -⟩ | ⟨rfl, -⟩ | ⟨rfl, -⟩ <;> rfl

/-- The draft of a scalar has the value of a text, and no tags. -/
theorem of_draftScalar (h : draftScalar text = .ok d) :
    (∃ body, inferValue body = .ok d.value) ∧ d.datatype = "" := by
  unfold draftScalar at h
  dsimp only at h
  split at h
  · next value hvalue =>
    cases h
    exact ⟨⟨_, hvalue⟩, rfl⟩
  · cases h

/-! ## Parts of nodes -/

/-- What is found by a key does not depend on the place that is noted. -/
theorem value_readKeys {κ : Type} [BEq κ] (ring : Keyring κ) (n : Node) (place place' : Place) :
    (readKeys ring n place).value = (readKeys ring n place').value := by
  have hcollect (es : List Entry) : ∀ found : Keyed κ,
      (collectKeys ring place found es).value = (collectKeys ring place' found es).value := by
    induction es with
    | nil => exact fun _ => rfl
    | cons e rest ih =>
      intro found
      unfold collectKeys
      split
      · exact ih found
      · split
        · exact ih found
        · exact ih _
  exact hcollect n.entries []

/-- A property of nodes and parts, and one of completed term maps. -/
structure Traces (scope : Scope) (S : Node → Prop) (P : TermMap → Prop) : Prop where
  item : ∀ {n m : Node}, S n → m ∈ n.items → S m
  key : ∀ {n : Node} {e : Entry}, S n → e ∈ n.entries → S e.key
  value : ∀ {n : Node} {e : Entry}, S n → e ∈ n.entries → S e.value
  missing : P {}
  complete : ∀ {site : Site} {n : Node} {d : Draft} {tm : TermMap}, S n → Drafted n d →
    scope.complete site d = .ok tm → P tm

/-- Nothing is said of any node or any term map. -/
theorem traces_trivial (scope : Scope) : Traces scope (fun _ => True) fun _ => True :=
  ⟨fun _ _ => trivial, fun _ _ => trivial, fun _ _ => trivial, trivial, fun _ _ _ => trivial⟩

theorem gives_refuse {α : Type} {P : α → Prop} {problem : Problem} :
    (refuse problem n place : Reading α).Gives P :=
  .fail _

theorem finds_refuse {α : Type} {P : α → Prop} {problem : Problem} :
    (refuse problem n place : Reading α).Finds P :=
  .fail

theorem finds_readScalar :
    (readScalar n place).Finds fun text => ∃ m, n = some m ∧ m.target.text = text := by
  unfold readScalar
  split
  · exact finds_refuse
  · next m =>
    split
    · exact finds_refuse
    · split
      · exact .pure ⟨m, rfl, rfl⟩
      · exact finds_refuse

theorem finds_readIri : (scope.readIri n place).Finds fun _ => True := by
  refine finds_readScalar.bind fun text _ => ?_
  split
  · exact .pure trivial
  · exact finds_refuse

theorem finds_readValueKey {n : Node} {keys : Keyed TermKey} :
    (readValueKey n keys place).Finds fun _ => True := by
  unfold readValueKey
  split
  · exact finds_refuse
  · exact .pure trivial
  · exact finds_refuse

theorem finds_readStatedType {keys : Keyed TermKey} {suffix : Option TermType} :
    (readStatedType keys suffix place).Finds fun _ => True := by
  unfold readStatedType
  split
  · refine finds_readScalar.bind fun name _ => ?_
    split
    · exact finds_refuse
    · split
      · split
        · exact finds_refuse
        · exact .pure trivial
      · exact .pure trivial
  · exact .pure trivial

/-- The text of a part that may be absent is that of the part, or empty. -/
theorem finds_readOptionalPart {keys : Keyed TermKey} {k : TermKey} :
    (readOptionalPart keys k place).Finds fun text =>
      text ≠ "" → ∃ m, keys.value? k = some m ∧ m.target.text = text := by
  unfold readOptionalPart
  split
  · exact finds_readScalar.mono fun _ htext _ => htext
  · exact .pure fun hne => absurd rfl hne

/-- A tag beside an object is a datatype or a language, never both. -/
theorem finds_readTagging {tag : Option Node} :
    (readTagging tag place).Finds fun t => t.datatype = "" ∨ t.language = "" := by
  unfold readTagging
  split
  · exact .pure (.inl rfl)
  · refine finds_readScalar.bind fun text _ => .pure ?_
    unfold Tagging.ofText
    split
    · exact .inl rfl
    · exact .inr rfl

namespace Traces

variable {scope : Scope} {S : Node → Prop} {P : TermMap → Prop} (ht : Traces scope S P)
  {site : Site} {n key body : Node} {place : Place} {parameters : Option Node}
  {sub : (m : Node) → m.size < n.size → Place → Reading TermMap} {tag : Tagging} {ns : List Node}
  {declared : List NamedSource}

include ht

/-- A value found by its key is a part of the node. -/
theorem value? (hn : S n) {κ : Type} [BEq κ] {ring : Keyring κ} {k : κ}
    {m : Node} (h : (readKeys ring n place).value.value? k = some m) : S m := by
  obtain ⟨e, he, rfl⟩ := Option.map_eq_some_iff.1 h
  obtain ⟨k', hk⟩ := mem_of_lookup_eq_some he
  rcases mem_of_collectKeys ring place [] n.entries hk with hnil | hmem
  · exact absurd hnil List.not_mem_nil
  · exact ht.value hn hmem

theorem readParameter (hn : S n) :
    (readParameter n place).Gives fun e => S e.value := by
  unfold Shorthand.readParameter
  split
  · split
    · next name value heq => exact .pure (ht.item hn (by simp [heq]))
    · exact gives_refuse
  · split
    · refine (Attempt.Gives.lift (P := fun keys =>
        keys = (readKeys parameterKeys n place).value) rfl).bind fun keys hkeys => ?_
      split
      · next hvalue => exact .pure (ht.value? hn (hkeys ▸ hvalue))
      · exact gives_refuse
    · exact gives_refuse

/-- The values of parameters are parts of the node they are read from. -/
theorem readParameters (hn : ∀ n, parameters = some n → S n) :
    ∀ e ∈ (readParameters parameters place).value, S e.value := by
  have hnil : ∀ e ∈ ([] : List Entry), S e.value := fun e he => absurd he List.not_mem_nil
  unfold Shorthand.readParameters
  split
  · exact hnil
  · next m =>
    have hm := hn m rfl
    split
    · exact hnil
    · split
      · exact fun e he => ht.value hm he
      · split
        · refine Attempt.Gives.those fun x hx => ?_
          obtain ⟨i, hi, rfl⟩ := List.mem_mapIdx.1 hx
          exact ht.readParameter (ht.item hm (List.getElem_mem hi))
        · exact hnil

/-! ## Terms that were read -/

/-- A function that is read has what was read for its parameters. -/
theorem readFunction {function : Option Node} (hn : ∀ n, parameters = some n → S n)
    {sub : (m : Node) → (∃ n, parameters = some n ∧ m.size < n.size) → Place → Reading TermMap}
    (hsub : ∀ m h place, S m → (sub m h place).Finds (TermMap.Every P)) :
    (readFunction scope function parameters place sub).Finds (Value.Every P) := by
  refine finds_readIri.bind fun iri _ => .lift_bind ?_
  refine Attempt.Finds.bind (P := fun ps => ∀ p ∈ ps, p.value.Every P) (.all fun x hx => ?_)
    fun ps hps => .pure (Parameter.forall_nestedAll.2 hps)
  obtain ⟨i, hi, rfl⟩ := List.mem_mapIdx.1 hx
  have hvalue := ht.readParameters hn _
    ((Shorthand.readParameters parameters place).value.attach.get ⟨i, hi⟩).property
  exact (finds_readIri.both (hsub _ _ _ hvalue)).bind fun p hp => .pure hp.2

/-- The term maps in a value come from parts of the node. -/
theorem readValue {keys : Keyed TermKey} {k : TermKey}
    (hn : ∀ n, keys.value? .parameters = some n → S n)
    {sub : (m : Node) → (∃ n, keys.value? .parameters = some n ∧ m.size < n.size) → Place →
      Reading TermMap}
    (hsub : ∀ m h place, S m → (sub m h place).Finds (TermMap.Every P)) :
    (readValue scope site n place keys sub k).Finds fun p => p.1.Every P := by
  unfold Shorthand.readValue
  split
  · refine finds_readScalar.bind fun text _ => ?_
    split
    · next d hd =>
      obtain ⟨⟨body, hbody⟩, -⟩ := of_draftScalar hd
      exact .pure (Value.every_of_nested_eq_nil (nested_of_inferValue hbody))
    · exact finds_refuse
  · exact finds_readScalar.bind fun text _ => .pure (Value.every_of_nested_eq_nil rfl)
  · exact finds_readScalar.bind fun text _ => .pure (Value.every_of_nested_eq_nil rfl)
  · refine finds_readScalar.bind fun text _ => ?_
    split
    · exact .pure (Value.every_of_nested_eq_nil rfl)
    · exact finds_refuse
  · exact (ht.readFunction hn hsub).bind fun v hv => .pure hv
  · refine Attempt.Finds.bind (P := Value.Every P) ?_ fun v hv => .pure hv
    unfold readJoin
    split
    · exact finds_refuse
    · refine finds_readScalar.bind fun parent _ => .lift_bind ?_
      split
      · exact finds_refuse
      · exact .pure (Value.every_of_nested_eq_nil rfl)

/-- The draft of a mapping has its position, and the tags that stand in it. -/
theorem draftParts (hn : S n) (hsub : ∀ m h place, S m → (sub m h place).Finds (TermMap.Every P)) :
    (draftParts scope site n place sub).Finds fun d =>
      d.span = n.span ∧ d.value.Every P ∧ Drafted n d := by
  -- what is read for a tag stands with its key
  have htag {k : TermKey} {text : String}
      (h : text ≠ "" → ∃ m, (readKeys termKeys n place).value.value? k = some m ∧
        m.target.text = text) (hne : text ≠ "") :
      ∃ m, valueOf? termKeys n k = some m ∧ m.target.text = text := by
    rw [valueOf?, value_readKeys termKeys n {} place]
    exact h hne
  unfold Shorthand.draftParts
  refine .lift_bind (finds_readValueKey.bind fun k _ => .lift_bind ?_)
  refine (ht.readValue (fun m hm => ht.value? hn hm) fun m h place => hsub m _ place).bind
    fun p hp => finds_readStatedType.bind fun stated _ => ?_
  refine finds_readOptionalPart.bind fun datatype hdatatype => ?_
  refine finds_readOptionalPart.bind fun language hlanguage =>
    .pure ⟨rfl, hp, fun hd hl => ?_⟩
  obtain ⟨t, ht, htext⟩ := htag hdatatype hd
  obtain ⟨l, hl, hltext⟩ := htag hlanguage hl
  exact ⟨t, l, ht, htext, hl, hltext⟩

/-- A draft comes from the parts of its node. -/
theorem draftNode (hn : S n) (hsub : ∀ m h place, S m → (sub m h place).Finds (TermMap.Every P)) :
    (draftNode scope site n place sub).Finds fun d =>
      d.span = n.span ∧ d.value.Every P ∧ Drafted n d := by
  unfold Shorthand.draftNode
  split
  · exact finds_refuse
  · split
    · split
      · next d hd =>
        obtain ⟨⟨body, hbody⟩, hdatatype⟩ := of_draftScalar hd
        exact .pure ⟨rfl, Value.every_of_nested_eq_nil (nested_of_inferValue hbody),
          fun h => absurd hdatatype h⟩
      · exact finds_refuse
    · split
      · exact ht.draftParts hn hsub
      · exact finds_refuse

theorem readCompletion (hn : S n) (hspan : d.span = n.span) (hvalue : d.value.Every P)
    (hd : Drafted n d) :
    (readCompletion scope site d n place).Finds fun tm => tm.span = n.span ∧ tm.Every P := by
  unfold Shorthand.readCompletion
  split
  · next tm htm =>
    exact .pure ⟨(of_complete htm).1.trans hspan,
      every_of_complete htm hvalue (ht.complete hn hd htm)⟩
  · exact finds_refuse

/-- **What holds of drafts holds of term maps that are read**, or it is noted why none is.  A term
map keeps the position of its node. -/
theorem readTerm (site : Site) (hn : S n) (place : Place) :
    (readTerm scope site n place).Finds fun tm => tm.span = n.span ∧ tm.Every P := by
  -- the values of parameters are smaller than the node
  induction hsize : n.size using Nat.strongRecOn generalizing site n place with
  | ind size ih =>
    rw [Shorthand.readTerm]
    refine (ht.draftNode hn fun m hm place hS => ?_).bind fun d hd =>
      ht.readCompletion hn hd.1 hd.2.1 hd.2.2
    exact (ih m.size (hsize ▸ hm) _ hS place rfl).mono fun tm htm => htm.2

/-- An object comes from its node, tag or no tag. -/
theorem readObject (site : Site) (htag : tag.datatype = "" ∨ tag.language = "") (hn : S n)
    (place : Place) :
    (readObject scope site tag n place).Finds fun tm => tm.span = n.span ∧ tm.Every P := by
  have hdraft : (readDraft scope site n place).Finds fun d =>
      d.span = n.span ∧ d.value.Every P ∧ Drafted n d :=
    ht.draftNode hn fun m _ place hm => (ht.readTerm _ hm place).mono fun tm htm => htm.2
  refine hdraft.bind fun d hd => ?_
  refine Attempt.Finds.bind (P := fun d => d.span = n.span ∧ d.value.Every P ∧ Drafted n d) ?_
    fun d hd => ht.readCompletion hn hd.1 hd.2.1 hd.2.2
  unfold readTag
  split
  · exact .pure hd
  · split
    · exact finds_refuse
    · exact .pure ⟨hd.1, hd.2.1, fun hdatatype hlanguage =>
        htag.elim (absurd · hdatatype) (absurd · hlanguage)⟩

/-! ## Maps that were read -/

theorem readGraphs (hn : S n) :
    ∀ g ∈ (readGraphs scope n place).value, g.Every P := by
  refine Attempt.Gives.those fun x hx => ?_
  obtain ⟨i, hi, rfl⟩ := List.mem_mapIdx.1 hx
  exact (ht.readTerm _ (ht.item hn (List.getElem_mem hi)) _).gives.mono fun g hg => hg.2

theorem readPredicates (hns : ∀ n ∈ ns, S n) :
    (readPredicates scope ns place).Gives fun tms => ∀ t ∈ tms, t.Every P := by
  refine (Attempt.Gives.all fun x hx => ?_).bind fun tms htms => .nonempty htms
  obtain ⟨m, hm, rfl⟩ := List.mem_map.1 hx
  exact (ht.readTerm _ (hns m hm) _).gives.mono fun tm htm => htm.2

theorem readObjects {predicates : List TermMap} (htag : tag.datatype = "" ∨ tag.language = "")
    (hns : ∀ n ∈ ns, S n) :
    (readObjects scope predicates tag ns place).Gives fun tms => ∀ t ∈ tms, t.Every P := by
  refine (Attempt.Gives.all fun x hx => ?_).bind fun tms htms => .nonempty htms
  obtain ⟨m, hm, rfl⟩ := List.mem_map.1 hx
  exact (ht.readObject _ htag (hns m hm) _).gives.mono fun tm htm => htm.2

theorem readPair {e : Entry} (hkey : S e.key) (hvalue : S e.value) :
    (readPair scope e place).Gives (PredicateObjectMap.Every P) := by
  refine (ht.readPredicates (List.forall_mem_singleton.2 hkey)).bind fun ps hps => ?_
  refine (ht.readObjects (.inl rfl) fun m hm => ht.item hvalue hm).bind fun os hos => ?_
  exact .pure ⟨hps, hos, fun g hg => absurd hg List.not_mem_nil⟩

/-- A list comes from its items. -/
theorem readList (hn : S n) :
    (readList scope n place).Gives (PredicateObjectMap.Every P) := by
  have hread {p o : Node} {tag : Option Node} {place₀ place₁ place₂ : Place} {span : Span}
      (hp : S p) (ho : S o) :
      (do
        let tag ← readTagging tag place₂
        let predicates ← Shorthand.readPredicates scope p.items place₀
        let objects ← Shorthand.readObjects scope predicates tag o.items place₁
        return { span, predicates, objects } :
          Reading PredicateObjectMap).Gives (PredicateObjectMap.Every P) := by
    refine finds_readTagging.gives.bind fun tag htag => ?_
    refine (ht.readPredicates fun m hm => ht.item hp hm).bind fun ps hps => ?_
    refine (ht.readObjects htag fun m hm => ht.item ho hm).bind fun os hos => ?_
    exact .pure ⟨hps, hos, fun g hg => absurd hg List.not_mem_nil⟩
  unfold Shorthand.readList
  dsimp only
  split
  · next p o heq => exact hread (ht.item hn (by simp [heq])) (ht.item hn (by simp [heq]))
  · next p o tag heq => exact hread (ht.item hn (by simp [heq])) (ht.item hn (by simp [heq]))
  · exact gives_refuse

/-- An entry comes from its named parts. -/
theorem readParts (hn : S n) :
    (readParts scope n place).Gives (PredicateObjectMap.Every P) := by
  unfold Shorthand.readParts
  refine (Attempt.Gives.lift (P := fun keys => keys = (readKeys entryKeys n place).value)
    rfl).bind fun keys hkeys => ?_
  have hpart {k : EntryKey} {m : Node} (hm : keys.value? k = some m) : S m :=
    ht.value? hn (hkeys ▸ hm)
  split
  · next hp ho =>
    refine (ht.readPredicates fun m hm => ht.item (hpart hp) hm).bind fun ps hps => ?_
    refine (ht.readObjects (.inl rfl) fun m hm => ht.item (hpart ho) hm).bind fun os hos => ?_
    split
    · next hg =>
      exact (Attempt.Gives.lift (ht.readGraphs (hpart hg))).bind fun gs hgs =>
        .pure ⟨hps, hos, hgs⟩
    · exact .pure ⟨hps, hos, fun g hg => absurd hg List.not_mem_nil⟩
  · exact gives_refuse

theorem readPairs (hn : S n) :
    ∀ pom ∈ (readPairs scope n place).value, pom.Every P := by
  refine Attempt.Gives.those fun x hx => ?_
  obtain ⟨e, he, rfl⟩ := List.mem_map.1 hx
  exact ht.readPair (ht.key hn he) (ht.value hn he)

/-- Each form of an entry comes from its parts. -/
theorem readEntry (hn : S n) :
    ∀ pom ∈ (readEntry scope n place).value, pom.Every P := by
  unfold Shorthand.readEntry
  split
  · refine Attempt.Gives.those fun x hx => ?_
    rw [List.mem_singleton.1 hx]
    exact ht.readList hn
  · split
    · split
      · refine Attempt.Gives.those fun x hx => ?_
        rw [List.mem_singleton.1 hx]
        exact ht.readParts hn
      · exact ht.readPairs hn
    · exact fun pom hpom => absurd hpom List.not_mem_nil

/-- Predicate-object maps come from parts of the node. -/
theorem readPredicateObjects (hn : S n) :
    ∀ pom ∈ (readPredicateObjects scope n place).value, pom.Every P := by
  unfold Shorthand.readPredicateObjects
  split
  · exact fun pom hpom => absurd hpom List.not_mem_nil
  · split
    · exact ht.readPairs hn
    · split
      · intro pom hpom
        obtain ⟨poms, hpoms, hmem⟩ := List.mem_flatten.1 hpom
        rw [Logged.value_each] at hpoms
        obtain ⟨x, hx, rfl⟩ := List.mem_map.1 hpoms
        obtain ⟨i, hi, rfl⟩ := List.mem_mapIdx.1 hx
        exact ht.readEntry (ht.item hn (List.getElem_mem hi)) pom hmem
      · exact fun pom hpom => absurd hpom List.not_mem_nil

theorem readSubject (hn : S n) :
    (readSubject scope n place).Gives (TermMap.Every P) := by
  unfold Shorthand.readSubject
  split
  · exact gives_refuse
  · split
    · exact gives_refuse
    · next subject heq =>
      exact (ht.readTerm _ (ht.item hn (by simp [heq])) _).gives.mono fun tm htm => htm.2
    · exact gives_refuse

/-- The parts of a mapping come from parts of its body. -/
theorem readMappingParts (hbody : S body) :
    (readMappingParts scope declared key body place).value.Every P := by
  have hpart {k : MappingKey} {m : Node}
      (hm : (readKeys mappingKeys body place).value.value? k = some m) : S m := ht.value? hbody hm
  have hlist {α : Type} {Q : α → Prop} {k : MappingKey} {read : Node → Noted (List α)}
      (h : ∀ n, S n → ∀ a ∈ (read n).value, Q a) :
      ∀ a ∈ (readMappingPart (readKeys mappingKeys body place).value k [] read).value, Q a := by
    unfold readMappingPart
    split
    · next hm => exact h _ (hpart hm)
    · exact fun a ha => absurd ha List.not_mem_nil
  have hmissing : TermMap.Every P {} :=
    TermMap.forall_nested.2 ⟨ht.missing, fun v hv => absurd hv.symm (Option.some_ne_none v)⟩
  -- a subject that could not be read is the missing one
  have hsubject {x : Reading TermMap} (hx : x.Gives (TermMap.Every P)) :
      (x.run.value.getD {}).Every P := by
    cases hvalue : x.run.value with
    | none => exact hmissing
    | some tm => exact hx tm hvalue
  refine forall_termMaps.2 ⟨hsubject ?_, hlist fun n hn => ht.readGraphs hn,
    hlist fun n hn => ht.readPredicateObjects hn⟩
  split
  · next hm => exact ht.readSubject (hpart hm)
  · exact gives_refuse

/-- A mapping comes from parts of its body. -/
theorem readMapping (hbody : S body) :
    (readMapping scope declared key body place).Gives (TriplesMap.Every P) := by
  unfold Shorthand.readMapping
  split
  · exact gives_refuse
  · split
    · intro tm htm
      change (if _ then _ else _) = _ at htm
      split at htm
      · cases htm
        exact ht.readMappingParts hbody
      · cases htm
    · exact gives_refuse

end Traces

/-! ## Documents that were read -/

/-- A document with the names of a scope, all of whose term maps have a property. -/
structure DocumentEvery (scope : Scope) (P : TermMap → Prop) (doc : Document) : Prop where
  base : doc.base = scope.base
  prefixes : doc.prefixes = some scope.table
  maps : ∀ tm ∈ doc.maps, tm.Every P

namespace Traces

variable {scope : Scope} {S : Node → Prop} {P : TermMap → Prop} (ht : Traces scope S P)
  {doc : Document}

include ht

/-- A mapping that is added comes from its entry. -/
theorem addMapping (h : DocumentEvery scope P doc)
    (declared : List NamedSource) {e : Entry} (he : S e.value) :
    DocumentEvery scope P (addMapping scope declared doc e).value := by
  unfold Shorthand.addMapping
  dsimp only
  split
  · exact h
  · split
    · exact h
    · rw [Logged.value_bind]
      split
      · exact h
      · next tm htm =>
        have hevery : tm.Every P := ht.readMapping he tm htm
        rw [value_enterMapping]
        obtain ⟨e, hrun, -⟩ | ⟨-, hrun, -⟩ := doc.insert_cases tm
        · rwa [hrun]
        · rw [hrun]
          refine ⟨h.base, h.prefixes, fun tm' htm' => ?_⟩
          rcases List.mem_append.1 htm' with hold | hnew
          · exact h.maps tm' hold
          · rw [List.mem_singleton.1 hnew]
            exact hevery

/-- Mappings that are added come from their entries. -/
theorem addMappings (h : DocumentEvery scope P doc)
    (declared : List NamedSource) {mappings : Option Node} (hn : ∀ n, mappings = some n → S n) :
    DocumentEvery scope P (addMappings scope declared doc mappings).value := by
  have hfold (es : List Entry) (hes : ∀ e ∈ es, S e.value) : ∀ {doc : Document},
      DocumentEvery scope P doc →
        DocumentEvery scope P (es.foldlM (Shorthand.addMapping scope declared) doc).value := by
    induction es with
    | nil => exact fun h => h
    | cons e rest ih =>
      intro doc h
      rw [List.forall_mem_cons] at hes
      rw [List.foldlM_cons, Logged.value_bind]
      exact ih hes.2 (ht.addMapping h declared hes.1)
  unfold Shorthand.addMappings
  split
  · exact h
  · next m =>
    split
    · exact h
    · split
      · exact hfold _ (fun e he => ht.value (hn m rfl) he) h
      · exact h

end Traces

/-- The base that is read is the one given, or an absolute one. -/
theorem of_readBase (base : String) (n : Option Node) :
    (readBase base n).value = base ∨ Iri.isAbsolute (readBase base n).value = true := by
  unfold readBase
  split
  · exact .inl rfl
  · split
    · exact .inl rfl
    · rw [Logged.value_bind]
      split
      · exact .inl rfl
      · split
        · next habsolute => exact .inr habsolute
        · exact .inl rfl

/-- What a document takes from the settings and its term maps. -/
structure ReadWith (settings : Settings) (body : Option Node) (doc : Document) : Prop where
  base : doc.base = (if settings.base = "" then defaultBase else settings.base) ∨
    Iri.isAbsolute doc.base = true
  maps : ∀ {S : Node → Prop} {P : TermMap → Prop}, Traces ⟨doc.table, doc.base⟩ S P →
    (∀ n, body = some n → S n) → ∀ tm ∈ doc.maps, tm.Every P

/-- Mappings are added, in the scope that a document declares, to a new document. -/
theorem readWith_addMappings {settings : Settings} {body : Option Node} {keys : Keyed DocumentKey}
    (declared : List NamedSource) (dialect : Dialect)
    (hbase : scope.base = (readBase (if settings.base = "" then defaultBase else settings.base)
      (keys.value? .base)).value)
    (hkeys : ∀ {k n}, keys.value? k = some n →
      ∃ m, body = some m ∧ (readKeys documentKeys m {}).value.value? k = some n) :
    ReadWith settings body (addMappings scope declared
      { Document.create scope.base (some scope.table) with dialect }
      (keys.value? .mappings)).value := by
  have hread := of_readBase (if settings.base = "" then defaultBase else settings.base)
    (keys.value? .base)
  rw [← hbase] at hread
  have hne : scope.base ≠ "" := by
    intro hempty
    rw [hempty] at hread
    rcases hread with hgiven | habsolute
    · split at hgiven
      · exact absurd hgiven (by decide)
      · next hsettings => exact hsettings hgiven.symm
    · exact absurd habsolute (by decide)
  have hadded {S : Node → Prop} {P : TermMap → Prop} (ht : Traces scope S P)
      (hbody : ∀ n, body = some n → S n) :
      DocumentEvery scope P (addMappings scope declared
        { Document.create scope.base (some scope.table) with dialect }
        (keys.value? .mappings)).value := by
    refine ht.addMappings ⟨if_neg hne, rfl, fun tm htm => absurd htm List.not_mem_nil⟩ declared
      fun n hn => ?_
    obtain ⟨m, hm, hvalue⟩ := hkeys hn
    exact ht.value? (hbody m hm) hvalue
  generalize (addMappings scope declared _ (keys.value? .mappings)).value = doc at hadded ⊢
  -- the names are those of the scope whatever holds of the term maps
  obtain ⟨hdocbase, hprefixes, -⟩ := hadded (S := fun _ => True) (P := fun _ => True)
    (traces_trivial scope) fun _ _ => trivial
  have hdoctable : doc.table = scope.table := congrArg (·.getD PrefixTable.empty) hprefixes
  refine ⟨?_, fun ht hbody => ?_⟩
  · rw [hdocbase]
    exact hread
  · rw [hdocbase, hdoctable] at ht
    exact (hadded ht hbody).maps

theorem readWith_readDocument (settings : Settings) (body : Option Node) :
    ReadWith settings body (readDocument settings body).value.document := by
  cases body with
  | none =>
    refine readWith_addMappings [] _ ?_ fun h => absurd h.symm (Option.some_ne_none _)
    rfl
  | some m =>
    refine readWith_addMappings _ _ ?_ fun h => ⟨m, rfl, h⟩
    rfl

/-- **What holds of drafts holds of all term maps of a document that was read.** -/
theorem readWith_of_parse (h : parse settings root = .ok parsed) :
    ReadWith settings (root.bind Node.body?) parsed.document := by
  obtain ⟨-, -, heq⟩ := of_parseBody (parseBody_of_parse h)
  obtain ⟨hbase, hmaps⟩ := readWith_readDocument settings (root.bind Node.body?)
  rw [heq]
  exact ⟨hbase, hmaps⟩

/-- What holds of a document that was read with no settings. -/
structure WellRead (doc : Document) : Prop where
  base : Iri.isAbsolute doc.base = true
  maps : ∀ tm ∈ doc.maps, tm.Every TermMap.TagsPlaced

/-- **A document that was read has an absolute base and placed tags.** -/
theorem wellRead_of_parse (h : parse {} root = .ok parsed) : WellRead parsed.document := by
  obtain ⟨hbase, hmaps⟩ := readWith_of_parse h
  have hdefault : Iri.isAbsolute defaultBase = true := by decide +kernel
  refine ⟨hbase.elim (fun heq => heq ▸ hdefault) id,
    hmaps (S := fun _ => True) ?_ fun _ _ => trivial⟩
  refine ⟨fun _ _ => trivial, fun _ _ => trivial, fun _ _ => trivial, fun term hterm => ?_,
    fun _ _ hcomplete => tagsPlaced_of_complete hcomplete⟩
  cases hterm

end RdfMapping.Shorthand
