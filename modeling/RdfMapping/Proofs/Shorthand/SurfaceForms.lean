/-
# Ways to write the same

A predicate and its objects are written inline, as a list or with their parts named; a scalar stands
for itself or under a key; a join condition names two fields or calls `equal`.  The readers of these
forms agree.
-/
import RdfMapping.Proofs.Mapping.Sameness
import RdfMapping.Proofs.Shorthand.Contents
import RdfMapping.Proofs.Shorthand.Places

namespace RdfMapping

variable {n m : Node} {text : String}

/-! ## Attempts that fail -/

namespace Attempt

variable {ν α β γ δ : Type}

/-- There is no value, and there is a note that says why. -/
structure Fails (x : Attempt ν α) : Prop where
  value : x.run.value = none
  notes : x.run.notes ≠ []

theorem Fails.bind {x : Attempt ν α} (h : x.Fails) (f : α → Attempt ν β) : (x >>= f).Fails := by
  refine ⟨?_, ?_⟩
  · rw [value_bind, h.value]
    rfl
  · rw [notes_bind]
    exact List.append_ne_nil_of_left_ne_nil h.notes _

theorem Fails.both_left {x : Attempt ν α} (h : x.Fails) (y : Attempt ν β) :
    (Attempt.both x y).Fails := by
  refine ⟨?_, List.append_ne_nil_of_left_ne_nil h.notes _⟩
  show (x.run.value.bind fun a => y.run.value.bind fun b => some (a, b)) = none
  rw [h.value]
  rfl

theorem Fails.both_right (x : Attempt ν α) {y : Attempt ν β} (h : y.Fails) :
    (Attempt.both x y).Fails := by
  refine ⟨?_, ?_⟩
  · show (x.run.value.bind fun a => y.run.value.bind fun b => some (a, b)) = none
    rw [h.value]
    cases x.run.value <;> rfl
  · show x.run.notes ++ (y.run.notes ++ []) ≠ []
    rw [List.append_nil]
    exact List.append_ne_nil_of_right_ne_nil _ h.notes

theorem Fails.agree {x : Attempt ν α} {y : Attempt ν β} (hx : x.Fails) (hy : y.Fails)
    {R : α → β → Prop} : Agree R x y := by
  refine ⟨?_, iff_of_false hx.notes hy.notes⟩
  rw [hx.value, hy.value]
  exact .none

end Attempt

namespace Shorthand

open Mapping
open Yaml (Node Entry)

/-! ## Nodes as they are read -/

/-- A sequence of nodes, aliases followed. -/
def IsListOf (n : Node) (ns : List Node) : Prop :=
  n.isSequence = true ∧ n.items = ns

/-- A mapping with the texts of its keys and with its values, aliases followed. -/
def IsMappingOf (n : Node) (parts : List (String × Node)) : Prop :=
  n.isMapping = true ∧ (n.entries.map fun e => (e.key.text, e.value)) = parts

/-- A scalar with a text that is not null, aliases followed. -/
def IsText (n : Node) (text : String) : Prop :=
  n.isNull = false ∧ n.isScalar = true ∧ n.target.text = text

theorem of_isMapping (h : n.isMapping = true) :
    n.isNull = false ∧ n.isScalar = false ∧ n.isSequence = false := by
  unfold Node.isMapping at h
  unfold Node.isNull Node.isScalar Node.isSequence
  split at h
  · next htarget => exact ⟨by rw [htarget], by rw [htarget], by rw [htarget]⟩
  · cases h

theorem of_isSequence (h : n.isSequence = true) :
    n.isNull = false ∧ n.isMapping = false := by
  unfold Node.isSequence at h
  unfold Node.isNull Node.isMapping
  split at h
  · next htarget => exact ⟨by rw [htarget], by rw [htarget]⟩
  · cases h

theorem items_of_isScalar (h : n.isScalar = true) (htarget : n.target = n) :
    n.items = [n] := by
  unfold Node.isScalar at h
  unfold Node.items
  split at h
  · next hscalar =>
    rw [hscalar]
    show [_] = [n]
    rw [← htarget, hscalar]
  · cases h

theorem IsMappingOf.entries_one {v : Node} (h : IsMappingOf n [(text, v)]) :
    ∃ key, n.entries = [⟨key, v⟩] ∧ key.text = text := by
  obtain ⟨e, rest, hentries, he, hrest⟩ := List.map_eq_cons_iff.1 h.2
  obtain ⟨rfl, rfl⟩ := Prod.mk.inj he
  rw [List.map_eq_nil_iff.1 hrest] at hentries
  obtain ⟨key, value⟩ := e
  exact ⟨key, hentries, rfl⟩

theorem IsMappingOf.entries_two {text' : String} {v v' : Node}
    (h : IsMappingOf n [(text, v), (text', v')]) :
    ∃ key key', n.entries = [⟨key, v⟩, ⟨key', v'⟩] ∧ key.text = text ∧ key'.text = text' := by
  obtain ⟨e, rest, hentries, he, hrest⟩ := List.map_eq_cons_iff.1 h.2
  obtain ⟨f, rest, rfl, hf, hnil⟩ := List.map_eq_cons_iff.1 hrest
  obtain ⟨rfl, rfl⟩ := Prod.mk.inj he
  obtain ⟨rfl, rfl⟩ := Prod.mk.inj hf
  rw [List.map_eq_nil_iff.1 hnil] at hentries
  obtain ⟨key, value⟩ := e
  obtain ⟨key', value'⟩ := f
  exact ⟨key, key', hentries, rfl, rfl⟩

/-- Entries with known keys, each of which is there once, are read by key. -/
theorem readKeys_of_entries {κ : Type} [BEq κ] [LawfulBEq κ] {ring : Keyring κ} {keys : Keyed κ}
    (hentries : n.entries = keys.map Prod.snd) (hfind : ∀ p ∈ keys, ring.find? p.2 = some p.1)
    (hnodup : (keys.map Prod.fst).Nodup) (place : Place) : readKeys ring n place = pure keys :=
  collectKeys_eq_pure_iff.2 ⟨keys, rfl, hentries.symm, hfind, hnodup, fun _ _ => rfl⟩

section Keys

variable {κ : Type} [BEq κ] [LawfulBEq κ] {ring : Keyring κ} {n v v' : Node}
  {text text' : String} {k k' : κ}

theorem IsMappingOf.readKeys_one (h : IsMappingOf n [(text, v)])
    (hk : ring.spellings.lookup (Text.lower text) = some k) :
    ∃ key, ∀ place, readKeys ring n place = pure [(k, ⟨key, v⟩)] := by
  obtain ⟨key, hentries, rfl⟩ := h.entries_one
  have hfind : ring.find? ⟨key, v⟩ = some k := hk
  exact ⟨key, readKeys_of_entries hentries (by simp [hfind]) (by simp)⟩

/-- A mapping with two keys that mean different things is read by key. -/
theorem IsMappingOf.readKeys_two (h : IsMappingOf n [(text, v), (text', v')])
    (hk : ring.spellings.lookup (Text.lower text) = some k)
    (hk' : ring.spellings.lookup (Text.lower text') = some k') (hne : k ≠ k') :
    ∃ key key', n.entries = [⟨key, v⟩, ⟨key', v'⟩] ∧ ring.find? ⟨key, v⟩ = some k ∧
      ∀ place, readKeys ring n place = pure [(k, ⟨key, v⟩), (k', ⟨key', v'⟩)] := by
  obtain ⟨key, key', hentries, rfl, rfl⟩ := h.entries_two
  have hfind : ring.find? ⟨key, v⟩ = some k := hk
  have hfind' : ring.find? ⟨key', v'⟩ = some k' := hk'
  exact ⟨key, key', hentries, hfind,
    readKeys_of_entries hentries (by simp [hfind, hfind']) (by simp [hne])⟩

end Keys

theorem readScalar_of_isText (h : IsText n text) (place : Place) :
    readScalar (some n) place = pure text := by
  unfold readScalar
  dsimp only
  rw [h.1, h.2.1, h.2.2]
  rfl

theorem fails_refuse {α : Type} (problem : Problem) (n : Option Node) (place : Place) :
    (refuse problem n place : Reading α).Fails :=
  ⟨rfl, List.cons_ne_nil _ _⟩

/-- A scalar that is null cannot be read. -/
theorem fails_readScalar (h : n.isNull = true) (place : Place) :
    (readScalar (some n) place).Fails := by
  unfold readScalar
  dsimp only
  rw [h]
  exact fails_refuse _ _ _

/-- A scalar is null or a text. -/
theorem isNull_or_isText (h : n.isScalar = true) :
    n.isNull = true ∨ IsText n n.target.text := by
  cases hnull : n.isNull with
  | true => exact .inl rfl
  | false => exact .inr ⟨hnull, h, rfl⟩

/-! ## A predicate with its objects -/

section Pairs

variable {scope : Scope} {n p o : Node} {place : Place}

/-- Reads predicates at one place and their objects at another. -/
def readParted (scope : Scope) (first second : Place) (span : Span) (p o : Node) :
    Reading PredicateObjectMap := do
  let predicates ← readPredicates scope p.items first
  let objects ← readObjects scope predicates {} o.items second
  return { span, predicates, objects }

/-- The places and the position do not count. -/
theorem agree_readParted (scope : Scope) (first second first' second' : Place)
    (span span' : Span) (p o : Node) :
    Attempt.Agree (fun a b => a.same b = true) (readParted scope first second span p o)
      (readParted scope first' second' span' p o) := by
  unfold readParted
  refine (agree_readPredicates (.refl scope) _).bind_eq fun predicates => ?_
  refine (agree_readObjects (.refl scope) _ _ _).bind_eq fun objects => ?_
  apply Attempt.Agree.pure
  simp [PredicateObjectMap.same, TermMap.sameAll_refl]

/-- What a node is read as if it is a predicate with objects. -/
def ReadsParted (scope : Scope) (n p o : Node) : Prop :=
  ∀ place, ∃ first second span,
    readPredicateObjects scope n place = Logged.those [readParted scope first second span p o]

/-- A predicate with its objects, inline. -/
theorem readsParted_inline (hp : p.isScalar = true) (hn : n.isMapping = true)
    (hentries : n.entries = [⟨p, o⟩]) : ReadsParted scope n p o := by
  intro place
  have hplain := (plain_entries (hentries ▸ List.mem_singleton_self _ : ⟨p, o⟩ ∈ n.entries)).1
  have hpair (place : Place) :
      readPair scope ⟨p, o⟩ place = readParted scope place place p.span p o := by
    unfold readParted
    rw [items_of_isScalar hp hplain]
    rfl
  refine ⟨place.sub p.text, place.sub p.text, p.span, ?_⟩
  unfold readPredicateObjects readPairs
  rw [(of_isMapping hn).1, hn, hentries, List.map_singleton, hpair]
  rfl

/-- A sequence with one entry is read as the entry. -/
theorem readPredicateObjects_singleton (h : IsListOf n [m]) (place : Place) :
    readPredicateObjects scope n place = readEntry scope m (place.item 0) := by
  unfold readPredicateObjects
  rw [(of_isSequence h.1).1, (of_isSequence h.1).2, h.1, h.2]
  show (Logged.each [readEntry scope m (place.item 0)] >>= fun es => pure es.flatten) = _
  obtain ⟨poms, notes⟩ := readEntry scope m (place.item 0)
  simp [Logged.each, bind, pure]

theorem readsParted_list {pair : Node} (hn : IsListOf n [pair]) (hpair : IsListOf pair [p, o]) :
    ReadsParted scope n p o := by
  intro place
  let here := place.item 0
  have hlist : readList scope pair here =
      readParted scope (here.item 0) (here.item 1) pair.span p o := by
    unfold readList
    rw [hpair.2]
    rfl
  refine ⟨here.item 0, here.item 1, pair.span, ?_⟩
  rw [readPredicateObjects_singleton hn, readEntry, if_pos hpair.1, hlist]

/-- A predicate with its objects, with named parts. -/
theorem readsParted_named {parts : Node} (hn : IsListOf n [parts])
    (hparts : IsMappingOf parts [("p", p), ("o", o)]) : ReadsParted scope n p o := by
  intro place
  let here := place.item 0
  have hpredicates : entryKeys.spellings.lookup (Text.lower "p") = some .predicates := by
    decide +kernel
  have hobjects : entryKeys.spellings.lookup (Text.lower "o") = some .objects := by
    decide +kernel
  obtain ⟨key, key', hentries, hfind, hkeys⟩ :=
    hparts.readKeys_two hpredicates hobjects (by decide)
  have hnamed : readParts scope parts here =
      readParted scope (here.sub "p") (here.sub "o") parts.span p o := by
    unfold readParts
    rw [hkeys]
    rfl
  have hnames : namesParts parts = true := by
    rw [namesParts, hentries, List.any_cons, hfind]
    rfl
  refine ⟨here.sub "p", here.sub "o", parts.span, ?_⟩
  rw [readPredicateObjects_singleton hn, readEntry, (of_isMapping hparts.1).2.2,
    if_neg Bool.false_ne_true, if_pos hparts.1, if_pos hnames, hnamed]

/-- **The forms of a predicate with its objects mean the same.** -/
theorem ReadsParted.agree (hn : ReadsParted scope n p o) (hm : ReadsParted scope m p o)
    (place place' : Place) :
    Logged.Agree (fun a b => PredicateObjectMap.sameAll a b = true)
      (readPredicateObjects scope n place) (readPredicateObjects scope m place') := by
  obtain ⟨first, second, span, hread⟩ := hn place
  obtain ⟨first', second', span', hread'⟩ := hm place'
  rw [hread, hread']
  have hagree := agree_readParted scope first second first' second' span span' p o
  exact (Logged.Agree.those (.cons hagree .nil)).mono fun _ _ h =>
    PredicateObjectMap.sameAll_iff_forall₂.2 h

end Pairs

/-! ## A scalar under the key of values -/

section Values

variable {scope : Scope} {site : Site} {s n : Node}

/-- The draft of a scalar has a value and a stated kind and nothing else. -/
theorem draftScalar_eq_ok {d : Draft} (h : draftScalar text = .ok d) :
    d = { value := d.value, stated := d.stated } := by
  unfold draftScalar at h
  dsimp only at h
  split at h
  · cases h
    rfl
  · cases h

/-- Completing a constant keeps its position. -/
theorem completeConstant_withSpan (scope : Scope) (site : Site) (stated : Option TermType)
    (tm : TermMap) (text : String) (span : Span) :
    scope.completeConstant site stated { tm with span } text =
      (scope.completeConstant site stated tm text).map fun tm => { tm with span } := by
  have htag : ({ tm with span } : TermMap).isTagged = tm.isTagged := rfl
  unfold Scope.completeConstant
  rw [htag]
  dsimp only
  cases scope.constantValue site (constantKind site stated tm.isTagged) text with
  | error problem => rfl
  | ok value =>
    show (ite _ _ _ : Except Problem TermMap) = Except.map _ (ite _ _ _)
    split
    · rfl
    · split
      · rfl
      · rfl

/-- Completing a template keeps its position. -/
theorem completeTemplate_withSpan (scope : Scope) (site : Site) (stated : Option TermType)
    (tm : TermMap) (pattern : String) (span : Span) :
    scope.completeTemplate site stated { tm with span } pattern =
      (scope.completeTemplate site stated tm pattern).map fun tm => { tm with span } := by
  have htype : impliedTermType site { tm with span } = impliedTermType site tm := rfl
  unfold Scope.completeTemplate
  rw [htype]
  dsimp only
  split
  · split
    · rfl
    · rfl
  · rfl

/-- The position of a draft is that of its term map. -/
theorem complete_withSpan (scope : Scope) (site : Site) (d : Draft) (span : Span) :
    scope.complete site { d with span } =
      (scope.complete site d).map fun tm => { tm with span } := by
  have hvalue (datatype : String) : scope.completeValue site { d with span } datatype =
      (scope.completeValue site d datatype).map fun tm => { tm with span } := by
    obtain ⟨value, stated, _, language, old⟩ := d
    let tm : TermMap := { value := some value, datatype, language, span := old }
    cases value with
    | constant term => exact completeConstant_withSpan scope site stated tm term.value span
    | template pattern => exact completeTemplate_withSpan scope site stated tm pattern span
    | reference name => rfl
    | function iri parameters => rfl
    | join parent conditions => rfl
  unfold Scope.complete
  cases scope.resolveOptional d.datatype with
  | error problem => rfl
  | ok datatype => exact hvalue datatype

/-- A mapping with a value is read as a draft of the value. -/
theorem readDraft_value (scope : Scope) (site : Site) (h : IsMappingOf n [("value", s)])
    (place : Place) :
    ∃ key, readDraft scope site n place =
      readValue scope site n place [(.value, ⟨key, s⟩)]
          (fun m _ => readTerm scope { position := .parameter } m) .value >>= fun p =>
        pure { value := p.1, stated := p.2, span := n.span } := by
  have hvalue : termKeys.spellings.lookup (Text.lower "value") = some .value := by decide +kernel
  obtain ⟨key, hkeys⟩ := h.readKeys_one hvalue
  obtain ⟨hnull, hscalar, -⟩ := of_isMapping h.1
  refine ⟨key, ?_⟩
  rw [readDraft, draftNode, hnull, hscalar, h.1, if_neg Bool.false_ne_true,
    if_neg Bool.false_ne_true, if_pos rfl, draftParts_eq, hkeys]
  rfl

/-- The drafts of a scalar and of its mapping differ in position. -/
theorem agree_readDraft_value (hs : s.isScalar = true) (h : IsMappingOf n [("value", s)])
    (place place' : Place) :
    Attempt.Agree (fun d d' => d' = { d with span := n.span }) (readDraft scope site s place)
      (readDraft scope site n place') := by
  obtain ⟨key, hdraft⟩ := readDraft_value scope site h place'
  rw [hdraft, readDraft, draftNode]
  unfold readValue readTermPart
  show Attempt.Agree _ _ ((readScalar (some s) (place'.sub "value") >>= _) >>= _)
  rcases isNull_or_isText hs with hnull | htext
  · -- a null is no term, and no text either
    rw [if_pos hnull]
    exact (fails_refuse _ _ _).agree (((fails_readScalar hnull _).bind _).bind _)
  · obtain ⟨e, hentries, -⟩ := h.entries_one
    have hplain : s.target = s :=
      (plain_entries (hentries ▸ List.mem_singleton_self _ : ⟨e, s⟩ ∈ n.entries)).2
    rw [htext.1, if_neg Bool.false_ne_true, if_pos hs, readScalar_of_isText htext, pure_bind,
      hplain]
    cases hscalar : draftScalar s.text with
    | ok d =>
      apply Attempt.Agree.pure
      rw [draftScalar_eq_ok hscalar]
    | error problem =>
      exact (fails_refuse _ _ _).agree ((fails_refuse _ _ _).bind _)

/-- **A scalar means the same under the key of values.** -/
theorem agree_readTerm_value (hs : s.isScalar = true) (h : IsMappingOf n [("value", s)])
    (place place' : Place) :
    Attempt.Agree (fun a b => a.same b = true) (readTerm scope site s place)
      (readTerm scope site n place') := by
  rw [readTerm_eq, readTerm_eq]
  refine (agree_readDraft_value hs h place place').bind ?_
  rintro d _ rfl
  have hcomplete := complete_withSpan scope site d n.span
  unfold readCompletion
  rw [hcomplete]
  cases scope.complete site d with
  | ok tm => exact .pure (TermMap.same_withSpan tm n.span)
  | error problem => exact agree_refuse

end Values

/-! ## A join condition as a call -/

section Conditions

variable {c q n : Node}

/-- Reads the texts of two fields and takes what they name. -/
def readFields (c q : Node) (first second : Place) : Reading JoinCondition :=
  Attempt.both (readScalar (some c) first) (readScalar (some q) second) >>= fun p =>
    pure ⟨referenceName p.1, referenceName p.2⟩

theorem readCondition_fields (h : IsMappingOf n [("child", c), ("parent", q)]) (place : Place) :
    readCondition n place = readFields c q (place.sub "child") (place.sub "parent") := by
  have hchild : conditionKeys.spellings.lookup (Text.lower "child") = some .child := by
    decide +kernel
  have hparent : conditionKeys.spellings.lookup (Text.lower "parent") = some .parent := by
    decide +kernel
  obtain ⟨key, key', -, -, hkeys⟩ := h.readKeys_two hchild hparent (by decide)
  unfold readCondition
  rw [h.1, hkeys]
  rfl

/-- A call of `equal` with a field of the child and one of the parent. -/
def IsEqualCall (n c q : Node) : Prop :=
  ∃ function parameters first second name name',
    IsMappingOf n [("function", function), ("parameters", parameters)] ∧
    IsText function "equal" ∧ IsListOf parameters [first, second] ∧
    IsListOf first [name, c] ∧ IsText name "str1" ∧
    IsListOf second [name', q] ∧ IsText name' "str2"

/-- The parameters of a call, each of which is a list of a name and a value. -/
theorem readParameters_two {parameters first second name name' : Node}
    (h : IsListOf parameters [first, second]) (hfirst : IsListOf first [name, c])
    (hsecond : IsListOf second [name', q]) (place : Place) :
    readParameters (some parameters) place = pure [⟨name, c⟩, ⟨name', q⟩] := by
  have hread {item name value : Node} (hitem : IsListOf item [name, value]) (here : Place) :
      readParameter item here = pure ⟨name, value⟩ := by
    unfold readParameter
    rw [hitem.1, hitem.2]
    rfl
  unfold readParameters
  dsimp only
  rw [(of_isSequence h.1).1, (of_isSequence h.1).2, h.1, h.2]
  show Logged.those [readParameter first _, readParameter second _] = _
  rw [hread hfirst, hread hsecond]
  rfl

/-- A call is read by its operands. -/
theorem IsEqualCall.readCondition (h : IsEqualCall n c q) (place : Place) :
    ∃ name name', IsText name "str1" ∧ IsText name' "str2" ∧
      readCondition n place = readOperands place {} [⟨name, c⟩, ⟨name', q⟩] >>= fun condition =>
        if condition.child = "" || condition.parent = "" then
          refuse .incompleteEqual (some n) place
        else pure condition := by
  obtain ⟨function, parameters, first, second, name, name', hn, hfunction, hparameters, hfirst,
    hname, hsecond, hname'⟩ := h
  have hfind : conditionKeys.spellings.lookup (Text.lower "function") = some .function := by
    decide +kernel
  have hfind' : conditionKeys.spellings.lookup (Text.lower "parameters") = some .parameters := by
    decide +kernel
  obtain ⟨key, key', -, -, hkeys⟩ := hn.readKeys_two hfind hfind' (by decide)
  have hequal : (!Text.endsWith "equal" (Text.lower "equal")) = false := by decide +kernel
  refine ⟨name, name', hname, hname', ?_⟩
  unfold Shorthand.readCondition
  rw [hn.1, hkeys]
  show readEqual n _ place = _
  unfold readEqual
  show (readScalar (some function) _ >>= _) = _
  rw [readScalar_of_isText hfunction, pure_bind, hequal, if_neg Bool.false_ne_true]
  show (liftM (readParameters (some parameters) place) >>= _) = _
  rw [readParameters_two hparameters hfirst hsecond]
  rfl

section Operands

variable {name : Node} {condition : JoinCondition} {rest : List Entry} {text : String}

theorem readOperands_child (hname : IsText name "str1") (hc : IsText c text) (place : Place) :
    readOperands place condition (⟨name, c⟩ :: rest) =
      readOperands place { condition with child := referenceName text } rest := by
  rw [readOperands, readScalar_of_isText hname, readScalar_of_isText hc]
  rfl

theorem readOperands_parent (hname : IsText name "str2") (hq : IsText q text) (place : Place) :
    readOperands place condition (⟨name, q⟩ :: rest) =
      readOperands place { condition with parent := referenceName text } rest := by
  rw [readOperands, readScalar_of_isText hname, readScalar_of_isText hq]
  rfl

theorem fails_readOperands {e : Entry} (h : e.value.isNull = true) (place : Place) :
    (readOperands place condition (e :: rest)).Fails := by
  rw [readOperands]
  exact (Attempt.Fails.both_right _ (fails_readScalar h _)).bind _

end Operands

/-- **Two fields that have names mean the same as operands of `equal`.** -/
theorem agree_readCondition_call (hc : c.isScalar = true) (hq : q.isScalar = true)
    (hchild : referenceName c.target.text ≠ "") (hparent : referenceName q.target.text ≠ "")
    (hn : IsMappingOf n [("child", c), ("parent", q)]) (hm : IsEqualCall m c q)
    (place place' : Place) :
    Attempt.Agree Eq (readCondition n place) (readCondition m place') := by
  obtain ⟨name, name', hname, hname', hcall⟩ := hm.readCondition place'
  rw [readCondition_fields hn, readFields, hcall]
  rcases isNull_or_isText hc with hnull | hctext
  · exact (((fails_readScalar hnull _).both_left _).bind _).agree
      ((fails_readOperands hnull _).bind _)
  · rw [readOperands_child hname hctext]
    rcases isNull_or_isText hq with hnull | hqtext
    · exact ((Attempt.Fails.both_right _ (fails_readScalar hnull _)).bind _).agree
        ((fails_readOperands hnull _).bind _)
    · have hcomplete : (decide (referenceName c.target.text = "") ||
          decide (referenceName q.target.text = "")) = false := by
        simp [hchild, hparent]
      rw [readScalar_of_isText hctext, readScalar_of_isText hqtext,
        readOperands_parent hname' hqtext, readOperands, pure_bind, hcomplete,
        if_neg Bool.false_ne_true]
      exact .pure rfl

end Conditions

/-! ## All forms -/

/-- **The forms in which the same can be written mean the same.**  A predicate with its objects is
read alike inline, as a list and with its parts named, a scalar by itself and under the key of
values, and a join condition with two named fields and as a call of `equal`: the results are equal
apart from positions, and where one form cannot be read the others cannot be read either. -/
theorem agree_surfaceForms (scope : Scope) :
    (∀ p o inline listed pair named parts : Node, p.isScalar = true →
      inline.isMapping = true → inline.entries = [⟨p, o⟩] →
      IsListOf listed [pair] → IsListOf pair [p, o] →
      IsListOf named [parts] → IsMappingOf parts [("p", p), ("o", o)] →
      ∀ n ∈ [inline, listed, named], ∀ m ∈ [inline, listed, named], ∀ place place',
        Logged.Agree (fun a b => PredicateObjectMap.sameAll a b = true)
          (readPredicateObjects scope n place) (readPredicateObjects scope m place')) ∧
    (∀ s n : Node, s.isScalar = true → IsMappingOf n [("value", s)] → ∀ site place place',
      Attempt.Agree (fun a b => a.same b = true) (readTerm scope site s place)
        (readTerm scope site n place')) ∧
    ∀ c q n m : Node, c.isScalar = true → q.isScalar = true →
      referenceName c.target.text ≠ "" → referenceName q.target.text ≠ "" →
      IsMappingOf n [("child", c), ("parent", q)] → IsEqualCall m c q → ∀ place place',
        Attempt.Agree Eq (readCondition n place) (readCondition m place') := by
  refine ⟨?_, ?_, ?_⟩
  · intro p o inline listed pair named parts hp hinline hentries hlisted hpair hnamed hparts
    have hforms : ∀ n ∈ [inline, listed, named], ReadsParted scope n p o := by
      simp only [List.forall_mem_cons, List.not_mem_nil, false_imp_iff, implies_true, and_true]
      exact ⟨readsParted_inline hp hinline hentries, readsParted_list hlisted hpair,
        readsParted_named hnamed hparts⟩
    intro n hn m hm place place'
    exact (hforms n hn).agree (hforms m hm) place place'
  · intro s n hs hn site place place'
    exact agree_readTerm_value hs hn place place'
  · intro c q n m hc hq hchild hparent hn hm place place'
    exact agree_readCondition_call hc hq hchild hparent hn hm place place'

/-- What names mean in the following example. -/
def exampleScope : Scope :=
  ⟨.ofList [("foaf", "http://xmlns.com/foaf/0.1/")], "http://ex.org/"⟩

/-- Two references, the objects of the following example. -/
def exampleObjects : Node :=
  .flowList [.ofText "$(first)", .ofText "$(last)"]

/-- A predicate with two objects in three forms. -/
theorem agree_surfaceForms_foaf :
    (readPredicateObjects exampleScope (.ofEntries [⟨.ofText "foaf:name", exampleObjects⟩])
      {}).notes = [] ∧
    Logged.Agree (fun a b => PredicateObjectMap.sameAll a b = true)
      (readPredicateObjects exampleScope (.ofEntries [⟨.ofText "foaf:name", exampleObjects⟩]) {})
      (readPredicateObjects exampleScope (.blockList [.ofEntries
        [⟨.ofText "p", .ofText "foaf:name"⟩, ⟨.ofText "o", exampleObjects⟩]]) {}) ∧
    Attempt.Agree (fun a b => a.same b = true)
      (readTerm exampleScope { position := .object } (.ofText "foaf:Person~iri") {})
      (readTerm exampleScope { position := .object }
        (.ofEntries [⟨.ofText "value", .ofText "foaf:Person~iri"⟩]) {}) ∧
    Attempt.Agree Eq
      (readCondition (.ofEntries [⟨.ofText "child", .ofText "$(dept)"⟩,
        ⟨.ofText "parent", .ofText "id"⟩]) {})
      (readCondition (.ofEntries [⟨.ofText "function", .ofText "equal"⟩,
        ⟨.ofText "parameters", .blockList [.flowList [.ofText "str1", .ofText "$(dept)"],
          .flowList [.ofText "str2", .ofText "id"]]⟩]) {}) := by
  obtain ⟨hpairs, hvalues, hconditions⟩ := agree_surfaceForms exampleScope
  have htext (text : String) : IsText (.ofText text) text := ⟨rfl, rfl, rfl⟩
  refine ⟨by decide +kernel, ?_, ?_, ?_⟩
  · let pair : Node := .flowList [.ofText "foaf:name", exampleObjects]
    let parts : Node :=
      .ofEntries [⟨.ofText "p", .ofText "foaf:name"⟩, ⟨.ofText "o", exampleObjects⟩]
    let inline : Node := .ofEntries [⟨.ofText "foaf:name", exampleObjects⟩]
    refine hpairs (.ofText "foaf:name") exampleObjects inline (.blockList [pair]) pair
      (.blockList [parts]) parts rfl rfl rfl ⟨rfl, rfl⟩ ⟨rfl, rfl⟩ ⟨rfl, rfl⟩ ⟨rfl, rfl⟩ inline ?_
      (.blockList [parts]) ?_ {} {}
    · exact List.mem_cons_self ..
    · exact List.mem_cons_of_mem _ (List.mem_cons_of_mem _ (List.mem_cons_self ..))
  · exact hvalues _ _ rfl ⟨rfl, rfl⟩ _ {} {}
  · refine hconditions (.ofText "$(dept)") (.ofText "id") _ _ rfl rfl (by decide +kernel)
      (by decide +kernel) ⟨rfl, rfl⟩ ?_ {} {}
    exact ⟨_, _, _, _, _, _, ⟨rfl, rfl⟩, htext "equal", ⟨rfl, rfl⟩, ⟨rfl, rfl⟩, htext "str1",
      ⟨rfl, rfl⟩, htext "str2"⟩

end Shorthand

end RdfMapping
