/-
# Reading at another place

The place of a node is only there for messages.  What a node is read as depends on the node and on
what names mean, and names mean the same in two scopes with the same base and bindings.
-/
import RdfMapping.Proofs.Agreement
import RdfMapping.Proofs.Shorthand.Provenance

namespace RdfMapping.Shorthand

open Iri (PrefixTable)
open Mapping
open Yaml (Node Entry)

variable {ν α β : Type} {scope scope' : Scope} {place place' : Place} {problem problem' : Problem}
  {n n' : Option Node} {sub sub' : Node → Place → Reading TermMap} {xs ys : List (Attempt ν α)}

/-! ## Scopes -/

/-- Names mean the same in two scopes. -/
structure Scope.SameNames (scope scope' : Scope) : Prop where
  lookup? : ∀ label, scope.table.lookup? label = scope'.table.lookup? label
  base : scope.base = scope'.base

namespace Scope.SameNames

theorem refl (scope : Scope) : scope.SameNames scope :=
  ⟨fun _ => rfl, rfl⟩

variable (h : scope.SameNames scope')

include h

theorem resolveName (text : String) :
    scope.table.resolve scope.base text = scope'.table.resolve scope'.base text := by
  simp only [PrefixTable.resolve, h.lookup?, h.base]

theorem resolve (text : String) :
    scope.resolve text = scope'.resolve text := by
  rw [Scope.resolve, Scope.resolve, h.resolveName]

theorem resolveOptional (text : String) :
    scope.resolveOptional text = scope'.resolveOptional text := by
  rw [Scope.resolveOptional, Scope.resolveOptional, h.resolve]

theorem formulation? (name : String) :
    scope.formulation? name = scope'.formulation? name := by
  rw [Scope.formulation?, Scope.formulation?, h.resolve]

theorem resolveTemplate (pattern : String) :
    scope.table.resolveTemplate scope.base pattern =
      scope'.table.resolveTemplate scope'.base pattern := by
  simp only [PrefixTable.resolveTemplate, h.resolveName]

theorem completeConstant (site : Site) (stated : Option TermType) (tm : TermMap) (text : String) :
    scope.completeConstant site stated tm text = scope'.completeConstant site stated tm text := by
  have hvalue (kind : TermType) :
      scope.constantValue site kind text = scope'.constantValue site kind text := by
    cases kind with
    | iri => rw [Scope.constantValue, Scope.constantValue, h.resolve]
    | literal => rfl
    | blankNode => rfl
  rw [Scope.completeConstant, Scope.completeConstant, hvalue]

theorem completeTemplate (site : Site) (stated : Option TermType)
    (tm : TermMap) (pattern : String) :
    scope.completeTemplate site stated tm pattern =
      scope'.completeTemplate site stated tm pattern := by
  rw [Scope.completeTemplate, Scope.completeTemplate, h.resolveTemplate]

/-- Drafts are completed to the same term maps. -/
theorem complete (site : Site) (d : Draft) :
    scope.complete site d = scope'.complete site d := by
  have hvalue (datatype : String) :
      scope.completeValue site d datatype = scope'.completeValue site d datatype := by
    rw [Scope.completeValue, Scope.completeValue]
    simp only [h.completeConstant, h.completeTemplate]
  simp only [Scope.complete, h.resolveOptional, hvalue]

end Scope.SameNames

/-! ## Problems and texts -/

theorem agree_refuse {R : α → β → Prop} :
    Attempt.Agree R (refuse problem n place : Reading α) (refuse problem' n' place') :=
  .fail (List.cons_ne_nil _ _) (List.cons_ne_nil _ _)

theorem agree_note : Logged.Agree Eq (note problem n place) (note problem' n' place') :=
  ⟨rfl, iff_of_false (List.cons_ne_nil _ _) (List.cons_ne_nil _ _)⟩

theorem agree_flawless {x y : Noted α} (h : Logged.Agree Eq x y) :
    Attempt.Agree Eq (flawless x) (flawless y) := by
  refine ⟨?_, h.clean⟩
  have hempty : x.notes.isEmpty = y.notes.isEmpty := by
    rw [Bool.eq_iff_iff, List.isEmpty_iff, List.isEmpty_iff, h.clean]
  change Option.Rel Eq (if x.notes.isEmpty then some x.value else none)
    (if y.notes.isEmpty then some y.value else none)
  rw [hempty, h.value]
  split
  · exact .some rfl
  · exact .none

theorem agree_readScalar (n : Option Node) :
    Attempt.Agree Eq (readScalar n place) (readScalar n place') := by
  unfold readScalar
  split
  · exact agree_refuse
  · split
    · exact agree_refuse
    · split
      · exact .pure rfl
      · exact agree_refuse

theorem agree_readKeys {κ : Type} [BEq κ] (ring : Keyring κ) (n : Node) :
    Logged.Agree Eq (readKeys ring n place) (readKeys ring n place') := by
  refine ⟨value_readKeys ring n place place', ⟨fun h => ?_, fun h => ?_⟩⟩
  · exact (Logged.eq_pure_iff.1 (readKeys_eq_pure (Logged.eq_pure_iff.2 ⟨rfl, h⟩))).2
  · exact (Logged.eq_pure_iff.1 (readKeys_eq_pure (Logged.eq_pure_iff.2 ⟨rfl, h⟩))).2

/-! ## Lists of readings -/

theorem agree_those (h : List.Forall₂ (Attempt.Agree Eq) xs ys) :
    Logged.Agree Eq (Logged.those xs) (Logged.those ys) :=
  (Logged.Agree.those h).mono fun _ _ hs => List.forall₂_eq_eq_eq ▸ hs

theorem mapIdx_attach (f : Nat → α → β) (as : List α) :
    (as.attach.mapIdx fun i a => f i a.1) = as.mapIdx f := by
  apply List.ext_getElem
  · simp
  · intro i h h'
    simp

theorem agree_all (h : List.Forall₂ (Attempt.Agree Eq) xs ys) :
    Attempt.Agree Eq (Attempt.all xs) (Attempt.all ys) :=
  (Attempt.Agree.all h).mono fun _ _ hs => List.forall₂_eq_eq_eq ▸ hs

/-! ## Parameters and join conditions -/

/-- A parameter is read alike at every place. -/
theorem agree_readParameter (item : Node) :
    Attempt.Agree Eq (readParameter item place) (readParameter item place') := by
  unfold readParameter
  split
  · split
    · exact .pure rfl
    · exact agree_refuse
  · split
    · refine (Attempt.Agree.lift (agree_readKeys parameterKeys item)).bind_eq fun keys => ?_
      split
      · exact .pure rfl
      · exact agree_refuse
    · exact agree_refuse

theorem agree_readParameters (n : Option Node) :
    Logged.Agree Eq (readParameters n place) (readParameters n place') := by
  unfold readParameters
  split
  · exact .pure rfl
  · split
    · exact .pure rfl
    · split
      · exact .pure rfl
      · split
        · exact agree_those (forall₂_mapIdx_both fun i item _ => agree_readParameter item)
        · exact agree_note.bind_eq fun _ => .pure rfl

/-- Operands are read alike at every place. -/
theorem agree_readOperands (condition : JoinCondition) (es : List Entry) :
    Attempt.Agree Eq (readOperands place condition es) (readOperands place' condition es) := by
  induction es generalizing condition with
  | nil => exact .pure rfl
  | cons e rest ih =>
    unfold readOperands
    refine ((agree_readScalar (some e.key)).both (agree_readScalar (some e.value))).bind ?_
    rintro ⟨name, value⟩ ⟨_, _⟩ ⟨rfl, rfl⟩
    show Attempt.Agree Eq (ite _ _ _) (ite _ _ _)
    split
    · exact ih _
    · split
      · exact ih _
      · exact agree_refuse

theorem agree_readEqual (n : Node) (keys : Keyed ConditionKey) :
    Attempt.Agree Eq (readEqual n keys place) (readEqual n keys place') := by
  unfold readEqual
  refine (agree_readScalar _).bind_eq fun name => ?_
  split
  · exact agree_refuse
  · refine (Attempt.Agree.lift (agree_readParameters _)).bind_eq fun operands => ?_
    refine (agree_readOperands _ _).bind_eq fun condition => ?_
    split
    · exact agree_refuse
    · exact .pure rfl

theorem agree_readCondition (n : Node) :
    Attempt.Agree Eq (readCondition n place) (readCondition n place') := by
  unfold readCondition
  split
  · exact agree_refuse
  · refine (Attempt.Agree.lift (agree_readKeys conditionKeys n)).bind_eq fun keys => ?_
    split
    · exact agree_readEqual n keys
    · refine ((agree_readScalar _).both (agree_readScalar _)).bind ?_
      rintro ⟨child, parent⟩ ⟨_, _⟩ ⟨rfl, rfl⟩
      exact .pure rfl

/-! ## Terms -/

section Terms

variable {site : Site} {n : Node} {keys : Keyed TermKey}

variable (h : scope.SameNames scope')

include h

theorem agree_readIri (n : Option Node) :
    Attempt.Agree Eq (scope.readIri n place) (scope'.readIri n place') := by
  unfold Scope.readIri
  refine (agree_readScalar n).bind_eq fun text => ?_
  rw [h.resolve]
  cases scope'.resolve text with
  | ok iri => exact .pure rfl
  | error problem => exact agree_refuse

omit h in
theorem agree_readOptionalPart (k : TermKey) :
    Attempt.Agree Eq (readOptionalPart keys k place) (readOptionalPart keys k place') := by
  unfold readOptionalPart
  split
  · exact agree_readScalar _
  · exact .pure rfl

omit h in
theorem agree_readValueKey :
    Attempt.Agree Eq (readValueKey n keys place) (readValueKey n keys place') := by
  unfold readValueKey
  split
  · exact agree_refuse
  · exact .pure rfl
  · exact agree_refuse

omit h in
/-- A problem that is noted on a condition, before something else is done. -/
theorem agree_noteIf {c : Prop} [Decidable c] {next next' : Unit → Noted Unit}
    (h : Logged.Agree Eq (next ()) (next' ())) :
    Logged.Agree Eq (if c then note problem n place >>= next else next ())
      (if c then note problem n place' >>= next' else next' ()) := by
  split
  · exact agree_note.bind_eq fun _ => h
  · exact h

omit h in
/-- Stray parts are noted alike at every place. -/
theorem agree_noteStrayParts (k : TermKey) :
    Logged.Agree Eq (noteStrayParts keys k place) (noteStrayParts keys k place') := by
  unfold noteStrayParts
  cases keys.get? .condition with
  | none =>
    cases keys.get? .parameters with
    | none => exact .pure rfl
    | some e => exact agree_noteIf (.pure rfl)
  | some c =>
    have hcondition : Logged.Agree Eq
        (if k ≠ .mapping then note .strayConditions (some c.key) place else pure ())
        (if k ≠ .mapping then note .strayConditions (some c.key) place' else pure ()) := by
      split
      · exact agree_note
      · exact .pure rfl
    cases keys.get? .parameters with
    | none => exact hcondition
    | some e => exact agree_noteIf hcondition

omit h in
theorem agree_readConditions (n : Option Node) :
    Logged.Agree Eq (readConditions n place) (readConditions n place') := by
  unfold readConditions
  split
  · exact .pure rfl
  · exact agree_those (forall₂_map_both fun p _ => agree_readCondition p.2)

omit h in
theorem agree_readJoin :
    Attempt.Agree Eq (readJoin n keys site place) (readJoin n keys site place') := by
  unfold readJoin
  split
  · exact agree_refuse
  · refine (agree_readScalar _).bind_eq fun parent => ?_
    refine (Attempt.Agree.lift (agree_readConditions _)).bind_eq fun conditions => ?_
    split
    · exact agree_refuse
    · exact .pure rfl

/-- Reads the parameters of a function from their names and values. -/
def readArguments (scope : Scope) (sub : Node → Place → Reading TermMap) (place : Place)
    (es : List Entry) : Reading (List Parameter) :=
  Attempt.all (es.mapIdx fun i e => do
    let here := place.parameter i
    let (predicate, value) ← Attempt.both (scope.readIri (some e.key) here) (sub e.value here)
    return ⟨predicate, value⟩)

omit h in
/-- Reading a function reads its name and then its parameters. -/
theorem readFunction_eq (scope : Scope) (function parameters : Option Node) (place : Place)
    (sub : Node → Place → Reading TermMap) :
    readFunction scope function parameters place (fun m _ => sub m) =
      scope.readIri function (place.sub "function") >>= fun iri =>
        liftM (Logged.tell (readParameters parameters place).notes : Noted Unit) >>= fun _ =>
          readArguments scope sub place (readParameters parameters place).value >>= fun ps =>
            pure (.function iri ps) := by
  unfold readArguments
  rw [← mapIdx_attach]
  rfl

theorem agree_readArguments {es : List Entry}
    (hsub : ∀ e ∈ es, ∀ here here', Attempt.Agree Eq (sub e.value here) (sub' e.value here')) :
    Attempt.Agree Eq (readArguments scope sub place es) (readArguments scope' sub' place' es) := by
  unfold readArguments
  refine agree_all (forall₂_mapIdx_both fun i e he => ?_)
  refine ((agree_readIri h _).both (hsub e he _ _)).bind ?_
  rintro ⟨predicate, value⟩ ⟨_, _⟩ ⟨rfl, rfl⟩
  exact .pure rfl

theorem agree_readFunction {function parameters : Option Node}
    (hsub : ∀ m, (∃ n, parameters = some n ∧ m.size < n.size) →
      ∀ here here', Attempt.Agree Eq (sub m here) (sub' m here')) :
    Attempt.Agree Eq (readFunction scope function parameters place fun m _ => sub m)
      (readFunction scope' function parameters place' fun m _ => sub' m) := by
  have hentries : Logged.Agree Eq (readParameters parameters place)
      (readParameters parameters place') := agree_readParameters parameters
  rw [readFunction_eq, readFunction_eq, hentries.value]
  refine (agree_readIri h function).bind_eq fun iri => ?_
  refine Attempt.Agree.bind (R := Eq) (.lift ⟨rfl, hentries.clean⟩) fun _ _ _ => ?_
  refine (agree_readArguments h fun e he => ?_).bind_eq fun ps => ?_
  · exact hsub e.value (size_readParameters_lt he)
  · exact .pure rfl

omit h in
theorem agree_readStatedType (suffix : Option TermType) :
    Attempt.Agree Eq (readStatedType keys suffix place) (readStatedType keys suffix place') := by
  unfold readStatedType
  split
  · refine (agree_readScalar _).bind_eq fun name => ?_
    split
    · exact agree_refuse
    · split
      · split
        · exact agree_refuse
        · exact .pure rfl
      · exact .pure rfl
  · exact .pure rfl

/-- A value is read alike if its parameters are. -/
theorem agree_readValue (k : TermKey)
    (hsub : ∀ m, (∃ n, keys.value? .parameters = some n ∧ m.size < n.size) →
      ∀ here here', Attempt.Agree Eq (sub m here) (sub' m here')) :
    Attempt.Agree Eq (readValue scope site n place keys (fun m _ => sub m) k)
      (readValue scope' site n place' keys (fun m _ => sub' m) k) := by
  unfold readValue
  split
  · refine (agree_readScalar _).bind_eq fun text => ?_
    split
    · exact .pure rfl
    · exact agree_refuse
  · refine (agree_readScalar _).bind_eq fun text => ?_
    exact .pure rfl
  · refine (agree_readScalar _).bind_eq fun text => ?_
    exact .pure rfl
  · refine (agree_readScalar _).bind_eq fun text => ?_
    split
    · exact .pure rfl
    · exact agree_refuse
  · refine (agree_readFunction h hsub).bind_eq fun value => ?_
    exact .pure rfl
  · refine agree_readJoin.bind_eq fun value => ?_
    exact .pure rfl

/-- The draft of a mapping, from its entries by key. -/
def draftKeyed (scope : Scope) (site : Site) (n : Node) (place : Place)
    (sub : Node → Place → Reading TermMap) (keys : Keyed TermKey) : Reading Draft := do
  let k ← readValueKey n keys place
  noteStrayParts keys k place
  let (value, suffix) ← readValue scope site n place keys (fun m _ => sub m) k
  let stated ← readStatedType keys suffix place
  let datatype ← readOptionalPart keys .datatype place
  let language ← readOptionalPart keys .language place
  return { value, stated, datatype, language, span := n.span }

omit h in
theorem draftParts_eq (scope : Scope) (site : Site) (n : Node) (place : Place)
    (sub : Node → Place → Reading TermMap) :
    draftParts scope site n place (fun m _ => sub m) =
      liftM (Logged.tell (readKeys termKeys n place).notes : Noted Unit) >>= fun _ =>
        draftKeyed scope site n place sub (readKeys termKeys n place).value :=
  rfl

theorem agree_draftKeyed (hsub : ∀ m, (∃ p, keys.value? .parameters = some p ∧ m.size < p.size) →
      ∀ here here', Attempt.Agree Eq (sub m here) (sub' m here')) :
    Attempt.Agree Eq (draftKeyed scope site n place sub keys)
      (draftKeyed scope' site n place' sub' keys) := by
  unfold draftKeyed
  refine agree_readValueKey.bind_eq fun k => ?_
  refine (Attempt.Agree.lift (agree_noteStrayParts k)).bind_eq fun _ => ?_
  refine (agree_readValue h k hsub).bind_eq fun ⟨value, suffix⟩ => ?_
  refine (agree_readStatedType suffix).bind_eq fun stated => ?_
  refine (agree_readOptionalPart _).bind_eq fun datatype => ?_
  refine (agree_readOptionalPart _).bind_eq fun language => ?_
  exact .pure rfl

theorem agree_draftParts
    (hsub : ∀ m, m.size < n.size → ∀ here here', Attempt.Agree Eq (sub m here) (sub' m here')) :
    Attempt.Agree Eq (draftParts scope site n place fun m _ => sub m)
      (draftParts scope' site n place' fun m _ => sub' m) := by
  have hkeys : Logged.Agree Eq (readKeys termKeys n place) (readKeys termKeys n place') :=
    agree_readKeys termKeys n
  rw [draftParts_eq, draftParts_eq, hkeys.value]
  refine Attempt.Agree.bind (R := Eq) (.lift ⟨rfl, hkeys.clean⟩) fun _ _ _ => ?_
  refine agree_draftKeyed h fun m hm => hsub m ?_
  obtain ⟨p, hp, hlt⟩ := hm
  exact Nat.lt_trans hlt (size_value?_lt hp)

/-- A draft is read alike if its parameters are. -/
theorem agree_draftNode
    (hsub : ∀ m, m.size < n.size → ∀ here here', Attempt.Agree Eq (sub m here) (sub' m here')) :
    Attempt.Agree Eq (draftNode scope site n place fun m _ => sub m)
      (draftNode scope' site n place' fun m _ => sub' m) := by
  unfold draftNode
  split
  · exact agree_refuse
  · split
    · split
      · exact .pure rfl
      · exact agree_refuse
    · split
      · exact agree_draftParts h hsub
      · exact agree_refuse

theorem agree_readCompletion (d : Draft) :
    Attempt.Agree Eq (readCompletion scope site d n place)
      (readCompletion scope' site d n place') := by
  unfold readCompletion
  rw [h.complete]
  split
  · exact .pure rfl
  · exact agree_refuse

/-- **What a term is read as does not depend on its place.** -/
theorem agree_readTerm (site : Site) (n : Node) (place place' : Place) :
    Attempt.Agree Eq (readTerm scope site n place) (readTerm scope' site n place') := by
  -- the values of parameters are smaller than the node
  induction hsize : n.size using Nat.strongRecOn generalizing site n place place' with
  | ind size ih =>
    rw [readTerm, readTerm]
    refine (agree_draftNode h fun m hm here here' => ?_).bind ?_
    · exact ih m.size (hsize ▸ hm) _ m here here' rfl
    · rintro d _ rfl
      exact agree_readCompletion h d

/-- An object is read alike where names mean the same. -/
theorem agree_readObject (site : Site) (tag : Tagging) (n : Node) :
    Attempt.Agree Eq (readObject scope site tag n place)
      (readObject scope' site tag n place') := by
  unfold readObject
  have hsub (m : Node) (_ : m.size < n.size) := agree_readTerm h { position := .parameter } m
  refine (agree_draftNode h hsub).bind_eq fun d => ?_
  refine Attempt.Agree.bind (R := Eq) ?_ ?_
  · unfold readTag
    split
    · exact .pure rfl
    · split
      · exact agree_refuse
      · exact .pure rfl
  · rintro d _ rfl
    exact agree_readCompletion h d

end Terms

/-! ## Predicates and objects -/

variable (h : scope.SameNames scope')

include h

theorem agree_readGraphs (n : Node) :
    Logged.Agree Eq (readGraphs scope n place) (readGraphs scope' n place') :=
  agree_those (forall₂_mapIdx_both fun _ g _ => agree_readTerm h _ g _ _)

omit h in
/-- Terms of which there is at least one. -/
theorem agree_readSome {ns : List Node} {read read' : Node → Reading TermMap}
    (h : ∀ n ∈ ns, Attempt.Agree Eq (read n) (read' n)) :
    Attempt.Agree Eq (Attempt.all (ns.map read) >>= Attempt.nonempty)
      (Attempt.all (ns.map read') >>= Attempt.nonempty) := by
  refine (Attempt.Agree.all (forall₂_map_both h)).bind fun as bs hs => ?_
  exact (Attempt.Agree.nonempty hs).mono fun _ _ hs => List.forall₂_eq_eq_eq ▸ hs

theorem agree_readPredicates (ns : List Node) :
    Attempt.Agree Eq (readPredicates scope ns place) (readPredicates scope' ns place') :=
  agree_readSome fun n _ => agree_readTerm h _ n _ _

theorem agree_readObjects (predicates : List TermMap) (tag : Tagging) (ns : List Node) :
    Attempt.Agree Eq (readObjects scope predicates tag ns place)
      (readObjects scope' predicates tag ns place') :=
  agree_readSome fun n _ => agree_readObject h _ tag n

theorem agree_readPairs (n : Node) :
    Logged.Agree Eq (readPairs scope n place) (readPairs scope' n place') := by
  refine agree_those (forall₂_map_both fun e _ => ?_)
  unfold readPair
  refine (agree_readPredicates h _).bind_eq fun predicates => ?_
  refine (agree_readObjects h _ _ _).bind_eq fun objects => ?_
  exact .pure rfl

omit h in
theorem agree_readTagging (n : Option Node) :
    Attempt.Agree Eq (readTagging n place) (readTagging n place') := by
  unfold readTagging
  split
  · exact .pure rfl
  · refine (agree_readScalar _).bind_eq fun text => ?_
    exact .pure rfl

/-- Reads predicates, objects and a tag for an entry at some position. -/
def readTagged (scope : Scope) (place : Place) (span : Span) (p o : Node) (tag : Option Node) :
    Reading PredicateObjectMap := do
  let tag ← readTagging tag (place.item 2)
  let predicates ← readPredicates scope p.items (place.item 0)
  let objects ← readObjects scope predicates tag o.items (place.item 1)
  return { span, predicates, objects }

theorem agree_readTagged (span : Span) (p o : Node) (tag : Option Node) :
    Attempt.Agree Eq (readTagged scope place span p o tag)
      (readTagged scope' place' span p o tag) := by
  unfold readTagged
  refine (agree_readTagging tag).bind_eq fun tag => ?_
  refine (agree_readPredicates h _).bind_eq fun predicates => ?_
  refine (agree_readObjects h _ _ _).bind_eq fun objects => ?_
  exact .pure rfl

theorem agree_readList (n : Node) :
    Attempt.Agree Eq (readList scope n place) (readList scope' n place') := by
  unfold readList
  split
  · exact agree_readTagged h n.span _ _ none
  · exact agree_readTagged h n.span _ _ (some _)
  · exact agree_refuse

theorem agree_readParts (n : Node) :
    Attempt.Agree Eq (readParts scope n place) (readParts scope' n place') := by
  unfold readParts
  refine (Attempt.Agree.lift (agree_readKeys entryKeys n)).bind_eq fun keys => ?_
  split
  · refine (agree_readPredicates h _).bind_eq fun predicates => ?_
    refine (agree_readObjects h _ _ _).bind_eq fun objects => ?_
    split
    · refine (Attempt.Agree.lift (agree_readGraphs h _)).bind_eq fun graphs => ?_
      exact .pure rfl
    · exact .pure rfl
  · exact agree_refuse

theorem agree_readEntry (n : Node) :
    Logged.Agree Eq (readEntry scope n place) (readEntry scope' n place') := by
  unfold readEntry
  split
  · exact agree_those (.cons (agree_readList h n) .nil)
  · split
    · split
      · exact agree_those (.cons (agree_readParts h n) .nil)
      · exact agree_readPairs h n
    · exact agree_note.bind_eq fun _ => .pure rfl

/-- Predicate-object maps are read alike. -/
theorem agree_readPredicateObjects (n : Node) :
    Logged.Agree Eq (readPredicateObjects scope n place)
      (readPredicateObjects scope' n place') := by
  unfold readPredicateObjects
  split
  · exact .pure rfl
  · split
    · exact agree_readPairs h n
    · split
      · refine (Logged.Agree.each (forall₂_mapIdx_both fun i e _ => agree_readEntry h e)).bind ?_
        intro entries entries' heq
        rw [List.forall₂_eq_eq_eq] at heq
        exact .pure (congrArg List.flatten heq)
      · exact agree_note.bind_eq fun _ => .pure rfl

/-! ## Sources -/

theorem agree_readAccess (n : Node) :
    Attempt.Agree Eq (readAccess scope n place) (readAccess scope' n place') := by
  unfold readAccess
  refine (agree_readScalar _).bind_eq fun text => ?_
  split
  · exact .pure rfl
  · split
    · exact .pure rfl
    · rw [h.formulation?]
      split
      · exact .pure rfl
      · exact agree_refuse

omit h in
theorem agree_readSourcePart (keys : Keyed SourceKey) (k : SourceKey) :
    Logged.Agree Eq (readSourcePart keys k place) (readSourcePart keys k place') := by
  unfold readSourcePart
  split
  · exact .pure rfl
  · refine (agree_readScalar _).run.bind_eq fun text => ?_
    exact .pure rfl

/-- The parts of a source are read alike. -/
theorem agree_readSourceParts (n : Node) :
    Attempt.Agree Eq (readSourceParts scope n place) (readSourceParts scope' n place') := by
  unfold readSourceParts
  refine agree_flawless ((agree_readKeys sourceKeys n).bind ?_)
  rintro keys _ rfl
  refine (agree_readSourcePart keys _).bind_eq fun access => ?_
  refine (agree_readSourcePart keys _).bind_eq fun iterator => ?_
  refine (agree_readSourcePart keys _).bind_eq fun table => ?_
  refine (agree_readSourcePart keys _).bind_eq fun query => ?_
  refine (agree_readSourcePart keys _).bind_eq fun name => ?_
  rw [h.formulation?]
  split
  on_goal 2 => split
  on_goal 3 => refine agree_note.bind_eq fun _ => ?_
  -- whatever the formulation is, the version is read next
  all_goals
    refine (Logged.Agree.pure (R := Eq) rfl).bind_eq fun formulation => ?_
    refine (agree_readSourcePart keys _).bind_eq fun version => ?_
    rw [h.resolve]
    split
    · exact .pure rfl
    · split
      · exact .pure rfl
      · exact agree_note.bind_eq fun _ => .pure rfl

/-- A source is read alike in all its forms. -/
theorem agree_readSource (n : Node) :
    Attempt.Agree Eq (readSource scope n place) (readSource scope' n place') := by
  unfold readSource
  split
  · split
    · exact agree_readAccess h _
    · refine (agree_readAccess h _).bind_eq fun source => ?_
      refine (agree_readScalar _).bind_eq fun iterator => ?_
      exact .pure rfl
    · exact agree_refuse
  · split
    · exact agree_readSourceParts h n
    · exact agree_refuse

omit h in
/-- A source that may be missing is empty then. -/
theorem agree_getD {x y : Reading LogicalSource} (h : Attempt.Agree Eq x y) :
    Logged.Agree Eq (x.run >>= fun s => pure (s.getD {}))
      (y.run >>= fun s => pure (s.getD {})) := by
  refine h.run.bind_eq fun source => ?_
  exact .pure rfl

/-- The source of a mapping is read alike. -/
theorem agree_readMappingSource (declared : List NamedSource) (n : Node) :
    Logged.Agree Eq (readMappingSource scope declared n place)
      (readMappingSource scope' declared n place') := by
  unfold readMappingSource
  split
  · exact .pure rfl
  · split
    · split
      · exact .pure rfl
      · split
        · exact agree_note.bind_eq fun _ => .pure rfl
        · exact agree_getD (agree_readAccess h _)
    · exact agree_getD (agree_readSource h _)
  · exact agree_note.bind_eq fun _ => .pure rfl

/-! ## Mappings -/

theorem agree_readSubject (n : Node) :
    Attempt.Agree Eq (readSubject scope n place) (readSubject scope' n place) := by
  unfold readSubject
  split
  · exact agree_refuse
  · split
    · exact agree_refuse
    · exact agree_readTerm h _ _ _ _
    · exact agree_refuse

theorem agree_readClasses (n : Node) :
    Logged.Agree Eq (readClasses scope n place) (readClasses scope' n place) :=
  agree_those (forall₂_mapIdx_both fun _ _ _ => agree_readIri h _)

omit h in
theorem agree_readMappingPart {keys : Keyed MappingKey} {k : MappingKey} {absent : α}
    {read read' : Node → Noted α} (h : ∀ n, Logged.Agree Eq (read n) (read' n)) :
    Logged.Agree Eq (readMappingPart keys k absent read)
      (readMappingPart keys k absent read') := by
  unfold readMappingPart
  split
  · exact h _
  · exact .pure rfl

/-- The parts of a mapping are read alike. -/
theorem agree_readMappingParts (declared : List NamedSource) (key body : Node) :
    Logged.Agree Eq (readMappingParts scope declared key body place)
      (readMappingParts scope' declared key body place) := by
  unfold readMappingParts
  refine (agree_readKeys mappingKeys body).bind_eq fun keys => ?_
  refine (agree_readMappingPart (agree_readMappingSource h declared)).bind_eq fun source => ?_
  refine Logged.Agree.bind (R := Eq) ?_ ?_
  · cases keys.value? .subject with
    | some n => exact (agree_readSubject h n).run
    | none => exact Attempt.Agree.run agree_refuse
  · rintro term _ rfl
    refine (agree_readMappingPart (agree_readClasses h)).bind_eq fun classes => ?_
    refine (agree_readMappingPart (agree_readGraphs h)).bind_eq fun graphs => ?_
    refine (agree_readMappingPart (agree_readPredicateObjects h)).bind_eq fun poms => ?_
    exact .pure rfl

/-- **A mapping is read the same wherever names mean the same.** -/
theorem agree_readMapping (declared : List NamedSource) (key body : Node) :
    Attempt.Agree Eq (readMapping scope declared key body place)
      (readMapping scope' declared key body place) := by
  unfold readMapping
  split
  · exact agree_refuse
  · split
    · exact agree_flawless (agree_readMappingParts h declared key body)
    · exact agree_refuse

end RdfMapping.Shorthand
