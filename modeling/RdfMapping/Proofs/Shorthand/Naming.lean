/-
# Names while prefixes are declared

Writing declares labels of the fallback table as it goes on, so a name that was written early is
read with a larger table than the one it was chosen for.  The names that are chosen keep their
meaning.
-/
import RdfMapping.Proofs.Iri.TableRuns
import RdfMapping.Shorthand.Export

namespace RdfMapping

namespace Shorthand

open Iri (PrefixTable Compact beginsWithLetter isNameChar isAbsolute)

/-! ## Steps of writing -/

namespace Style

/-- More prefixes are declared. -/
def Grows (s : Style) (t u : PrefixTable) : Prop :=
  (s.scope t).table.Grown (s.scope u).table

variable {s : Style} {t u v : PrefixTable}

theorem Grows.refl (s : Style) (t : PrefixTable) : s.Grows t t :=
  PrefixTable.Grown.refl _

theorem Grows.trans (h : s.Grows t u) (h' : s.Grows u v) : s.Grows t v :=
  PrefixTable.Grown.trans h h'

/-- A style with an absolute base and labels without a colon. -/
structure Sound (s : Style) : Prop where
  base : isAbsolute s.base = true
  own : ∀ l ∈ s.own.labels, ':' ∉ l.toList
  fallback : ∀ l ∈ s.fallback.labels, PrefixTable.Declarable l

/-- The prefixes of the document are declared. -/
def Covers (s : Style) (t : PrefixTable) : Prop :=
  ∀ l ns, s.own.lookup? l = some ns → (s.scope t).table.lookup? l = some ns

theorem Covers.grows (h : s.Covers t) (hg : s.Grows t u) : s.Covers u :=
  fun l ns hl => hg.keeps l ns (h l ns hl)

end Style

/-- A step of writing adds prefixes, and its result has a property. -/
def Ensures {ε α : Type} (s : Style) (x : ExceptT ε (StateM PrefixTable) α) (t : PrefixTable)
    (Q : α → PrefixTable → Prop) : Prop :=
  s.Grows t (x.run.run t).2 ∧ ∀ a, (x.run.run t).1 = .ok a → Q a (x.run.run t).2

namespace Ensures

variable {ε ε' α β : Type} {s : Style} {t u : PrefixTable} {x : ExceptT ε (StateM PrefixTable) α}
  {Q R : α → PrefixTable → Prop} {S : β → PrefixTable → Prop} {a : α}
  {f : α → ExceptT ε (StateM PrefixTable) β}

theorem pure (h : Q a t) : Ensures s (Pure.pure a : ExceptT ε (StateM PrefixTable) α) t Q :=
  ⟨.refl s t, fun _ hb => by cases hb; exact h⟩

theorem throw (e : ε) : Ensures s (throw e : ExceptT ε (StateM PrefixTable) α) t Q :=
  ⟨.refl s t, fun _ hb => by cases hb⟩

theorem mono (h : Ensures s x t Q) (hQ : ∀ a u, s.Grows t u → Q a u → R a u) : Ensures s x t R :=
  ⟨h.1, fun a ha => hQ a _ h.1 (h.2 a ha)⟩

theorem of_run (h : Ensures s x t Q) (hrun : x.run.run t = (.ok a, u)) : s.Grows t u ∧ Q a u := by
  rw [Ensures, hrun] at h
  exact ⟨h.1, h.2 a rfl⟩

theorem run_bind_ok (h : x.run.run t = (.ok a, u)) : (x >>= f).run.run t = (f a).run.run u := by
  rw [ExceptT.run_bind, StateT.run_bind, h]
  rfl

theorem run_bind_error {e : ε} (h : x.run.run t = (.error e, u)) :
    (x >>= f).run.run t = (.error e, u) := by
  rw [ExceptT.run_bind, StateT.run_bind, h]
  rfl

theorem bind (hx : Ensures s x t Q) (hf : ∀ a u, s.Grows t u → Q a u → Ensures s (f a) u S) :
    Ensures s (x >>= f) t S := by
  obtain ⟨hgrows, hQ⟩ := hx
  cases hrun : x.run.run t with
  | mk r u =>
    rw [hrun] at hgrows hQ
    cases r with
    | ok a =>
      obtain ⟨hgrows', hS⟩ := hf a u hgrows (hQ a rfl)
      rw [Ensures, run_bind_ok hrun]
      exact ⟨hgrows.trans hgrows', hS⟩
    | error e =>
      rw [Ensures, run_bind_error hrun]
      exact ⟨hgrows, fun _ hb => by cases hb⟩

/-- Two ways to begin, and one way to go on. -/
theorem ite_bind {c : Prop} [Decidable c] {y : ExceptT ε (StateM PrefixTable) α}
    (hx : c → Ensures s x t Q) (hy : ¬ c → Ensures s y t Q)
    (hf : ∀ a u, s.Grows t u → Q a u → Ensures s (f a) u S) :
    Ensures s (if c then x >>= f else y >>= f) t S := by
  split
  · next h => exact (hx h).bind hf
  · next h => exact (hy h).bind hf

theorem get : Ensures s (MonadState.get : ExceptT ε (StateM PrefixTable) PrefixTable) t
    fun a u => a = t ∧ u = t :=
  ⟨.refl s t, fun _ hb => by cases hb; exact ⟨rfl, rfl⟩⟩

theorem set (h : s.Grows t u) :
    Ensures s (MonadStateOf.set u : ExceptT ε (StateM PrefixTable) PUnit) t fun _ v => v = u :=
  ⟨h, fun _ _ => rfl⟩

/-- A step that is given up leaves its declarations behind. -/
theorem tryCatch {h : ε → ExceptT ε (StateM PrefixTable) α} (hx : Ensures s x t Q)
    (hh : ∀ e u, s.Grows t u → Ensures s (h e) u Q) : Ensures s (tryCatch x h) t Q := by
  obtain ⟨hgrows, hQ⟩ := hx
  cases hrun : x.run.run t with
  | mk r u =>
    rw [hrun] at hgrows hQ
    rw [Ensures, ExceptT.run_tryCatch, StateT.run_bind, hrun]
    cases r with
    | ok a => exact ⟨hgrows, hQ⟩
    | error e =>
      obtain ⟨hgrows', hQ'⟩ := hh e u hgrows
      exact ⟨hgrows.trans hgrows', hQ'⟩

theorem adapt {f : ε → ε'} (hx : Ensures s x t Q) : Ensures s (x.adapt f) t Q := by
  obtain ⟨hgrows, hQ⟩ := hx
  cases hrun : x.run.run t with
  | mk r u =>
    rw [hrun] at hgrows hQ
    rw [Ensures, ExceptT.run_adapt, StateT.run_map, hrun]
    cases r with
    | ok a => exact ⟨hgrows, fun b hb => hQ b (by cases hb; rfl)⟩
    | error e => exact ⟨hgrows, fun _ hb => by cases hb⟩

/-- A property of each result lasts while the others are written. -/
theorem mapM {as : List α} {R : α → β → PrefixTable → Prop}
    (hR : ∀ a b u v, s.Grows u v → R a b u → R a b v)
    (hf : ∀ a ∈ as, ∀ u, s.Grows t u → Ensures s (f a) u (R a)) :
    Ensures s (as.mapM f) t fun bs u => List.Forall₂ (fun a b => R a b u) as bs := by
  induction as generalizing t with
  | nil => exact .pure .nil
  | cons a as ih =>
    rw [List.forall_mem_cons] at hf
    rw [List.mapM_cons]
    refine (hf.1 t (.refl s t)).bind fun b u hu hb => ?_
    refine (ih fun a ha v hv => hf.2 a ha v (hu.trans hv)).bind fun bs v hv hbs => ?_
    exact .pure (.cons (hR a b u v hv hb) hbs)

end Ensures

/-! ## The meaning of names -/

namespace Style

/-- A name with a meaning that lasts. -/
def Settled (s : Style) (t : PrefixTable) (text iri : String) : Prop :=
  ∀ u, s.Grows t u → (s.scope u).resolve text = .ok iri

/-- A text does not mean `meant` by way of a label that may be declared later. -/
def Firm (s : Style) (t : PrefixTable) (text meant : String) : Prop :=
  beginsWithLetter meant.toList = true → beginsWithLetter text.toList = false →
    ∀ label rest, Text.cutFirst? ':' text = some (label, rest) →
      label.toList.all isNameChar = true → (s.scope t).table.lookup? label ≠ none

variable {s : Style} {t u : PrefixTable} {text meant iri label rest : String}

theorem Settled.grows (h : s.Settled t text iri) (hg : s.Grows t u) : s.Settled u text iri :=
  fun v hv => h v (hg.trans hv)

theorem Firm.grows (h : s.Firm t text meant) (hg : s.Grows t u) : s.Firm u text meant := by
  intro hmeant htext label rest hcut hchars
  cases hl : (s.scope t).table.lookup? label with
  | none => exact absurd hl (h hmeant htext label rest hcut hchars)
  | some ns =>
    rw [hg.keeps label ns hl]
    exact Option.some_ne_none ns

theorem resolve_eq_ok_iff {scope : Scope} :
    scope.resolve text = .ok iri ↔ scope.table.resolve scope.base text = .ok iri := by
  unfold Scope.resolve
  cases scope.table.resolve scope.base text with
  | ok r => exact ⟨fun h => by cases h; rfl, fun h => by cases h; rfl⟩
  | error e => exact ⟨nofun, nofun⟩

/-- A firm name keeps its meaning. -/
theorem Firm.settled (hs : s.Sound) (h : s.Firm t text iri)
    (hr : (s.scope t).resolve text = .ok iri) : s.Settled t text iri := by
  intro u hu
  rw [resolve_eq_ok_iff] at hr ⊢
  rcases PrefixTable.resolve_of_grown hs.base hu hr with hr | hshaky
  · exact hr
  · obtain ⟨label, rest, hcut, hnone, hchars⟩ := hshaky.unbound
    exact absurd hnone (h hshaky.iri hshaky.text label rest hcut hchars)

/-- A text that begins with a letter is firm if its meaning does so. -/
theorem firm_self (s : Style) (t : PrefixTable) (text : String) : s.Firm t text text := by
  intro hmeant htext
  rw [hmeant] at htext
  cases htext

theorem cutFirst?_label (hlabel : ':' ∉ label.toList) (rest : String) :
    Text.cutFirst? ':' (label ++ ":" ++ rest) = some (label, rest) :=
  Text.cutFirst?_eq_of_toList (by simp) hlabel

/-- A prefixed name with a declared label is firm. -/
theorem firm_of_declared (hlabel : ':' ∉ label.toList)
    (h : (s.scope t).table.lookup? label ≠ none) (rest meant : String) :
    s.Firm t (label ++ ":" ++ rest) meant := by
  intro _ _ l r hcut _
  cases (cutFirst?_label hlabel rest).symm.trans hcut
  exact h

/-- A text that no label begins is firm. -/
theorem firm_of_toList {c : Char} {cs : List Char} (h : text.toList = c :: cs)
    (hchar : isNameChar c = false) (hcolon : c ≠ ':') (meant : String) : s.Firm t text meant := by
  intro _ _ label rest hcut hchars
  obtain ⟨htext, -⟩ := Text.cutFirst?_eq_some hcut
  rw [h] at htext
  cases hl : label.toList with
  | nil =>
    rw [hl] at htext
    exact absurd (List.cons.inj htext).1 hcolon
  | cons d ds =>
    rw [hl] at htext hchars
    rw [← (List.cons.inj htext).1] at hchars
    rw [List.all_cons, hchar] at hchars
    cases hchars

/-- A name in brackets is firm. -/
theorem firm_bracketed (s : Style) (t : PrefixTable) (iri meant : String) :
    s.Firm t ("<" ++ iri ++ ">") meant :=
  have hbracket : ("<" ++ iri ++ ">").toList = '<' :: (iri.toList ++ ['>']) := by simp
  firm_of_toList hbracket rfl (by decide) meant

/-- The beginning of a firm text is firm. -/
theorem Firm.of_append {body tail : String} (h : s.Firm t (body ++ tail) meant) :
    s.Firm t body meant := by
  intro hmeant hbody label rest hcut hchars
  obtain ⟨htext, hcolon⟩ := Text.cutFirst?_eq_some hcut
  refine h hmeant ?_ label (rest ++ tail) (Text.cutFirst?_eq_of_toList ?_ hcolon) hchars
  · rw [String.toList_append, htext]
    rw [htext] at hbody
    cases hl : label.toList with
    | nil => rfl
    | cons c cs =>
      rw [hl] at hbody
      exact hbody
  · rw [String.toList_append, String.toList_append, htext, List.append_assoc, List.cons_append]

/-- A firm text stays so with more characters but no colon. -/
theorem Firm.append {tail : String} (h : s.Firm t text meant) (htail : ':' ∉ tail.toList) :
    s.Firm t (text ++ tail) meant := by
  intro hmeant htext label rest hcut hchars
  obtain ⟨heq, hcolon⟩ := Text.cutFirst?_eq_some hcut
  rw [String.toList_append] at heq
  -- the colon stands in the text, not behind it
  obtain ⟨r, hr⟩ : ∃ r, text.toList = label.toList ++ ':' :: r := by
    rcases List.append_eq_append_iff.1 heq with ⟨a, -, ha⟩ | ⟨c, hc, hrest⟩
    · exact absurd (ha ▸ List.mem_append_right _ (List.mem_cons_self ..)) htail
    · cases c with
      | nil =>
        rw [List.nil_append] at hrest
        exact absurd (hrest ▸ List.mem_cons_self ..) htail
      | cons d r =>
        cases (List.cons.inj hrest).1
        exact ⟨r, hc⟩
  refine h hmeant ?_ label (.ofList r) (Text.cutFirst?_eq_of_toList (by simpa using hr) hcolon)
    hchars
  rw [String.toList_append] at htext
  cases hl : text.toList with
  | nil => rfl
  | cons c cs =>
    rw [hl] at htext
    exact htext

/-! ## Names that are chosen -/

theorem lookup?_scope (s : Style) (t : PrefixTable) (l : String) :
    (s.scope t).table.lookup? l = (t.lookup? l).or (PrefixTable.builtin.lookup? l) :=
  PrefixTable.lookup?_merge _ _ _

theorem lookup?_scope_set (s : Style) (t : PrefixTable) (label ns l : String) :
    (s.scope (t.set label ns)).table.lookup? l =
      if l = label then some ns else (s.scope t).table.lookup? l := by
  rw [lookup?_scope, lookup?_scope, PrefixTable.lookup?_set]
  split <;> rfl

/-- A label of the fallback table that means nothing yet may be declared. -/
theorem grows_set (hs : s.Sound) {ns : String} (hf : s.fallback.lookup? label = some ns)
    (hnone : (s.scope t).table.lookup? label = none) : s.Grows t (t.set label ns) := by
  refine ⟨fun l m hl => ?_, fun l hl hne => ?_⟩
  · have hlabel : l ≠ label := fun heq => by
      rw [heq, hnone] at hl
      cases hl
    rw [lookup?_scope_set, if_neg hlabel, hl]
  · rw [lookup?_scope_set] at hne
    split at hne
    · next heq =>
      rw [heq]
      exact hs.fallback label (PrefixTable.mem_labels_of_lookup? hf)
    · exact absurd hl hne

/-- A label that is taken is bound as the fallback binds it. -/
theorem ensures_declare? (hs : s.Sound) (c : Compact) :
    Ensures s (s.declare? c) t fun taken u => ∀ text, taken = some text → text = c.text ∧
      ∃ ns, s.fallback.lookup? c.label = some ns ∧
        (s.scope u).table.lookup? c.label = some ns := by
  unfold declare?
  refine Ensures.get.bind fun a u hu ha => ?_
  obtain ⟨rfl, rfl⟩ := ha
  split
  · exact .pure nofun
  · next ns hns =>
    split
    · -- the label is free, and is declared now
      next hnone =>
      refine (Ensures.set (grows_set hs hns hnone)).bind fun _ v _ hv => .pure fun text ht => ?_
      cases ht
      refine ⟨rfl, ns, hns, ?_⟩
      rw [hv, lookup?_scope_set, if_pos rfl]
    · -- the label is taken: only the same namespace will do
      next bound hbound =>
      refine .pure fun text ht => ?_
      split at ht
      · next heq =>
        cases ht
        exact ⟨rfl, ns, hns, heq ▸ hbound⟩
      · cases ht

/-- A name for an IRI whose meaning lasts; it is the IRI if that has an authority. -/
structure Spells (s : Style) (iri text : String) (t : PrefixTable) : Prop where
  settled : ∃ meant, s.Settled t text meant
  firm : s.Firm t text iri
  hierarchical : PrefixTable.IsHierarchical iri → s.Settled t text iri ∧ ':' ∈ text.toList

theorem Spells.grows (h : s.Spells iri text t) (hg : s.Grows t u) : s.Spells iri text u where
  settled := h.settled.imp fun _ hm => hm.grows hg
  firm := h.firm.grows hg
  hierarchical hi := ⟨(h.hierarchical hi).1.grows hg, (h.hierarchical hi).2⟩

/-- A prefixed name whose label is declared spells the IRI. -/
theorem spells_contraction {ns : String} (hlabel : ':' ∉ label.toList)
    (hbound : (s.scope t).table.lookup? label = some ns)
    (hrest : Iri.isLocalName rest.toList = true) :
    s.Spells (ns ++ rest) (label ++ ":" ++ rest) t := by
  have hsettled : s.Settled t (label ++ ":" ++ rest) (ns ++ rest) := fun u hu =>
    resolve_eq_ok_iff.2 (PrefixTable.resolve_contraction (hu.keeps label ns hbound) hlabel hrest)
  refine ⟨⟨_, hsettled⟩, firm_of_declared hlabel ?_ _ _, fun _ => ⟨hsettled, by simp⟩⟩
  rw [hbound]
  exact Option.some_ne_none ns

theorem colon_not_mem_of_declarable (h : PrefixTable.Declarable label) : ':' ∉ label.toList :=
  fun hmem => absurd (List.all_eq_true.1 h.1 _ hmem) (by decide)

theorem colon_mem_of_isHierarchical (h : PrefixTable.IsHierarchical iri) : ':' ∈ iri.toList := by
  obtain ⟨scheme, rest, rfl, -⟩ := h
  simp

/-- A name that is chosen because it is read as itself. -/
theorem spells_self (hs : s.Sound) (h : (s.scope t).resolve iri = .ok iri) : s.Spells iri iri t :=
  have hsettled := (firm_self s t iri).settled hs h
  ⟨⟨iri, hsettled⟩, firm_self s t iri, fun hi => ⟨hsettled, colon_mem_of_isHierarchical hi⟩⟩

/-- A name in brackets. -/
theorem spells_bracketed (h : (s.scope t).resolve iri ≠ .ok iri) :
    s.Spells iri ("<" ++ iri ++ ">") t := by
  refine ⟨⟨Iri.resolveIri s.base iri, fun u _ => ?_⟩, firm_bracketed s t iri iri, fun hi => ?_⟩
  · rw [resolve_eq_ok_iff, PrefixTable.resolve, PrefixTable.unbracket?_bracket]
    rfl
  · exact absurd (resolve_eq_ok_iff.2 (PrefixTable.resolve_of_isHierarchical hi _ _)) h

theorem ensures_borrow? (hs : s.Sound) (c : Option Compact) :
    Ensures s (s.borrow? c) t fun taken u => ∀ text, taken = some text →
      ∃ d ns, c = some d ∧ text = d.text ∧ s.fallback.lookup? d.label = some ns ∧
        (s.scope u).table.lookup? d.label = some ns := by
  cases c with
  | none => exact .pure nofun
  | some d =>
    refine (ensures_declare? hs d).mono fun taken u _ h text htext => ?_
    obtain ⟨heq, ns, hns, hbound⟩ := h text htext
    exact ⟨d, ns, rfl, heq, hns, hbound⟩

/-- **The name that is chosen for an IRI spells it.** -/
theorem ensures_iriText (hs : s.Sound) (hc : s.Covers t) (iri : String) :
    Ensures s (s.iriText iri) t (s.Spells iri) := by
  unfold iriText
  split
  · next c hown =>
    obtain ⟨ns, rest, hlookup, rfl, htext, hrest⟩ := PrefixTable.contract?_eq_some hown
    rw [htext]
    exact .pure (spells_contraction (hs.own _ (PrefixTable.mem_labels_of_lookup? hlookup))
      (hc _ _ hlookup) hrest)
  · refine (ensures_borrow? hs _).bind fun taken u _ htaken => ?_
    split
    · next text =>
      obtain ⟨c, ns, hcontract, rfl, hns, hbound⟩ := htaken text rfl
      obtain ⟨ns', rest, hns', rfl, htext, hrest⟩ := PrefixTable.contract?_eq_some hcontract
      cases hns.symm.trans hns'
      rw [htext]
      exact .pure (spells_contraction (colon_not_mem_of_declarable
        (hs.fallback _ (PrefixTable.mem_labels_of_lookup? hns))) hbound hrest)
    · -- no label covers the IRI, so it stands in full, and in brackets if it would be misread
      refine Ensures.get.bind fun v w _ hvw => ?_
      obtain ⟨rfl, rfl⟩ := hvw
      split
      · next read hread =>
        by_cases heq : read = iri
        · rw [if_pos heq]
          exact .pure (spells_self hs (heq ▸ hread))
        · rw [if_neg heq]
          refine .pure (spells_bracketed fun h => heq ?_)
          cases hread.symm.trans h
          rfl
      · next e herror =>
        refine .pure (spells_bracketed fun h => ?_)
        cases herror.symm.trans h

/-- How an IRI that may be absent is spelled. -/
def SpellsOptional (s : Style) (iri text : String) (t : PrefixTable) : Prop :=
  (iri = "" ∧ text = "") ∨ (iri ≠ "" ∧ s.Spells iri text t)

/-- An IRI with an authority that may be absent has a spelling that lasts. -/
theorem SpellsOptional.settled (h : s.SpellsOptional iri text t)
    (hiri : iri = "" ∨ PrefixTable.IsHierarchical iri) :
    (iri = "" ∧ text = "") ∨ (':' ∈ text.toList ∧ s.Settled t text iri) := by
  rcases h with hempty | ⟨hne, hspells⟩
  · exact .inl hempty
  · obtain ⟨hsettled, hcolon⟩ := hspells.hierarchical (hiri.resolve_left hne)
    exact .inr ⟨hcolon, hsettled⟩

theorem ensures_optionalIri {β : Type} {f : String → Writing β} {S : β → PrefixTable → Prop}
    (hs : s.Sound) (hc : s.Covers t)
    (hf : ∀ text u, s.Grows t u → s.SpellsOptional iri text u → Ensures s (f text) u S) :
    Ensures s (if iri = "" then Pure.pure "" >>= f else s.iriText iri >>= f) t S :=
  .ite_bind (fun h => .pure (.inl ⟨h, rfl⟩))
    (fun hne => (ensures_iriText hs hc iri).mono fun _ _ _ h => .inr ⟨hne, h⟩) hf

/-- The abbreviation of a template is firm. -/
theorem ensures_templateText? (hs : s.Sound) (hc : s.Covers t) (pattern : String) :
    Ensures s (s.templateText? pattern) t fun taken u =>
      ∀ text, taken = some text → ∀ meant, s.Firm u text meant := by
  unfold templateText?
  split
  · next c hown =>
    obtain ⟨ns, rest, hlookup, -, -, htext⟩ := PrefixTable.contractWith?_eq_some hown
    refine .pure fun text heq meant => ?_
    cases heq
    rw [htext]
    refine firm_of_declared (hs.own _ (PrefixTable.mem_labels_of_lookup? hlookup)) ?_ _ _
    rw [hc _ _ hlookup]
    exact Option.some_ne_none ns
  · refine (ensures_borrow? hs _).mono fun taken u _ htaken text heq meant => ?_
    obtain ⟨c, ns, hcontract, rfl, hns, hbound⟩ := htaken text heq
    obtain ⟨-, rest, -, -, -, htext⟩ := PrefixTable.contractWith?_eq_some hcontract
    rw [htext]
    refine firm_of_declared (colon_not_mem_of_declarable
      (hs.fallback _ (PrefixTable.mem_labels_of_lookup? hns))) ?_ _ _
    rw [hbound]
    exact Option.some_ne_none ns

end Style

end Shorthand

end RdfMapping
