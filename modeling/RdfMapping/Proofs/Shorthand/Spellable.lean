/-
# What can be spelled

A term map is written only if some spelling of it is read back.  Without prefixes to fall back on
this depends on the term map, the base and the prefixes of the document alone.
-/
import RdfMapping.Proofs.Shorthand.Places
import RdfMapping.Proofs.Shorthand.WrittenMaps

namespace RdfMapping

/-- What is resolved against an absolute base has a scheme. -/
theorem Iri.PrefixTable.resolve_type_ne {base : String} (hbase : isAbsolute base = true)
    (t : PrefixTable) : t.resolve base "a" ≠ .ok "a" := by
  have hbracket : unbracket? "a" = none := by decide +kernel
  have hcut : Text.cutFirst? ':' "a" = none := by decide +kernel
  have hrelative : Reference.parse? "a".toList = some { path := ['a'] } := by decide +kernel
  have hresolve : t.resolve base "a" = .ok (resolveIri base "a") := by
    rw [resolve, hbracket, hcut]
  rw [hresolve]
  intro heq
  -- the name is relative, so the scheme of the base would stand before it, with its colon
  have hiri : resolveIri base "a" = "a" := Except.ok.inj heq
  unfold isAbsolute at hbase
  unfold resolveIri at hiri
  rw [hrelative] at hiri
  split at hbase
  · next b hb =>
    rw [hb] at hiri
    have hscheme : (Reference.resolve b { path := ['a'] }).scheme ≠ [] := by
      rw [scheme_resolve]
      simpa using hbase
    change String.ofList (Reference.resolve b { path := ['a'] }).render = "a" at hiri
    have hcolon : ':' ∈ (Reference.resolve b { path := ['a'] }).render := by
      rw [Reference.render, if_neg hscheme]
      simp
    have hchars := congrArg String.toList hiri
    rw [String.toList_ofList] at hchars
    rw [hchars] at hcolon
    exact absurd hcolon (by decide)
  · cases hbase

namespace Mapping

open Shorthand (Scope referenceName)

/-- The IRIs that a value names itself, apart from those in its parameters. -/
def Value.iris : Value → List String
  | .constant term =>
    (if term.kind = .iri then [term.value] else []) ++
      if term.datatype = "" then [] else [term.datatype]
  | .function iri parameters => iri :: parameters.map Parameter.predicate
  | .reference _ | .template _ | .join _ _ => []

/-- The IRIs that a term map names itself, apart from those in its parameters. -/
def TermMap.iris (tm : TermMap) : List String :=
  (tm.value.map Value.iris).getD [] ++ if tm.datatype = "" then [] else [tm.datatype]

/-- A value that is read from its own text. -/
def Value.ReadAsWritten (scope : Scope) (termType : TermType) : Value → Prop
  | .template pattern =>
    termType = .iri → scope.table.resolveTemplate scope.base pattern = .ok pattern
  | .join _ conditions => ∀ c ∈ conditions,
    referenceName c.child = c.child ∧ referenceName c.parent = c.parent
  | .constant _ | .reference _ | .function _ _ => True

instance (scope : Scope) (termType : TermType) :
    ∀ value : Value, Decidable (value.ReadAsWritten scope termType)
  | .template _ => inferInstanceAs (Decidable (_ = _ → _ = _))
  | .join _ _ => inferInstanceAs (Decidable (∀ c ∈ _, _ ∧ _))
  | .constant _ | .reference _ | .function _ _ => isTrue trivial

end Mapping

namespace Shorthand

open Iri (PrefixTable)
open Mapping
open Yaml (Node Entry)

/-! ## Steps that succeed or fail -/

/-- A step of writing that declares nothing, and that succeeds just if `P` holds. -/
def Decides {ε α : Type} (x : ExceptT ε (StateM PrefixTable) α) (t : PrefixTable) (P : Prop)
    (Q : α → Prop) : Prop :=
  (P ∧ ∃ a, x.run.run t = (.ok a, t) ∧ Q a) ∨ ¬ P ∧ ∃ e, x.run.run t = (.error e, t)

namespace Decides

variable {ε ε' α β : Type} {t : PrefixTable} {x y : ExceptT ε (StateM PrefixTable) α}
  {P P' : Prop} {Q R : α → Prop} {S : β → Prop} {f : α → ExceptT ε (StateM PrefixTable) β}

theorem pure {a : α} (h : Q a) :
    Decides (Pure.pure a : ExceptT ε (StateM PrefixTable) α) t True Q :=
  .inl ⟨trivial, a, rfl, h⟩

theorem throw (e : ε) : Decides (throw e : ExceptT ε (StateM PrefixTable) α) t False Q :=
  .inr ⟨not_false, e, rfl⟩

theorem congr (h : Decides x t P Q) (hP : P ↔ P') : Decides x t P' Q :=
  propext hP ▸ h

theorem mono (h : Decides x t P Q) (hQ : ∀ a, P → Q a → R a) : Decides x t P R := by
  rcases h with ⟨hP, a, hrun, ha⟩ | hfails
  · exact .inl ⟨hP, a, hrun, hQ a hP ha⟩
  · exact .inr hfails

/-- A step after another succeeds if both do. -/
theorem bind (hx : Decides x t P Q) (hf : ∀ a, P → Q a → Decides (f a) t P' S) :
    Decides (x >>= f) t (P ∧ P') S := by
  rcases hx with ⟨hP, a, hrun, ha⟩ | ⟨hP, e, hrun⟩
  · rcases hf a hP ha with ⟨hP', b, hrun', hb⟩ | ⟨hP', e, hrun'⟩
    · exact .inl ⟨⟨hP, hP'⟩, b, (Ensures.run_bind_ok hrun).trans hrun', hb⟩
    · exact .inr ⟨fun h => hP' h.2, e, (Ensures.run_bind_ok hrun).trans hrun'⟩
  · exact .inr ⟨fun h => hP h.1, e, Ensures.run_bind_error hrun⟩

theorem bind_sure (hx : Decides x t True Q) (hf : ∀ a, Q a → Decides (f a) t P S) :
    Decides (x >>= f) t P S :=
  (hx.bind fun a _ => hf a).congr (iff_of_eq (true_and P))

/-- What follows a step is sure to succeed. -/
theorem bind_total (hx : Decides x t P Q) (hf : ∀ a, P → Q a → Decides (f a) t True S) :
    Decides (x >>= f) t P S :=
  (hx.bind hf).congr (iff_of_eq (and_true P))

/-- Two ways to begin, and one way to go on. -/
theorem ite_bind {c : Prop} [Decidable c] (hx : c → Decides x t P Q) (hy : ¬ c → Decides y t P Q)
    (hf : ∀ a, P → Q a → Decides (f a) t P' S) :
    Decides (if c then x >>= f else y >>= f) t (P ∧ P') S := by
  split
  · next h => exact (hx h).bind hf
  · next h => exact (hy h).bind hf

theorem ite_bind_sure {c : Prop} [Decidable c] (hx : c → Decides x t True Q)
    (hy : ¬ c → Decides y t True Q) (hf : ∀ a, Q a → Decides (f a) t P S) :
    Decides (if c then x >>= f else y >>= f) t P S :=
  (ite_bind hx hy fun a _ => hf a).congr (iff_of_eq (true_and P))

theorem map {g : α → β} (hx : Decides x t P Q) (hS : ∀ a, Q a → S (g a)) :
    Decides (g <$> x) t P S := by
  rcases hx with ⟨hP, a, hrun, ha⟩ | ⟨hP, e, hrun⟩
  · refine .inl ⟨hP, g a, ?_, hS a ha⟩
    rw [ExceptT.run_map, StateT.run_map, hrun]
    rfl
  · refine .inr ⟨hP, e, ?_⟩
    rw [ExceptT.run_map, StateT.run_map, hrun]
    rfl

theorem get : Decides (MonadState.get : ExceptT ε (StateM PrefixTable) PrefixTable) t True
    fun u => u = t :=
  .inl ⟨trivial, t, rfl, rfl⟩

/-- A step with another to fall back on succeeds if either does. -/
theorem tryCatch {h : ε → ExceptT ε (StateM PrefixTable) α} (hx : Decides x t P Q)
    (hh : ∀ e, Decides (h e) t P' Q) : Decides (tryCatch x h) t (P ∨ P') Q := by
  rcases hx with ⟨hP, a, hrun, ha⟩ | ⟨hP, e, hrun⟩
  · refine .inl ⟨.inl hP, a, ?_, ha⟩
    rw [ExceptT.run_tryCatch, StateT.run_bind, hrun]
    rfl
  · refine Decides.congr ?_ (or_iff_right hP).symm
    have hcatch : (MonadExcept.tryCatch x h).run.run t = (h e).run.run t := by
      rw [ExceptT.run_tryCatch, StateT.run_bind, hrun]
      rfl
    rw [Decides, hcatch]
    exact hh e

theorem adapt {f : ε → ε'} (hx : Decides x t P Q) : Decides (x.adapt f) t P Q := by
  rcases hx with ⟨hP, a, hrun, ha⟩ | ⟨hP, e, hrun⟩
  · refine .inl ⟨hP, a, ?_, ha⟩
    rw [ExceptT.run_adapt, StateT.run_map, hrun]
    rfl
  · refine .inr ⟨hP, f e, ?_⟩
    rw [ExceptT.run_adapt, StateT.run_map, hrun]
    rfl

theorem mapM {as : List α} {R : α → β → Prop} {P : α → Prop}
    (hf : ∀ a ∈ as, Decides (f a) t (P a) (R a)) :
    Decides (as.mapM f) t (∀ a ∈ as, P a) (List.Forall₂ R as) := by
  induction as with
  | nil => exact (Decides.pure .nil).congr (iff_of_true trivial (List.forall_mem_nil P))
  | cons a as ih =>
    rw [List.forall_mem_cons] at hf
    rw [List.mapM_cons]
    refine (hf.1.bind fun b _ hb => (ih hf.2).bind fun bs _ hbs => .pure (.cons hb hbs)).congr ?_
    rw [and_true, List.forall_mem_cons]

end Decides

namespace Style

variable {s : Style} {t : PrefixTable} {site : Site} {tm : TermMap} {iri text : String}

/-! ## Names -/

/-- A style without prefixes to fall back on. -/
structure Ready (s : Style) : Prop where
  base : Iri.isAbsolute s.base = true
  alone : s.fallback = .empty

/-- How an IRI is spelled: abbreviated, plain or in brackets. -/
def spelling (s : Style) (t : PrefixTable) (iri : String) : String :=
  match s.own.contract? iri with
  | some c => c.text
  | none => if (s.scope t).table.resolve s.base iri = .ok iri then iri else "<" ++ iri ++ ">"

/-- An IRI whose spelling is read as it. -/
def Spellable (s : Style) (t : PrefixTable) (iri : String) : Prop :=
  (s.scope t).table.resolve s.base (s.spelling t iri) = .ok iri

instance (s : Style) (t : PrefixTable) (iri : String) : Decidable (s.Spellable t iri) :=
  inferInstanceAs (Decidable (_ = _))

theorem spellable_iff : s.Spellable t iri ↔ (s.scope t).resolve (s.spelling t iri) = .ok iri :=
  resolve_eq_ok_iff.symm

/-- An IRI is always spelled, in one way. -/
theorem decides_iriText (h : s.Ready) (iri : String) :
    Decides (s.iriText iri) t True fun text => text = s.spelling t iri := by
  unfold iriText spelling
  cases s.own.contract? iri with
  | some c => exact .pure rfl
  | none =>
    dsimp only
    have hnone : s.fallback.contract? iri = none := by
      rw [h.alone]
      rfl
    rw [hnone]
    refine Decides.bind_sure (Q := fun taken => taken = none) (.pure rfl) fun taken htaken => ?_
    rw [htaken]
    refine Decides.get.bind_sure fun u hu => ?_
    rw [hu]
    have hbracketed (hne : (s.scope t).resolve iri ≠ .ok iri) : "<" ++ iri ++ ">" =
        if (s.scope t).table.resolve s.base iri = .ok iri then iri else "<" ++ iri ++ ">" :=
      (if_neg fun hself => hne (resolve_eq_ok_iff.2 hself)).symm
    split
    · next read hread =>
      by_cases heq : read = iri
      · rw [if_pos heq]
        exact .pure (if_pos (resolve_eq_ok_iff.1 (heq ▸ hread))).symm
      · rw [if_neg heq]
        refine .pure (hbracketed fun hself => heq ?_)
        exact Except.ok.inj (hread.symm.trans hself)
    · next e herror =>
      refine .pure (hbracketed fun hself => ?_)
      cases herror.symm.trans hself

/-- A spelling is a text, and is not taken for the class property. -/
theorem spelling_ne (hbase : Iri.isAbsolute s.base = true) (t : PrefixTable) (iri : String) :
    (iri ≠ "" → s.spelling t iri ≠ "") ∧ s.spelling t iri ≠ "a" := by
  have hmarked {c : Char} {text : String} (hc : c ≠ 'a') (hmem : c ∈ text.toList) :
      (iri ≠ "" → text ≠ "") ∧ text ≠ "a" := by
    refine ⟨fun _ => ne_empty_of_mem hmem, ?_⟩
    rintro rfl
    exact hc (List.mem_singleton.1 hmem)
  unfold spelling
  split
  · next c hc =>
    obtain ⟨ns, rest, -, -, htext, -⟩ := PrefixTable.contract?_eq_some hc
    exact hmarked (c := ':') (by decide) (by rw [htext]; simp)
  · split
    · next hself =>
      refine ⟨id, ?_⟩
      rintro rfl
      exact PrefixTable.resolve_type_ne hbase _ hself
    · exact hmarked (c := '<') (by decide) (by simp)

/-- How an IRI that may be absent is spelled. -/
def optionalSpelling (s : Style) (t : PrefixTable) (iri : String) : String :=
  if iri = "" then "" else s.spelling t iri

/-- An IRI that may be absent is written if it is there. -/
theorem decides_optionalIri {β : Type} {f : String → Writing β} {P : Prop} {S : β → Prop}
    (h : s.Ready) (hf : Decides (f (s.optionalSpelling t iri)) t P S) :
    Decides (if iri = "" then Pure.pure "" >>= f else s.iriText iri >>= f) t P S := by
  refine Decides.ite_bind_sure (Q := fun text => text = s.optionalSpelling t iri)
    (fun hempty => .pure (if_pos hempty).symm) (fun hne => ?_) ?_
  · exact (decides_iriText h iri).mono fun text _ htext => htext.trans (if_neg hne).symm
  · rintro text rfl
    exact hf

theorem resolveOptional_spelling (h : s.Ready) :
    (s.scope t).resolveOptional (s.optionalSpelling t iri) = .ok iri ↔
      ∀ i ∈ (if iri = "" then [] else [iri]), s.Spellable t i := by
  unfold optionalSpelling Scope.resolveOptional
  by_cases hempty : iri = ""
  · rw [if_pos hempty, if_pos rfl, if_pos hempty, hempty]
    exact iff_of_true rfl (List.forall_mem_nil _)
  · rw [if_neg hempty, if_neg ((spelling_ne h.base t iri).1 hempty), if_neg hempty,
      List.forall_mem_singleton, spellable_iff]

/-! ## Term maps -/

/-- The scalars that are tried for a term map. -/
def scalars (s : Style) (t : PrefixTable) (site : Site) (tm : TermMap) : List String :=
  ((s.candidates site tm).run.run t).1.toOption.getD []

/-- A term map for which a scalar is tried that is read as it. -/
def HasScalar (s : Style) (t : PrefixTable) (site : Site) (tm : TermMap) : Prop :=
  ∃ text ∈ s.scalars t site tm, readsAsTerm (s.scope t) site (.ofText text) tm = true

/-- A term map whose full form is read as it. -/
structure HasMapping (s : Style) (t : PrefixTable) (tm : TermMap) : Prop where
  iris : ∀ iri ∈ tm.iris, s.Spellable t iri
  value : ∀ value ∈ tm.value, value.ReadAsWritten (s.scope t) tm.termType

/-- A term map with a form that is read as it. -/
def HasForm (s : Style) (t : PrefixTable) (site : Site) (tm : TermMap) : Prop :=
  s.HasScalar t site tm ∨ s.HasMapping t tm

/-- A term map that can be written at a site, with all the term maps inside it. -/
def Writable (s : Style) (t : PrefixTable) (site : Site) (tm : TermMap) : Prop :=
  s.HasForm t site tm ∧ ∀ value ∈ tm.value, value.Every (s.HasForm t { position := .parameter })

instance (s : Style) (t : PrefixTable) (tm : TermMap) : Decidable (s.HasMapping t tm) :=
  decidable_of_iff ((∀ iri ∈ tm.iris, s.Spellable t iri) ∧
    ∀ value ∈ tm.value, value.ReadAsWritten (s.scope t) tm.termType)
    ⟨fun h => ⟨h.1, h.2⟩, fun h => ⟨h.iris, h.value⟩⟩

instance (s : Style) (t : PrefixTable) (site : Site) (tm : TermMap) :
    Decidable (s.HasForm t site tm) :=
  inferInstanceAs (Decidable ((∃ text ∈ _, _ = true) ∨ _))

instance (s : Style) (t : PrefixTable) (site : Site) (tm : TermMap) :
    Decidable (s.Writable t site tm) :=
  inferInstanceAs (Decidable (_ ∧ ∀ value ∈ tm.value, ∀ u ∈ Value.nested value, _))

theorem decides_templateText? (h : s.Ready) (pattern : String) :
    Decides (s.templateText? pattern) t True fun _ => True := by
  unfold templateText?
  cases s.own.contractTemplate? pattern with
  | some c => exact .pure trivial
  | none =>
    dsimp only
    have hnone : s.fallback.contractTemplate? pattern = none := by
      rw [h.alone]
      rfl
    rw [hnone]
    exact .pure trivial

/-- The scalars that may stand for a term map can be listed. -/
theorem decides_candidates (h : s.Ready) (site : Site) (tm : TermMap) :
    Decides (s.candidates site tm) t True fun texts => texts = s.scalars t site tm := by
  have hlist : Decides (s.candidates site tm) t True fun _ => True := by
    unfold candidates
    split
    · exact .pure trivial
    · cases tm.value with
      | none => exact .pure trivial
      | some value =>
        cases value with
        | constant term =>
          dsimp only
          unfold constantCandidates
          split
          · split
            · exact .pure trivial
            · exact (decides_iriText h term.value).bind_sure fun _ _ => .pure trivial
          · exact .pure trivial
          · split <;> exact .pure trivial
        | template pattern =>
          exact Decides.ite_bind_sure (fun _ => decides_templateText? h pattern)
            (fun _ => .pure trivial) fun _ _ => .pure trivial
        | reference name | function iri parameters | join parent conditions => exact .pure trivial
  rcases hlist with ⟨-, texts, hrun, -⟩ | ⟨hfalse, -⟩
  · refine .inl ⟨trivial, texts, hrun, ?_⟩
    rw [scalars, hrun]
    rfl
  · exact absurd trivial hfalse

/-- No scalar stands for a term map with others inside it. -/
theorem HasScalar.nested (h : s.HasScalar t site tm) : ∀ value ∈ tm.value, value.nested = [] := by
  intro value hvalue
  cases value with
  | constant | reference | template | join => rfl
  | function iri parameters =>
    obtain ⟨text, htext, -⟩ := h
    have hnone : s.scalars t site tm = [] := by
      unfold scalars candidates
      rw [Option.mem_def.1 hvalue]
      split <;> rfl
    rw [hnone] at htext
    cases htext

end Style

end Shorthand

end RdfMapping
