/-
# Abbreviations

An IRI is abbreviated by the longest namespace that leaves a plain local name, and a template by the
longest one that begins its head.  Each abbreviation stands for what it was made from.
-/
import Mathlib.Data.List.Basic
import RdfMapping.Proofs.Iri.TemplateHeads

namespace RdfMapping.Iri.PrefixTable

variable {t : PrefixTable} {passes : String → Bool} {label ns text base rest : String}

/-! ## The search for the longest namespace -/

/-- A binding with a namespace that is not empty and passes the test. -/
def Fits (passes : String → Bool) (b : String × String) : Prop :=
  b.2 ≠ "" ∧ passes b.2 = true

/-- The binding to take: longer than those before, as long as any. -/
structure Leads (passes : String → Bool) (before : List (String × String)) (b : String × String)
    (after : List (String × String)) : Prop where
  fits : Fits passes b
  before : ∀ x ∈ before, Fits passes x → x.2.utf8ByteSize < b.2.utf8ByteSize
  after : ∀ x ∈ after, Fits passes x → x.2.utf8ByteSize ≤ b.2.utf8ByteSize

/-- What the search has found after some bindings. -/
def Settles (passes : String → Bool) (seen : List (String × String)) :
    Option (String × String) → Prop
  | none => ∀ x ∈ seen, ¬ Fits passes x
  | some b => ∃ before after, seen = before ++ b :: after ∧ Leads passes before b after

section Search

variable {passes : String → Bool} {seen : List (String × String)} {next : String × String}

theorem better_of_not_fits {best : Option (String × String)} (h : ¬ Fits passes next) :
    better passes best next = best := by
  refine if_neg fun htest => h ?_
  simpa [Fits] using htest

theorem better_none (h : Fits passes next) : better passes none next = some next := by
  refine if_pos ?_
  simpa [Fits] using h

theorem better_some {found : String × String} (h : Fits passes next) :
    better passes (some found) next =
      if found.2.utf8ByteSize < next.2.utf8ByteSize then some next else some found := by
  refine if_pos ?_
  simpa [Fits] using h

theorem Leads.append_after {before after : List (String × String)} {b : String × String}
    (h : Leads passes before b after)
    (hnext : Fits passes next → next.2.utf8ByteSize ≤ b.2.utf8ByteSize) :
    Leads passes before b (after ++ [next]) := by
  refine ⟨h.fits, h.before, fun x hx hfits => ?_⟩
  rcases List.mem_append.1 hx with hx | hx
  · exact h.after x hx hfits
  · rw [List.mem_singleton.1 hx] at hfits ⊢
    exact hnext hfits

/-- One step of the search. -/
theorem settles_better {best : Option (String × String)} (h : Settles passes seen best)
    (next : String × String) : Settles passes (seen ++ [next]) (better passes best next) := by
  by_cases hnext : Fits passes next
  · cases best with
    | none =>
      rw [better_none hnext]
      refine ⟨seen, [], rfl, hnext, fun x hx hfits => absurd hfits (h x hx), ?_⟩
      exact fun x hx => absurd hx List.not_mem_nil
    | some found =>
      obtain ⟨before, after, rfl, hleads⟩ := h
      rw [better_some hnext]
      split
      · next hlonger =>
        -- the new binding is longer than the one found, hence than all before it
        refine ⟨before ++ found :: after, [], rfl, hnext, fun x hx hfits => ?_, ?_⟩
        · rcases List.mem_append.1 hx with hx | hx
          · exact Nat.lt_trans (hleads.before x hx hfits) hlonger
          · rcases List.mem_cons.1 hx with rfl | hx
            · exact hlonger
            · exact Nat.lt_of_le_of_lt (hleads.after x hx hfits) hlonger
        · exact fun x hx => absurd hx List.not_mem_nil
      · next hshorter =>
        refine ⟨before, after ++ [next], by simp, hleads.append_after fun _ => ?_⟩
        exact Nat.le_of_not_lt hshorter
  · rw [better_of_not_fits hnext]
    cases best with
    | none =>
      intro x hx
      rcases List.mem_append.1 hx with hx | hx
      · exact h x hx
      · rwa [List.mem_singleton.1 hx]
    | some found =>
      obtain ⟨before, after, rfl, hleads⟩ := h
      refine ⟨before, after ++ [next], by simp, hleads.append_after fun hfits => ?_⟩
      exact absurd hfits hnext

/-- **The search ends with the first of the longest namespaces.** -/
theorem settles_longest? (bindings : List (String × String)) (passes : String → Bool) :
    Settles passes bindings (longest? bindings passes) := by
  have hrun (bs seen : List (String × String)) (best : Option (String × String))
      (h : Settles passes seen best) :
      Settles passes (seen ++ bs) (bs.foldl (better passes) best) := by
    induction bs generalizing seen best with
    | nil => rwa [List.append_nil]
    | cons b bs ih =>
      rw [List.append_cons]
      exact ih _ _ (settles_better h b)
  exact hrun bindings [] none fun x hx => absurd hx List.not_mem_nil

end Search

/-! ## The preferred label -/

/-- A label whose namespace is good, as long as any and of those the first. -/
structure Prefers (t : PrefixTable) (Good : String → Prop) (label ns : String) : Prop where
  bound : t.lookup? label = some ns
  good : Good ns
  longest : ∀ l n, t.lookup? l = some n → Good n → n.utf8ByteSize ≤ ns.utf8ByteSize
  first : ∀ l n, t.lookup? l = some n → Good n → n.utf8ByteSize = ns.utf8ByteSize →
    t.labels.idxOf label ≤ t.labels.idxOf l

/-- The leading binding has the preferred label. -/
theorem prefers_of_leads {before after : List (String × String)}
    (ht : t.bindings = before ++ (label, ns) :: after) (h : Leads passes before (label, ns) after) :
    t.Prefers (fun n => n ≠ "" ∧ passes n = true) label ns := by
  have hmem {l n : String} (hl : t.lookup? l = some n) :
      (l, n) ∈ before ∨ (l, n) = (label, ns) ∨ (l, n) ∈ after := by
    have := mem_of_lookup? hl
    rwa [ht, List.mem_append, List.mem_cons] at this
  refine ⟨?_, h.fits, fun l n hl hfits => ?_, fun l n hl hfits hsize => ?_⟩
  · refine lookup?_of_mem ?_
    rw [ht]
    exact List.mem_append_right _ (List.mem_cons_self ..)
  · rcases hmem hl with hbefore | heq | hafter
    · exact Nat.le_of_lt (h.before _ hbefore hfits)
    · cases heq
      exact Nat.le_refl _
    · exact h.after _ hafter hfits
  · -- the labels before the preferred one have shorter namespaces, so `l` is not among them
    have hnodup := t.inStep.nodup
    rw [← map_fst_bindings, ht, List.map_append, List.map_cons, List.nodup_append] at hnodup
    have hlabel : label ∉ before.map Prod.fst :=
      fun hb => hnodup.2.2 _ hb _ (List.mem_cons_self ..) rfl
    have hl' : l ∉ before.map Prod.fst := by
      rcases hmem hl with hbefore | heq | hafter
      · exact absurd hsize (Nat.ne_of_lt (h.before _ hbefore hfits))
      · cases heq
        exact hlabel
      · intro hb
        exact hnodup.2.2 _ hb _ (List.mem_cons_of_mem _ (List.mem_map_of_mem hafter)) rfl
    rw [← map_fst_bindings, ht, List.map_append, List.map_cons, List.idxOf_append_of_notMem hlabel,
      List.idxOf_append_of_notMem hl', List.idxOf_cons_self]
    exact Nat.le_add_right _ _

/-- **An abbreviation is the preferred label and the rest.** -/
theorem contractWith?_prefers (t : PrefixTable)
    (hstart : ∀ ns, passes ns = true → ∃ rest, text = ns ++ rest) :
    (∀ c, t.contractWith? text passes = some c → ∃ ns rest,
      t.Prefers (fun n => n ≠ "" ∧ passes n = true) c.label ns ∧ text = ns ++ rest ∧
        c.text = c.label ++ ":" ++ rest) ∧
      (t.contractWith? text passes = none ↔
        ∀ l ns, t.lookup? l = some ns → ¬ (ns ≠ "" ∧ passes ns = true)) := by
  have hsearch := settles_longest? t.bindings passes
  unfold contractWith?
  cases hlongest : longest? t.bindings passes with
  | none =>
    rw [hlongest] at hsearch
    refine ⟨fun c hc => ?_, iff_of_true rfl fun l ns hl => hsearch (l, ns) (mem_of_lookup? hl)⟩
    cases hc
  | some b =>
    obtain ⟨label, ns⟩ := b
    rw [hlongest] at hsearch
    obtain ⟨before, after, ht, hleads⟩ := hsearch
    obtain ⟨rest, rfl⟩ := hstart ns hleads.fits.2
    have hstrip : Text.stripStart? ns (ns ++ rest) = some rest := by
      rw [Text.stripStart?, String.toList_append, Chars.stripStart?_append, Option.map_some,
        String.ofList_toList]
    have hprefers := prefers_of_leads ht hleads
    simp only [Option.bind_eq_bind, Option.bind_some, hstrip]
    refine ⟨fun c hc => ?_, iff_of_false (Option.some_ne_none _) fun hnone => ?_⟩
    · cases hc
      exact ⟨ns, rest, hprefers, rfl, rfl⟩
    · exact hnone label ns hprefers.bound hprefers.good

/-- A namespace is taken off a text that it begins. -/
theorem any_stripStart?_iff {test : List Char → Bool} :
    (Chars.stripStart? ns.toList text.toList).any test = true ↔
      ∃ rest : String, text = ns ++ rest ∧ test rest.toList = true := by
  constructor
  · intro h
    cases hstrip : Chars.stripStart? ns.toList text.toList with
    | none =>
      rw [hstrip] at h
      cases h
    | some chars =>
      rw [hstrip] at h
      refine ⟨.ofList chars, ?_, by rwa [String.toList_ofList]⟩
      rw [← String.toList_inj, String.toList_append, String.toList_ofList]
      exact Chars.stripStart?_eq_some hstrip
  · rintro ⟨rest, rfl, htest⟩
    rw [String.toList_append, Chars.stripStart?_append]
    exact htest

/-! ## IRIs -/

/-- A namespace that abbreviates an IRI. -/
def Abbreviates (iri ns : String) : Prop :=
  ns ≠ "" ∧ ∃ rest, iri = ns ++ rest ∧ isLocalName rest.toList = true

theorem leavesLocalName_iff {iri : String} :
    leavesLocalName iri ns = true ↔ ∃ rest, iri = ns ++ rest ∧ isLocalName rest.toList = true := by
  rw [← any_stripStart?_iff, leavesLocalName]
  cases Chars.stripStart? ns.toList iri.toList <;> rfl

/-- **An abbreviation of an IRI stands for it**, with the preferred label of those whose namespaces
abbreviate it; there is none exactly if no namespace does. -/
theorem contract?_prefers {t : PrefixTable} (hlabels : ∀ l ∈ t.labels, ':' ∉ l.toList)
    (base iri : String) :
    (∀ c, t.contract? iri = some c → t.resolve base c.text = .ok iri ∧
      ∃ ns rest, t.Prefers (Abbreviates iri) c.label ns ∧ iri = ns ++ rest ∧
        c.text = c.label ++ ":" ++ rest) ∧
      (t.contract? iri = none ↔ ∀ l ns, t.lookup? l = some ns → ¬ Abbreviates iri ns) := by
  have hgood : (fun ns => ns ≠ "" ∧ leavesLocalName iri ns = true) = Abbreviates iri :=
    funext fun ns => propext (and_congr_right fun _ => leavesLocalName_iff)
  have hstart (ns : String) (h : leavesLocalName iri ns = true) : ∃ rest, iri = ns ++ rest := by
    obtain ⟨rest, hrest, -⟩ := leavesLocalName_iff.1 h
    exact ⟨rest, hrest⟩
  obtain ⟨hsome, hnone⟩ := t.contractWith?_prefers hstart
  rw [hgood] at hsome
  refine ⟨fun c hc => ?_, hnone.trans (by rw [← hgood])⟩
  obtain ⟨ns, rest, hprefers, rfl, htext⟩ := hsome c hc
  refine ⟨?_, ns, rest, hprefers, rfl, htext⟩
  obtain ⟨-, rest', hrest, hlocal⟩ := hprefers.good
  rw [String.append_right_inj] at hrest
  rw [htext]
  exact resolve_contraction hprefers.bound (hlabels _ (mem_labels_of_lookup? hprefers.bound))
    (hrest ▸ hlocal)

/-- A table with one namespace inside another, and two labels for the inner one. -/
def nestedTable : PrefixTable :=
  .ofList [("ex", "http://ex.org/"), ("v", "http://ex.org/v#"), ("w", "http://ex.org/v#")]

theorem contract?_prefers_inner :
    (∀ l ∈ nestedTable.labels, ':' ∉ l.toList) ∧
      nestedTable.contract? "http://ex.org/v#age" = some ⟨"v:age", "v"⟩ ∧
      nestedTable.resolve "http://base.org/" "v:age" = .ok "http://ex.org/v#age" := by
  have hlabels : ∀ l ∈ nestedTable.labels, ':' ∉ l.toList := by decide
  have hc : nestedTable.contract? "http://ex.org/v#age" = some ⟨"v:age", "v"⟩ := by decide
  exact ⟨hlabels, hc, ((contract?_prefers hlabels "http://base.org/" _).1 _ hc).1⟩

/-! ## Templates -/

/-- A namespace that abbreviates the head of a template. -/
def AbbreviatesHead (head ns : String) : Prop :=
  ns ≠ "" ∧ ∃ rest, head = ns ++ rest ∧ Text.startsWith "//" rest = false

theorem leavesHead_iff {head : String} :
    leavesHead head ns = true ↔
      ∃ rest, head = ns ++ rest ∧ Text.startsWith "//" rest = false := by
  have hany : leavesHead head ns =
      (Chars.stripStart? ns.toList head.toList).any fun rest => !(['/', '/'].isPrefixOf rest) := by
    rw [leavesHead]
    cases Chars.stripStart? ns.toList head.toList <;> rfl
  rw [hany, any_stripStart?_iff]
  simp only [Bool.not_eq_true']
  rfl

theorem isNameChar_of_isLabel {label : List Char} (h : isLabel label = true) :
    ∀ c ∈ label, isNameChar c = true := by
  cases label with
  | nil => exact fun c hc => absurd hc List.not_mem_nil
  | cons d rest =>
    rw [isLabel, Bool.and_eq_true] at h
    refine List.forall_mem_cons.2 ⟨?_, List.all_eq_true.1 h.2⟩
    rw [isNameChar, h.1]
    rfl

/-- A prefixed name means its namespace and the rest, unless two slashes begin it. -/
theorem resolve_prefixed (hlookup : t.lookup? label = some ns)
    (hlabel : ∀ c ∈ label.toList, isNameChar c = true) (hrest : Text.startsWith "//" rest = false) :
    t.resolve base (label ++ ":" ++ rest) = .ok (ns ++ rest) := by
  have hcut : Text.cutFirst? ':' (label ++ ":" ++ rest) = some (label, rest) :=
    Text.cutFirst?_eq_of_toList (by simp) fun hcolon => absurd (hlabel _ hcolon) (by decide)
  have hbracket : unbracket? (label ++ ":" ++ rest) = none := by
    rw [Option.eq_none_iff_forall_ne_some]
    intro inner hinner
    have hchars := unbracket?_eq_some hinner
    rw [(Text.cutFirst?_eq_some hcut).1] at hchars
    cases hfirst : label.toList with
    | nil =>
      rw [hfirst] at hchars
      exact absurd (List.cons.inj hchars).1 (by decide)
    | cons c cs =>
      rw [hfirst] at hchars hlabel
      rw [(List.cons.inj hchars).1] at hlabel
      exact absurd (hlabel _ (List.mem_cons_self ..)) (by decide)
  rw [resolve, hbracket, hcut]
  dsimp only
  rw [hrest, if_neg Bool.false_ne_true, hlookup]

/-- A template with a prefixed head means that of its namespace. -/
theorem resolveTemplate_prefixed {t : PrefixTable} {base label ns name rest : String}
    (hlookup : t.lookup? label = some ns) (hlabel : isLabel label.toList = true)
    (hscheme : isSlashlessScheme label = false) (hslashes : Text.startsWith "//" name = false)
    (hname : '{' ∉ name.toList) (hrest : rest = "" ∨ rest.toList.head? = some '{') :
    t.resolveTemplate base (label ++ ":" ++ name ++ rest) = .ok (ns ++ name ++ rest) := by
  have hchars := isNameChar_of_isLabel hlabel
  have hbrace : '{' ∉ (label ++ ":" ++ name).toList := by
    simp only [String.toList_append, List.mem_append, not_or]
    exact ⟨⟨fun h => absurd (hchars _ h) (by decide), by decide⟩, hname⟩
  have hcut : Text.cutFirst? ':' (label ++ ":" ++ name) = some (label, name) :=
    Text.cutFirst?_eq_of_toList (by simp) fun hcolon => absurd (hchars _ hcolon) (by decide)
  have habsolute : isAbsoluteHead (label ++ ":" ++ name) = false := by
    simp only [isAbsoluteHead, hcut, hslashes, hscheme, Bool.or_self]
  have hne : label ++ ":" ++ name ≠ "" := by
    intro hempty
    rw [hempty] at hcut
    cases hcut
  rw [resolveTemplate_of_not_isAbsoluteHead (cutHead_of_append hbrace hrest) hne habsolute,
    resolve_prefixed hlookup hchars hslashes]
  rfl

/-- **An abbreviation of a template stands for it**, with the preferred label of those whose
namespaces abbreviate its head; there is none exactly if no namespace does. -/
theorem contractTemplate?_prefers {t : PrefixTable}
    (hlabels : ∀ l ∈ t.labels, isLabel l.toList = true ∧ isSlashlessScheme l = false)
    (base pattern : String) :
    (∀ c, t.contractTemplate? pattern = some c → t.resolveTemplate base c.text = .ok pattern ∧
      ∃ ns rest, t.Prefers (AbbreviatesHead (cutHead pattern).1) c.label ns ∧
        pattern = ns ++ rest ∧ c.text = c.label ++ ":" ++ rest) ∧
      (t.contractTemplate? pattern = none ↔
        ∀ l ns, t.lookup? l = some ns → ¬ AbbreviatesHead (cutHead pattern).1 ns) := by
  have hpattern : pattern = (cutHead pattern).1 ++ (cutHead pattern).2 := by
    rw [← String.toList_inj, String.toList_append, ← cutHead_append]
  have hgood : (fun ns => ns ≠ "" ∧ leavesHead (cutHead pattern).1 ns = true) =
      AbbreviatesHead (cutHead pattern).1 :=
    funext fun ns => propext (and_congr_right fun _ => leavesHead_iff)
  have hstart (ns : String) (h : leavesHead (cutHead pattern).1 ns = true) :
      ∃ rest, pattern = ns ++ rest := by
    obtain ⟨rest, hrest, -⟩ := leavesHead_iff.1 h
    exact ⟨rest ++ (cutHead pattern).2, by rw [← String.append_assoc, ← hrest, ← hpattern]⟩
  obtain ⟨hsome, hnone⟩ := t.contractWith?_prefers hstart
  rw [hgood] at hsome
  refine ⟨fun c hc => ?_, hnone.trans (by rw [← hgood])⟩
  obtain ⟨ns, rest, hprefers, hrest, htext⟩ := hsome c hc
  refine ⟨?_, ns, rest, hprefers, hrest, htext⟩
  -- the head of the abbreviation is the label with what the namespace leaves of the head
  obtain ⟨-, name, hname, hslashes⟩ := hprefers.good
  obtain ⟨hlabel, hscheme⟩ :=
    hlabels c.label (mem_labels_of_lookup? hprefers.bound)
  have hbrace : '{' ∉ name.toList := by
    have hhead := brace_not_mem_head pattern
    rw [hname, String.toList_append, List.mem_append, not_or] at hhead
    exact hhead.2
  have hwhole : c.text = c.label ++ ":" ++ name ++ (cutHead pattern).2 := by
    rw [hpattern, hname, String.append_assoc, String.append_right_inj] at hrest
    rw [htext, ← hrest, ← String.append_assoc]
  rw [hwhole, resolveTemplate_prefixed hprefers.bound hlabel hscheme hslashes hbrace
    (cutHead_rest pattern), ← hname, ← hpattern]

theorem contractTemplate?_prefers_inner :
    (∀ l ∈ nestedTable.labels, isLabel l.toList = true ∧ isSlashlessScheme l = false) ∧
      nestedTable.contractTemplate? "http://ex.org/v#{x}/{y}" = some ⟨"v:{x}/{y}", "v"⟩ ∧
      nestedTable.resolveTemplate "http://base.org/" "v:{x}/{y}" =
        .ok "http://ex.org/v#{x}/{y}" := by
  have hlabels : ∀ l ∈ nestedTable.labels,
      isLabel l.toList = true ∧ isSlashlessScheme l = false := by
    decide +kernel
  have hc : nestedTable.contractTemplate? "http://ex.org/v#{x}/{y}" =
      some ⟨"v:{x}/{y}", "v"⟩ := by decide
  exact ⟨hlabels, hc, ((contractTemplate?_prefers hlabels "http://base.org/" _).1 _ hc).1⟩

end RdfMapping.Iri.PrefixTable
