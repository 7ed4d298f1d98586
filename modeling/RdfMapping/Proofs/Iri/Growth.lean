/-
# Names under a growing table

A name may mean something else once the prefix table has more labels.  Only a name that was read
against the base can, and its meaning then begins with a letter while the name does not.
-/
import RdfMapping.Iri.Contraction
import RdfMapping.Proofs.Keys

namespace RdfMapping.Iri

variable {text : List Char} {r : Reference} {base iri label ns : String} {t u : PrefixTable}
  {passes : String → Bool} {b : String × String}

/-! ## First letters -/

/-- Whether a text begins with a letter of ASCII. -/
def beginsWithLetter (s : List Char) : Bool :=
  s.head?.any Char.isAlpha

theorem beginsWithLetter_append {s : List Char} (h : beginsWithLetter s = true) (t : List Char) :
    beginsWithLetter (s ++ t) = true := by
  cases s with
  | nil => cases h
  | cons c rest => exact h

/-- Lower case keeps a letter a letter. -/
theorem isAlpha_toLower {c : Char} (h : c.isAlpha = true) : c.toLower.isAlpha = true := by
  unfold Char.toLower
  split
  · next hc =>
    obtain ⟨hlo, hhi⟩ := hc
    unfold Char.isAlpha Char.isUpper Char.isLower
    simp only [Bool.or_eq_true, Bool.and_eq_true, decide_eq_true_eq, ge_iff_le,
      UInt32.le_iff_toNat_le, UInt32.toNat_add] at hlo hhi ⊢
    have hA : 'A'.val.toNat = 65 := rfl
    have hZ : 'Z'.val.toNat = 90 := rfl
    have ha : 'a'.val.toNat = 97 := rfl
    have hz : 'z'.val.toNat = 122 := rfl
    have hdiff : ('a'.val - 'A'.val).toNat = 32 := rfl
    omega
  · exact h

namespace Reference

/-- A text with a scheme begins with a letter. -/
theorem beginsWithLetter_of_cutScheme? {letters rest : List Char}
    (h : cutScheme? text = some (letters, rest)) (hne : letters ≠ []) :
    beginsWithLetter text = true ∧ beginsWithLetter letters = true := by
  unfold cutScheme? at h
  dsimp only at h
  split at h
  · cases h
  · next tail c cs _ hletters =>
    split at h
    · next hc =>
      rw [hletters] at h
      cases h
      have hhead : text.head? = some c := by
        cases text with
        | nil => cases hletters
        | cons d rest =>
          rw [List.takeWhile_cons] at hletters
          split at hletters
          · cases hletters
            rfl
          · cases hletters
      exact ⟨by rw [beginsWithLetter, hhead]; exact hc, hc⟩
    · cases h
      exact absurd rfl hne
  · cases h
    exact absurd rfl hne

/-- How a text without a fragment is read. -/
inductive Parsed : List Char → Reference → Prop
  | star : Parsed ['*'] { path := ['*'] }
  | rootless {text letters rest body query : List Char} {emptyQuery : Bool}
      (hscheme : cutScheme? text = some (letters, rest))
      (hquery : cutQuery rest = (body, query, emptyQuery)) (hne : letters.map Char.toLower ≠ []) :
      Parsed text { scheme := letters.map Char.toLower, rootless := body, query, emptyQuery }
  | path {text letters rest body query path : List Char} {emptyQuery : Bool}
      (hscheme : cutScheme? text = some (letters, rest))
      (hquery : cutQuery rest = (body, query, emptyQuery))
      (hpath : normalizePath? body = some path) :
      Parsed text { scheme := letters.map Char.toLower, path, query, emptyQuery }
  | authority {text letters rest after query host path : List Char} {user : Option (List Char)}
      {emptyQuery : Bool} (hscheme : cutScheme? text = some (letters, rest))
      (hquery : cutQuery rest = ('/' :: '/' :: after, query, emptyQuery))
      (hauthority : parseAuthority? (after.takeWhile (· ≠ '/')) = some (user, host))
      (hpath : normalizePath? (after.dropWhile (· ≠ '/')) = some path) :
      Parsed text { scheme := letters.map Char.toLower, user, host, path, query, emptyQuery }

/-- A reference is parsed in one of the known ways. -/
theorem parsed_of_parseBody? (h : parseBody? text = some r) :
    Parsed text r := by
  unfold parseBody? at h
  split at h
  · cases h
  · split at h
    · next hstar =>
      cases h
      rw [hstar]
      exact .star
    · obtain ⟨⟨letters, rest⟩, hscheme, hrest⟩ := Option.bind_eq_some_iff.1 h
      dsimp only at hrest
      cases hquery : cutQuery rest with
      | mk body cut =>
        obtain ⟨query, emptyQuery⟩ := cut
        rw [hquery] at hrest
        dsimp only at hrest
        split at hrest
        · next hrootless =>
          cases hrest
          rw [Bool.and_eq_true, decide_eq_true_eq, decide_eq_true_eq] at hrootless
          exact .rootless hscheme hquery hrootless.2
        · split at hrest
          · cases hrest
          · split at hrest
            · next after =>
              split at hrest
              · -- three slashes begin a path, and there is no scheme
                next hslashes =>
                obtain ⟨path, hpath, heq⟩ := Option.bind_eq_some_iff.1 hrest
                cases heq
                rw [Bool.and_eq_true, decide_eq_true_eq] at hslashes
                have hread := Parsed.path hscheme hquery hpath
                rwa [hslashes.1] at hread
              · obtain ⟨⟨user, host⟩, hauthority, hafter⟩ := Option.bind_eq_some_iff.1 hrest
                obtain ⟨path, hpath, heq⟩ := Option.bind_eq_some_iff.1 hafter
                cases heq
                exact .authority hscheme hquery hauthority hpath
            · obtain ⟨path, hpath, heq⟩ := Option.bind_eq_some_iff.1 hrest
              cases heq
              exact .path hscheme hquery hpath

theorem Parsed.scheme (h : Parsed text r) (hs : r.scheme ≠ []) :
    ∃ letters rest, cutScheme? text = some (letters, rest) ∧
      r.scheme = letters.map Char.toLower := by
  cases h with
  | star => exact absurd rfl hs
  | rootless hscheme => exact ⟨_, _, hscheme, rfl⟩
  | path hscheme => exact ⟨_, _, hscheme, rfl⟩
  | authority hscheme => exact ⟨_, _, hscheme, rfl⟩

/-- What follows a scheme without a slash is there only after a scheme. -/
theorem Parsed.rootless_eq_nil (h : Parsed text r) (hs : r.scheme = []) : r.rootless = [] := by
  cases h with
  | star => rfl
  | rootless _ _ hne => exact absurd hs hne
  | path => rfl
  | authority => rfl

/-- A text is read as its body is, with or without a fragment. -/
theorem parse?_eq_some (h : parse? text = some r) :
    Parsed text r ∨ ∃ body fragment b f, text = body ++ '#' :: fragment ∧ Parsed body b ∧
      Percent.normalize? .fragment fragment = some f ∧ r = { b with fragment := f } := by
  unfold parse? at h
  split at h
  · exact .inl (parsed_of_parseBody? h)
  · next body fragment hcut =>
    simp only [Option.bind_eq_bind, Option.bind_eq_some_iff, Option.pure_def,
      Option.some.injEq] at h
    obtain ⟨b, hb, f, hf, rfl⟩ := h
    exact .inr ⟨body, fragment, b, f, Chars.cutFirst?_eq_some hcut, parsed_of_parseBody? hb, hf,
      rfl⟩

/-- A reference with a scheme begins with a letter, and so does the scheme. -/
theorem beginsWithLetter_of_parse? (h : parse? text = some r) (hs : r.scheme ≠ []) :
    beginsWithLetter text = true ∧ beginsWithLetter r.scheme = true := by
  have hbody {body : List Char} {b : Reference} (hb : Parsed body b) (hbs : b.scheme ≠ []) :
      beginsWithLetter body = true ∧ beginsWithLetter b.scheme = true := by
    obtain ⟨letters, rest, hcut, heq⟩ := hb.scheme hbs
    rw [heq] at hbs ⊢
    cases letters with
    | nil => exact absurd rfl hbs
    | cons c cs =>
      obtain ⟨htext, hletters⟩ := beginsWithLetter_of_cutScheme? hcut (List.cons_ne_nil _ _)
      exact ⟨htext, isAlpha_toLower hletters⟩
  rcases parse?_eq_some h with hr | ⟨body, fragment, b, f, rfl, hb, -, rfl⟩
  · exact hbody hr hs
  · obtain ⟨htext, hscheme⟩ := hbody hb hs
    exact ⟨beginsWithLetter_append htext _, hscheme⟩

end Reference

/-! ## Resolution against the base -/

theorem beginsWithLetter_of_isAbsolute (h : isAbsolute base = true) :
    beginsWithLetter base.toList = true := by
  unfold isAbsolute at h
  split at h
  · next r hr => exact (Reference.beginsWithLetter_of_parse? hr (by simpa using h)).1
  · cases h

theorem scheme_resolve (b r : Reference) : (Reference.resolve b r).scheme = b.scheme := by
  unfold Reference.resolve
  split
  · rfl
  · dsimp only
    split <;> rfl

/-- What is appended to a base begins as the base does. -/
theorem beginsWithLetter_appendToBase (h : beginsWithLetter base.toList = true) (text : String) :
    beginsWithLetter (appendToBase base text).toList = true := by
  unfold appendToBase
  split
  · rw [String.toList_append]
    exact beginsWithLetter_append h _
  · split
    · next before after hcut =>
      obtain ⟨⟨b, a⟩, hb, heq⟩ := Option.map_eq_some_iff.1 hcut
      cases heq
      have hbase := Chars.cutLast?_eq_some hb
      cases b with
      | nil =>
        rw [hbase] at h
        cases h
      | cons c cs =>
        rw [hbase] at h
        simp only [String.toList_append, String.toList_ofList, List.append_assoc]
        exact h
    · simp only [String.toList_append, List.append_assoc]
      exact beginsWithLetter_append h _

/-- **What is resolved begins with a letter**, or has a scheme. -/
theorem beginsWithLetter_resolveIri {text : String} (hbase : isAbsolute base = true)
    (htext : beginsWithLetter text.toList = false) :
    beginsWithLetter (resolveIri base text).toList = true := by
  have hletter := beginsWithLetter_of_isAbsolute hbase
  unfold isAbsolute at hbase
  unfold resolveIri
  split
  · next b r hb hr =>
    rw [hb] at hbase
    have hscheme := (Reference.beginsWithLetter_of_parse? hb (by simpa using hbase)).2
    split
    · next hs =>
      rw [(Reference.beginsWithLetter_of_parse? hr hs).1] at htext
      cases htext
    · have hne : (Reference.resolve b r).scheme ≠ [] := by
        rw [scheme_resolve]
        simpa using hbase
      rw [String.toList_ofList, Reference.render, if_neg hne, scheme_resolve]
      simp only [List.append_assoc]
      exact beginsWithLetter_append hscheme _
  · exact beginsWithLetter_appendToBase hletter text

/-! ## Growing tables -/

namespace PrefixTable

variable {text rest : String} {best : Option (String × String)} {c : Compact}

/-- A label that may be declared later. -/
def Declarable (label : String) : Prop :=
  label.toList.all isNameChar = true ∧ isSlashlessScheme label = false

/-- A table with all bindings of another, and declarable labels. -/
structure Grown (t u : PrefixTable) : Prop where
  keeps : ∀ l ns, t.lookup? l = some ns → u.lookup? l = some ns
  adds : ∀ l, t.lookup? l = none → u.lookup? l ≠ none → Declarable l

theorem Grown.refl (t : PrefixTable) : t.Grown t :=
  ⟨fun _ _ h => h, fun _ h hne => absurd h hne⟩

theorem Grown.trans {v : PrefixTable} (h : t.Grown u) (h' : u.Grown v) : t.Grown v := by
  refine ⟨fun l ns hl => h'.keeps l ns (h.keeps l ns hl), fun l hl hne => ?_⟩
  cases hu : u.lookup? l with
  | none => exact h'.adds l hu hne
  | some ns => exact h.adds l hl (by rw [hu]; exact Option.some_ne_none ns)

/-- A name that begins with no letter, whose meaning does. -/
structure Shaky (t : PrefixTable) (name text iri : String) : Prop where
  unbound : ∃ label rest, Text.cutFirst? ':' name = some (label, rest) ∧
    t.lookup? label = none ∧ label.toList.all isNameChar = true
  text : beginsWithLetter text.toList = false
  iri : beginsWithLetter iri.toList = true

/-- A label that is none as such does not begin with a letter. -/
theorem beginsWithLetter_of_not_isLabel {label : List Char} (h : label.all isNameChar = true)
    (hl : isLabel label = false) : beginsWithLetter label = false ∧ label ≠ [] := by
  cases label with
  | nil => cases hl
  | cons c rest =>
    rw [List.all_cons, Bool.and_eq_true] at h
    rw [isLabel, h.2, Bool.and_true, isNameStart, Bool.or_eq_false_iff] at hl
    exact ⟨hl.1, List.cons_ne_nil _ _⟩

/-- **A name keeps its meaning when the table grows, unless it is shaky.** -/
theorem resolve_of_grown (hbase : isAbsolute base = true) (h : t.Grown u)
    (hr : t.resolve base text = .ok iri) :
    u.resolve base text = .ok iri ∨ t.Shaky text text iri := by
  unfold resolve at hr ⊢
  split at hr
  · exact .inl hr
  · split at hr
    · exact .inl hr
    · next label rest hcut =>
      obtain ⟨htext, -⟩ := Text.cutFirst?_eq_some hcut
      split at hr
      · next hslashes => exact .inl (by rw [if_pos hslashes]; exact hr)
      · next hslashes =>
        rw [if_neg hslashes]
        cases ht : t.lookup? label with
        | some ns =>
          rw [ht] at hr
          rw [h.keeps label ns ht]
          exact .inl hr
        | none =>
          rw [ht] at hr
          cases hu : u.lookup? label with
          | none => exact .inl hr
          | some ns =>
            -- the label was declared meanwhile, so the name was read against the base
            obtain ⟨hchars, hscheme⟩ := h.adds label ht (by rw [hu]; exact Option.some_ne_none ns)
            suffices hletters : beginsWithLetter text.toList = false ∧
                beginsWithLetter iri.toList = true from
              .inr ⟨⟨label, rest, hcut, ht, hchars⟩, hletters.1, hletters.2⟩
            dsimp only at hr
            split at hr
            · next hempty =>
              cases hr
              rw [htext, hempty, String.toList_append]
              exact ⟨rfl, beginsWithLetter_append (beginsWithLetter_of_isAbsolute hbase) _⟩
            · rw [hscheme, if_neg Bool.false_ne_true] at hr
              split at hr
              · cases hr
              · next hlabel =>
                cases hr
                obtain ⟨hletter, hne⟩ :=
                  beginsWithLetter_of_not_isLabel hchars (Bool.not_eq_true _ ▸ hlabel)
                have hfirst : beginsWithLetter text.toList = false := by
                  rw [htext]
                  cases hl : label.toList with
                  | nil => exact absurd hl hne
                  | cons c cs =>
                    rw [hl] at hletter
                    exact hletter
                exact ⟨hfirst, beginsWithLetter_resolveIri hbase hfirst⟩

theorem cutHead_append (pattern : String) :
    pattern.toList = (cutHead pattern).1.toList ++ (cutHead pattern).2.toList := by
  simp only [cutHead, String.toList_ofList]
  exact (List.prefix_iff_eq_append.1 (List.takeWhile_prefix _)).symm

/-- **A template keeps its meaning unless its head is shaky.** -/
theorem resolveTemplate_of_grown (hbase : isAbsolute base = true) (h : t.Grown u)
    {pattern resolved : String} (hr : t.resolveTemplate base pattern = .ok resolved) :
    u.resolveTemplate base pattern = .ok resolved ∨
      t.Shaky (cutHead pattern).1 pattern resolved := by
  unfold resolveTemplate at hr ⊢
  dsimp only at hr ⊢
  split at hr
  · next habs => exact .inl (by rw [if_pos habs]; exact hr)
  · next habs =>
    rw [if_neg habs]
    cases hhead : t.resolve base (cutHead pattern).1 with
    | error e =>
      rw [hhead] at hr
      cases hr
    | ok iri =>
      rw [hhead] at hr
      cases hr
      rcases resolve_of_grown hbase h hhead with hu | hshaky
      · rw [hu]
        exact .inl rfl
      · -- the head decides: it is not empty, and what it stands for begins the template
        refine .inr ⟨hshaky.unbound, ?_, ?_⟩
        · rw [cutHead_append]
          have hne : (cutHead pattern).1.toList ≠ [] := by
            intro hnil
            have hempty : (cutHead pattern).1 = "" := String.toList_inj.1 hnil
            simp [hempty] at habs
          cases hchars : (cutHead pattern).1.toList with
          | nil => exact absurd hchars hne
          | cons c cs =>
            have hletter := hshaky.text
            rw [hchars] at hletter
            exact hletter
        · rw [String.toList_append]
          exact beginsWithLetter_append hshaky.iri _

/-! ## Prefixed names -/

theorem lookup?_of_mem (h : (label, ns) ∈ t.bindings) : t.lookup? label = some ns :=
  mem_bindings_iff.1 h

theorem mem_of_lookup? (h : t.lookup? label = some ns) : (label, ns) ∈ t.bindings :=
  mem_bindings_iff.2 h

theorem mem_labels_of_lookup? (h : t.lookup? label = some ns) : label ∈ t.labels :=
  (t.inStep.bound label).1 (Option.isSome_of_eq_some h)

/-- The better binding is one of the two. -/
theorem eq_or_eq_of_better {next : String × String} (h : better passes best next = some b) :
    best = some b ∨ b = next ∧ passes next.2 = true := by
  unfold better at h
  split at h
  · next hpasses =>
    rw [Bool.and_eq_true] at hpasses
    split at h
    · cases h
      exact .inr ⟨rfl, hpasses.2⟩
    · split at h
      · cases h
        exact .inr ⟨rfl, hpasses.2⟩
      · exact .inl h
  · exact .inl h

theorem mem_of_foldl_better {bs : List (String × String)}
    (h : bs.foldl (better passes) best = some b) : best = some b ∨ b ∈ bs ∧ passes b.2 = true := by
  induction bs generalizing best with
  | nil => exact .inl h
  | cons next bs ih =>
    rcases ih h with hbest | ⟨hmem, hpasses⟩
    · rcases eq_or_eq_of_better hbest with hbest | ⟨rfl, hpasses⟩
      · exact .inl hbest
      · exact .inr ⟨List.mem_cons_self .., hpasses⟩
    · exact .inr ⟨List.mem_cons_of_mem _ hmem, hpasses⟩

theorem mem_of_longest? {bindings : List (String × String)}
    (h : longest? bindings passes = some b) :
    b ∈ bindings ∧ passes b.2 = true :=
  (mem_of_foldl_better h).resolve_left nofun

/-- A prefixed name has a label and what its namespace leaves. -/
theorem contractWith?_eq_some (h : t.contractWith? text passes = some c) :
    ∃ ns rest, t.lookup? c.label = some ns ∧ passes ns = true ∧ text = ns ++ rest ∧
      c.text = c.label ++ ":" ++ rest := by
  obtain ⟨⟨label, ns⟩, hlongest, hrest⟩ := Option.bind_eq_some_iff.1 h
  obtain ⟨rest, hstrip, hc⟩ := Option.bind_eq_some_iff.1 hrest
  cases hc
  obtain ⟨hmem, hpasses⟩ := mem_of_longest? hlongest
  obtain ⟨chars, hchars, rfl⟩ := Option.map_eq_some_iff.1 hstrip
  refine ⟨ns, .ofList chars, lookup?_of_mem hmem, hpasses, ?_, rfl⟩
  rw [← String.toList_inj, String.toList_append, String.toList_ofList]
  exact Chars.stripStart?_eq_some hchars

/-- The prefixed name of an IRI has a plain local name. -/
theorem contract?_eq_some (h : t.contract? iri = some c) :
    ∃ ns rest, t.lookup? c.label = some ns ∧ iri = ns ++ rest ∧
      c.text = c.label ++ ":" ++ rest ∧ isLocalName rest.toList = true := by
  obtain ⟨ns, rest, hlookup, hpasses, rfl, htext⟩ := contractWith?_eq_some h
  refine ⟨ns, rest, hlookup, rfl, htext, ?_⟩
  rw [leavesLocalName, String.toList_append, Chars.stripStart?_append] at hpasses
  exact hpasses

theorem isNameChar_of_mem_localName {cs : List Char} (h : isLocalName cs = true) :
    ∀ c ∈ cs, isNameChar c = true := by
  cases cs with
  | nil => exact fun c hc => absurd hc List.not_mem_nil
  | cons d rest =>
    rw [isLocalName, Bool.and_eq_true, Bool.and_eq_true] at h
    intro c hc
    rcases List.mem_cons.1 hc with rfl | hc
    · have hfirst := h.1.1
      simp only [isNameChar, Bool.or_eq_true] at hfirst ⊢
      exact .inl (.inl hfirst)
    · exact List.all_eq_true.1 h.1.2 c hc

theorem unbracket?_eq_some {term inner : String} (h : unbracket? term = some inner) :
    term.toList = '<' :: inner.toList ++ ['>'] := by
  unfold unbracket? at h
  split at h
  · next rest hterm =>
    obtain ⟨cs, hstrip, rfl⟩ := Option.map_eq_some_iff.1 h
    obtain ⟨ds, hds, rfl⟩ := Option.map_eq_some_iff.1 hstrip
    have hrest := congrArg List.reverse (Chars.stripStart?_eq_some hds)
    rw [hterm, String.toList_ofList, List.cons_append]
    simpa using hrest
  · cases h

theorem unbracket?_bracket (iri : String) : unbracket? ("<" ++ iri ++ ">") = some iri := by
  have hchars : ("<" ++ iri ++ ">").toList = '<' :: (iri.toList ++ ['>']) := by simp
  have hstrip : Chars.stripEnd? ['>'] (iri.toList ++ ['>']) = some iri.toList := by
    have hreverse : (iri.toList ++ ['>']).reverse = ['>'] ++ iri.toList.reverse := by simp
    unfold Chars.stripEnd?
    rw [hreverse, List.reverse_singleton, Chars.stripStart?_append, Option.map_some,
      List.reverse_reverse]
  simp only [unbracket?, hchars, hstrip, Option.map_some, String.ofList_toList]

/-- A prefixed name stands in no brackets. -/
theorem unbracket?_contraction (label : String) (h : isLocalName rest.toList = true) :
    unbracket? (label ++ ":" ++ rest) = none := by
  rw [Option.eq_none_iff_forall_ne_some]
  intro inner hinner
  have hchars := unbracket?_eq_some hinner
  -- the last character is the colon or one of the local name
  have hlast : (":".toList ++ rest.toList).getLast? = some '>' := by
    have hne : ":".toList ++ rest.toList ≠ [] := List.cons_ne_nil _ _
    have hwhole := congrArg List.getLast? hchars
    rw [String.toList_append, String.toList_append, List.append_assoc, List.getLast?_append,
      List.getLast?_eq_some_getLast hne, Option.some_or] at hwhole
    rw [List.getLast?_eq_some_getLast hne, hwhole]
    exact List.getLast?_concat
  have hmem : '>' ∈ ":".toList ++ rest.toList := List.mem_of_getLast? hlast
  rcases List.mem_append.1 hmem with hcolon | hrest
  · exact absurd hcolon (by decide)
  · exact absurd (isNameChar_of_mem_localName h _ hrest) (by decide)

/-- **A prefixed name means the IRI it was made for.** -/
theorem resolve_contraction (hlookup : t.lookup? label = some ns) (hlabel : ':' ∉ label.toList)
    (hrest : isLocalName rest.toList = true) :
    t.resolve base (label ++ ":" ++ rest) = .ok (ns ++ rest) := by
  have hcut : Text.cutFirst? ':' (label ++ ":" ++ rest) = some (label, rest) :=
    Text.cutFirst?_eq_of_toList (by simp) hlabel
  have hslashes : Text.startsWith "//" rest = false := by
    rw [Text.startsWith, Bool.eq_false_iff]
    intro hstart
    obtain ⟨tail, htail⟩ := List.isPrefixOf_iff_prefix.1 hstart
    have hslash : '/' ∈ rest.toList := by
      rw [← htail]
      exact List.mem_cons_self ..
    exact absurd (isNameChar_of_mem_localName hrest _ hslash) (by decide)
  rw [resolve, unbracket?_contraction label hrest, hcut]
  dsimp only
  rw [hslashes, if_neg Bool.false_ne_true, hlookup]

/-! ## IRIs with an authority -/

/-- An IRI that begins with letters, a colon and two slashes. -/
def IsHierarchical (iri : String) : Prop :=
  ∃ scheme rest : String, iri = scheme ++ "://" ++ rest ∧ scheme.toList.all Char.isAlpha = true

/-- **An IRI with an authority means itself in every table.** -/
theorem resolve_of_isHierarchical (h : IsHierarchical iri) (t : PrefixTable) (base : String) :
    t.resolve base iri = .ok iri := by
  obtain ⟨scheme, rest, rfl, hscheme⟩ := h
  have hcut : Text.cutFirst? ':' (scheme ++ "://" ++ rest) = some (scheme, "//" ++ rest) := by
    refine Text.cutFirst?_eq_of_toList (by simp) fun hcolon => ?_
    exact absurd (List.all_eq_true.1 hscheme _ hcolon) (by decide)
  have hbracket : unbracket? (scheme ++ "://" ++ rest) = none := by
    rw [Option.eq_none_iff_forall_ne_some]
    intro inner hinner
    have hchars := unbracket?_eq_some hinner
    rw [String.toList_append, String.toList_append] at hchars
    cases hs : scheme.toList with
    | nil =>
      rw [hs] at hchars
      exact absurd (List.cons.inj hchars).1 (by decide)
    | cons c cs =>
      rw [hs] at hchars hscheme
      rw [(List.cons.inj hchars).1] at hscheme
      exact absurd (List.all_eq_true.1 hscheme _ (List.mem_cons_self ..)) (by decide)
  have hslashes : Text.startsWith "//" ("//" ++ rest) = true := by
    rw [Text.startsWith, String.toList_append, List.isPrefixOf_iff_prefix]
    exact List.prefix_append _ _
  rw [resolve, hbracket, hcut]
  dsimp only
  rw [if_pos hslashes]

end PrefixTable

end RdfMapping.Iri
