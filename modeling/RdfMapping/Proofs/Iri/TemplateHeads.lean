/-
# Heads of templates

The head of a template is resolved like a name, with two exceptions.  Angle brackets around an IRI
with two slashes stay in the template, and a label that is also a slashless scheme is not expanded.
-/
import RdfMapping.Proofs.Iri.Growth

namespace RdfMapping.Iri

/-! ## First characters of resolved references -/

namespace Reference

theorem rootless_eq_nil_of_parse? {text : List Char} {r : Reference} (h : parse? text = some r)
    (hs : r.scheme = []) : r.rootless = [] := by
  rcases parse?_eq_some h with hr | ⟨body, fragment, b, f, -, hb, -, rfl⟩
  · exact hr.rootless_eq_nil hs
  · exact hb.rootless_eq_nil hs

/-- A path that is empty or begins with a slash. -/
def IsRooted (path : List Char) : Prop :=
  path = [] ∨ path.head? = some '/'

theorem isRooted_removeDotSegments (path : List Char) : IsRooted (removeDotSegments path) := by
  unfold removeDotSegments
  split
  · exact .inl rfl
  · -- a slash is put before what does not begin with one
    have hput (s : List Char) : IsRooted (if s.head? = some '/' then s else '/' :: s) := by
      split
      · next hslash => exact .inr hslash
      · exact .inr rfl
    exact hput _

theorem isRooted_path_resolve (b r : Reference) : IsRooted (resolve b r).path := by
  unfold resolve
  split
  · exact isRooted_removeDotSegments _
  · dsimp only
    split
    · exact .inl rfl
    · exact isRooted_removeDotSegments _

theorem rootless_resolve {b r : Reference} (hb : b.rootless = []) (hr : r.rootless = []) :
    (resolve b r).rootless = [] := by
  unfold resolve
  split
  · exact hr
  · dsimp only
    split
    · exact hb
    · rfl

/-- The text of a reference begins with the mark of a part. -/
theorem head?_render {r : Reference} (hs : r.scheme = []) (hrootless : r.rootless = [])
    (hpath : IsRooted r.path) :
    ∀ c, r.render.head? = some c → c = '/' ∨ c = '?' ∨ c = '#' := by
  intro c hc
  -- what follows the path begins with its mark
  have htail : ∀ d, ((if r.emptyQuery || r.query ≠ [] then '?' :: r.query else []) ++
      (if r.fragment = [] then [] else '#' :: r.fragment)).head? = some d →
        d = '?' ∨ d = '#' := by
    intro d hd
    split at hd
    · exact .inl (Option.some.inj hd).symm
    · split at hd
      · cases hd
      · exact .inr (Option.some.inj hd).symm
  rw [render, if_pos hs, if_neg (by simp [hrootless]), renderAuthority] at hc
  by_cases hauthority : r.host = [] ∧ r.user = none
  · obtain ⟨hhost, huser⟩ := hauthority
    rw [if_pos (by simp [hs, hhost, huser]), if_neg (by simp [hhost]), List.nil_append,
      List.nil_append, List.append_assoc] at hc
    rcases hpath with hnil | hslash
    · rw [hnil] at hc
      exact .inr (htail c hc)
    · rw [List.head?_append, hslash] at hc
      exact .inl (Option.some.inj hc).symm
  · have hshown : (r.scheme = [] && r.host = [] && r.user.isNone) = false := by
      simp only [hs, decide_true, Bool.true_and, Bool.and_eq_false_iff, decide_eq_false_iff_not,
        Option.isNone_eq_false_iff, Option.isSome_iff_ne_none]
      exact Classical.not_and_iff_not_or_not.1 hauthority
    have hslashes : (r.host ≠ [] || r.path ≠ [] || r.user.isSome) = true := by
      rcases Classical.not_and_iff_not_or_not.1 hauthority with hhost | huser
      · simp [hhost]
      · simp [Option.isSome_iff_ne_none.2 huser]
    rw [hshown, if_neg Bool.false_ne_true, if_pos hslashes] at hc
    simp only [List.nil_append, List.append_assoc, List.cons_append, List.head?_cons,
      Option.some.injEq] at hc
    exact .inl hc.symm

end Reference

/-! ## Angle brackets -/

/-- What is appended to a base stands after a slash. -/
theorem appendToBase_ne_bracketed (base text : String) :
    appendToBase base text ≠ "<" ++ text ++ ">" := by
  -- the text with a slash before it has one slash more than the text in brackets
  have hafter (before : String) : before ++ "/" ++ text ≠ "<" ++ text ++ ">" := by
    intro h
    have hcount := congrArg (fun s : String => s.toList.count '/') h
    simp only [String.toList_append, List.count_append] at hcount
    have hslash : "/".toList.count '/' = 1 := by decide
    have hopen : "<".toList.count '/' = 0 := by decide
    have hclose : ">".toList.count '/' = 0 := by decide
    omega
  unfold appendToBase
  split
  · next hends =>
    obtain ⟨before, hbefore⟩ := List.isSuffixOf_iff_suffix.1 hends
    have hbase : base = .ofList before ++ "/" := by
      rw [← String.toList_inj, String.toList_append, String.toList_ofList, hbefore]
    rw [hbase]
    exact hafter _
  · split
    · exact hafter _
    · exact hafter _

/-- **Resolving a text in angle brackets does not give brackets.** -/
theorem resolveIri_ne_bracketed (base text : String) :
    resolveIri base text ≠ "<" ++ text ++ ">" := by
  unfold resolveIri
  split
  · next b r hb hr =>
    split
    · intro h
      have hlength := congrArg (fun s : String => s.toList.length) h
      simp only [String.toList_append, List.length_append] at hlength
      have hopen : "<".toList.length = 1 := rfl
      omega
    · next hs =>
      rw [Classical.not_not] at hs
      intro h
      have hchars := congrArg String.toList h
      have hhead : (Reference.resolve b r).render.head? = some '<' := by
        rw [String.toList_ofList] at hchars
        rw [hchars]
        simp
      by_cases hscheme : b.scheme = []
      · have hrootless : (Reference.resolve b r).rootless = [] :=
          Reference.rootless_resolve (Reference.rootless_eq_nil_of_parse? hb hscheme)
            (Reference.rootless_eq_nil_of_parse? hr hs)
        have hfirst := Reference.head?_render ((scheme_resolve b r).trans hscheme) hrootless
          (Reference.isRooted_path_resolve b r) _ hhead
        exact absurd hfirst (by decide)
      · have hletter : beginsWithLetter (Reference.resolve b r).render = true := by
          rw [Reference.render, if_neg (by rwa [scheme_resolve]), scheme_resolve]
          simp only [List.append_assoc]
          exact beginsWithLetter_append (Reference.beginsWithLetter_of_parse? hb hscheme).2 _
        rw [beginsWithLetter, hhead] at hletter
        exact absurd hletter (by decide)
  · exact appendToBase_ne_bracketed base text

namespace PrefixTable

/-! ## Heads -/

/-- The head of a template ends at the first brace. -/
theorem cutHead_of_append {head rest : String} (hhead : '{' ∉ head.toList)
    (hrest : rest = "" ∨ rest.toList.head? = some '{') :
    cutHead (head ++ rest) = (head, rest) := by
  have hbefore : ∀ c ∈ head.toList, (decide (c ≠ '{')) = true := by
    intro c hc
    rw [decide_eq_true_eq]
    rintro rfl
    exact hhead hc
  have htake : rest.toList.takeWhile (· ≠ '{') = [] := by
    rcases hrest with rfl | hbrace
    · rfl
    · obtain ⟨tail, htail⟩ := List.head?_eq_some_iff.1 hbrace
      rw [htail]
      rfl
  have hcut : (head ++ rest).toList.takeWhile (· ≠ '{') = head.toList := by
    rw [String.toList_append, List.takeWhile_append_of_pos hbefore, htake, List.append_nil]
  unfold cutHead
  dsimp only
  rw [hcut, String.toList_append, List.drop_left, String.ofList_toList, String.ofList_toList]

theorem brace_not_mem_head (pattern : String) : '{' ∉ (cutHead pattern).1.toList := by
  intro h
  simp only [cutHead, String.toList_ofList] at h
  exact absurd (List.all_eq_true.1 List.all_takeWhile _ h) (by decide)

/-- What follows the head is nothing, or begins with a brace. -/
theorem cutHead_rest (pattern : String) :
    (cutHead pattern).2 = "" ∨ (cutHead pattern).2.toList.head? = some '{' := by
  have hsplit : pattern.toList.takeWhile (· ≠ '{') ++ pattern.toList.dropWhile (· ≠ '{') =
      pattern.toList := List.takeWhile_append_dropWhile
  have hhead : (cutHead pattern).1.toList = pattern.toList.takeWhile (· ≠ '{') :=
    String.toList_ofList
  have hrest : (cutHead pattern).2.toList = pattern.toList.dropWhile (· ≠ '{') := by
    have hparts := (cutHead_append pattern).symm.trans hsplit.symm
    rw [hhead] at hparts
    exact List.append_cancel_left hparts
  by_cases hempty : pattern.toList.dropWhile (· ≠ '{') = []
  · exact .inl (by rw [← String.toList_inj, hrest, hempty]; rfl)
  · have hfirst := List.head_dropWhile_not (· ≠ '{') hempty
    rw [decide_eq_false_iff_not, Classical.not_not] at hfirst
    exact .inr (by rw [hrest, List.head?_eq_some_head hempty, hfirst])

/-- A head that a template keeps although the name means another. -/
def KeepsHead (t : PrefixTable) (head : String) : Prop :=
  ∃ label rest, Text.cutFirst? ':' head = some (label, rest) ∧
    (Text.startsWith "//" rest = true ∧ (unbracket? head).isSome = true ∨
      Text.startsWith "//" rest = false ∧ isSlashlessScheme label = true ∧
        ∃ ns, t.lookup? label = some ns ∧ ns ≠ label ++ ":")

/-- What begins with an angle bracket is no slashless scheme. -/
theorem unbracket?_of_isSlashlessScheme {head label rest : String}
    (hcut : Text.cutFirst? ':' head = some (label, rest)) (h : isSlashlessScheme label = true) :
    unbracket? head = none := by
  rw [Option.eq_none_iff_forall_ne_some]
  intro inner hinner
  have hchars := unbracket?_eq_some hinner
  rw [(Text.cutFirst?_eq_some hcut).1] at hchars
  cases hlabel : label.toList with
  | nil =>
    rw [hlabel] at hchars
    exact absurd (List.cons.inj hchars).1 (by decide)
  | cons c cs =>
    rw [hlabel] at hchars
    have hc : c = '<' := (List.cons.inj hchars).1
    have hfirst : (Text.lower label).toList.head? = some '<' := by
      rw [Text.lower, String.toList_ofList, hlabel, hc, List.map_cons, List.head?_cons]
      decide +kernel
    have hnone : ∀ s ∈ slashlessSchemes, s.toList.head? ≠ some '<' := by decide
    exact absurd hfirst (hnone _ (List.contains_iff_mem.1 h))

section Comparison

variable {t : PrefixTable} {base head rest : String}

/-- A head that is not absolute is resolved like a name. -/
theorem resolveTemplate_of_not_isAbsoluteHead (hcut : cutHead (head ++ rest) = (head, rest))
    (hne : head ≠ "") (habs : isAbsoluteHead head = false) :
    t.resolveTemplate base (head ++ rest) = (t.resolve base head).map (· ++ rest) := by
  unfold resolveTemplate
  rw [hcut]
  dsimp only
  rw [if_neg (by simp [hne, habs])]
  cases t.resolve base head <;> rfl

theorem resolveTemplate_of_isAbsoluteHead (hcut : cutHead (head ++ rest) = (head, rest))
    (habs : isAbsoluteHead head = true) :
    t.resolveTemplate base (head ++ rest) = .ok (head ++ rest) := by
  unfold resolveTemplate
  rw [hcut]
  dsimp only
  rw [if_pos (by simp [habs])]

/-- An absolute head means itself, unless it is kept against the rule. -/
theorem resolve_of_isAbsoluteHead (habs : isAbsoluteHead head = true) :
    ∃ iri, t.resolve base head = .ok iri ∧ (iri = head ↔ ¬ t.KeepsHead head) := by
  unfold isAbsoluteHead at habs
  split at habs
  · cases habs
  next label name hcut =>
  have hkeeps : t.KeepsHead head ↔
      Text.startsWith "//" name = true ∧ (unbracket? head).isSome = true ∨
        Text.startsWith "//" name = false ∧ isSlashlessScheme label = true ∧
          ∃ ns, t.lookup? label = some ns ∧ ns ≠ label ++ ":" := by
    constructor
    · rintro ⟨label', rest', hcut', h⟩
      cases hcut.symm.trans hcut'
      exact h
    · exact fun h => ⟨label, name, hcut, h⟩
  rw [resolve]
  by_cases hslashes : Text.startsWith "//" name = true
  · cases hbracket : unbracket? head with
    | some inner =>
      -- the brackets are gone from the name
      refine ⟨_, rfl, ?_⟩
      have hhead : head = "<" ++ inner ++ ">" := by
        rw [← String.toList_inj, unbracket?_eq_some hbracket]
        simp
      rw [hkeeps, hbracket]
      refine iff_of_false (hhead ▸ resolveIri_ne_bracketed base inner) ?_
      exact Classical.not_not.2 (.inl ⟨hslashes, rfl⟩)
    | none =>
      rw [hcut]
      dsimp only
      rw [if_pos hslashes]
      refine ⟨_, rfl, iff_of_true rfl ?_⟩
      rw [hkeeps, hbracket, hslashes]
      simp
  · have hscheme : isSlashlessScheme label = true := by
      rwa [Bool.eq_false_iff.2 hslashes, Bool.false_or] at habs
    rw [unbracket?_of_isSlashlessScheme hcut hscheme, hcut]
    dsimp only
    rw [if_neg hslashes]
    have hhead : head = label ++ ":" ++ name := by
      rw [← String.toList_inj, (Text.cutFirst?_eq_some hcut).1]
      simp
    cases hlookup : t.lookup? label with
    | some ns =>
      refine ⟨_, rfl, ?_⟩
      rw [hkeeps, hhead, String.append_left_inj, Bool.eq_false_iff.2 hslashes, hscheme, hlookup]
      simp
    | none =>
      have hlabel : label ≠ "" := by
        rintro rfl
        exact absurd hscheme (by decide)
      rw [if_neg hlabel, if_pos hscheme]
      refine ⟨_, rfl, iff_of_true rfl ?_⟩
      rw [hkeeps, hlookup]
      simp [hslashes]

/-- **A template is resolved as the name at its head is, followed by the rest, exactly if its head
is not kept.**  In any case one is refused if and only if the other is, for the same label. -/
theorem resolveTemplate_append (hne : head ≠ "") (hhead : '{' ∉ head.toList)
    (hrest : rest = "" ∨ rest.toList.head? = some '{') :
    (∀ e, t.resolveTemplate base (head ++ rest) = .error e ↔ t.resolve base head = .error e) ∧
      (t.resolveTemplate base (head ++ rest) = (t.resolve base head).map (· ++ rest) ↔
        ¬ t.KeepsHead head) := by
  have hcut := cutHead_of_append hhead hrest
  by_cases habs : isAbsoluteHead head = true
  · obtain ⟨iri, hiri, hmeans⟩ : ∃ iri, t.resolve base head = .ok iri ∧
        (iri = head ↔ ¬ t.KeepsHead head) := resolve_of_isAbsoluteHead habs
    rw [resolveTemplate_of_isAbsoluteHead hcut habs, hiri]
    refine ⟨fun e => by simp, ?_⟩
    rw [← hmeans]
    simp [Except.map, String.append_left_inj, eq_comm]
  · rw [Bool.not_eq_true] at habs
    rw [resolveTemplate_of_not_isAbsoluteHead hcut hne habs]
    refine ⟨fun e => ?_, iff_of_true rfl ?_⟩
    · cases t.resolve base head <;> simp [Except.map]
    · rintro ⟨label, rest', hcut', h⟩
      simp only [isAbsoluteHead, hcut', Bool.or_eq_false_iff] at habs
      rcases h with ⟨hslashes, -⟩ | ⟨-, hscheme, -⟩
      · rw [habs.1] at hslashes
        cases hslashes
      · rw [habs.2] at hscheme
        cases hscheme

end Comparison

/-! ## A label that is also a scheme -/

/-- A table in which a slashless scheme is declared. -/
def tagTable : PrefixTable :=
  .ofList [("ex", "http://ex.org/"), ("tag", "http://ex.org/tag#")]

/-- A head with a prefix is resolved as the name is. -/
theorem resolveTemplate_append_person :
    "ex:person/" ≠ "" ∧ '{' ∉ "ex:person/".toList ∧ "{id}".toList.head? = some '{' ∧
      tagTable.resolveTemplate "http://ex.org/base/" ("ex:person/" ++ "{id}") =
        (tagTable.resolve "http://ex.org/base/" "ex:person/").map (· ++ "{id}") := by
  have hne : "ex:person/" ≠ "" := by decide
  have hhead : '{' ∉ "ex:person/".toList := by decide
  have hrest : "{id}".toList.head? = some '{' := by decide
  have hkeeps : ¬ tagTable.KeepsHead "ex:person/" := by
    rintro ⟨label, name, hcut, h⟩
    have heq : Text.cutFirst? ':' "ex:person/" = some ("ex", "person/") := by decide
    cases heq.symm.trans hcut
    rcases h with ⟨hslashes, -⟩ | ⟨-, hscheme, -⟩
    · exact absurd hslashes (by decide)
    · exact absurd hscheme (by decide +kernel)
  exact ⟨hne, hhead, hrest, (resolveTemplate_append hne hhead (.inr hrest)).2.2 hkeeps⟩

/-- Two heads that templates keep, with what the names stand for on their own. -/
theorem resolveTemplate_keeps_heads :
    tagTable.resolve "http://ex.org/base/" "<http://ex.org/>" = .ok "http://ex.org/" ∧
      tagTable.resolveTemplate "http://ex.org/base/" "<http://ex.org/>{id}" =
        .ok "<http://ex.org/>{id}" ∧
      tagTable.resolve "http://ex.org/base/" "tag:x" = .ok "http://ex.org/tag#x" ∧
      tagTable.resolveTemplate "http://ex.org/base/" "tag:x{id}" = .ok "tag:x{id}" := by
  refine ⟨?_, ?_, ?_, ?_⟩ <;> rfl

end PrefixTable

end RdfMapping.Iri
