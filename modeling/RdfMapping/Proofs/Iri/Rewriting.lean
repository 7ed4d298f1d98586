/-
# What resolution writes anew

When a reference is resolved, braces and backslashes of its components are percent-encoded.  Kept
are the query, and a text that is no reference or has a scheme.
-/
import RdfMapping.Proofs.Iri.TemplateHeads
import RdfMapping.Proofs.Mapping.PlainText

namespace RdfMapping.Iri

open Mapping.Template (isEscapable not_isEscapable_of_test Unmarked unmarked_nil unmarked_cons
  unmarked_append IsPlain isPlain_nil isPlain_cons isPlain_append Separate separate_cons
  endsInEscape endsInEscape_cons endsInEscape_append endsInEscape_append_cons)

variable {component : Component} {c : Char} {text s : List Char} {r : Reference}

/-! ## Encoded texts -/

namespace Percent

theorem isEscapable_of_isAccepted (h : isAccepted component c = true) : isEscapable c = false :=
  not_isEscapable_of_test (by cases component <;> decide) h

theorem isAccepted_of_isShown (h : isShown component c = true) : isAccepted component c = true := by
  rw [isAccepted, h, Bool.or_true]

theorem isEscapable_of_isAlphanumeric (h : isAlphanumeric c = true) :
    isEscapable c = false := by
  have hshown : isShown .path c = true := by
    rw [isShown, h]
    rfl
  exact isEscapable_of_isAccepted (isAccepted_of_isShown hshown)

theorem unmarked_hexUpper (byte : UInt8) : Unmarked (Text.hexUpper 2 byte.toNat) := by
  have hall : ∀ n < 256, Unmarked (Text.hexUpper 2 n) := by decide +kernel
  exact hall byte.toNat byte.toNat_lt

/-- Encoding leaves no brace or backslash. -/
theorem unmarked_encode (component : Component) (bytes : List UInt8) :
    Unmarked (encode component bytes) := by
  intro c hc
  obtain ⟨byte, -, hbyte⟩ := List.mem_flatMap.1 hc
  unfold encodeByte at hbyte
  dsimp only at hbyte
  split at hbyte
  · next hshown =>
    rw [Bool.and_eq_true] at hshown
    rw [List.mem_singleton.1 hbyte]
    exact isEscapable_of_isAccepted (isAccepted_of_isShown hshown.2)
  · rcases List.mem_cons.1 hbyte with rfl | hdigit
    · rfl
    · exact unmarked_hexUpper byte c hdigit

theorem unmarked_normalize? (h : normalize? component text = some s) : Unmarked s := by
  obtain ⟨bytes, -, hbytes⟩ := Option.bind_eq_some_iff.1 h
  split at hbytes
  · next hall =>
    cases hbytes
    exact fun c hc => isEscapable_of_isAccepted (List.all_eq_true.1 hall c hc)
  · cases hbytes
    exact unmarked_encode component bytes

end Percent

namespace Reference

variable {letters rest body query path : List Char} {emptyQuery : Bool} {b : Reference}

theorem unmarked_normalizePath? (h : normalizePath? text = some s) :
    Unmarked s := by
  unfold normalizePath? at h
  split at h
  · cases h
    decide
  · exact Percent.unmarked_normalize? h

/-- A user that is written anew has no marks. -/
theorem unmarked_normalizeUser? (h : normalizeUser? text = some s) :
    Unmarked s := by
  unfold normalizeUser? at h
  split at h
  · cases h
  · split at h
    · obtain ⟨bytes, -, hbytes⟩ := Option.bind_eq_some_iff.1 h
      cases hbytes
      exact Percent.unmarked_encode .user bytes
    · obtain ⟨name, -, hname⟩ := Option.bind_eq_some_iff.1 h
      obtain ⟨password, -, hpassword⟩ := Option.bind_eq_some_iff.1 hname
      cases hpassword
      refine unmarked_append.2 ⟨Percent.unmarked_encode .user name, ?_⟩
      exact unmarked_cons.2 ⟨rfl, Percent.unmarked_encode .user password⟩

theorem unmarked_of_mem_none : ∀ u ∈ (none : Option (List Char)), Unmarked u :=
  fun u hu => absurd hu (Option.not_mem_none u)

/-- The parts of an authority have no marks. -/
theorem unmarked_parseAuthority? {user : Option (List Char)} {host : List Char}
    (h : parseAuthority? text = some (user, host)) :
    (∀ u ∈ user, Unmarked u) ∧ Unmarked host := by
  unfold parseAuthority? at h
  split at h
  · obtain ⟨bytes, -, hbytes⟩ := Option.bind_eq_some_iff.1 h
    cases hbytes
    exact ⟨unmarked_of_mem_none, Percent.unmarked_encode .host bytes⟩
  · obtain ⟨bytes, -, hbytes⟩ := Option.bind_eq_some_iff.1 h
    obtain ⟨name, hname, heq⟩ := Option.bind_eq_some_iff.1 hbytes
    cases heq
    refine ⟨fun u hu => ?_, Percent.unmarked_encode .host bytes⟩
    cases hu
    exact unmarked_normalizeUser? hname

/-! ## Components and their text -/

/-- The components are parts of the text or have no braces. -/
structure ReadFrom (text : List Char) (r : Reference) : Prop where
  scheme : Unmarked r.scheme
  rootless : r.rootless <:+: text
  user : ∀ u ∈ r.user, Unmarked u
  host : Unmarked r.host
  path : Unmarked r.path
  query : r.query = [] ∨ ∃ before after, text = before ++ '?' :: (r.query ++ after) ∧
    ∀ c ∈ after.head?, c = '#'
  fragment : Unmarked r.fragment

theorem isEscapable_toLower (h : isEscapable c = false) :
    isEscapable c.toLower = false := by
  by_cases hc : c.isAlpha = true
  · exact not_isEscapable_of_test (by decide) (isAlpha_toLower hc)
  · -- only letters have another form
    have hsame : c.toLower = c := by
      refine dif_neg fun hupper => hc ?_
      unfold Char.isAlpha Char.isUpper
      simp only [Bool.or_eq_true, decide_eq_true_eq]
      exact .inl hupper
    rwa [hsame]

/-- A scheme has no marks and ends where the rest begins. -/
theorem cutScheme?_eq_some (h : cutScheme? text = some (letters, rest)) :
    Unmarked (letters.map Char.toLower) ∧ ∃ before, text = before ++ rest := by
  unfold cutScheme? at h
  dsimp only at h
  split at h
  · cases h
  · next tail c cs hdrop hletters =>
    split at h
    · cases h
      refine ⟨fun d hd => ?_, ?_⟩
      · obtain ⟨e, he, rfl⟩ := List.mem_map.1 hd
        refine isEscapable_toLower ?_
        have hscheme := List.all_eq_true.1 List.all_takeWhile e he
        rcases Bool.or_eq_true_iff.1 hscheme with halnum | hsign
        · exact Percent.isEscapable_of_isAlphanumeric halnum
        · have hsigns : Unmarked "+-.".toList := by decide
          exact hsigns e (List.contains_iff_mem.1 hsign)
      · obtain ⟨before, hbefore⟩ := List.drop_suffix (text.takeWhile fun c =>
          Percent.isAlphanumeric c || "+-.".toList.contains c).length text
        rw [hdrop] at hbefore
        exact ⟨before ++ [':'], by rw [← hbefore, List.append_assoc, List.singleton_append]⟩
    · cases h
      exact ⟨unmarked_nil, [], rfl⟩
  · cases h
    exact ⟨unmarked_nil, [], rfl⟩

theorem cutQuery_eq (h : cutQuery text = (body, query, emptyQuery)) :
    query = [] ∧ text = body ∨ text = body ++ '?' :: query := by
  unfold cutQuery at h
  split at h
  · cases h
    exact .inl ⟨rfl, rfl⟩
  · next hcut =>
    cases h
    exact .inr (Chars.cutFirst?_eq_some hcut)

/-- Where the query and what stands before it are in a text with a scheme. -/
theorem cutQuery_of_cutScheme? (hscheme : cutScheme? text = some (letters, rest))
    (hquery : cutQuery rest = (body, query, emptyQuery)) :
    body <:+: text ∧ (query = [] ∨ ∃ before after, text = before ++ '?' :: (query ++ after) ∧
      ∀ c ∈ after.head?, c = '#') := by
  obtain ⟨-, start, rfl⟩ := cutScheme?_eq_some hscheme
  rcases cutQuery_eq hquery with ⟨hnone, rfl⟩ | rfl
  · exact ⟨⟨start, [], by rw [List.append_nil]⟩, .inl hnone⟩
  · refine ⟨⟨start, '?' :: query, by rw [List.append_assoc]⟩, .inr ⟨start ++ body, [], ?_, ?_⟩⟩
    · rw [List.append_nil, List.append_assoc]
    · exact fun c hc => absurd hc (Option.not_mem_none c)

/-- A parsed reference is read from its text. -/
theorem Parsed.readFrom (h : Parsed text r) :
    ReadFrom text r := by
  cases h with
  | star =>
    exact ⟨unmarked_nil, List.nil_infix, unmarked_of_mem_none, unmarked_nil, by decide, .inl rfl,
      unmarked_nil⟩
  | rootless hscheme hquery =>
    obtain ⟨hbody, hplace⟩ := cutQuery_of_cutScheme? hscheme hquery
    exact ⟨(cutScheme?_eq_some hscheme).1, hbody, unmarked_of_mem_none, unmarked_nil, unmarked_nil,
      hplace, unmarked_nil⟩
  | path hscheme hquery hpath =>
    exact ⟨(cutScheme?_eq_some hscheme).1, List.nil_infix, unmarked_of_mem_none, unmarked_nil,
      unmarked_normalizePath? hpath, (cutQuery_of_cutScheme? hscheme hquery).2, unmarked_nil⟩
  | authority hscheme hquery hauthority hpath =>
    obtain ⟨huser, hhost⟩ := unmarked_parseAuthority? hauthority
    exact ⟨(cutScheme?_eq_some hscheme).1, List.nil_infix, huser, hhost,
      unmarked_normalizePath? hpath, (cutQuery_of_cutScheme? hscheme hquery).2, unmarked_nil⟩

/-- A reference is read from its text. -/
theorem readFrom_of_parse? (h : parse? text = some r) :
    ReadFrom text r := by
  rcases parse?_eq_some h with hr | ⟨body, fragment, b, f, rfl, hb, hf, rfl⟩
  · exact hr.readFrom
  · have hread := hb.readFrom
    have hinfix : body <:+: body ++ '#' :: fragment := ⟨[], '#' :: fragment, rfl⟩
    refine ⟨hread.scheme, hread.rootless.trans hinfix, hread.user, hread.host, hread.path, ?_,
      Percent.unmarked_normalize? hf⟩
    rcases hread.query with hnone | ⟨before, after, hquery, hafter⟩
    · exact .inl hnone
    · refine .inr ⟨before, after ++ '#' :: fragment, ?_, fun c hc => ?_⟩
      · rw [hquery]
        simp
      · cases after with
        | nil => exact (Option.some.inj hc).symm
        | cons d after => exact hafter c hc

/-! ## Paths -/

/-- The parts of a split text are made of its characters. -/
theorem mem_of_mem_splitAll {d : Char} {part : List Char} (h : part ∈ Chars.splitAll c s)
    (hd : d ∈ part) : d ∈ s := by
  induction s generalizing part with
  | nil =>
    rw [List.mem_singleton.1 h] at hd
    exact hd
  | cons e s ih =>
    rw [Chars.splitAll] at h
    split at h
    · rcases List.mem_cons.1 h with rfl | h
      · exact absurd hd List.not_mem_nil
      · exact List.mem_cons_of_mem _ (ih h hd)
    · split at h
      · rw [List.mem_singleton.1 h] at hd
        rw [List.mem_singleton.1 hd]
        exact List.mem_cons_self ..
      · next first parts hsplit =>
        rw [hsplit] at ih
        rcases List.mem_cons.1 h with rfl | h
        · rcases List.mem_cons.1 hd with rfl | hd
          · exact List.mem_cons_self ..
          · exact List.mem_cons_of_mem _ (ih (List.mem_cons_self ..) hd)
        · exact List.mem_cons_of_mem _ (ih (List.mem_cons_of_mem _ h) hd)

/-- One step of removing dots adds no marks. -/
theorem unmarked_stepSegment {state : List Char × Bool} {segment : List Char}
    (hstate : Unmarked state.1) (hsegment : Unmarked segment) :
    Unmarked (stepSegment state segment).1 := by
  unfold stepSegment
  split
  · exact hstate
  · split
    · exact unmarked_nil
    · next before after hcut =>
      rw [Chars.cutLast?_eq_some hcut, List.append_assoc, unmarked_append] at hstate
      exact hstate.1
  · dsimp only
    split
    · exact unmarked_append.2 ⟨hstate, hsegment⟩
    · exact unmarked_append.2 ⟨hstate, unmarked_cons.2 ⟨rfl, hsegment⟩⟩

/-- Removing dot segments adds no marks. -/
theorem unmarked_removeDotSegments (h : Unmarked path) : Unmarked (removeDotSegments path) := by
  have hrun (segments : List (List Char)) (state : List Char × Bool) (hstate : Unmarked state.1)
      (hsegments : ∀ s ∈ segments, Unmarked s) :
      Unmarked (segments.foldl stepSegment state).1 := by
    induction segments generalizing state with
    | nil => exact hstate
    | cons s segments ih =>
      obtain ⟨hs, hrest⟩ := List.forall_mem_cons.1 hsegments
      exact ih _ (unmarked_stepSegment hstate hs) hrest
  -- what is split off has no other characters than the path
  have hwritten : Unmarked ((Chars.splitAll '/' path).foldl stepSegment ([], true)).1 :=
    hrun _ _ unmarked_nil fun s hs c hc => h c (mem_of_mem_splitAll hs hc)
  have hslash : Unmarked ['/'] := by decide
  have hput (s : List Char) (hs : Unmarked s) :
      Unmarked (if s.head? = some '/' then s else '/' :: s) := by
    split
    · exact hs
    · exact unmarked_cons.2 ⟨rfl, hs⟩
  unfold removeDotSegments
  split
  · exact unmarked_nil
  · refine hput _ ?_
    split
    · exact unmarked_append.2 ⟨hwritten, hslash⟩
    · exact hwritten

/-- A resolved path has no marks. -/
theorem unmarked_resolvePath {base : List Char} (hbase : Unmarked base) (hpath : Unmarked path) :
    Unmarked (resolvePath base path) := by
  unfold resolvePath
  refine unmarked_removeDotSegments ?_
  split
  · exact hbase
  · split
    · exact hpath
    · split
      · exact hpath
      · next before after hcut =>
        rw [Chars.cutLast?_eq_some hcut, List.append_assoc, unmarked_append] at hbase
        exact unmarked_append.2 ⟨hbase.1, unmarked_cons.2 ⟨rfl, hpath⟩⟩

/-! ## Putting a reference together -/

/-- A reference without braces and backslashes outside of its query. -/
structure Clear (r : Reference) : Prop where
  scheme : Unmarked r.scheme
  rootless : Unmarked r.rootless
  user : ∀ u ∈ r.user, Unmarked u
  host : Unmarked r.host
  path : Unmarked r.path
  fragment : Unmarked r.fragment

/-- Clear references are resolved to clear ones. -/
theorem Clear.resolve (hb : b.Clear) (hr : r.Clear) : (resolve b r).Clear := by
  unfold Reference.resolve
  split
  · exact ⟨hb.scheme, hr.rootless, hr.user, hr.host, unmarked_removeDotSegments hr.path,
      hr.fragment⟩
  · have hfragment (p : Prop) [Decidable p] : Unmarked (if p then b.fragment else r.fragment) := by
      split
      · exact hb.fragment
      · exact hr.fragment
    dsimp only
    split
    · exact ⟨hb.scheme, hb.rootless, unmarked_of_mem_none, unmarked_nil, unmarked_nil,
        hfragment _⟩
    · exact ⟨hb.scheme, unmarked_nil, hb.user, hb.host, unmarked_resolvePath hb.path hr.path,
        hfragment _⟩

theorem Clear.renderAuthority (h : r.Clear) : Unmarked r.renderAuthority := by
  unfold Reference.renderAuthority
  split
  · exact unmarked_nil
  · refine unmarked_append.2 ⟨unmarked_append.2 ⟨?_, ?_⟩, h.host⟩
    · split <;> decide
    · split
      · exact unmarked_nil
      · next user huser =>
        exact unmarked_append.2 ⟨h.user user huser, by decide⟩

/-- The text of a clear reference ends with the query, unless there is a fragment. -/
theorem Clear.render (h : r.Clear) :
    ∃ before, Unmarked before ∧ r.render = before ++
      ((if r.emptyQuery || r.query ≠ [] then '?' :: r.query else []) ++
        (if r.fragment = [] then [] else '#' :: r.fragment)) := by
  refine ⟨(if r.scheme = [] then [] else r.scheme ++ [':']) ++
    (if r.rootless ≠ [] then r.rootless
      else r.renderAuthority ++
        (if r.path ≠ [] && r.path.head? ≠ some '/' && r.host ≠ [] then '/' :: r.path else r.path)),
    unmarked_append.2 ⟨?_, ?_⟩, ?_⟩
  · split
    · exact unmarked_nil
    · exact unmarked_append.2 ⟨h.scheme, unmarked_cons.2 ⟨rfl, unmarked_nil⟩⟩
  · split
    · exact h.rootless
    · refine unmarked_append.2 ⟨h.renderAuthority, ?_⟩
      split
      · exact unmarked_cons.2 ⟨rfl, h.path⟩
      · exact h.path
  · -- as it is written, with all that precedes the query taken together
    rw [Reference.render]
    simp only [List.append_assoc]

theorem Clear.isPlain_render (h : r.Clear) (hquery : IsPlain r.query) :
    IsPlain r.render := by
  obtain ⟨before, hbefore, hrender⟩ := h.render
  rw [hrender, hbefore.isPlain_append]
  have hshown : IsPlain (if r.emptyQuery || r.query ≠ [] then '?' :: r.query else []) := by
    split
    · exact (isPlain_cons rfl _).2 hquery
    · exact isPlain_nil
  by_cases hfragment : r.fragment = []
  · rwa [if_pos hfragment, List.append_nil]
  · rw [if_neg hfragment]
    rw [isPlain_append (separate_cons rfl _ _), isPlain_cons rfl]
    exact ⟨hshown, h.fragment.isPlain⟩

/-- Only the query can bring an escape to the end. -/
theorem Clear.endsInEscape_render (h : r.Clear) :
    endsInEscape r.render = (r.fragment = [] && endsInEscape r.query) := by
  obtain ⟨before, hbefore, hrender⟩ := h.render
  rw [hrender, endsInEscape_append hbefore.endsInEscape]
  by_cases hfragment : r.fragment = []
  · rw [if_pos hfragment, List.append_nil, decide_eq_true hfragment, Bool.true_and]
    split
    · exact endsInEscape_cons (by decide) _
    · next hquery =>
      have hnone : r.query = [] := by
        by_contra hne
        simp [hne] at hquery
      rw [hnone]
  · rw [if_neg hfragment, decide_eq_false hfragment, Bool.false_and,
      endsInEscape_append_cons (by decide)]
    exact h.fragment.endsInEscape

/-- Query and fragment are the reference's own, or the base's. -/
theorem query_resolve (b r : Reference) :
    (resolve b r).query = r.query ∧ (resolve b r).fragment = r.fragment ∨
      r.query = [] ∧ (resolve b r).query = b.query := by
  unfold resolve
  split
  · exact .inl ⟨rfl, rfl⟩
  · dsimp only
    cases hsame : r.path = [] && !r.emptyQuery && r.query = [] with
    | true =>
      have hnone : r.query = [] := by
        simp only [Bool.and_eq_true, decide_eq_true_eq] at hsame
        exact hsame.2
      refine .inr ⟨hnone, ?_⟩
      split <;> rfl
    | false =>
      refine .inl ?_
      split <;> exact ⟨rfl, rfl⟩

theorem render_resolve_end (hb : b.Clear) (hbquery : Unmarked b.query) (hr : r.Clear)
    (hrquery : IsPlain r.query) :
    IsPlain (resolve b r).render ∧
      endsInEscape (resolve b r).render = (r.fragment = [] && endsInEscape r.query) := by
  have hclear := hb.resolve hr
  rw [hclear.endsInEscape_render]
  rcases query_resolve b r with ⟨hquery, hfragment⟩ | ⟨hnone, hquery⟩
  · rw [hquery, hfragment]
    exact ⟨hclear.isPlain_render (hquery ▸ hrquery), rfl⟩
  · rw [hquery, hnone, hbquery.endsInEscape, Bool.and_false]
    exact ⟨hclear.isPlain_render (hquery ▸ hbquery.isPlain), (Bool.and_false _).symm⟩

theorem ReadFrom.clear (h : ReadFrom text r) (hrootless : Unmarked r.rootless) : r.Clear :=
  ⟨h.scheme, hrootless, h.user, h.host, h.path, h.fragment⟩

/-- A query that is part of a plain text is plain. -/
theorem ReadFrom.isPlain_query (h : ReadFrom text r) (htext : IsPlain text) : IsPlain r.query := by
  rcases h.query with hnone | ⟨before, after, heq, hafter⟩
  · rw [hnone]
    exact isPlain_nil
  · have hseparate : Separate r.query after := by
      intro _ c hc
      rw [hafter c hc]
      rfl
    rw [heq, isPlain_append (separate_cons rfl _ _), isPlain_cons rfl,
      isPlain_append hseparate] at htext
    exact htext.2.1

theorem ReadFrom.unmarked_query (h : ReadFrom text r) (htext : Unmarked text) :
    Unmarked r.query := by
  rcases h.query with hnone | ⟨before, after, heq, -⟩
  · rw [hnone]
    exact unmarked_nil
  · rw [heq, unmarked_append, unmarked_cons, unmarked_append] at htext
    exact htext.2.2.1

end Reference

/-! ## Resolved texts -/

/-- The end of a text that stays as it is when it is resolved. -/
def keptEnd (text : List Char) : List Char :=
  match Reference.parse? text with
  | none => text
  | some r => if r.scheme ≠ [] then text else if r.fragment = [] then r.query else []

/-- What is kept is a part of the text. -/
theorem keptEnd_subset (text : List Char) : keptEnd text ⊆ text := by
  unfold keptEnd
  cases hparse : Reference.parse? text with
  | none => exact List.Subset.refl text
  | some r =>
    dsimp only
    split
    · exact List.Subset.refl text
    · split
      · rcases (Reference.readFrom_of_parse? hparse).query with hnone | ⟨before, after, heq, -⟩
        · rw [hnone]
          exact List.nil_subset text
        · intro c hc
          rw [heq]
          exact List.mem_append_right _ (List.mem_cons_of_mem _ (List.mem_append_left _ hc))
      · exact List.nil_subset text

/-- What is appended to a base stays at the end. -/
theorem appendToBase_eq (base text : String) (h : Unmarked base.toList) :
    ∃ before, Unmarked before ∧ (appendToBase base text).toList = before ++ text.toList := by
  unfold appendToBase
  split
  · exact ⟨base.toList, h, String.toList_append⟩
  · split
    · next before after hcut =>
      have hbase := congrArg String.toList (Text.cutLast?_eq_some hcut)
      rw [String.toList_append] at hbase
      rw [hbase, unmarked_append] at h
      exact ⟨_, h.1, String.toList_append⟩
    · refine ⟨(base ++ "/").toList, ?_, String.toList_append⟩
      rw [String.toList_append]
      exact unmarked_append.2 ⟨h, unmarked_cons.2 ⟨rfl, unmarked_nil⟩⟩

/-- **A plain text is resolved to one, with the end that is kept.** -/
theorem resolveIri_end {base text : String} (hbase : isAbsolute base = true)
    (hunmarked : Unmarked base.toList) (htext : IsPlain text.toList) :
    IsPlain (resolveIri base text).toList ∧
      endsInEscape (resolveIri base text).toList = endsInEscape (keptEnd text.toList) := by
  unfold isAbsolute at hbase
  unfold resolveIri keptEnd
  cases hb : Reference.parse? base.toList with
  | none =>
    rw [hb] at hbase
    cases hbase
  | some b =>
    have hbread := Reference.readFrom_of_parse? hb
    cases hr : Reference.parse? text.toList with
    | none =>
      obtain ⟨before, hbefore, happend⟩ := appendToBase_eq base text hunmarked
      dsimp only
      rw [happend, hbefore.isPlain_append, endsInEscape_append hbefore.endsInEscape]
      exact ⟨htext, rfl⟩
    | some r =>
      have hrread := Reference.readFrom_of_parse? hr
      dsimp only
      by_cases hscheme : r.scheme = []
      · rw [if_neg (Classical.not_not.2 hscheme), if_neg (Classical.not_not.2 hscheme),
          String.toList_ofList]
        have hbrootless : Unmarked b.rootless :=
          fun c hc => hunmarked c (hbread.rootless.subset hc)
        have hrrootless : Unmarked r.rootless := by
          rw [Reference.rootless_eq_nil_of_parse? hr hscheme]
          exact unmarked_nil
        obtain ⟨hplain, hend⟩ := Reference.render_resolve_end (hbread.clear hbrootless)
          (hbread.unmarked_query hunmarked) (hrread.clear hrrootless) (hrread.isPlain_query htext)
        refine ⟨hplain, hend.trans ?_⟩
        by_cases hfragment : r.fragment = []
        · rw [if_pos hfragment, decide_eq_true hfragment, Bool.true_and]
        · rw [if_neg hfragment, decide_eq_false hfragment]
          rfl
      · rw [if_pos hscheme, if_pos hscheme]
        exact ⟨htext, rfl⟩

end RdfMapping.Iri
