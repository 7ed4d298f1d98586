/-
# The order of first mention

Decoding lists the maps in the order in which the triples mention them first: each map is followed
by those it mentions, and each is kept where it comes first.
-/
import Mathlib.Logic.Function.Iterate
import RdfMapping.Proofs.Emission.RoundTrip

namespace RdfMapping.RuleGraph

open Mapping
open Rdf (Term Quad)

/-! ## Nodes in the order of their first mention -/

section Mentioned

variable {mentions : Term → List Term} {ns ns' : List Term} {k : Nat}

/-- The nodes and those they mention, in the order of their first mention. -/
def mentioned (mentions : Term → List Term) (ns : List Term) : List Term :=
  (ns.flatMap fun n => n :: mentions n).eraseDups

theorem mem_mentioned {x : Term} :
    x ∈ mentioned mentions ns ↔ ∃ n ∈ ns, x = n ∨ x ∈ mentions n := by
  simp only [mentioned, List.mem_eraseDups, List.mem_flatMap, List.mem_cons]

theorem subset_mentioned : ns ⊆ mentioned mentions ns :=
  fun n hn => mem_mentioned.2 ⟨n, hn, .inl rfl⟩

/-- **Nodes that mention each other are put in a new order.** -/
theorem mentioned_perm (hn : ns.Nodup) (hm : ∀ n ∈ ns, mentions n ⊆ ns) :
    (mentioned mentions ns).Perm ns := by
  refine (List.perm_ext_iff_of_nodup (nodup_eraseDups _) hn).2 fun x =>
    ⟨fun hx => ?_, fun hx => subset_mentioned hx⟩
  obtain ⟨n, hmem, rfl | hx⟩ := mem_mentioned.1 hx
  · exact hmem
  · exact hm n hmem hx

theorem mentioned_append (ns ns' : List Term) :
    mentioned mentions (ns ++ ns') = mentioned mentions ns ++
      ((ns'.flatMap fun n => n :: mentions n).removeAll
        (ns.flatMap fun n => n :: mentions n)).eraseDups := by
  rw [mentioned, List.flatMap_append, List.eraseDups_append]
  rfl

/-- The first nodes say how the new order begins. -/
theorem mentioned_begins_take (k : Nat) :
    mentioned mentions (ns.take k) <+: mentioned mentions ns := by
  have hsplit : mentioned mentions (ns.take k ++ ns.drop k) = _ := mentioned_append _ _
  rw [List.take_append_drop] at hsplit
  rw [hsplit]
  exact List.prefix_append _ _

/-- If the first nodes mention no other ones, the next node comes after them. -/
theorem mentioned_begins_take_succ (hn : ns.Nodup) (hk : k < ns.length)
    (htake : mentioned mentions (ns.take k) = ns.take k) :
    ns.take (k + 1) <+: mentioned mentions ns := by
  have hnext : ns[k] ∉ (ns.take k).flatMap fun n => n :: mentions n := by
    intro hmem
    have hbefore : ns[k] ∈ ns.take k := by
      rw [← htake]
      exact List.mem_eraseDups.2 hmem
    obtain ⟨i, hi, heq⟩ := List.mem_take_iff_getElem.1 hbefore
    have hik : i = k := (List.Nodup.getElem_inj_iff hn).1 heq
    omega
  have hsplit : mentioned mentions (ns.take k ++ ns.drop k) = _ := mentioned_append _ _
  rw [List.take_append_drop, htake, List.drop_eq_getElem_cons hk, List.flatMap_cons,
    List.cons_append, List.removeAll, List.filter_cons_of_pos (by simpa using hnext),
    List.eraseDups_cons] at hsplit
  rw [hsplit, List.append_cons, ← List.take_succ_eq_append_getElem hk]
  exact List.prefix_append _ _

/-- **With each round one more place is final.** -/
theorem take_succ_mentioned (hn : ns.Nodup) (hm : ∀ n ∈ ns, mentions n ⊆ ns)
    (hk : (mentioned mentions ns).take k = ns.take k) :
    (mentioned mentions (mentioned mentions ns)).take (k + 1) =
      (mentioned mentions ns).take (k + 1) := by
  have hperm := mentioned_perm hn hm
  have hnodup : (mentioned mentions ns).Nodup := hperm.nodup_iff.2 hn
  -- both orders begin with what the first nodes mention
  have hfirst : mentioned mentions (ns.take k) <+: mentioned mentions ns := mentioned_begins_take k
  have hsecond : mentioned mentions (ns.take k) <+: mentioned mentions (mentioned mentions ns) := by
    rw [← hk]
    exact mentioned_begins_take k
  by_cases hlong : k + 1 ≤ (mentioned mentions (ns.take k)).length
  · obtain ⟨rest, hrest⟩ := hfirst
    obtain ⟨rest', hrest'⟩ := hsecond
    rw [← hrest', List.take_append_of_le_length hlong]
    conv_rhs => rw [← hrest]
    exact (List.take_append_of_le_length hlong).symm
  by_cases hshort : k < (mentioned mentions ns).length
  · have hlen : (mentioned mentions (ns.take k)).length = k := by
      have hle : (ns.take k).length ≤ (mentioned mentions (ns.take k)).length :=
        (List.subperm_of_subset (hn.sublist (List.take_sublist _ _)) subset_mentioned).length_le
      rw [List.length_take, ← hperm.length_eq] at hle
      omega
    have htake : mentioned mentions ((mentioned mentions ns).take k) =
        (mentioned mentions ns).take k := by
      rw [hk, List.prefix_iff_eq_take.1 hfirst, hlen, hk]
    have hprefix := List.prefix_iff_eq_take.1 (mentioned_begins_take_succ hnodup hshort htake)
    rw [List.length_take, Nat.min_eq_left hshort] at hprefix
    exact hprefix.symm
  · -- all nodes stay in their places
    have hall : mentioned mentions ns = ns := by
      have hlen := hperm.length_eq
      rwa [List.take_of_length_le (by omega), List.take_of_length_le (by omega)] at hk
    rw [hall, hall]

/-- The order after some rounds. -/
theorem iterate_mentioned_perm (hn : ns.Nodup) (hm : ∀ n ∈ ns, mentions n ⊆ ns) (k : Nat) :
    (Nat.iterate (mentioned mentions) k ns).Perm ns := by
  induction k with
  | zero => exact .refl _
  | succ k ih =>
    rw [Function.iterate_succ_apply']
    refine (mentioned_perm (ih.nodup_iff.2 hn) fun n hmem => ?_).trans ih
    exact List.Subset.trans (hm n (ih.subset hmem)) ih.symm.subset

/-- **After `k` rounds the first `k + 1` nodes stay in their places.** -/
theorem take_iterate_mentioned (hn : ns.Nodup) (hm : ∀ n ∈ ns, mentions n ⊆ ns) (k : Nat) :
    (Nat.iterate (mentioned mentions) (k + 1) ns).take (k + 1) =
      (Nat.iterate (mentioned mentions) k ns).take (k + 1) := by
  induction k with
  | zero =>
    cases ns with
    | nil => rfl
    | cons n rest =>
      change (mentioned mentions (n :: rest)).take 1 = (n :: rest).take 1
      rw [mentioned, List.flatMap_cons, List.cons_append, List.eraseDups_cons]
      rfl
  | succ k ih =>
    have hperm := iterate_mentioned_perm hn hm k
    rw [Function.iterate_succ_apply'] at ih
    rw [Function.iterate_succ_apply', Function.iterate_succ_apply']
    refine take_succ_mentioned (hperm.nodup_iff.2 hn) (fun n hmem => ?_) ih
    exact List.Subset.trans (hm n (hperm.subset hmem)) hperm.symm.subset

end Mentioned

/-- The last place is settled by the others. -/
theorem eq_of_perm_of_take_eq {α : Type} {l l' : List α} {k : Nat} (h : l.Perm l')
    (htake : l.take k = l'.take k) (hlen : l'.length ≤ k + 1) : l = l' := by
  have hdrop : (l.drop k).Perm (l'.drop k) := by
    rw [← List.take_append_drop k l, ← List.take_append_drop k l', htake] at h
    exact (List.perm_append_left_iff _).1 h
  have hlast : l.drop k = l'.drop k := by
    have hle : (l'.drop k).length ≤ 1 := by
      rw [List.length_drop]
      omega
    match hl' : l'.drop k, hle with
    | [], _ => rw [hl'] at hdrop; exact hdrop.eq_nil
    | [x], _ => rw [hl'] at hdrop; exact List.perm_singleton.1 hdrop
  rw [← List.take_append_drop k l, htake, hlast, List.take_append_drop]

/-! ## What triples mention -/

/-- The ends of a triple. -/
def Graph.ends (q : Quad) : List Term := [q.subject, q.object]

/-- The triples mention nodes in the order of their numbers. -/
theorem pairwise_firstMention (ts : List Quad) (p : Term → Bool) :
    ((ts.flatMap Graph.ends).filter p).eraseDups.Pairwise fun a b =>
      ts.findIdx (fun q => q.subject == a || q.object == a) ≤
        ts.findIdx (fun q => q.subject == b || q.object == b) := by
  induction ts generalizing p with
  | nil => exact List.Pairwise.nil
  | cons q rest ih =>
    have hends (x : Term) : x ∈ Graph.ends q ↔ (q.subject == x || q.object == x) = true := by
      rw [Graph.ends, List.mem_pair, Bool.or_eq_true, beq_iff_eq, beq_iff_eq, eq_comm,
        @eq_comm _ x]
    -- the ends of the first triple have the least number
    have hzero (a b : Term) (ha : a ∈ Graph.ends q) :
        (q :: rest).findIdx (fun q => q.subject == a || q.object == a) ≤
          (q :: rest).findIdx (fun q => q.subject == b || q.object == b) := by
      rw [List.findIdx_cons, (hends a).1 ha]
      exact Nat.zero_le _
    rw [List.flatMap_cons, List.filter_append, List.eraseDups_append, List.pairwise_append]
    refine ⟨?_, ?_, fun a ha b _ => ?_⟩
    · refine List.pairwise_of_forall_mem_list fun a ha b _ => ?_
      exact hzero a b (List.mem_filter.1 (List.mem_eraseDups.1 ha)).1
    · -- the others are the mentions of the rest, apart from the ends of the first triple
      have hother : ((rest.flatMap Graph.ends).filter p).removeAll ((Graph.ends q).filter p) =
          (rest.flatMap Graph.ends).filter fun x => p x && !(Graph.ends q).contains x := by
        rw [List.removeAll, List.filter_filter]
        refine List.filter_congr fun x _ => ?_
        cases hpx : p x <;> simp [hpx]
      rw [hother]
      refine (ih _).imp_of_mem fun {a b} ha hb hle => ?_
      have hmem {x : Term} (hx : x ∈ ((rest.flatMap Graph.ends).filter fun x =>
          p x && !(Graph.ends q).contains x).eraseDups) : x ∉ Graph.ends q := by
        have := (List.mem_filter.1 (List.mem_eraseDups.1 hx)).2
        simp only [Bool.and_eq_true, Bool.not_eq_true', List.contains_eq_mem,
          decide_eq_false_iff_not] at this
        exact this.2
      rw [List.findIdx_cons, List.findIdx_cons, Bool.eq_false_iff.2 (mt (hends a).2 (hmem ha)),
        Bool.eq_false_iff.2 (mt (hends b).2 (hmem hb))]
      exact Nat.succ_le_succ hle
    · exact hzero a b (List.mem_filter.1 (List.mem_eraseDups.1 ha)).1

/-- What the drawing of a sketch mentions; `here` is the node it is drawn at. -/
def Sketch.mentions (here : List Term) : Sketch → List Term
  | done => []
  | arrow _ o rest => here ++ o :: rest.mentions here
  | link _ inner rest => here ++ (inner.mentions [] ++ rest.mentions here)

/-- **What a drawing mentions** does not depend on its numbers. -/
theorem filter_ends_draw {p : Term → Bool} (hp : ∀ l, p (.blank l) = false) (used : List String)
    (t : Sketch) {n : Term} {here : List Term} (hn : [n].filter p = here.filter p) (k : Nat) :
    ((t.draw used n k).triples.flatMap Graph.ends).filter p = (t.mentions here).filter p := by
  induction t generalizing n here k with
  | done => rfl
  | arrow q o rest ih =>
    rw [Sketch.triples_arrow, List.flatMap_cons, List.filter_append, ih hn k]
    change ([n] ++ [o]).filter p ++ _ = (here ++ ([o] ++ rest.mentions here)).filter p
    rw [List.filter_append, List.filter_append, List.filter_append, hn, List.append_assoc]
  | link q inner rest ihi ihr =>
    have hnew : [Sketch.newNode used k].filter p = [].filter p :=
      List.filter_cons_of_neg (by rw [Sketch.newNode, hp]; exact Bool.false_ne_true)
    rw [Sketch.triples_link, List.flatMap_cons, List.flatMap_append, List.filter_append,
      List.filter_append, Sketch.drawInner, ihi hnew, ihr hn]
    change ([n] ++ [Sketch.newNode used k]).filter p ++ _ =
      (here ++ (inner.mentions [] ++ rest.mentions here)).filter p
    rw [List.filter_append, List.filter_append, List.filter_append, hn, hnew, List.filter_nil,
      List.append_nil]

/-! ## Sketches and labels in use -/

section Labels

open Sketch

variable {s : Setting} {used : List String}

mutual

theorem ofTermMap_used (class_ : String) (position : Position) :
    ∀ tm : TermMap,
      ofTermMap { s with used := used } class_ position tm = ofTermMap s class_ position tm
  | ⟨none, _, _, _, _⟩ => by rw [ofTermMap, ofTermMap]
  | ⟨some value, _, _, _, _⟩ => by rw [ofTermMap, ofTermMap, ofValue_used value]

theorem ofValue_used : ∀ v : Value, ofValue { s with used := used } v = ofValue s v
  | .constant _ | .reference _ | .template _ | .join _ _ => by rw [ofValue, ofValue]
  | .function _ parameters => by rw [ofValue, ofValue, ofParameters_used parameters]

theorem ofParameters_used :
    ∀ ps : List Parameter, ofParameters { s with used := used } ps = ofParameters s ps
  | [] => by rw [ofParameters, ofParameters]
  | ⟨_, value⟩ :: rest => by
    rw [ofParameters, ofParameters, ofTermMap_used _ _ value, ofParameters_used rest]

end

/-- **The sketch of a map does not depend on the labels in use.** -/
theorem ofTriplesMap_used (s : Setting) (used : List String) (tm : TriplesMap) :
    ofTriplesMap { s with used := used } tm = ofTriplesMap s tm := by
  have hterm : ofTermMap { s with used := used } = ofTermMap s :=
    funext fun class_ => funext fun position => funext (ofTermMap_used class_ position)
  have hpair : ofPair { s with used := used } = ofPair s := by
    funext pom
    rw [ofPair, ofPair, ofGraphs, ofGraphs, hterm]
  rw [ofTriplesMap, ofTriplesMap, ofSubject, ofSubject, ofGraphs, ofGraphs, hpair, hterm]

end Labels

/-! ## The order in which maps are found again -/

section Maps

variable {s : Setting} {g : Graph} {maps : List TriplesMap} {mentions : Term → List Term}
  {p : Term → Bool}

/-- What the triples of maps mention, map by map. -/
theorem filter_ends_drawMaps (hp : ∀ l, p (.blank l) = false)
    (hm : ∀ tm ∈ maps, ((Sketch.ofTriplesMap s tm).mentions [s.node tm]).filter p =
      s.node tm :: mentions (s.node tm)) (k : Nat) :
    ((drawMaps s maps k).triples.flatMap Graph.ends).filter p =
      (maps.map s.node).flatMap fun n => n :: mentions n := by
  induction maps generalizing k with
  | nil => rfl
  | cons tm rest ih =>
    rw [List.forall_mem_cons] at hm
    rw [triples_drawMaps_cons, List.flatMap_append, List.filter_append, ih hm.2, drawMap,
      filter_ends_draw hp _ _ rfl, hm.1, List.map_cons, List.flatMap_cons]

/-- A map is mentioned before, or by its first triple. -/
theorem object_ne_of_firstMention (h : ∀ tm ∈ maps, Drawable s tm)
    (hnodes : (maps.map s.node).Nodup) (hg : g.triples = (drawMaps s maps 0).triples)
    {tm tm' : TriplesMap} (htm : tm ∈ maps) {i : Nat} {q : Quad} (hq : g.triples[i]? = some q)
    (hsub : q.subject = s.node tm) (hi : g.firstMention (s.node tm) = i) :
    q.object ≠ s.node tm' := by
  obtain ⟨before, after, rfl⟩ := List.append_of_mem htm
  have hbefore : ∀ t ∈ before, Drawable s t := fun t ht => h t (List.mem_append_left _ ht)
  rw [List.map_append, List.map_cons, List.nodup_middle, List.nodup_cons, List.mem_append,
    not_or] at hnodes
  let start := (drawMaps s before 0).triples.length
  have hfirst : g.triples[start]? = some
      (triple (s.node tm) (sourceProperty s.dialect) (Sketch.newNode s.used
        (drawMaps s before 0).next)) := by
    rw [hg, triples_drawMaps_append, List.getElem?_append_right (Nat.le_refl _), Nat.sub_self,
      triples_drawMaps_cons, drawMap, Sketch.ofTriplesMap, Sketch.triples_link]
    rfl
  -- the first mention is neither earlier nor later than the first triple
  have hge : start ≤ i := by
    by_contra hlt
    rw [hg, triples_drawMaps_append, List.getElem?_append_left (Nat.not_le.1 hlt)] at hq
    exact subject_ne_node hbefore hnodes.1.1 (List.mem_of_getElem? hq) hsub
  have hle : i ≤ start := by
    obtain ⟨hlt, hget⟩ := List.getElem?_eq_some_iff.1 hfirst
    rw [← hi, Graph.firstMention]
    refine Nat.le_of_not_lt fun hlater => ?_
    have hno := List.not_of_lt_findIdx hlater
    rw [hget] at hno
    simp [triple] at hno
  rw [Nat.le_antisymm hle hge, hfirst] at hq
  rw [← Option.some.inj hq]
  intro heq
  cases heq

/-- No two maps are first mentioned by the same triple. -/
theorem firstMention_injective (h : ∀ tm ∈ maps, Drawable s tm)
    (hnodes : (maps.map s.node).Nodup) (hg : g.triples = (drawMaps s maps 0).triples)
    {tm tm' : TriplesMap} (htm : tm ∈ maps) (htm' : tm' ∈ maps)
    (heq : g.firstMention (s.node tm) = g.firstMention (s.node tm')) : s.node tm = s.node tm' := by
  have hmention {t : TriplesMap} (ht : t ∈ maps) : ∃ q, g.triples[g.firstMention (s.node t)]? =
      some q ∧ (q.subject = s.node t ∨ q.object = s.node t) := by
    obtain ⟨before, after, rfl⟩ := List.append_of_mem ht
    have hmem : triple (s.node t) (sourceProperty s.dialect)
        (Sketch.newNode s.used (drawMaps s before 0).next) ∈ g.triples := by
      rw [hg, triples_drawMaps_append, triples_drawMaps_cons, drawMap, Sketch.ofTriplesMap,
        Sketch.triples_link]
      exact List.mem_append_right _ (List.mem_append_left _ (List.mem_cons_self ..))
    have hlt : g.firstMention (s.node t) < g.triples.length :=
      List.findIdx_lt_length.2 ⟨_, hmem, by simp [triple]⟩
    have hfound : (g.triples[g.firstMention (s.node t)].subject == s.node t ||
        g.triples[g.firstMention (s.node t)].object == s.node t) = true :=
      List.findIdx_getElem (w := hlt)
    rw [Bool.or_eq_true, beq_iff_eq, beq_iff_eq] at hfound
    exact ⟨_, List.getElem?_eq_getElem hlt, hfound⟩
  obtain ⟨q, hq, hends⟩ := hmention htm
  obtain ⟨q', hq', hends'⟩ := hmention htm'
  have hqq : q' = q := Option.some.inj (hq'.symm.trans (heq ▸ hq))
  subst hqq
  rcases hends with hs | ho
  · rcases hends' with hs' | ho'
    · exact hs.symm.trans hs'
    · exact absurd ho' (object_ne_of_firstMention h hnodes hg htm hq hs rfl)
  · rcases hends' with hs' | ho'
    · exact absurd ho (object_ne_of_firstMention h hnodes hg htm' hq' hs' rfl)
    · exact ho.symm.trans ho'

/-- **The maps are found in the order in which they are mentioned.** -/
theorem pairwise_mentionOrder (h : ∀ tm ∈ maps, Drawable s tm) (hnodes : (maps.map s.node).Nodup)
    (hg : g.triples = (drawMaps s maps 0).triples) :
    ((g.mentionOrder s maps).map s.node).Pairwise fun a b =>
      g.firstMention a < g.firstMention b := by
  have hperm : (g.mentionOrder s maps).Perm maps := List.mergeSort_perm _ _
  have hle : (g.mentionOrder s maps).Pairwise fun a b =>
      g.firstMention (s.node a) ≤ g.firstMention (s.node b) := by
    refine (List.pairwise_mergeSort (fun a b c hab hbc => ?_) (fun a b => ?_) maps).imp
      fun {a b} hab => of_decide_eq_true hab
    · rw [decide_eq_true_eq] at hab hbc ⊢
      exact Nat.le_trans hab hbc
    · rw [Bool.or_eq_true, decide_eq_true_eq, decide_eq_true_eq]
      exact Nat.le_total _ _
  have hne : (g.mentionOrder s maps).Pairwise fun a b => s.node a ≠ s.node b :=
    List.pairwise_map.1 ((hperm.map s.node).nodup_iff.2 hnodes)
  rw [List.pairwise_map]
  refine (hle.and hne).imp_of_mem fun {a b} ha hb hab => ?_
  refine Nat.lt_of_le_of_ne hab.1 fun heq => hab.2 ?_
  exact firstMention_injective h hnodes hg (hperm.subset ha) (hperm.subset hb) heq

/-- **The order of the maps is read off what they mention.** -/
theorem map_node_mentionOrder (h : ∀ tm ∈ maps, Drawable s tm) (hnodes : (maps.map s.node).Nodup)
    (hg : g.triples = (drawMaps s maps 0).triples)
    (hp : ∀ n, p n = true ↔ n ∈ maps.map s.node)
    (hm : ∀ tm ∈ maps, ((Sketch.ofTriplesMap s tm).mentions [s.node tm]).filter p =
      s.node tm :: mentions (s.node tm)) :
    (g.mentionOrder s maps).map s.node = mentioned mentions (maps.map s.node) := by
  have hblank (l : String) : p (.blank l) = false := by
    refine Bool.eq_false_iff.2 fun hpl => ?_
    obtain ⟨tm, -, heq⟩ := List.mem_map.1 ((hp _).1 hpl)
    cases heq
  have hclosed : ∀ n ∈ maps.map s.node, mentions n ⊆ maps.map s.node := by
    intro n hn x hx
    obtain ⟨tm, htm, rfl⟩ := List.mem_map.1 hn
    have hmem : x ∈ s.node tm :: mentions (s.node tm) := List.mem_cons_of_mem _ hx
    rw [← hm tm htm] at hmem
    exact (hp x).1 (List.mem_filter.1 hmem).2
  have hperm := mentioned_perm hnodes hclosed
  have hsorted : (mentioned mentions (maps.map s.node)).Pairwise fun a b =>
      g.firstMention a ≤ g.firstMention b := by
    have hpair := pairwise_firstMention (drawMaps s maps 0).triples p
    rw [filter_ends_drawMaps hblank hm 0, ← hg] at hpair
    exact hpair
  have horder : ((g.mentionOrder s maps).map s.node).Pairwise fun a b =>
      g.firstMention a ≤ g.firstMention b :=
    (pairwise_mentionOrder h hnodes hg).imp Nat.le_of_lt
  refine List.Perm.eq_of_pairwise (fun a b ha hb hab hba => ?_) horder hsorted
    (((List.mergeSort_perm _ _).map _).trans hperm.symm)
  obtain ⟨tm, htm, rfl⟩ := List.mem_map.1 ha
  obtain ⟨tm', htm', rfl⟩ := List.mem_map.1 (hperm.subset hb)
  exact firstMention_injective h hnodes hg ((List.mergeSort_perm _ _).subset htm) htm'
    (Nat.le_antisymm hab hba)

end Maps

end RdfMapping.RuleGraph
