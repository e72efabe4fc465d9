import RubyOAuth.Proofs.Nested

set_option autoImplicit false

/-! # Nested parameters and their flat form

A client may see `a[b]` as a flat name where a server sees a hash under `a`. The flat names are sorted as
they are. The nested ones are sorted in two stages: the parameters by the name at the top, and under one
name the encoded segments. The two forms normalize alike only where the two orders agree, and where no
parameter is without a leaf. -/

namespace RubyOAuth

open Bytes

/-! ## The flat form -/

mutual

/-- A string, or a hash of such to any depth. -/
def isStringTree : Value → Bool
  | .str _ => true
  | .hash es => areStringTrees es
  | _ => false

def areStringTrees : List (Bytes × Value) → Bool
  | [] => true
  | (_, v) :: es => isStringTree v && areStringTrees es

end

def StringTrees (params : Params) : Prop := ∀ e ∈ params.entries, isStringTree e.2 = true

/-- The flat hash: every leaf under its bracketed name. -/
def flatForm (rt : Runtime) (params : Params) : Params :=
  OrderedHash.ofList ((hashPairs rt params).map (fun l => (l.1, .str l.2)))

/-- Names in order as the two forms see it: names at the top keep all their leaves apart, and under one
    name the encoded names, each with the `=` that follows it, come in the order of the names. -/
structure NamesInOrder (rt : Runtime) (params : Params) : Prop where
  across : ∀ e ∈ params.entries, ∀ f ∈ params.entries, e.1 < f.1 →
    ∀ l ∈ entryLeaves rt e, ∀ m ∈ entryLeaves rt f, l.1 < m.1
  within : ∀ e ∈ params.entries, ∀ l ∈ entryLeaves rt e, ∀ m ∈ entryLeaves rt e, l.1 < m.1 →
    escapeBytes l.1 ++ [equal] < escapeBytes m.1 ++ [equal]

theorem listing_flatForm {rt : Runtime} {params : Params}
    (hn : ((hashPairs rt params).map Prod.fst).Nodup) :
    listing rt (flatForm rt params) = .ok (segments (sortPairs (hashPairs rt params))) := by
  have hentries : (flatForm rt params).entries
      = (hashPairs rt params).map (fun l => (l.1, .str l.2)) := by
    refine OrderedHash.entries_ofList ?_
    rwa [List.map_map]
  have hflat : Flat (flatForm rt params) := by
    intro e he
    rw [hentries] at he
    obtain ⟨l, -, rfl⟩ := List.mem_map.1 he
    rfl
  have hpairs : flatPairs (flatForm rt params).entries = hashPairs rt params := by
    rw [hentries, flatPairs, List.flatMap_map]
    exact List.flatMap_singleton' _
  rw [listing_flat hflat, hpairs]

/-! ## The order of segments -/

/-- Up to a separator that neither text has, what follows it does not matter. -/
theorem append_cons_lt_iff {sep : UInt8} {s t : Bytes} (hs : sep ∉ s) (ht : sep ∉ t) (hne : s ≠ t)
    (u v : Bytes) : s ++ sep :: u < t ++ sep :: v ↔ s ++ [sep] < t ++ [sep] := by
  induction s generalizing t with
  | nil =>
      cases t with
      | nil => exact absurd rfl hne
      | cons c t =>
          have hc : sep ≠ c := fun he => ht (he ▸ List.mem_cons_self)
          simp [List.cons_lt_cons_iff, hc]
  | cons b s ih =>
      cases t with
      | nil =>
          have hb : b ≠ sep := fun he => hs (he ▸ List.mem_cons_self)
          simp [List.cons_lt_cons_iff, hb]
      | cons c t =>
          rw [List.cons_append, List.cons_append, List.cons_append, List.cons_append,
            List.cons_lt_cons_iff, List.cons_lt_cons_iff]
          refine or_congr_right (and_congr_right fun hbc => ?_)
          subst hbc
          exact ih (fun h => hs (List.mem_cons_of_mem b h)) (fun h => ht (List.mem_cons_of_mem b h))
            (fun he => hne (by rw [he]))

/-- The segments of two names come in the order of the encoded names. -/
theorem segment_lt_iff {n m : Bytes} (hne : n ≠ m) (v w : Bytes) :
    segment n v < segment m w ↔ escapeBytes n ++ [equal] < escapeBytes m ++ [equal] :=
  append_cons_lt_iff (not_mem_escapeBytes (by decide) (by decide) n)
    (not_mem_escapeBytes (by decide) (by decide) m) (fun he => hne (escapeBytes_inj.1 he)) _ _

/-! ## The nested form -/

section Nested

variable {rt : Runtime} {params : Params}

/-- A string tree lists its leaves in the order of their segments. -/
theorem normalizeEntry_stringTree {e : Bytes × Value} (h : isStringTree e.2 = true) :
    normalizeEntry rt e.1 e.2 = .ok (sortSegments (segments (entryLeaves rt e))) := by
  obtain ⟨k, v⟩ := e
  cases v with
  | str s => rfl
  | hash es => exact congrArg Except.ok (normalizeNestedQuery_eq rt k (.hash es))
  | nil => simp [isStringTree] at h
  | bool b => simp [isStringTree] at h
  | arr vs => simp [isStringTree] at h

theorem uniformArrays_of_stringTrees (h : StringTrees params) : UniformArrays params := by
  intro e he vs hvs
  have htree := h e he
  rw [hvs] at htree
  simp [isStringTree] at htree

/-- The segments of a parameter, each with the name at the top. -/
def topSegments (rt : Runtime) (e : Bytes × Value) : List (Bytes × Bytes) :=
  (segments (entryLeaves rt e)).map (fun s => (e.1, s))

/-- All segments with the name at the top. -/
def allSegments (rt : Runtime) (params : Params) : List (Bytes × Bytes) :=
  params.entries.flatMap (topSegments rt)

theorem mem_allSegments {x : Bytes × Bytes} :
    x ∈ allSegments rt params ↔
      ∃ e ∈ params.entries, ∃ l ∈ entryLeaves rt e, x = (e.1, segment l.1 l.2) := by
  simp only [allSegments, topSegments, segments, List.mem_flatMap, List.map_map, List.mem_map,
    Function.comp_apply]
  constructor
  · rintro ⟨e, he, l, hl, rfl⟩
    exact ⟨e, he, l, hl, rfl⟩
  · rintro ⟨e, he, l, hl, rfl⟩
    exact ⟨e, he, l, hl, rfl⟩

/-- Parameter by parameter in the order of the names, the segments come in the order of the names at the
    top and then of the segments. -/
theorem flatMap_sortSegments (params : Params) :
    params.sortedEntries.flatMap (fun e => sortSegments (segments (entryLeaves rt e)))
      = (sortPairs (allSegments rt params)).map Prod.snd := by
  have hsorted : params.sortedEntries.flatMap
      (fun e => (sortSegments (segments (entryLeaves rt e))).map (fun s => (e.1, s)))
        = sortPairs (allSegments rt params) := by
    refine eq_sortPairs ?_ ?_
    · refine params.sortedEntries_perm.flatMap (fun e _ => ?_)
      exact (sortSegments_perm _).map _
    · rw [List.pairwise_flatMap]
      constructor
      · intro e _
        rw [List.pairwise_map]
        exact (List.pairwise_insertionSort (· ≤ ·) _).imp (fun h => .inr ⟨rfl, h⟩)
      · refine params.sortedEntries_strict.imp ?_
        intro e f hlt x hx y hy
        obtain ⟨s, -, rfl⟩ := List.mem_map.1 hx
        obtain ⟨t, -, rfl⟩ := List.mem_map.1 hy
        exact .inl hlt
  rw [← hsorted, List.map_flatMap]
  refine List.flatMap_congr fun e _ => ?_
  rw [List.map_map]
  exact (List.map_id _).symm

theorem map_segmentPair_allSegments :
    (allSegments rt params).map (fun x => segmentPair x.2) = hashPairs rt params := by
  rw [allSegments, hashPairs, List.map_flatMap]
  refine List.flatMap_congr fun e _ => ?_
  rw [topSegments, List.map_map]
  exact map_segmentPair_segments _

/-- One leaf has a given name, and one parameter that leaf. -/
theorem eq_of_leaf_name (hn : ((hashPairs rt params).map Prod.fst).Nodup) {e f : Bytes × Value}
    {l m : Bytes × Bytes} (he : e ∈ params.entries) (hf : f ∈ params.entries)
    (hl : l ∈ entryLeaves rt e) (hm : m ∈ entryLeaves rt f) (hname : l.1 = m.1) :
    l = m ∧ e = f := by
  constructor
  · exact List.inj_on_of_nodup_map hn (List.mem_flatMap.2 ⟨e, he, hl⟩)
      (List.mem_flatMap.2 ⟨f, hf, hm⟩) hname
  · rw [hashPairs, List.map_flatMap, List.nodup_flatMap] at hn
    have : Std.Symm (Function.onFun List.Disjoint fun g => (entryLeaves rt g).map Prod.fst) :=
      ⟨fun _ _ h => List.Disjoint.symm h⟩
    by_contra hne
    exact hn.2.forall he hf hne (List.mem_map_of_mem hl) (hname ▸ List.mem_map_of_mem hm)

theorem eq_of_key {e f : Bytes × Value} (he : e ∈ params.entries) (hf : f ∈ params.entries)
    (hkey : e.1 = f.1) : e = f := List.inj_on_of_nodup_map params.nodup he hf hkey

/-- **The two stages sort as the names do exactly where the names are in order.** -/
theorem namesInOrder_iff (hn : ((hashPairs rt params).map Prod.fst).Nodup) :
    NamesInOrder rt params ↔ ∀ x ∈ allSegments rt params, ∀ y ∈ allSegments rt params,
      PairLe x y → PairLe (segmentPair x.2) (segmentPair y.2) := by
  constructor
  · intro h x hx y hy hle
    obtain ⟨e, he, l, hl, rfl⟩ := mem_allSegments.1 hx
    obtain ⟨f, hf, m, hm, rfl⟩ := mem_allSegments.1 hy
    rw [segmentPair_segment, segmentPair_segment]
    rcases hle with hlt | ⟨hkey, hle⟩
    · exact .inl (h.across e he f hf hlt l hl m hm)
    · have hef : e = f := eq_of_key he hf hkey
      subst hef
      by_cases hname : l.1 = m.1
      · rw [(eq_of_leaf_name hn he he hl hm hname).1]
        exact .inr ⟨rfl, Std.le_refl _⟩
      · rcases Std.le_total (a := l.1) (b := m.1) with hlm | hml
        · exact .inl (Std.lt_of_le_of_ne hlm hname)
        · have hlt := h.within e he m hm l hl (Std.lt_of_le_of_ne hml (Ne.symm hname))
          rw [← segment_lt_iff (Ne.symm hname) m.2 l.2] at hlt
          exact absurd (Std.lt_of_lt_of_le hlt hle) Std.lt_irrefl
  · intro h
    have hpair : ∀ e ∈ params.entries, ∀ f ∈ params.entries, ∀ l ∈ entryLeaves rt e,
        ∀ m ∈ entryLeaves rt f, PairLe (e.1, segment l.1 l.2) (f.1, segment m.1 m.2) →
          PairLe l m := by
      intro e he f hf l hl m hm hle
      have hlm := h _ (mem_allSegments.2 ⟨e, he, l, hl, rfl⟩) _
        (mem_allSegments.2 ⟨f, hf, m, hm, rfl⟩) hle
      rwa [segmentPair_segment, segmentPair_segment] at hlm
    constructor
    · intro e he f hf hlt l hl m hm
      rcases hpair e he f hf l hl m hm (.inl hlt) with hlm | ⟨hname, -⟩
      · exact hlm
      · -- a leaf of both parameters
        rw [(eq_of_leaf_name hn he hf hl hm hname).2] at hlt
        exact absurd hlt Std.lt_irrefl
    · intro e he l hl m hm hlt
      have hname : l.1 ≠ m.1 := fun hlm => Std.lt_irrefl (hlm ▸ hlt)
      rw [← segment_lt_iff hname l.2 m.2]
      by_contra hnot
      rcases hpair e he e he m hm l hl (.inr ⟨rfl, Std.not_lt.1 hnot⟩) with hml | ⟨hml, -⟩
      · exact Std.lt_irrefl (Std.lt_trans hlt hml)
      · exact hname hml.symm

/-- The segments in the order of the two stages are those of the leaves in the order of their names. -/
theorem sortedSegments_eq_iff (hn : ((hashPairs rt params).map Prod.fst).Nodup) :
    (sortPairs (allSegments rt params)).map Prod.snd = segments (sortPairs (hashPairs rt params)) ↔
      NamesInOrder rt params := by
  have hsegments : segments ((sortPairs (allSegments rt params)).map (fun x => segmentPair x.2))
      = (sortPairs (allSegments rt params)).map Prod.snd := by
    rw [segments, List.map_map]
    refine List.map_congr_left fun x hx => ?_
    obtain ⟨e, -, l, -, rfl⟩ := mem_allSegments.1 ((sortPairs_perm _).mem_iff.1 hx)
    rw [Function.comp_apply, segmentPair_segment]
  rw [namesInOrder_iff hn, ← map_segmentPair_allSegments, ← hsegments, segments, segments,
    segment_injective.list_map.eq_iff]
  exact map_insertionSort_eq_iff (fun _ _ => PairLe.antisymm) (fun _ _ => PairLe.antisymm)

theorem listing_nested (h : StringTrees params) :
    listing rt params = .ok (params.sortedEntries.flatMap
      (fun e => group (sortSegments (segments (entryLeaves rt e))))) := by
  have hentry : ∀ e ∈ params.sortedEntries,
      normalizeEntry rt e.1 e.2 = .ok (sortSegments (segments (entryLeaves rt e))) := fun e he =>
    normalizeEntry_stringTree (h e (params.sortedEntries_perm.mem_iff.1 he))
  refine listing_eq_ok.2 ⟨fun e he => ⟨_, hentry e he⟩, ?_⟩
  exact List.flatMap_congr fun e he => entrySegments_of_ok (hentry e he)

end Nested

/-! ## The two forms -/

/-- Only one empty text joins to nothing. -/
theorem joinWith_eq_nil_iff_length {sep : UInt8} {ss : List Bytes} (h : ∀ s ∈ ss, s = []) :
    joinWith sep ss = [] ↔ ss.length ≤ 1 := by
  match ss with
  | [] => simp
  | [s] => simp [h s List.mem_cons_self]
  | s :: t :: rest =>
      rw [joinWith_cons sep s (List.cons_ne_nil t rest)]
      simp

/-- **Nested and flat parameters normalize alike exactly where the names are in order and every parameter
    has a leaf, or there is no leaf and one parameter at most.** -/
theorem normalize_flatForm_iff (rt : Runtime) (params : Params) (htree : StringTrees params)
    (hn : ((hashPairs rt params).map Prod.fst).Nodup) :
    normalize rt params = normalize rt (flatForm rt params) ↔
      ((∀ e ∈ params.entries, entryLeaves rt e ≠ []) ∨
        ((∀ e ∈ params.entries, entryLeaves rt e = []) ∧ params.entries.length ≤ 1)) ∧
      NamesInOrder rt params := by
  obtain ⟨ss, hss, hsep, -, hnil, hempty⟩ :=
    listing_leaves rt (uniformArrays_of_stringTrees htree)
  have hlist := Except.ok.inj (hss.symm.trans (listing_nested htree))
  rw [normalize_eq_listing, normalize_eq_listing, hss, listing_flatForm hn]
  show Except.ok _ = Except.ok _ ↔ _
  rw [Except.ok.injEq]
  have hnone : hashPairs rt params = [] ↔ ∀ e ∈ params.entries, entryLeaves rt e = [] :=
    List.flatMap_eq_nil_iff
  by_cases hall : ∀ e ∈ params.entries, entryLeaves rt e ≠ []
  · -- no segment is empty, so the joined segments are the same
    have hgroup : ss = (sortPairs (allSegments rt params)).map Prod.snd := by
      rw [hlist, ← flatMap_sortSegments]
      refine List.flatMap_congr fun e he => ?_
      rw [group, if_neg]
      intro hs
      have hperm := sortSegments_perm (segments (entryLeaves rt e))
      rw [hs] at hperm
      exact hall e (params.sortedEntries_perm.mem_iff.1 he) (List.map_eq_nil_iff.1 hperm.nil_eq.symm)
    have hss' : [] ∉ ss := by
      rw [hnil]
      rintro ⟨e, he, hl⟩
      exact hall e he hl
    rw [joinWith_inj hsep ampersand_not_mem_segments hss' (nil_not_mem_segments _), hgroup,
      sortedSegments_eq_iff hn]
    exact ⟨fun h => ⟨.inl hall, h⟩, fun h => h.2⟩
  · push Not at hall
    obtain ⟨e, he, hl⟩ := hall
    have hmem : [] ∈ ss := hnil.2 ⟨e, he, hl⟩
    by_cases hno : ∀ f ∈ params.entries, entryLeaves rt f = []
    · have horder : NamesInOrder rt params := by
        constructor
        · intro f hf g hg _ l hlf
          rw [hno f hf] at hlf
          exact absurd hlf List.not_mem_nil
        · intro f hf l hlf
          rw [hno f hf] at hlf
          exact absurd hlf List.not_mem_nil
      have hgroups : ss = params.sortedEntries.map (fun _ => []) := by
        rw [hlist, List.map_eq_flatMap]
        refine List.flatMap_congr fun f hf => ?_
        rw [hno f (params.sortedEntries_perm.mem_iff.1 hf)]
        rfl
      have hblank : ∀ s ∈ ss, s = [] := by
        intro s hs
        rw [hgroups] at hs
        obtain ⟨f, -, rfl⟩ := List.mem_map.1 hs
        rfl
      have hlen : ss.length = params.entries.length := by
        rw [hgroups, List.length_map, params.sortedEntries_perm.length_eq]
      rw [hnone.2 hno]
      show joinWith ampersand ss = [] ↔ _
      rw [joinWith_eq_nil_iff_length hblank, hlen]
      constructor
      · intro h
        exact ⟨.inr ⟨hno, h⟩, horder⟩
      · rintro ⟨hall | ⟨-, h⟩, -⟩
        · exact absurd hl (hall e he)
        · exact h
    · -- the empty segment shows between the others
      have hne : segments (sortPairs (hashPairs rt params)) ≠ [] := by
        rw [ne_eq, segments, List.map_eq_nil_iff]
        intro hs
        have hperm := sortPairs_perm (hashPairs rt params)
        rw [hs] at hperm
        exact hno (hnone.1 hperm.nil_eq.symm)
      rw [joinWith_inj_of_ne hsep ampersand_not_mem_segments (List.ne_nil_of_mem hmem) hne]
      refine iff_of_false ?_ ?_
      · intro hsame
        rw [hsame] at hmem
        exact nil_not_mem_segments _ hmem
      · rintro ⟨hall | ⟨hno', -⟩, -⟩
        · exact hall e he hl
        · exact hno hno'

/-- A hash under one name and a string under another. -/
def treeParameters : Params :=
  OrderedHash.ofList
    [(ascii "b", .str (ascii "1")), (ascii "a", .hash [(ascii "x", .str (ascii "2"))])]

theorem treeParameters_stringTrees :
    StringTrees treeParameters ∧ ((hashPairs echoRuntime treeParameters).map Prod.fst).Nodup := by
  refine ⟨?_, by decide +kernel⟩
  intro e he
  have hmem : e ∈ [(ascii "b", Value.str (ascii "1")),
      (ascii "a", .hash [(ascii "x", .str (ascii "2"))])] := he
  rcases List.mem_cons.1 hmem with rfl | hmem
  · rfl
  · rw [List.mem_singleton.1 hmem]
    rfl

theorem treeParameters_normalize :
    normalize echoRuntime treeParameters
        = normalize echoRuntime (flatForm echoRuntime treeParameters) ↔
      ((∀ e ∈ treeParameters.entries, entryLeaves echoRuntime e ≠ []) ∨
        ((∀ e ∈ treeParameters.entries, entryLeaves echoRuntime e = []) ∧
          treeParameters.entries.length ≤ 1)) ∧
      NamesInOrder echoRuntime treeParameters :=
  normalize_flatForm_iff echoRuntime treeParameters treeParameters_stringTrees.1
    treeParameters_stringTrees.2

/-- `a[b]` comes after `aA`, and the hash under `a` before it. -/
def prefixParameters : Params :=
  OrderedHash.ofList
    [(ascii "a", .hash [(ascii "b", .str (ascii "1"))]), (ascii "aA", .str (ascii "2"))]

theorem prefixParameters_normalize :
    StringTrees prefixParameters ∧ ((hashPairs echoRuntime prefixParameters).map Prod.fst).Nodup ∧
      normalize echoRuntime prefixParameters = .ok (ascii "a%5Bb%5D=1&aA=2") ∧
      normalize echoRuntime (flatForm echoRuntime prefixParameters)
        = .ok (ascii "aA=2&a%5Bb%5D=1") ∧
      normalize echoRuntime prefixParameters
        ≠ normalize echoRuntime (flatForm echoRuntime prefixParameters) := by
  have hnested : normalize echoRuntime prefixParameters = .ok (ascii "a%5Bb%5D=1&aA=2") := rfl
  have hflat : normalize echoRuntime (flatForm echoRuntime prefixParameters)
      = .ok (ascii "aA=2&a%5Bb%5D=1") := rfl
  refine ⟨?_, by decide +kernel, hnested, hflat, by rw [hnested, hflat]; decide +kernel⟩
  intro e he
  have hmem : e ∈ [(ascii "a", Value.hash [(ascii "b", .str (ascii "1"))]),
      (ascii "aA", .str (ascii "2"))] := he
  rcases List.mem_cons.1 hmem with rfl | hmem
  · rfl
  · rw [List.mem_singleton.1 hmem]
    rfl

end RubyOAuth
