import RubyOAuth.Proofs.Flat

set_option autoImplicit false

/-! # The list that `normalize` joins

Whatever the values of the parameters, `normalize` joins a list of segments, entry by entry in the
order of the names. The segments of an entry have its name, or one that goes on with a bracket, so the
entries of a given set of names can be told from the others in the list. -/

namespace RubyOAuth

open Bytes

/-! ## The listing -/

/-- An empty group leaves an empty segment. -/
def group (items : List Bytes) : List Bytes := if items = [] then [[]] else items

/-- The segments of a hash. -/
def listing (rt : Runtime) (params : Params) : Except RubyError (List Bytes) := do
  let items ← params.sortedEntries.mapM (fun e => normalizeEntry rt e.1 e.2)
  .ok (items.flatMap group)

theorem joinWith_group (items : List Bytes) :
    joinWith ampersand (group items) = joinWith ampersand items := by
  unfold group
  split
  · next h => rw [h]; rfl
  · rfl

theorem group_ne_nil (items : List Bytes) : group items ≠ [] := by
  unfold group
  split
  · simp
  · assumption

theorem normalize_eq_listing (rt : Runtime) (params : Params) :
    normalize rt params = (listing rt params).map (joinWith ampersand) := by
  rw [normalize, listing]
  cases params.sortedEntries.mapM (fun e => normalizeEntry rt e.1 e.2) with
  | error e => rfl
  | ok items =>
      have hne : [] ∉ items.map group := by
        intro h
        obtain ⟨i, -, hi⟩ := List.mem_map.1 h
        exact group_ne_nil i hi
      have hjoin : (items.map group).map (joinWith ampersand) = items.map (joinWith ampersand) := by
        rw [List.map_map]
        exact List.map_congr_left fun i _ => joinWith_group i
      show Except.ok _ = Except.ok _
      rw [← hjoin, joinWith_map_joinWith ampersand hne, List.flatMap]

/-! ## The names of the segments -/

/-- The name itself, or the name and a bracket. -/
def UnderName (k n : Bytes) : Prop := n = k ∨ ∃ t, n = k ++ lbracket :: t

theorem UnderName.of_bracket {k t n : Bytes} (h : UnderName (k ++ lbracket :: t) n) :
    UnderName k n := by
  rcases h with rfl | ⟨t', rfl⟩
  · exact .inr ⟨t, rfl⟩
  · exact .inr ⟨t ++ lbracket :: t', by simp⟩

/-- A segment of the entry `k`. -/
def SegmentOf (k s : Bytes) : Prop := ∃ n w, s = segment n w ∧ UnderName k n

theorem SegmentOf.of_bracket {k t s : Bytes} (h : SegmentOf (k ++ lbracket :: t) s) :
    SegmentOf k s := by
  obtain ⟨n, w, hs, hn⟩ := h
  exact ⟨n, w, hs, hn.of_bracket⟩

mutual

/-- Every segment of a nested value is a name and a value, the name under that of the entry. -/
theorem segmentOf_normalizeNestedQuery (rt : Runtime) (k : Bytes) :
    ∀ v : Value, ∀ s ∈ normalizeNestedQuery rt (some k) v, SegmentOf k s
  | .arr vs, s, hs => by
    rw [normalizeNestedQuery] at hs
    exact segmentOf_nestedArray rt k vs s ((List.perm_insertionSort (· ≤ ·) _).mem_iff.1 hs)
  | .hash es, s, hs => by
    rw [normalizeNestedQuery] at hs
    exact segmentOf_nestedHash rt k es s ((List.perm_insertionSort (· ≤ ·) _).mem_iff.1 hs)
  | .nil, _, hs => ⟨k, _, List.mem_singleton.1 hs, .inl rfl⟩
  | .str _, _, hs => ⟨k, _, List.mem_singleton.1 hs, .inl rfl⟩
  | .bool _, _, hs => ⟨k, _, List.mem_singleton.1 hs, .inl rfl⟩

theorem segmentOf_nestedArray (rt : Runtime) (k : Bytes) :
    ∀ vs : List Value, ∀ s ∈ nestedArray rt (some k) vs, SegmentOf k s
  | [], s, hs => by simp [nestedArray] at hs
  | v :: vs, s, hs => by
    rw [nestedArray, List.mem_append] at hs
    rcases hs with hs | hs
    · exact (segmentOf_normalizeNestedQuery rt (k ++ ascii "[]") v s hs).of_bracket
    · exact segmentOf_nestedArray rt k vs s hs

theorem segmentOf_nestedHash (rt : Runtime) (k : Bytes) :
    ∀ es : List (Bytes × Value), ∀ s ∈ nestedHash rt (some k) es, SegmentOf k s
  | [], s, hs => by simp [nestedHash] at hs
  | (j, v) :: es, s, hs => by
    unfold nestedHash at hs
    rw [List.mem_append] at hs
    rcases hs with hs | hs
    · have hj := segmentOf_normalizeNestedQuery rt (k ++ [lbracket] ++ j ++ [rbracket]) v s hs
      rw [List.append_assoc, List.append_assoc] at hj
      exact hj.of_bracket
    · exact segmentOf_nestedHash rt k es s hs

end

theorem segmentOf_normalizeEntry {rt : Runtime} {k : Bytes} {v : Value} {items : List Bytes}
    (h : normalizeEntry rt k v = .ok items) : ∀ s ∈ items, SegmentOf k s := by
  intro s hs
  unfold normalizeEntry at h
  split at h
  · next vs =>
      -- an empty array counts as `[nil]`
      generalize (if vs.isEmpty then [Value.nil] else vs) = values at h
      simp only at h
      split at h
      · rw [← Except.ok.inj h] at hs
        exact segmentOf_normalizeNestedQuery rt k _ s hs
      · obtain ⟨sorted, -, h⟩ := Except.bind_eq_ok.1 h
        rw [← Except.ok.inj h] at hs
        obtain ⟨w, -, rfl⟩ := List.mem_map.1 hs
        exact ⟨k, _, rfl, .inl rfl⟩
  · rw [← Except.ok.inj h] at hs
    exact segmentOf_normalizeNestedQuery rt k _ s hs
  · rw [← Except.ok.inj h] at hs
    exact ⟨k, _, List.mem_singleton.1 hs, .inl rfl⟩

/-! ## Reading segments -/

/-- Name and value of a segment. -/
def segmentPair (s : Bytes) : Bytes × Bytes :=
  (unescape (cut equal s).1, unescape ((cut equal s).2.getD []))

@[simp] theorem segmentPair_segment (n w : Bytes) : segmentPair (segment n w) = (n, w) := by
  have hcut : cut equal (segment n w) = (escapeBytes n, some (escapeBytes w)) :=
    cut_append (not_mem_escapeBytes (by decide) (by decide) n) _
  rw [segmentPair, hcut, Option.getD_some, unescape_escapeBytes, unescape_escapeBytes]

@[simp] theorem segmentPair_nil : segmentPair [] = ([], []) := rfl

theorem map_segmentPair_segments (ps : List (Bytes × Bytes)) :
    (segments ps).map segmentPair = ps := by
  rw [segments, List.map_map]
  exact (List.map_congr_left fun p _ => segmentPair_segment p.1 p.2).trans (List.map_id _)

theorem filter_segments (q : Bytes → Bool) (ps : List (Bytes × Bytes)) :
    (segments ps).filter (fun s => q (segmentPair s).1) = segments (ps.filter (fun p => q p.1)) := by
  rw [segments, List.filter_map, segments]
  congr 1
  refine List.filter_congr fun p _ => ?_
  rw [Function.comp_apply, segmentPair_segment]

theorem sortPairs_filter (q : Bytes × Bytes → Bool) (ps : List (Bytes × Bytes)) :
    sortPairs (ps.filter q) = (sortPairs ps).filter q :=
  (eq_sortPairs ((sortPairs_perm ps).filter q)
    ((List.pairwise_insertionSort PairLe ps).filter q)).symm

/-! ## Names in order -/

theorem lt_of_underName {h k n : Bytes} (hn : UnderName k n) (hk : h < k) : h < n := by
  rcases hn with rfl | ⟨t, rfl⟩
  · exact hk
  · exact Std.lt_of_lt_of_le hk List.le_append_left

/-- A name of letters and underscores comes after all that begins with an earlier name and goes on with
    a bracket. -/
theorem underName_lt {h k n : Bytes} (hh : ∀ b ∈ h, lbracket < b) (hn : UnderName k n)
    (hk : k < h) : n < h := by
  rcases hn with rfl | ⟨t, rfl⟩
  · exact hk
  · induction k generalizing h with
    | nil =>
        cases h with
        | nil => exact absurd hk (List.lt_irrefl [])
        | cons c rest => exact List.cons_lt_cons_iff.2 (.inl (hh c List.mem_cons_self))
    | cons a k ih =>
        cases h with
        | nil => exact absurd hk (List.not_lt_nil _)
        | cons c rest =>
            rw [List.cons_append, List.cons_lt_cons_iff]
            rcases List.cons_lt_cons_iff.1 hk with hac | ⟨hac, hlt⟩
            · exact .inl hac
            · exact .inr ⟨hac, ih (fun b hb => hh b (List.mem_cons_of_mem _ hb)) hlt⟩

/-! ## The listing, entry by entry -/

/-- The segments of one entry; an error has none. -/
def entrySegments (rt : Runtime) (e : Bytes × Value) : List Bytes :=
  group ((normalizeEntry rt e.1 e.2).toOption.getD [])

theorem entrySegments_of_ok {rt : Runtime} {e : Bytes × Value} {items : List Bytes}
    (h : normalizeEntry rt e.1 e.2 = .ok items) : entrySegments rt e = group items := by
  rw [entrySegments, h]
  rfl

theorem entrySegments_str (rt : Runtime) (k s : Bytes) :
    entrySegments rt (k, .str s) = [segment k s] := rfl

theorem listing_eq_ok {rt : Runtime} {params : Params} {ss : List Bytes} :
    listing rt params = .ok ss ↔
      (∀ e ∈ params.sortedEntries, ∃ items, normalizeEntry rt e.1 e.2 = .ok items) ∧
        params.sortedEntries.flatMap (entrySegments rt) = ss := by
  rw [listing, Except.bind_eq_ok]
  have hmap : ∀ {es : List (Bytes × Value)} {items : List (List Bytes)},
      es.mapM (fun e => normalizeEntry rt e.1 e.2) = .ok items →
      items.flatMap group = es.flatMap (entrySegments rt) := by
    intro es
    induction es with
    | nil =>
        intro items h
        rw [← Except.ok.inj h]
        rfl
    | cons e rest ih =>
        intro items h
        obtain ⟨b, cs, hb, hcs, rfl⟩ := Except.mapM_cons_eq_ok.1 h
        rw [List.flatMap_cons, List.flatMap_cons, ih hcs, entrySegments_of_ok hb]
  constructor
  · rintro ⟨items, hitems, h⟩
    exact ⟨Except.ok_of_mapM hitems, (hmap hitems).symm.trans (Except.ok.inj h)⟩
  · rintro ⟨hall, rfl⟩
    obtain ⟨items, hitems⟩ := Except.exists_mapM hall
    exact ⟨items, hitems, congrArg Except.ok (hmap hitems)⟩

/-- What the names of an entry's segments can be. -/
theorem name_of_mem_entrySegments {rt : Runtime} {e : Bytes × Value} {items : List Bytes}
    (h : normalizeEntry rt e.1 e.2 = .ok items) {s : Bytes} (hs : s ∈ entrySegments rt e) :
    s = [] ∨ ∃ n w, s = segment n w ∧ UnderName e.1 n := by
  rw [entrySegments_of_ok h] at hs
  unfold group at hs
  split at hs
  · exact .inl (List.mem_singleton.1 hs)
  · exact .inr (segmentOf_normalizeEntry h s hs)

/-- Flat parameters list the pairs they have, in order. -/
theorem listing_flat {rt : Runtime} {params : Params} (h : Flat params) :
    listing rt params = .ok (segments (sortPairs (flatPairs params.entries))) := by
  have hentry : ∀ e ∈ params.sortedEntries, ∃ items, normalizeEntry rt e.1 e.2 = .ok items ∧
      entrySegments rt e = segments (sortedEntryPairs e) := by
    intro e he
    obtain ⟨ss, hss⟩ := Option.isSome_iff_exists.1 (h e (params.sortedEntries_perm.mem_iff.1 he))
    have hitems : normalizeEntry rt e.1 e.2
        = .ok ((ss.insertionSort (· ≤ ·)).map (segment e.1)) := normalizeEntry_flat hss
    have hne : (ss.insertionSort (· ≤ ·)).map (segment e.1) ≠ [] := by
      rw [ne_eq, List.map_eq_nil_iff]
      intro hnil
      have hlen := (List.perm_insertionSort (· ≤ ·) ss).length_eq
      rw [hnil] at hlen
      exact flatValues_ne_nil hss (List.length_eq_zero_iff.1 hlen.symm)
    refine ⟨_, hitems, ?_⟩
    rw [entrySegments_of_ok hitems, group, if_neg hne, segments, sortedEntryPairs, hss, List.map_map]
    rfl
  refine listing_eq_ok.2 ⟨fun e he => ?_, ?_⟩
  · obtain ⟨items, hitems, -⟩ := hentry e he
    exact ⟨items, hitems⟩
  · rw [List.flatMap_congr (fun e he => (hentry e he).choose_spec.2), ← flatMap_sortedEntryPairs,
      segments, List.map_flatMap]
    rfl

/-! ## What the listing depends on -/

theorem listing_congr (rt : Runtime) {params params' : Params}
    (h : ∀ k, params.lookup k = params'.lookup k) : listing rt params = listing rt params' := by
  rw [listing, listing, OrderedHash.sortedEntries_eq h]

mutual

/-- Nested values are written out to their scalars, so how collections print is no matter. -/
theorem normalizeNestedQuery_congr (rt rt' : Runtime) :
    ∀ (pre : Option Bytes) (v : Value), normalizeNestedQuery rt pre v = normalizeNestedQuery rt' pre v
  | pre, .arr vs => by
    rw [normalizeNestedQuery, normalizeNestedQuery, nestedArray_congr rt rt' pre vs]
  | pre, .hash es => by
    rw [normalizeNestedQuery, normalizeNestedQuery, nestedHash_congr rt rt' pre es]
  | _, .nil => rfl
  | _, .str _ => rfl
  | _, .bool true => rfl
  | _, .bool false => rfl

theorem nestedArray_congr (rt rt' : Runtime) :
    ∀ (pre : Option Bytes) (vs : List Value), nestedArray rt pre vs = nestedArray rt' pre vs
  | _, [] => rfl
  | pre, v :: vs => by
    rw [nestedArray, nestedArray, normalizeNestedQuery_congr rt rt' _ v, nestedArray_congr rt rt' pre vs]

theorem nestedHash_congr (rt rt' : Runtime) :
    ∀ (pre : Option Bytes) (es : List (Bytes × Value)), nestedHash rt pre es = nestedHash rt' pre es
  | _, [] => rfl
  | pre, (k, v) :: es => by
    unfold nestedHash
    rw [normalizeNestedQuery_congr rt rt' _ v, nestedHash_congr rt rt' pre es]

end

section

variable {rt rt' : Runtime} (h : rt.inspect = rt'.inspect)

include h

theorem toS_congr (v : Value) : v.toS rt = v.toS rt' := by
  cases v with
  | bool b => cases b <;> rfl
  | nil => rfl
  | str s => rfl
  | arr vs => exact congrFun h (.arr vs)
  | hash es => exact congrFun h (.hash es)

theorem normalizeEntry_congr (k : Bytes) (v : Value) :
    normalizeEntry rt k v = normalizeEntry rt' k v := by
  cases v with
  | arr vs =>
      simp only [normalizeEntry, normalizeNestedQuery_congr rt rt', toS_congr h]
  | hash es => rw [normalizeEntry, normalizeEntry, normalizeNestedQuery_congr rt rt']
  | nil => rfl
  | str s => rfl
  | bool b => cases b <;> rfl

/-- Of the runtime, the listing depends on how collections print. -/
theorem listing_congr_inspect (params : Params) : listing rt params = listing rt' params := by
  have hentry : (fun e : Bytes × Value => normalizeEntry rt e.1 e.2)
      = fun e => normalizeEntry rt' e.1 e.2 := funext fun e => normalizeEntry_congr h e.1 e.2
  rw [listing, listing, hentry]

end

/-! ## Scalars among other parameters -/

section

variable {rt : Runtime} {params : Params} {scalar : Bytes → Bool}
  (hname : ∀ k, scalar k = true → k ≠ [] ∧ ∀ b ∈ k, lbracket < b)
  (hstr : ∀ k, scalar k = true → ∃ s, params.lookup k = some (.str s))

include hname

/-- No name with a bracket is that of a scalar. -/
theorem scalar_of_underName {k n : Bytes} (hn : UnderName k n) :
    scalar n = true ↔ n = k ∧ scalar k = true := by
  constructor
  · intro h
    rcases hn with rfl | ⟨t, rfl⟩
    · exact ⟨rfl, h⟩
    · exact absurd ((hname _ h).2 lbracket (by simp)) (by decide)
  · rintro ⟨rfl, h⟩
    exact h

include hstr

/-- The segments of an entry have the name of a scalar exactly where the entry does. -/
theorem scalar_segmentPair {e : Bytes × Value} (he : e ∈ params.sortedEntries) {items : List Bytes}
    (h : normalizeEntry rt e.1 e.2 = .ok items) {s : Bytes} (hs : s ∈ entrySegments rt e) :
    scalar (segmentPair s).1 = scalar e.1 ∧ (scalar e.1 = true → (segmentPair s).1 = e.1) := by
  by_cases hk : scalar e.1 = true
  · obtain ⟨t, ht⟩ := hstr e.1 hk
    rw [OrderedHash.mem_sortedEntries, ht, Option.some.injEq] at he
    rw [show e = (e.1, Value.str t) from Prod.ext rfl he.symm, entrySegments_str,
      List.mem_singleton] at hs
    simp [hs]
  · rw [Bool.not_eq_true] at hk
    refine ⟨?_, fun h => absurd (hk.symm.trans h) (by decide)⟩
    rw [hk, ← Bool.not_eq_true]
    intro hc
    rcases name_of_mem_entrySegments h hs with rfl | ⟨n, w, rfl, hn⟩
    · exact (hname _ hc).1 rfl
    · rw [segmentPair_segment] at hc
      exact absurd (hk.symm.trans ((scalar_of_underName hname hn).1 hc).2) (by decide)

/-- The listing without the scalars. -/
theorem filter_listing (hall : ∀ e ∈ params.sortedEntries, ∃ items,
      normalizeEntry rt e.1 e.2 = .ok items) :
    (params.sortedEntries.flatMap (entrySegments rt)).filter
        (fun s => !scalar (segmentPair s).1)
      = (params.select (fun k => !scalar k)).sortedEntries.flatMap (entrySegments rt) := by
  rw [OrderedHash.sortedEntries_select]
  refine filter_flatMap_of_forall fun e he s hs => ?_
  obtain ⟨items, hitems⟩ := hall e he
  rw [(scalar_segmentPair hname hstr he hitems hs).1]

/-- The listing of one scalar. -/
theorem filter_listing_scalar (hall : ∀ e ∈ params.sortedEntries, ∃ items,
      normalizeEntry rt e.1 e.2 = .ok items) {k t : Bytes} (hk : scalar k = true)
    (ht : params.lookup k = some (.str t)) :
    (params.sortedEntries.flatMap (entrySegments rt)).filter
        (fun s => decide ((segmentPair s).1 = k)) = [segment k t] := by
  have hone : (params.sortedEntries.filter (fun e => decide (e.1 = k))).flatMap (entrySegments rt)
      = [segment k t] := by
    rw [OrderedHash.filter_sortedEntries ht]
    rfl
  rw [← hone]
  refine filter_flatMap_of_forall fun e he s hs => ?_
  obtain ⟨items, hitems⟩ := hall e he
  obtain ⟨hsame, hname'⟩ := scalar_segmentPair hname hstr he hitems hs
  rw [decide_eq_decide]
  constructor
  · intro hsk
    rw [← hname' (by rw [← hsame, hsk, hk]), hsk]
  · intro hek
    rw [hname' (hek ▸ hk), hek]

/-- The segments come in the order of their pairs, if those of the other entries do. -/
theorem pairwise_listing (hall : ∀ e ∈ params.sortedEntries, ∃ items,
      normalizeEntry rt e.1 e.2 = .ok items) {ps : List (Bytes × Bytes)}
    (hrest : (params.select (fun k => !scalar k)).sortedEntries.flatMap (entrySegments rt)
      = segments (sortPairs ps)) :
    (params.sortedEntries.flatMap (entrySegments rt)).Pairwise
      (fun s t => PairLe (segmentPair s) (segmentPair t)) := by
  have hsorted : ((params.select (fun k => !scalar k)).sortedEntries.flatMap
      (entrySegments rt)).Pairwise (fun s t => PairLe (segmentPair s) (segmentPair t)) := by
    rw [hrest, ← List.pairwise_map, map_segmentPair_segments]
    exact List.pairwise_insertionSort PairLe ps
  rw [OrderedHash.sortedEntries_select, List.pairwise_flatMap, List.pairwise_filter] at hsorted
  rw [List.pairwise_flatMap]
  constructor
  · intro e he
    by_cases hk : scalar e.1 = true
    · obtain ⟨t, ht⟩ := hstr e.1 hk
      rw [OrderedHash.mem_sortedEntries, ht, Option.some.injEq] at he
      rw [show e = (e.1, Value.str t) from Prod.ext rfl he.symm, entrySegments_str]
      exact List.pairwise_singleton _ _
    · exact hsorted.1 e (List.mem_filter.2 ⟨he, by simpa using hk⟩)
  · -- two entries, the name of the first before that of the second
    refine ((params.sortedEntries_strict.and hsorted.2).imp_of_mem ?_)
    rintro e f he hf ⟨hlt, hboth⟩ s hs t ht
    obtain ⟨items, hitems⟩ := hall e he
    obtain ⟨items', hitems'⟩ := hall f hf
    obtain ⟨hse, hne⟩ := scalar_segmentPair hname hstr he hitems hs
    obtain ⟨hsf, hnf⟩ := scalar_segmentPair hname hstr hf hitems' ht
    by_cases hke : scalar e.1 = true
    · left
      rw [hne hke]
      by_cases hkf : scalar f.1 = true
      · rw [hnf hkf]
        exact hlt
      · have hmem : t ∈ segments (sortPairs ps) := by
          rw [← hrest, OrderedHash.sortedEntries_select]
          exact List.mem_flatMap.2 ⟨f, List.mem_filter.2 ⟨hf, by simpa using hkf⟩, ht⟩
        obtain ⟨p, -, rfl⟩ := List.mem_map.1 hmem
        rcases name_of_mem_entrySegments hitems' ht with hnil | ⟨n, w, hnw, hn⟩
        · exact absurd hnil (segment_ne_nil _ _)
        · rw [hnw, segmentPair_segment]
          exact lt_of_underName hn hlt
    · by_cases hkf : scalar f.1 = true
      · left
        rw [hnf hkf]
        have hmem : s ∈ segments (sortPairs ps) := by
          rw [← hrest, OrderedHash.sortedEntries_select]
          exact List.mem_flatMap.2 ⟨e, List.mem_filter.2 ⟨he, by simpa using hke⟩, hs⟩
        obtain ⟨p, -, rfl⟩ := List.mem_map.1 hmem
        rcases name_of_mem_entrySegments hitems hs with hnil | ⟨n, w, hnw, hn⟩
        · exact absurd hnil (segment_ne_nil _ _)
        · rw [hnw, segmentPair_segment]
          exact underName_lt (hname f.1 hkf).2 hn hlt
      · exact hboth (by simpa using hke) (by simpa using hkf) s hs t ht

/-- Everything listed is a segment, if all that comes from the other entries is. -/
theorem listing_eq_segments (hall : ∀ e ∈ params.sortedEntries, ∃ items,
      normalizeEntry rt e.1 e.2 = .ok items) {ps : List (Bytes × Bytes)}
    (hrest : (params.select (fun k => !scalar k)).sortedEntries.flatMap (entrySegments rt)
      = segments ps) :
    params.sortedEntries.flatMap (entrySegments rt)
      = segments ((params.sortedEntries.flatMap (entrySegments rt)).map segmentPair) := by
  rw [segments, List.map_map]
  refine ((List.map_id _).symm.trans (List.map_congr_left fun s hs => ?_))
  obtain ⟨e, he, hse⟩ := List.mem_flatMap.1 hs
  obtain ⟨items, hitems⟩ := hall e he
  have hsegment : ∃ p : Bytes × Bytes, s = segment p.1 p.2 := by
    by_cases hk : scalar e.1 = true
    · obtain ⟨t, ht⟩ := hstr e.1 hk
      rw [OrderedHash.mem_sortedEntries, ht, Option.some.injEq] at he
      rw [show e = (e.1, Value.str t) from Prod.ext rfl he.symm, entrySegments_str,
        List.mem_singleton] at hse
      exact ⟨(e.1, t), hse⟩
    · have hin : s ∈ segments ps := by
        rw [← hrest, ← filter_listing hname hstr hall]
        refine List.mem_filter.2 ⟨hs, ?_⟩
        rw [(scalar_segmentPair hname hstr he hitems hse).1]
        simpa using hk
      obtain ⟨p, -, hp⟩ := List.mem_map.1 hin
      exact ⟨p, hp.symm⟩
  obtain ⟨p, rfl⟩ := hsegment
  rw [id_eq, Function.comp_apply, segmentPair_segment]

/-- The pairs listed are those given, name by name. -/
theorem perm_listing (hall : ∀ e ∈ params.sortedEntries, ∃ items,
      normalizeEntry rt e.1 e.2 = .ok items) {ps : List (Bytes × Bytes)}
    (hone : ∀ k t, scalar k = true → params.lookup k = some (.str t) → valuesOf k ps = [t])
    (hrest : (params.select (fun k => !scalar k)).sortedEntries.flatMap (entrySegments rt)
      = segments (sortPairs (ps.filter (fun p => !scalar p.1)))) :
    ((params.sortedEntries.flatMap (entrySegments rt)).map segmentPair).Perm ps := by
  rw [perm_iff_valuesOf]
  intro k
  have hvalues : valuesOf k ((params.sortedEntries.flatMap (entrySegments rt)).map segmentPair)
      = ((params.sortedEntries.flatMap (entrySegments rt)).filter
          (fun s => decide ((segmentPair s).1 = k))).map (fun s => (segmentPair s).2) := by
    rw [valuesOf, List.filter_map, List.map_map]
    rfl
  by_cases hk : scalar k = true
  · obtain ⟨t, ht⟩ := hstr k hk
    rw [hvalues, filter_listing_scalar hname hstr hall hk ht, hone k t hk ht, List.map_singleton,
      segmentPair_segment]
  · -- the values of another name are among those of the other entries
    have hsub : ∀ qs : List (Bytes × Bytes),
        valuesOf k (qs.filter (fun p => !scalar p.1)) = valuesOf k qs := by
      intro qs
      rw [valuesOf, valuesOf, List.filter_filter]
      congr 1
      refine List.filter_congr fun p _ => ?_
      by_cases hp : p.1 = k
      · simpa [hp] using hk
      · simp [hp]
    have hrestmap := congrArg (List.map segmentPair)
      ((filter_listing hname hstr hall).trans hrest)
    rw [map_segmentPair_segments] at hrestmap
    have hfm : ((params.sortedEntries.flatMap (entrySegments rt)).filter
          (fun s => !scalar (segmentPair s).1)).map segmentPair
        = ((params.sortedEntries.flatMap (entrySegments rt)).map segmentPair).filter
            (fun p => !scalar p.1) := by
      rw [List.filter_map]
      rfl
    rw [← hsub, ← hfm, hrestmap, ← hsub ps]
    exact ((sortPairs_perm _).filter _).map _

/-- **A hash lists a sorted list of pairs exactly when its scalars are the pairs of their names, and
    the rest lists the rest.** -/
theorem listing_eq_iff (ps : List (Bytes × Bytes)) :
    listing rt params = .ok (segments (sortPairs ps)) ↔
      (∀ k t, scalar k = true → params.lookup k = some (.str t) → valuesOf k ps = [t]) ∧
        listing rt (params.select (fun k => !scalar k))
          = .ok (segments (sortPairs (ps.filter (fun p => !scalar p.1)))) := by
  rw [listing_eq_ok, listing_eq_ok]
  have hfilter : (segments (sortPairs ps)).filter (fun s => !scalar (segmentPair s).1)
      = segments (sortPairs (ps.filter (fun p => !scalar p.1))) := by
    rw [filter_segments (fun k => !scalar k), sortPairs_filter]
  constructor
  · rintro ⟨hall, hlist⟩
    refine ⟨fun k t hk ht => ?_, fun e he => ?_, ?_⟩
    · have hone := filter_listing_scalar hname hstr hall hk ht
      rw [hlist, filter_segments (fun n => decide (n = k))] at hone
      have hpairs := congrArg (List.map segmentPair) hone
      rw [map_segmentPair_segments, List.map_singleton, segmentPair_segment] at hpairs
      have hsorted : valuesOf k (sortPairs ps) = [t] := by
        rw [valuesOf, hpairs]
        rfl
      have hperm : (valuesOf k (sortPairs ps)).Perm (valuesOf k ps) :=
        ((sortPairs_perm ps).filter _).map _
      rw [hsorted] at hperm
      exact List.perm_singleton.1 hperm.symm
    · rw [OrderedHash.sortedEntries_select] at he
      exact hall e (List.mem_of_mem_filter he)
    · rw [← filter_listing hname hstr hall, hlist, hfilter]
  · rintro ⟨hone, hrestok, hrest⟩
    have hall : ∀ e ∈ params.sortedEntries, ∃ items, normalizeEntry rt e.1 e.2 = .ok items := by
      intro e he
      by_cases hk : scalar e.1 = true
      · obtain ⟨t, ht⟩ := hstr e.1 hk
        rw [OrderedHash.mem_sortedEntries, ht, Option.some.injEq] at he
        exact ⟨_, by rw [← he]; rfl⟩
      · refine hrestok e ?_
        rw [OrderedHash.sortedEntries_select]
        exact List.mem_filter.2 ⟨he, by simpa using hk⟩
    refine ⟨hall, ?_⟩
    have hsorted := pairwise_listing hname hstr hall hrest
    rw [listing_eq_segments hname hstr hall hrest]
    congr 1
    exact eq_sortPairs (perm_listing hname hstr hall hone hrest) (List.pairwise_map.2 hsorted)

end

end RubyOAuth
