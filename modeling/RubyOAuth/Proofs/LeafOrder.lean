import RubyOAuth.Proofs.Nested

set_option autoImplicit false

/-! # Leaves in the order of pairs

Of any parameters `normalize` lists the leaves, but in an order of its own: first by the name at the
top, then the elements of an array as they are sorted, and the leaves of a hash by their escaped text.
The listing is that of some pairs in the order of names and values exactly where each of these keeps
that order. -/

namespace RubyOAuth

open Bytes

/-- Whether the value is written out leaf by leaf; the elements of any other array are sorted. -/
def isWrittenOut : Value → Bool
  | .arr vs => (vs.head?.map Value.isHash).getD false
  | _ => true

/-- Leaves in order as they are listed. -/
structure LeavesInOrder (rt : Runtime) (params : Params) : Prop where
  /-- Where one name at the top sorts before another, the leaves under it do. -/
  across : ∀ e ∈ params.entries, ∀ f ∈ params.entries, e.1 < f.1 →
    ∀ l ∈ entryLeaves rt e, ∀ m ∈ entryLeaves rt f, PairLe l m
  /-- What comes first by name and value does so when both are escaped. -/
  within : ∀ e ∈ params.entries, isWrittenOut e.2 = true →
    ∀ l ∈ entryLeaves rt e, ∀ m ∈ entryLeaves rt e, PairLe l m → segment l.1 l.2 ≤ segment m.1 m.2
  /-- The elements of an array print in the order they are sorted in. -/
  elements : ∀ e ∈ params.entries, ∀ vs, e.2 = .arr vs → isWrittenOut e.2 = false →
    ((vs.insertionSort Value.Le).map (Value.toS rt)).Pairwise (· ≤ ·)

/-- The parameters list given values under each name: every array can be sorted, every parameter has a
    leaf, and the leaves are in order and have these values. -/
structure ListsValues (rt : Runtime) (params : Params) (values : Bytes → List Bytes) : Prop where
  sortable : ∀ e ∈ params.entries, RubyOAuth.sortable e.2 = true
  leaf : ∀ e ∈ params.entries, entryLeaves rt e ≠ []
  inOrder : LeavesInOrder rt params
  values : ∀ n, (valuesOf n (hashPairs rt params)).Perm (values n)

/-! ## One entry -/

section

variable {rt : Runtime} {e : Bytes × Value} {items : List Bytes}

theorem segments_map_segmentPair {ss : List Bytes} {ps : List (Bytes × Bytes)}
    (h : ∀ s ∈ ss, s ∈ segments ps) : segments (ss.map segmentPair) = ss := by
  rw [segments, List.map_map]
  refine (List.map_congr_left fun s hs => ?_).trans (List.map_id ss)
  obtain ⟨p, -, rfl⟩ := List.mem_map.1 (h s hs)
  rw [Function.comp_apply, segmentPair_segment, id]

/-- An entry that is written out lists its leaves by their segments. -/
theorem normalizeEntry_of_isWrittenOut (h : isWrittenOut e.2 = true) :
    normalizeEntry rt e.1 e.2 = .ok (sortSegments (segments (entryLeaves rt e))) := by
  obtain ⟨k, v⟩ := e
  cases v with
  | arr vs =>
      cases vs with
      | nil => simp [isWrittenOut] at h
      | cons v rest =>
          have hhash : v.isHash = true := by simpa [isWrittenOut] using h
          simp only [normalizeEntry, entryLeaves, List.isEmpty_cons, Bool.false_eq_true, if_false,
            List.head?_cons, Option.map_some, Option.getD_some, hhash, if_true]
          rw [normalizeNestedQuery_eq, leaves_arr]
  | hash es => exact congrArg Except.ok (normalizeNestedQuery_eq rt k (.hash es))
  | nil => rfl
  | str s => rfl
  | bool b => cases b <;> rfl

/-- The pairs that an entry lists, in their order. -/
theorem pairwise_items_iff (hitems : normalizeEntry rt e.1 e.2 = .ok items) :
    (items.map segmentPair).Pairwise PairLe ↔
      (isWrittenOut e.2 = true → ∀ l ∈ entryLeaves rt e, ∀ m ∈ entryLeaves rt e, PairLe l m →
        segment l.1 l.2 ≤ segment m.1 m.2) ∧
      ∀ vs, e.2 = .arr vs → isWrittenOut e.2 = false →
        ((vs.insertionSort Value.Le).map (Value.toS rt)).Pairwise (· ≤ ·) := by
  by_cases hw : isWrittenOut e.2 = true
  · rw [normalizeEntry_of_isWrittenOut hw, Except.ok.injEq] at hitems
    have hperm := sortSegments_perm (segments (entryLeaves rt e))
    have hanti : ∀ s t : Bytes, s ≤ t → t ≤ s → PairLe (segmentPair s) (segmentPair t) := by
      intro s t hst hts
      rw [Std.le_antisymm hst hts]
      exact .inr ⟨rfl, Std.le_refl _⟩
    have hsorted : (sortSegments (segments (entryLeaves rt e))).Pairwise (· ≤ ·) :=
      List.pairwise_insertionSort (· ≤ ·) _
    rw [← hitems, List.pairwise_map, pairwise_iff_of_pairwise hsorted hanti]
    simp only [hw, Bool.true_eq_false, false_imp_iff, implies_true, and_true, true_imp_iff]
    constructor
    · intro h l hl m hm hlm
      have hmem : ∀ p ∈ entryLeaves rt e, segment p.1 p.2 ∈ sortSegments (segments (entryLeaves rt e)) :=
        fun p hp => hperm.mem_iff.2 (List.mem_map_of_mem hp)
      -- both orders are total
      rcases Std.le_total (a := segment l.1 l.2) (b := segment m.1 m.2) with hle | hle
      · exact hle
      · have hml := h _ (hmem m hm) _ (hmem l hl) hle
        rw [segmentPair_segment, segmentPair_segment] at hml
        rw [PairLe.antisymm hlm hml]
        exact Std.le_refl _
    · intro h s hs t ht hst
      obtain ⟨l, hl, rfl⟩ := List.mem_map.1 (hperm.mem_iff.1 hs)
      obtain ⟨m, hm, rfl⟩ := List.mem_map.1 (hperm.mem_iff.1 ht)
      rw [segmentPair_segment, segmentPair_segment]
      rcases PairLe.total l m with hlm | hml
      · exact hlm
      · have heq := Std.le_antisymm hst (h m hm l hl hml)
        rw [segment_inj] at heq
        exact .inr ⟨heq.1, heq.2 ▸ Std.le_refl _⟩
  · obtain ⟨k, v⟩ := e
    cases v with
    | arr vs =>
        have hlist : ∀ ws : List Value, ((ws.map (fun v => segment k (v.toS rt))).map
            segmentPair).Pairwise PairLe ↔ (ws.map (Value.toS rt)).Pairwise (· ≤ ·) := by
          intro ws
          rw [List.map_map, List.pairwise_map, List.pairwise_map]
          refine List.Pairwise.iff fun v w => ?_
          simp [PairLe]
        cases vs with
        | nil =>
            have hone : items = [segment k []] := (Except.ok.inj hitems).symm
            simp [hone, isWrittenOut]
        | cons v rest =>
            have hhash : v.isHash = false := by simpa [isWrittenOut] using hw
            simp only [normalizeEntry, List.isEmpty_cons, Bool.false_eq_true, if_false,
              List.head?_cons, Option.map_some, Option.getD_some, hhash] at hitems
            obtain ⟨sorted, hsorted, hitems⟩ := Except.bind_eq_ok.1 hitems
            rw [Value.sort] at hsorted
            split at hsorted
            · rw [← Except.ok.inj hitems, ← Except.ok.inj hsorted, hlist]
              simp [isWrittenOut, hhash]
            · simp at hsorted
    | _ => exact absurd rfl hw

end

/-! ## All entries -/

section

variable {rt : Runtime} {params : Params}

/-- An entry with a leaf lists its leaves. -/
theorem entrySegments_of_leaf {e : Bytes × Value} {items : List Bytes}
    (hitems : normalizeEntry rt e.1 e.2 = .ok items) (hleaf : entryLeaves rt e ≠ []) :
    entrySegments rt e = items := by
  rw [entrySegments_of_ok hitems, group, if_neg]
  rintro rfl
  exact hleaf (List.map_eq_nil_iff.1 (normalizeEntry_perm hitems).nil_eq.symm)

/-- **The entries list pairs in order exactly where the leaves are in order.** -/
theorem leavesInOrder_iff (hok : ∀ e ∈ params.entries, ∃ items, normalizeEntry rt e.1 e.2 = .ok items)
    (hleaf : ∀ e ∈ params.entries, entryLeaves rt e ≠ []) :
    ((params.sortedEntries.flatMap (entrySegments rt)).map segmentPair).Pairwise PairLe ↔
      LeavesInOrder rt params := by
  have hmem := fun e => (params.sortedEntries_perm).mem_iff (a := e)
  -- the pairs of an entry are its leaves
  have hpairs : ∀ e ∈ params.entries,
      ((entrySegments rt e).map segmentPair).Perm (entryLeaves rt e) := by
    intro e he
    obtain ⟨items, hitems⟩ := hok e he
    rw [entrySegments_of_leaf hitems (hleaf e he), ← map_segmentPair_segments (entryLeaves rt e)]
    exact (normalizeEntry_perm hitems).map _
  have hanti : ∀ e f : Bytes × Value, e.1 < f.1 → f.1 < e.1 →
      ∀ l ∈ (entrySegments rt e).map segmentPair, ∀ m ∈ (entrySegments rt f).map segmentPair,
        PairLe l m := fun e f hef hfe => absurd (Std.lt_trans hef hfe) Std.lt_irrefl
  rw [List.map_flatMap, List.pairwise_flatMap,
    pairwise_iff_of_pairwise params.sortedEntries_strict hanti]
  simp only [hmem]
  constructor
  · rintro ⟨hwithin, hacross⟩
    have hitem : ∀ e ∈ params.entries, ∀ items, normalizeEntry rt e.1 e.2 = .ok items →
        (items.map segmentPair).Pairwise PairLe := by
      intro e he items hitems
      rw [← entrySegments_of_leaf hitems (hleaf e he)]
      exact hwithin e he
    refine ⟨fun e he f hf hlt l hl m hm => ?_, fun e he => ?_, fun e he => ?_⟩
    · exact hacross e he f hf hlt l ((hpairs e he).mem_iff.2 hl) m ((hpairs f hf).mem_iff.2 hm)
    · obtain ⟨items, hitems⟩ := hok e he
      exact ((pairwise_items_iff hitems).1 (hitem e he items hitems)).1
    · obtain ⟨items, hitems⟩ := hok e he
      exact ((pairwise_items_iff hitems).1 (hitem e he items hitems)).2
  · intro h
    refine ⟨fun e he => ?_, fun e he f hf hlt l hl m hm => ?_⟩
    · obtain ⟨items, hitems⟩ := hok e he
      rw [entrySegments_of_leaf hitems (hleaf e he)]
      exact (pairwise_items_iff hitems).2 ⟨h.within e he, h.elements e he⟩
    · exact h.across e he f hf hlt l ((hpairs e he).mem_iff.1 hl) m ((hpairs f hf).mem_iff.1 hm)

/-- **What is listed are pairs in order, with given values under each name, exactly where the parameters
    list these values.** -/
theorem listing_pairs_iff {values : Bytes → List Bytes} :
    (∃ ps, listing rt params = .ok (segments (sortPairs ps)) ∧
        ∀ n, (valuesOf n ps).Perm (values n)) ↔ ListsValues rt params values := by
  have hmem := fun e => (params.sortedEntries_perm).mem_iff (a := e)
  have hperm : (∀ e ∈ params.entries, ∃ items, normalizeEntry rt e.1 e.2 = .ok items) →
      (∀ e ∈ params.entries, entryLeaves rt e ≠ []) →
      (params.sortedEntries.flatMap (entrySegments rt)).Perm (segments (hashPairs rt params)) := by
    intro hok hleaf
    rw [hashPairs, segments, List.map_flatMap]
    refine (List.Perm.flatMap_left _ fun e he => ?_).trans (params.sortedEntries_perm.flatMap_right _)
    obtain ⟨items, hitems⟩ := hok e ((hmem e).1 he)
    rw [entrySegments_of_leaf hitems (hleaf e ((hmem e).1 he))]
    exact normalizeEntry_perm hitems
  constructor
  · rintro ⟨ps, hlist, hvalues⟩
    obtain ⟨hall, heq⟩ := listing_eq_ok.1 hlist
    have hok : ∀ e ∈ params.entries, ∃ items, normalizeEntry rt e.1 e.2 = .ok items :=
      fun e he => hall e ((hmem e).2 he)
    have hleaf : ∀ e ∈ params.entries, entryLeaves rt e ≠ [] := by
      intro e he hnil
      obtain ⟨items, hitems⟩ := hok e he
      have hin : [] ∈ params.sortedEntries.flatMap (entrySegments rt) :=
        List.mem_flatMap.2 ⟨e, (hmem e).2 he, (nil_mem_entrySegments_iff hitems).2 hnil⟩
      rw [heq] at hin
      exact nil_not_mem_segments _ hin
    have hpairs := congrArg (List.map segmentPair) heq
    rw [map_segmentPair_segments] at hpairs
    have hsame : ps.Perm (hashPairs rt params) := by
      have hback := (hperm hok hleaf).map segmentPair
      rw [hpairs, map_segmentPair_segments] at hback
      exact (sortPairs_perm ps).symm.trans hback
    refine ⟨fun e he => normalizeEntry_isOk_iff.1 (hok e he), hleaf, ?_, fun n => ?_⟩
    · rw [← leavesInOrder_iff hok hleaf, hpairs]
      exact List.pairwise_insertionSort PairLe ps
    · exact (perm_iff_valuesOf.1 hsame n).symm.trans (hvalues n)
  · rintro ⟨hsortable, hleaf, horder, hvalues⟩
    have hok : ∀ e ∈ params.entries, ∃ items, normalizeEntry rt e.1 e.2 = .ok items :=
      fun e he => normalizeEntry_isOk_iff.2 (hsortable e he)
    have hback := (hperm hok hleaf).map segmentPair
    rw [map_segmentPair_segments] at hback
    have hsorted := eq_sortPairs hback ((leavesInOrder_iff hok hleaf).2 horder)
    refine ⟨hashPairs rt params, listing_eq_ok.2 ⟨fun e he => hok e ((hmem e).1 he), ?_⟩, hvalues⟩
    rw [← hsorted]
    exact (segments_map_segmentPair fun s hs => (hperm hok hleaf).mem_iff.1 hs).symm

end

end RubyOAuth
