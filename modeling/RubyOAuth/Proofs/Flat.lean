import RubyOAuth.Lib.Fallible
import RubyOAuth.Model.Helper

set_option autoImplicit false

/-! # Normalizing flat parameters

A flat parameter is a string, `nil` or an array of strings. Of a hash of flat parameters `normalize`
sees the multiset of pairs only: it writes the pairs in canonical order (`normalize_flat`), and that
text determines the multiset (`normalForm_inj`). -/

namespace RubyOAuth

open Bytes

/-! ## Flat values -/

/-- The elements of an array of strings. -/
def strings : List Value → Option (List Bytes)
  | [] => some []
  | .str s :: vs => (strings vs).map (s :: ·)
  | _ => none

/-- The values a flat parameter counts for; `nil` and an array without a value count as the empty
    string. -/
def flatValues : Value → Option (List Bytes)
  | .nil => some [[]]
  | .str s => some [s]
  | .arr [] => some [[]]
  | .arr [.nil] => some [[]]
  | .arr vs => strings vs
  | _ => none

def Flat (params : Params) : Prop := ∀ e ∈ params.entries, (flatValues e.2).isSome = true

instance (params : Params) : Decidable (Flat params) := by unfold Flat; infer_instance

/-- The pairs of one entry. -/
def entryPairs (e : Bytes × Value) : List (Bytes × Bytes) :=
  ((flatValues e.2).getD []).map (fun s => (e.1, s))

def flatPairs (es : List (Bytes × Value)) : List (Bytes × Bytes) := es.flatMap entryPairs

/-- What an entry contributes is found under its name. -/
theorem valuesOf_flatPairs {es : List (Bytes × Value)} (hn : (es.map Prod.fst).Nodup) (k : Bytes) :
    valuesOf k (flatPairs es) = ((OrderedHash.findEntry k es).bind flatValues).getD [] := by
  have hname : ∀ e, ∀ x ∈ entryPairs e, x.1 = e.1 := by
    intro e x hx
    obtain ⟨s, -, rfl⟩ := List.mem_map.1 hx
    rfl
  rw [flatPairs, OrderedHash.valuesOf_flatMap hname hn]
  cases OrderedHash.findEntry k es with
  | none => rfl
  | some v =>
      rw [Option.map_some, Option.getD_some, Option.bind_some, entryPairs, List.map_map]
      exact List.map_id _

theorem strings_eq_some {vs : List Value} {ss : List Bytes} :
    strings vs = some ss ↔ vs = ss.map Value.str := by
  induction vs generalizing ss with
  | nil => cases ss <;> simp [strings]
  | cons v rest ih =>
      cases v with
      | str s =>
          simp only [strings, Option.map_eq_some_iff, ih]
          constructor
          · rintro ⟨ts, rfl, rfl⟩; rfl
          · intro h
            cases ss with
            | nil => simp at h
            | cons t ts => simp_all
      | _ => cases ss <;> simp [strings]

/-- What a flat value can be. -/
theorem flatValues_cases {v : Value} {ss : List Bytes} (h : flatValues v = some ss) :
    (v = .nil ∧ ss = [[]]) ∨ (∃ s, v = .str s ∧ ss = [s]) ∨ (v = .arr [] ∧ ss = [[]]) ∨
      (v = .arr [.nil] ∧ ss = [[]]) ∨ (v = .arr (ss.map Value.str) ∧ ss ≠ []) := by
  unfold flatValues at h
  split at h
  · simp_all
  · simp_all
  · simp_all
  · simp_all
  · next vs hne hnil =>
      rw [strings_eq_some] at h
      subst h
      have hss : ss ≠ [] := by
        rintro rfl
        exact hne rfl
      simp [hss]
  · simp at h

theorem flatValues_ne_nil {v : Value} {ss : List Bytes} (h : flatValues v = some ss) : ss ≠ [] := by
  rcases flatValues_cases h with ⟨-, rfl⟩ | ⟨s, -, rfl⟩ | ⟨-, rfl⟩ | ⟨-, rfl⟩ | ⟨-, hne⟩
  · simp
  · simp
  · simp
  · simp
  · exact hne

@[simp] theorem flatValues_arr_str (s : Bytes) : flatValues (.arr [.str s]) = some [s] := rfl

theorem flatValues_arr_map {ss : List Bytes} (h : ss ≠ []) :
    flatValues (.arr (ss.map Value.str)) = some ss := by
  cases ss with
  | nil => exact absurd rfl h
  | cons s rest => exact strings_eq_some.2 rfl

/-! ## The normal form -/

/-- The pairs in canonical order, written as segments. -/
def normalForm (ps : List (Bytes × Bytes)) : Bytes :=
  joinWith ampersand ((sortPairs ps).map (fun p => segment p.1 p.2))

/-- The pairs of a list, written in order. -/
def segments (ps : List (Bytes × Bytes)) : List Bytes := ps.map (fun p => segment p.1 p.2)

theorem segment_injective : Function.Injective (fun p : Bytes × Bytes => segment p.1 p.2) := by
  rintro ⟨n, v⟩ ⟨n', v'⟩ h
  obtain ⟨rfl, rfl⟩ := segment_inj.1 h
  rfl

theorem ampersand_not_mem_segments {ps : List (Bytes × Bytes)} : ∀ s ∈ segments ps, ampersand ∉ s := by
  intro s hs
  obtain ⟨p, -, rfl⟩ := List.mem_map.1 hs
  exact ampersand_not_mem_segment p.1 p.2

theorem nil_not_mem_segments (ps : List (Bytes × Bytes)) : [] ∉ segments ps := by
  intro h
  obtain ⟨p, -, hp⟩ := List.mem_map.1 h
  exact segment_ne_nil p.1 p.2 hp

/-- Pairs are known by their segments in a row. -/
theorem joinWith_segments_inj {ps qs : List (Bytes × Bytes)} :
    joinWith ampersand (segments ps) = joinWith ampersand (segments qs) ↔ ps = qs := by
  rw [joinWith_inj ampersand_not_mem_segments ampersand_not_mem_segments (nil_not_mem_segments _)
    (nil_not_mem_segments _), segments, segments, segment_injective.list_map.eq_iff]

/-- **The normal form is that of the multiset of pairs, and determines it.** -/
theorem normalForm_inj {ps qs : List (Bytes × Bytes)} :
    normalForm ps = normalForm qs ↔ ps.Perm qs :=
  joinWith_segments_inj.trans sortPairs_eq_iff

/-! ## `normalize` -/

/-- The segments of one flat parameter are those of its values in order. -/
theorem normalizeEntry_flat {rt : Runtime} {k : Bytes} {v : Value} {ss : List Bytes}
    (h : flatValues v = some ss) :
    normalizeEntry rt k v = .ok ((ss.insertionSort (· ≤ ·)).map (segment k)) := by
  rcases flatValues_cases h with ⟨rfl, rfl⟩ | ⟨s, rfl, rfl⟩ | ⟨rfl, rfl⟩ | ⟨rfl, rfl⟩ | ⟨rfl, hne⟩
  · rfl
  · rfl
  · rfl
  · rfl
  · obtain ⟨s, rest, rfl⟩ := List.exists_cons_of_ne_nil hne
    have hsort := Value.sort_map_str (s :: rest)
    rw [List.map_cons] at hsort
    simp only [normalizeEntry, List.map_cons, List.isEmpty_cons, Bool.false_eq_true, if_false,
      List.head?_cons, Option.map_some, Value.isHash, Option.getD_some, hsort, Except.ok_bind,
      List.map_map]
    rfl

/-- The pairs of one entry, the values in order. -/
def sortedEntryPairs (e : Bytes × Value) : List (Bytes × Bytes) :=
  (((flatValues e.2).getD []).insertionSort (· ≤ ·)).map (fun s => (e.1, s))

theorem sortedEntryPairs_perm (e : Bytes × Value) : (sortedEntryPairs e).Perm (entryPairs e) :=
  (List.perm_insertionSort (· ≤ ·) _).map _

theorem pairwise_sortedEntryPairs (e : Bytes × Value) : (sortedEntryPairs e).Pairwise PairLe := by
  rw [sortedEntryPairs, List.pairwise_map]
  exact (List.pairwise_insertionSort (· ≤ ·) _).imp (fun h => Or.inr ⟨rfl, h⟩)

/-- Entry by entry in the order of the names, the pairs come in canonical order. -/
theorem flatMap_sortedEntryPairs (params : Params) :
    params.sortedEntries.flatMap sortedEntryPairs = sortPairs (flatPairs params.entries) := by
  refine eq_sortPairs ?_ ?_
  · exact params.sortedEntries_perm.flatMap (fun e _ => sortedEntryPairs_perm e)
  · rw [List.pairwise_flatMap]
    refine ⟨fun e _ => pairwise_sortedEntryPairs e, ?_⟩
    have hle := params.sortedEntries_pairwise
    have hne := List.pairwise_map.1 params.sortedEntries_nodup
    refine (hle.and hne).imp ?_
    rintro e f ⟨hle, hne⟩ x hx y hy
    obtain ⟨s, -, rfl⟩ := List.mem_map.1 hx
    obtain ⟨t, -, rfl⟩ := List.mem_map.1 hy
    exact Or.inl (Std.lt_of_le_of_ne hle hne)

/-- **Flat parameters normalize to the normal form of their pairs.** -/
theorem normalize_flat {rt : Runtime} {params : Params} (h : Flat params) :
    normalize rt params = .ok (normalForm (flatPairs params.entries)) := by
  have hmem : ∀ e ∈ params.sortedEntries, (flatValues e.2).isSome = true :=
    fun e he => h e (params.sortedEntries_perm.mem_iff.1 he)
  have hitems : params.sortedEntries.mapM (fun e => normalizeEntry rt e.1 e.2)
      = .ok (params.sortedEntries.map
          (fun e => (sortedEntryPairs e).map (fun p => segment p.1 p.2))) := by
    refine Except.mapM_of_ok (fun e he => ?_)
    obtain ⟨ss, hss⟩ := Option.isSome_iff_exists.1 (hmem e he)
    rw [normalizeEntry_flat hss, sortedEntryPairs, hss, List.map_map]
    rfl
  have hne : [] ∉ params.sortedEntries.map
      (fun e => (sortedEntryPairs e).map (fun p => segment p.1 p.2)) := by
    intro hn
    obtain ⟨e, he, hnil⟩ := List.mem_map.1 hn
    obtain ⟨ss, hss⟩ := Option.isSome_iff_exists.1 (hmem e he)
    rw [List.map_eq_nil_iff, sortedEntryPairs, hss, List.map_eq_nil_iff] at hnil
    have hlen := (List.perm_insertionSort (· ≤ ·) ss).length_eq
    rw [Option.getD_some] at hnil
    rw [hnil] at hlen
    exact flatValues_ne_nil hss (List.length_eq_zero_iff.1 hlen.symm)
  rw [normalize, hitems, Except.ok_bind, joinWith_map_joinWith ampersand hne, normalForm,
    ← flatMap_sortedEntryPairs, List.map_flatMap, List.flatMap]

end RubyOAuth
