import RubyOAuth.Lib.Fallible
import RubyOAuth.Model.Helper

set_option autoImplicit false

/-! # Normalizing any parameters

`normalize` depends on the parameters only through lookups, is defined exactly where every array can
be put in order, and shows any change of a single string value. -/

namespace RubyOAuth

open Bytes

/-! ## When it is defined -/

/-- The values `normalize` can put in order: all but arrays of incomparable elements. -/
def sortable : Value → Bool
  | .arr vs => (vs.head?.map Value.isHash).getD false || Value.comparable vs
  | _ => true

theorem normalizeEntry_isOk_iff {rt : Runtime} {k : Bytes} {v : Value} :
    (∃ items, normalizeEntry rt k v = .ok items) ↔ sortable v = true := by
  cases v with
  | arr vs =>
      cases vs with
      | nil => exact iff_of_true ⟨_, rfl⟩ rfl
      | cons v rest =>
          simp only [normalizeEntry, sortable, List.isEmpty_cons, Bool.false_eq_true, if_false,
            List.head?_cons, Option.map_some, Option.getD_some]
          by_cases hh : v.isHash = true
          · simp [hh]
          · by_cases hc : Value.comparable (v :: rest) = true
            · simp [hh, hc, Value.sort]
            · simp [hh, hc, Value.sort]
  | _ => exact iff_of_true ⟨_, rfl⟩ rfl

theorem normalize_isOk_iff (rt : Runtime) {params : Params} :
    (∃ n, normalize rt params = .ok n) ↔ ∀ k v, params.lookup k = some v → sortable v = true := by
  constructor
  · rintro ⟨n, hn⟩ k v hkv
    obtain ⟨items, hitems, -⟩ := Except.bind_eq_ok.1 hn
    have hmem : (k, v) ∈ params.sortedEntries := OrderedHash.mem_sortedEntries.2 hkv
    exact normalizeEntry_isOk_iff.1 (Except.ok_of_mapM hitems _ hmem)
  · intro h
    have hall : ∀ e ∈ params.sortedEntries, ∃ items, normalizeEntry rt e.1 e.2 = .ok items :=
      fun e he => normalizeEntry_isOk_iff.2 (h e.1 e.2 (OrderedHash.mem_sortedEntries.1 he))
    obtain ⟨items, hitems⟩ := Except.exists_mapM hall
    exact ⟨_, Except.bind_eq_ok.2 ⟨items, hitems, rfl⟩⟩

theorem error_of_normalizeEntry {rt : Runtime} {k : Bytes} {v : Value} {e : RubyError}
    (h : normalizeEntry rt k v = .error e) : e = .argumentError := by
  unfold normalizeEntry at h
  split at h
  · next vs =>
      generalize (if vs.isEmpty then [Value.nil] else vs) = values at h
      simp only at h
      split at h
      · simp at h
      · rcases Except.bind_eq_error.1 h with h | ⟨sorted, -, h⟩
        · rw [Value.sort] at h
          split_ifs at h
          exact (Except.error.inj h).symm
        · simp at h
  · simp at h
  · simp at h

theorem error_of_normalize {rt : Runtime} {params : Params} {e : RubyError}
    (he : normalize rt params = .error e) : e = .argumentError := by
  rcases Except.bind_eq_error.1 he with h | ⟨items, -, h⟩
  · obtain ⟨x, -, hx⟩ := Except.error_of_mapM h
    exact error_of_normalizeEntry hx
  · simp at h

/-- Arrays that cannot be put in order raise, the same error wherever they are. -/
theorem normalize_eq_error {rt : Runtime} {params : Params}
    (h : ∃ e ∈ params.entries, sortable e.2 = false) :
    normalize rt params = .error .argumentError := by
  obtain ⟨⟨k, v⟩, he, hv⟩ := h
  cases hn : normalize rt params with
  | error e => rw [error_of_normalize hn]
  | ok n =>
      have hsort := (normalize_isOk_iff rt).1 ⟨n, hn⟩ k v (OrderedHash.mem_entries.1 he)
      rw [hv] at hsort
      exact absurd hsort Bool.false_ne_true

/-! ## What it depends on -/

/-- Parameters whose entries give the same segments under every name normalize alike. -/
theorem normalize_congr_entries (rt : Runtime) {params params' : Params}
    (h : ∀ k, (params.lookup k).map (normalizeEntry rt k)
      = (params'.lookup k).map (normalizeEntry rt k)) :
    normalize rt params = normalize rt params' := by
  rw [normalize, normalize, Except.mapM_congr_map (OrderedHash.map_sortedEntries_congr h)]

theorem normalize_congr (rt : Runtime) {params params' : Params}
    (h : ∀ k, params.lookup k = params'.lookup k) :
    normalize rt params = normalize rt params' :=
  normalize_congr_entries rt fun k => by rw [h k]

/-- The text of a scalar: a string, or `nil` for the empty one. -/
def scalarText : Value → Option Bytes
  | .nil => some []
  | .str s => some s
  | _ => none

theorem normalizeEntry_scalar {rt : Runtime} {v : Value} {s : Bytes} (h : scalarText v = some s)
    (k : Bytes) : normalizeEntry rt k v = .ok [segment k s] := by
  cases v <;> simp_all [scalarText, normalizeEntry, Value.toS]

/-- **A change of one scalar value shows.** -/
theorem normalize_set_scalar {rt : Runtime} {params : Params} {k : Bytes} {a b : Value}
    {s t : Bytes} (ha : params.lookup k = some a) (hs : scalarText a = some s)
    (ht : scalarText b = some t) (hne : s ≠ t) {n : Bytes} (hn : normalize rt params = .ok n) :
    ∃ n', normalize rt (params.set k b) = .ok n' ∧ n ≠ n' := by
  obtain ⟨pre, post, hpre, hpost⟩ := OrderedHash.sortedEntries_set b ha
  rw [normalize, hpre] at hn
  obtain ⟨items, hitems, hn⟩ := Except.bind_eq_ok.1 hn
  obtain ⟨cs, ds', hcs, hds', rfl⟩ := Except.mapM_append_eq_ok.1 hitems
  obtain ⟨c, ds, hc, hds, rfl⟩ := Except.mapM_cons_eq_ok.1 hds'
  rw [normalizeEntry_scalar hs, Except.ok.injEq] at hc
  subst hc
  have hitems' : (params.set k b).sortedEntries.mapM (fun e => normalizeEntry rt e.1 e.2)
      = .ok (cs ++ [segment k t] :: ds) := by
    rw [hpost]
    exact Except.mapM_append_eq_ok.2 ⟨cs, _, hcs,
      Except.mapM_cons_eq_ok.2 ⟨_, ds, normalizeEntry_scalar ht k, hds, rfl⟩, rfl⟩
  refine ⟨_, by rw [normalize, hitems', Except.ok_bind], ?_⟩
  rw [← Except.ok.inj hn]
  intro h
  rw [List.map_append, List.map_cons, List.map_append, List.map_cons, joinWith_singleton,
    joinWith_singleton] at h
  exact hne (segment_inj.1 (joinWith_cancel _ _ h)).2

end RubyOAuth
