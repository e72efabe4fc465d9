import Mathlib
import RubyOAuth.Lib.Pairs

set_option autoImplicit false

/-! # Insertion-ordered hashes

A hash that remembers the order of insertion: a list of entries with distinct keys, carried as a
field, so that no operation can build a hash with a key twice. Assigning to a key that is there
keeps its place, a new key goes to the end; `merge` assigns the second hash's entries one by one.

Everything a caller can observe through `lookup` is stated on `lookup`; two hashes with the same
lookups have the same entries up to order (`perm_of_lookup_eq`), hence the same entries once sorted
by key (`sortedEntries_eq`). -/

structure OrderedHash (κ ν : Type) where
  entries : List (κ × ν)
  nodup : (entries.map Prod.fst).Nodup

namespace OrderedHash

variable {κ ν : Type} [DecidableEq κ]

/-! ## Entry lists -/

def setEntry (k : κ) (v : ν) : List (κ × ν) → List (κ × ν)
  | [] => [(k, v)]
  | (k', v') :: rest => if k' = k then (k, v) :: rest else (k', v') :: setEntry k v rest

def findEntry (k : κ) : List (κ × ν) → Option ν
  | [] => none
  | (k', v') :: rest => if k' = k then some v' else findEntry k rest

theorem keys_setEntry (k : κ) (v : ν) (es : List (κ × ν)) :
    (setEntry k v es).map Prod.fst
      = if k ∈ es.map Prod.fst then es.map Prod.fst else es.map Prod.fst ++ [k] := by
  induction es with
  | nil => simp [setEntry]
  | cons e rest ih =>
      obtain ⟨k', v'⟩ := e
      rw [setEntry]
      by_cases hk : k' = k
      · subst hk; simp
      · rw [if_neg hk, List.map_cons, List.map_cons, ih]
        by_cases hm : k ∈ rest.map Prod.fst
        · rw [if_pos hm, if_pos (List.mem_cons_of_mem _ hm)]
        · have hm' : k ∉ k' :: rest.map Prod.fst := by
            rw [List.mem_cons, not_or]
            exact ⟨fun he => hk he.symm, hm⟩
          rw [if_neg hm, if_neg hm', List.cons_append]

theorem findEntry_setEntry (k : κ) (v : ν) (es : List (κ × ν)) (k₀ : κ) :
    findEntry k₀ (setEntry k v es) = if k₀ = k then some v else findEntry k₀ es := by
  induction es with
  | nil => simp [setEntry, findEntry, eq_comm]
  | cons e rest ih =>
      obtain ⟨k', v'⟩ := e
      rw [setEntry]
      by_cases hk : k' = k
      · subst hk
        rw [if_pos rfl, findEntry, findEntry]
        by_cases hk₀ : k₀ = k'
        · subst hk₀; simp
        · rw [if_neg (Ne.symm hk₀), if_neg hk₀, if_neg (Ne.symm hk₀)]
      · rw [if_neg hk, findEntry, findEntry, ih]
        by_cases hk' : k' = k₀
        · subst hk'; simp [hk]
        · rw [if_neg hk', if_neg hk']

theorem findEntry_eq_some {es : List (κ × ν)} (hn : (es.map Prod.fst).Nodup) {k : κ} {v : ν} :
    findEntry k es = some v ↔ (k, v) ∈ es := by
  induction es with
  | nil => simp [findEntry]
  | cons e rest ih =>
      obtain ⟨k', v'⟩ := e
      rw [List.map_cons, List.nodup_cons] at hn
      rw [findEntry, List.mem_cons]
      by_cases hk : k' = k
      · subst hk
        have hnot : (k', v) ∉ rest := fun hm => hn.1 (List.mem_map.2 ⟨_, hm, rfl⟩)
        simp [hnot, eq_comm]
      · have hne : (k, v) ≠ (k', v') := fun he => hk (congrArg Prod.fst he).symm
        rw [if_neg hk, ih hn.2]
        simp [hne]

theorem mem_of_findEntry {es : List (κ × ν)} {k : κ} {v : ν} (h : findEntry k es = some v) :
    (k, v) ∈ es := by
  induction es with
  | nil => simp [findEntry] at h
  | cons e rest ih =>
      obtain ⟨k', v'⟩ := e
      rw [findEntry] at h
      by_cases hk : k' = k
      · rw [if_pos hk, Option.some.injEq] at h
        simp [hk, h]
      · rw [if_neg hk] at h
        exact List.mem_cons_of_mem _ (ih h)

theorem findEntry_eq_none {es : List (κ × ν)} {k : κ} :
    findEntry k es = none ↔ k ∉ es.map Prod.fst := by
  induction es with
  | nil => simp [findEntry]
  | cons e rest ih =>
      obtain ⟨k', v'⟩ := e
      rw [findEntry, List.map_cons, List.mem_cons, not_or, ← ih]
      by_cases hk : k' = k
      · subst hk; simp
      · rw [if_neg hk]
        simp [Ne.symm hk]

/-- Pairs written entry by entry, each under the name of its entry, are found by that name. -/
theorem valuesOf_flatMap {β : Type} {f : κ × ν → List (κ × β)} (hf : ∀ e, ∀ x ∈ f e, x.1 = e.1)
    {es : List (κ × ν)} (hn : (es.map Prod.fst).Nodup) (k : κ) :
    valuesOf k (es.flatMap f)
      = ((findEntry k es).map (fun v => (f (k, v)).map Prod.snd)).getD [] := by
  have hsame : ∀ v, valuesOf k (f (k, v)) = (f (k, v)).map Prod.snd := by
    intro v
    rw [valuesOf, List.filter_eq_self.2 (fun x hx => by simpa using hf (k, v) x hx)]
  induction es with
  | nil => rfl
  | cons e rest ih =>
      obtain ⟨n, v⟩ := e
      rw [List.map_cons, List.nodup_cons] at hn
      rw [List.flatMap_cons, valuesOf_append, ih hn.2, findEntry]
      by_cases hnk : n = k
      · -- no other entry has the name
        subst hnk
        rw [if_pos rfl, findEntry_eq_none.2 hn.1, hsame, Option.map_none, Option.getD_none,
          List.append_nil]
        rfl
      · have hother : valuesOf k (f (n, v)) = [] := by
          rw [valuesOf_eq_nil]
          intro hm
          obtain ⟨x, hx, rfl⟩ := List.mem_map.1 hm
          exact hnk (hf (n, v) x hx).symm
        rw [if_neg hnk, hother, List.nil_append]

theorem findEntry_filter (p : κ → Bool) (es : List (κ × ν)) (k : κ) :
    findEntry k (es.filter (fun e => p e.1)) = if p k then findEntry k es else none := by
  induction es with
  | nil => simp [findEntry]
  | cons e rest ih =>
      obtain ⟨k', v'⟩ := e
      rw [List.filter_cons]
      by_cases hk : k' = k
      · subst hk
        by_cases hp : p k'
        · simp [hp, findEntry]
        · simp [hp, ih]
      · by_cases hp : p k'
        · simp only [hp, if_true, findEntry, if_neg hk, ih]
        · simp only [hp, findEntry, if_neg hk, ih, Bool.false_eq_true, if_false]

theorem findEntry_filter_pair (p : κ → ν → Bool) {es : List (κ × ν)} (hn : (es.map Prod.fst).Nodup)
    (k : κ) : findEntry k (es.filter (fun e => p e.1 e.2)) = (findEntry k es).filter (p k) := by
  have hn' : ((es.filter (fun e => p e.1 e.2)).map Prod.fst).Nodup :=
    (List.filter_sublist.map Prod.fst).nodup hn
  apply Option.ext
  intro v
  rw [findEntry_eq_some hn', List.mem_filter, Option.filter_eq_some_iff, findEntry_eq_some hn]

/-! ## Operations -/

def empty : OrderedHash κ ν := ⟨[], List.nodup_nil⟩

instance : Inhabited (OrderedHash κ ν) := ⟨empty⟩

def keys (h : OrderedHash κ ν) : List κ := h.entries.map Prod.fst

def lookup (h : OrderedHash κ ν) (k : κ) : Option ν := findEntry k h.entries

def set (h : OrderedHash κ ν) (k : κ) (v : ν) : OrderedHash κ ν :=
  ⟨setEntry k v h.entries, by
    rw [keys_setEntry]
    split
    · exact h.nodup
    · next hk => exact h.nodup.append (List.nodup_singleton k) (List.disjoint_singleton.2 hk)⟩

/-- Assign the entries of `g` one after the other: on a common key `g` wins. -/
def merge (h g : OrderedHash κ ν) : OrderedHash κ ν :=
  g.entries.foldl (fun acc e => acc.set e.1 e.2) h

/-- The hash of a list of pairs: a later pair overwrites an earlier one. -/
def ofList (es : List (κ × ν)) : OrderedHash κ ν :=
  es.foldl (fun acc e => acc.set e.1 e.2) empty

/-- The entries whose key satisfies `p`. -/
def select (p : κ → Bool) (h : OrderedHash κ ν) : OrderedHash κ ν :=
  ⟨h.entries.filter (fun e => p e.1), (List.filter_sublist.map Prod.fst).nodup h.nodup⟩

/-- The entries that satisfy `p`. -/
def filter (p : κ → ν → Bool) (h : OrderedHash κ ν) : OrderedHash κ ν :=
  ⟨h.entries.filter (fun e => p e.1 e.2), (List.filter_sublist.map Prod.fst).nodup h.nodup⟩

/-- The same keys with the values mapped. -/
def mapValues {μ : Type} (f : ν → μ) (h : OrderedHash κ ν) : OrderedHash κ μ :=
  ⟨h.entries.map (fun e => (e.1, f e.2)), by
    rw [List.map_map]
    exact h.nodup⟩

/-! ## Lookups -/

@[simp] theorem lookup_empty (k : κ) : (empty : OrderedHash κ ν).lookup k = none := rfl

theorem mem_entries {h : OrderedHash κ ν} {k : κ} {v : ν} :
    (k, v) ∈ h.entries ↔ h.lookup k = some v := (findEntry_eq_some h.nodup).symm

theorem mem_keys {h : OrderedHash κ ν} {k : κ} : k ∈ h.keys ↔ (h.lookup k).isSome := by
  rw [← not_iff_not, Bool.not_eq_true, Option.isSome_eq_false_iff, Option.isNone_iff_eq_none,
    lookup, findEntry_eq_none, keys]

@[simp] theorem lookup_set (h : OrderedHash κ ν) (k : κ) (v : ν) (k₀ : κ) :
    (h.set k v).lookup k₀ = if k₀ = k then some v else h.lookup k₀ :=
  findEntry_setEntry k v h.entries k₀

@[simp] theorem lookup_select (p : κ → Bool) (h : OrderedHash κ ν) (k : κ) :
    (h.select p).lookup k = if p k then h.lookup k else none := findEntry_filter p h.entries k

@[simp] theorem lookup_filter (p : κ → ν → Bool) (h : OrderedHash κ ν) (k : κ) :
    (h.filter p).lookup k = (h.lookup k).filter (p k) := findEntry_filter_pair p h.nodup k

theorem findEntry_map {μ : Type} (f : ν → μ) (es : List (κ × ν)) (k : κ) :
    findEntry k (es.map (fun e => (e.1, f e.2))) = (findEntry k es).map f := by
  induction es with
  | nil => rfl
  | cons e rest ih =>
      obtain ⟨k', v'⟩ := e
      rw [List.map_cons, findEntry, findEntry, ih]
      split <;> rfl

@[simp] theorem lookup_mapValues {μ : Type} (f : ν → μ) (h : OrderedHash κ ν) (k : κ) :
    (h.mapValues f).lookup k = (h.lookup k).map f := findEntry_map f h.entries k

theorem lookup_foldl_set (es : List (κ × ν)) (h : OrderedHash κ ν) (k : κ) :
    (es.foldl (fun acc e => acc.set e.1 e.2) h).lookup k
      = (findEntry k es.reverse).or (h.lookup k) := by
  induction es using List.reverseRecOn with
  | nil => simp [findEntry]
  | append_singleton rest e ih =>
      obtain ⟨k', v'⟩ := e
      rw [List.foldl_append, List.foldl_cons, List.foldl_nil, lookup_set, ih, List.reverse_append,
        List.reverse_singleton, List.singleton_append, findEntry]
      by_cases hk : k' = k
      · subst hk; simp
      · rw [if_neg (Ne.symm hk), if_neg hk]

/-- Where each entry updates what is under its key, a fold updates under every key once. -/
theorem lookup_foldl_update {μ : Type} {add : OrderedHash κ μ → κ × ν → OrderedHash κ μ}
    (update : Option μ → ν → μ)
    (hadd : ∀ h e k, (add h e).lookup k
      = if k = e.1 then some (update (h.lookup k) e.2) else h.lookup k)
    {es : List (κ × ν)} (hn : (es.map Prod.fst).Nodup) (h : OrderedHash κ μ) (k : κ) :
    (es.foldl add h).lookup k
      = (findEntry k es).elim (h.lookup k) (fun v => some (update (h.lookup k) v)) := by
  induction es generalizing h with
  | nil => rfl
  | cons e rest ih =>
      obtain ⟨k', v⟩ := e
      rw [List.map_cons, List.nodup_cons] at hn
      rw [List.foldl_cons, ih hn.2, findEntry]
      by_cases hk : k' = k
      · subst hk
        have hnone : findEntry k' rest = none := findEntry_eq_none.2 hn.1
        simp only [hnone, if_true, hadd, Option.elim]
      · have hkk : k ≠ k' := fun he => hk he.symm
        simp only [hk, if_false, hadd, hkk]

theorem findEntry_reverse {es : List (κ × ν)} (hn : (es.map Prod.fst).Nodup) (k : κ) :
    findEntry k es.reverse = findEntry k es := by
  have hn' : (es.reverse.map Prod.fst).Nodup := by
    rw [List.map_reverse]; exact List.nodup_reverse.2 hn
  apply Option.ext
  intro v
  rw [findEntry_eq_some hn', findEntry_eq_some hn, List.mem_reverse]

@[simp] theorem lookup_merge (h g : OrderedHash κ ν) (k : κ) :
    (h.merge g).lookup k = (g.lookup k).or (h.lookup k) := by
  rw [merge, lookup_foldl_set, findEntry_reverse g.nodup]
  rfl

/-- The last pair with the key decides. -/
theorem lookup_ofList (es : List (κ × ν)) (k : κ) :
    (ofList es).lookup k = findEntry k es.reverse := by
  rw [ofList, lookup_foldl_set, lookup_empty, Option.or_none]

theorem lookup_ofList_eq_none {es : List (κ × ν)} {k : κ} :
    (ofList es).lookup k = none ↔ k ∉ es.map Prod.fst := by
  rw [lookup_ofList, findEntry_eq_none, List.map_reverse, List.mem_reverse]

theorem lookup_ofList_isSome {es : List (κ × ν)} {k : κ} :
    ((ofList es).lookup k).isSome = true ↔ k ∈ es.map Prod.fst := by
  rw [← not_iff_not, Bool.not_eq_true, Option.isSome_eq_false_iff, Option.isNone_iff_eq_none,
    lookup_ofList_eq_none]

theorem lookup_ofList_of_nodup {es : List (κ × ν)} (hn : (es.map Prod.fst).Nodup) (k : κ) :
    (ofList es).lookup k = findEntry k es := by
  rw [lookup_ofList, findEntry_reverse hn]

theorem setEntry_of_not_mem {k : κ} (v : ν) {es : List (κ × ν)} (h : k ∉ es.map Prod.fst) :
    setEntry k v es = es ++ [(k, v)] := by
  induction es with
  | nil => rfl
  | cons e rest ih =>
      obtain ⟨k', v'⟩ := e
      rw [List.map_cons, List.mem_cons, not_or] at h
      rw [setEntry, if_neg (fun he => h.1 he.symm), ih h.2, List.cons_append]

/-- Pairs with distinct names are the entries of their hash. -/
theorem entries_ofList {es : List (κ × ν)} (hn : (es.map Prod.fst).Nodup) :
    (ofList es).entries = es := by
  induction es using List.reverseRecOn with
  | nil => rfl
  | append_singleton rest e ih =>
      rw [List.map_append, List.map_singleton, List.nodup_append] at hn
      have hnot : e.1 ∉ rest.map Prod.fst := fun hm => hn.2.2 e.1 hm e.1 (List.mem_singleton_self _) rfl
      have hset : (ofList (rest ++ [e])).entries = setEntry e.1 e.2 (ofList rest).entries := by
        rw [ofList, List.foldl_append]
        rfl
      rw [hset, ih hn.1, setEntry_of_not_mem e.2 hnot]

/-! ## Repeated keys -/

theorem merge_ofList (es : List (κ × ν)) (g : OrderedHash κ ν) :
    (ofList es).merge g = ofList (es ++ g.entries) := by
  rw [merge, ofList, ofList, List.foldl_append]

theorem entries_ofList_subperm (es : List (κ × ν)) : (ofList es).entries.Subperm es := by
  refine (ofList es).nodup.of_map.subperm fun e he => ?_
  obtain ⟨k, v⟩ := e
  have hv : findEntry k es.reverse = some v := by
    rw [← lookup_ofList]
    exact mem_entries.1 he
  exact List.mem_reverse.1 (mem_of_findEntry hv)

/-- **Nothing that pairs stand for is lost in their hash exactly where their keys differ.** -/
theorem length_flatMap_ofList_iff {β : Type} {f : κ × ν → List β} {es : List (κ × ν)}
    (hf : ∀ e ∈ es, f e ≠ []) :
    ((ofList es).entries.flatMap f).length = (es.flatMap f).length ↔ (es.map Prod.fst).Nodup := by
  constructor
  · intro hlen
    obtain ⟨l, hperm, hsub⟩ := entries_ofList_subperm es
    rw [List.length_flatMap, List.length_flatMap, ← (hperm.map _).sum_eq] at hlen
    have hall : l = es :=
      eq_of_sublist_of_sum_eq hsub (fun e he => List.length_pos_iff.2 (hf e he)) hlen
    rw [← hall, (hperm.map Prod.fst).nodup_iff]
    exact (ofList es).nodup
  · intro hn
    rw [entries_ofList hn]

/-! ## Other keys -/

section MapKeys

variable {κ' : Type} [DecidableEq κ'] {f : κ → κ'} (hf : Function.Injective f)

omit [DecidableEq κ] [DecidableEq κ'] in
/-- The same entries under the images of their keys. -/
def mapKeys (h : OrderedHash κ ν) : OrderedHash κ' ν :=
  ⟨h.entries.map (fun e => (f e.1, e.2)), by
    have hkeys : (h.entries.map (fun e => (f e.1, e.2))).map Prod.fst
        = (h.entries.map Prod.fst).map f := by simp
    rw [hkeys]
    exact h.nodup.map hf⟩

@[simp] theorem lookup_mapKeys (h : OrderedHash κ ν) (k : κ) :
    (h.mapKeys hf).lookup (f k) = h.lookup k := by
  apply Option.ext
  intro v
  rw [← mem_entries, ← mem_entries, mapKeys, List.mem_map]
  constructor
  · rintro ⟨e, he, heq⟩
    obtain ⟨hk, rfl⟩ := Prod.mk.inj heq
    exact hf hk ▸ he
  · intro he
    exact ⟨(k, v), he, rfl⟩

omit [DecidableEq κ] in
theorem lookup_mapKeys_eq_none {h : OrderedHash κ ν} {k : κ'} (hk : ∀ j, f j ≠ k) :
    (h.mapKeys hf).lookup k = none := by
  rw [Option.eq_none_iff_forall_ne_some]
  intro v hv
  obtain ⟨e, -, heq⟩ := List.mem_map.1 (mem_entries.2 hv)
  exact hk e.1 (congrArg Prod.fst heq)

theorem mapKeys_set (h : OrderedHash κ ν) (k : κ) (v : ν) :
    (h.set k v).mapKeys hf = (h.mapKeys hf).set (f k) v := by
  have key : ∀ es : List (κ × ν), (setEntry k v es).map (fun e => (f e.1, e.2))
      = setEntry (f k) v (es.map (fun e => (f e.1, e.2))) := by
    intro es
    induction es with
    | nil => rfl
    | cons e rest ih =>
        rw [setEntry, List.map_cons, setEntry]
        by_cases hk : e.1 = k
        · rw [if_pos hk, if_pos (congrArg f hk)]
          rfl
        · rw [if_neg hk, if_neg (fun he => hk (hf he)), List.map_cons, ih]
  simp only [mapKeys, set, key]

theorem mapKeys_merge (h g : OrderedHash κ ν) :
    (h.merge g).mapKeys hf = (h.mapKeys hf).merge (g.mapKeys hf) := by
  have key : ∀ (es : List (κ × ν)) (h : OrderedHash κ ν),
      (es.foldl (fun acc e => acc.set e.1 e.2) h).mapKeys hf
        = (es.map (fun e => (f e.1, e.2))).foldl (fun acc e => acc.set e.1 e.2) (h.mapKeys hf) := by
    intro es
    induction es with
    | nil => exact fun h => rfl
    | cons e rest ih =>
        intro h
        rw [List.foldl_cons, List.map_cons, List.foldl_cons, ih, mapKeys_set]
  exact key g.entries h

end MapKeys

/-! ## Sameness up to order -/

omit [DecidableEq κ] in
theorem nodup_entries (h : OrderedHash κ ν) : h.entries.Nodup := h.nodup.of_map

/-- Hashes with the same lookups have the same entries, in some order. -/
theorem perm_of_lookup_eq {h g : OrderedHash κ ν} (hl : ∀ k, h.lookup k = g.lookup k) :
    h.entries.Perm g.entries := by
  rw [List.perm_ext_iff_of_nodup h.nodup_entries g.nodup_entries]
  rintro ⟨k, v⟩
  rw [mem_entries, mem_entries, hl]

/-- The entries under some keys are what is found under them. -/
theorem filter_mem_perm (h : OrderedHash κ ν) {ks : List κ} (hks : ks.Nodup) :
    (h.entries.filter (fun e => e.1 ∈ ks)).Perm
      (ks.filterMap (fun k => (h.lookup k).map (fun v => (k, v)))) := by
  refine (List.perm_ext_iff_of_nodup (h.nodup_entries.filter _) ?_).2 ?_
  · refine hks.filterMap fun a b e ha hb => ?_
    obtain ⟨v, -, rfl⟩ := Option.map_eq_some_iff.1 ha
    obtain ⟨w, -, heq⟩ := Option.map_eq_some_iff.1 hb
    exact (Prod.mk.inj heq).1.symm
  · rintro ⟨k, v⟩
    rw [List.mem_filter, mem_entries, List.mem_filterMap, decide_eq_true_eq]
    constructor
    · rintro ⟨hv, hk⟩
      exact ⟨k, hk, by rw [hv]; rfl⟩
    · rintro ⟨l, hl, heq⟩
      obtain ⟨w, hw, heq⟩ := Option.map_eq_some_iff.1 heq
      obtain ⟨rfl, rfl⟩ := Prod.mk.inj heq
      exact ⟨hw, hl⟩

/-- Assigning to a key outside a selection leaves the selection. -/
theorem select_set {p : κ → Bool} {h : OrderedHash κ ν} {k : κ} (hk : p k = false) (v : ν) :
    (h.set k v).select p = h.select p := by
  have key : ∀ es : List (κ × ν),
      (setEntry k v es).filter (fun e => p e.1) = es.filter (fun e => p e.1) := by
    intro es
    induction es with
    | nil => simp [setEntry, hk]
    | cons e rest ih =>
        obtain ⟨k', v'⟩ := e
        rw [setEntry]
        by_cases hk' : k' = k
        · subst hk'; simp [hk]
        · rw [if_neg hk', List.filter_cons, List.filter_cons, ih]
  simp only [select, set, key]

/-- Assigning to a key that is there replaces its entry in place. -/
theorem entries_set_of_lookup {h : OrderedHash κ ν} {k : κ} {v : ν} (w : ν)
    (hv : h.lookup k = some v) :
    ∃ pre post, h.entries = pre ++ (k, v) :: post ∧ (h.set k w).entries = pre ++ (k, w) :: post := by
  have key : ∀ es : List (κ × ν), findEntry k es = some v →
      ∃ pre post, es = pre ++ (k, v) :: post ∧ setEntry k w es = pre ++ (k, w) :: post := by
    intro es
    induction es with
    | nil => intro h; simp [findEntry] at h
    | cons e rest ih =>
        obtain ⟨k', v'⟩ := e
        intro h
        rw [findEntry] at h
        by_cases hk : k' = k
        · subst hk
          rw [if_pos rfl, Option.some.injEq] at h
          subst h
          exact ⟨[], rest, rfl, by simp [setEntry]⟩
        · rw [if_neg hk] at h
          obtain ⟨pre, post, h1, h2⟩ := ih h
          exact ⟨(k', v') :: pre, post, by rw [h1]; rfl, by rw [setEntry, if_neg hk, h2]; rfl⟩
  exact key h.entries hv

section Sorted

variable [LE κ] [DecidableLE κ] [Std.IsLinearOrder κ]

/-- The order of entries by key. -/
def KeyLe (a b : κ × ν) : Prop := a.1 ≤ b.1

instance : DecidableRel (KeyLe (κ := κ) (ν := ν)) :=
  fun a b => inferInstanceAs (Decidable (a.1 ≤ b.1))

instance : Std.Total (KeyLe (κ := κ) (ν := ν)) := ⟨fun _ _ => Std.le_total⟩

instance : IsTrans (κ × ν) KeyLe := ⟨fun _ _ _ h1 h2 => Std.le_trans h1 h2⟩

/-- The entries in the order of their keys. -/
def sortedEntries (h : OrderedHash κ ν) : List (κ × ν) := h.entries.insertionSort KeyLe

omit [DecidableEq κ] [Std.IsLinearOrder κ] in
theorem sortedEntries_perm (h : OrderedHash κ ν) : h.sortedEntries.Perm h.entries :=
  List.perm_insertionSort KeyLe h.entries

omit [DecidableEq κ] in
theorem sortedEntries_pairwise (h : OrderedHash κ ν) : h.sortedEntries.Pairwise KeyLe :=
  List.pairwise_insertionSort KeyLe h.entries

omit [Std.IsLinearOrder κ] in
theorem mem_sortedEntries {h : OrderedHash κ ν} {e : κ × ν} :
    e ∈ h.sortedEntries ↔ h.lookup e.1 = some e.2 := by
  rw [h.sortedEntries_perm.mem_iff, ← mem_entries]

omit [DecidableEq κ] [Std.IsLinearOrder κ] in
theorem sortedEntries_nodup (h : OrderedHash κ ν) : (h.sortedEntries.map Prod.fst).Nodup :=
  ((h.sortedEntries_perm.map Prod.fst).nodup_iff).2 h.nodup

/-- A list of the entries in key order is the sorted list of entries. -/
theorem eq_sortedEntries {h : OrderedHash κ ν} {es : List (κ × ν)} (hperm : es.Perm h.entries)
    (hsorted : es.Pairwise KeyLe) : es = h.sortedEntries := by
  refine List.Perm.eq_of_pairwise ?_ hsorted h.sortedEntries_pairwise
    (hperm.trans h.sortedEntries_perm.symm)
  rintro ⟨k, v⟩ ⟨k', v'⟩ ha hb hab hba
  have hk : k = k' := Std.le_antisymm hab hba
  subst hk
  rw [hperm.mem_iff, mem_entries] at ha
  rw [mem_sortedEntries] at hb
  simp_all

/-- **Sorted by key, a hash is its lookup function.** -/
theorem sortedEntries_eq {h g : OrderedHash κ ν} (hl : ∀ k, h.lookup k = g.lookup k) :
    h.sortedEntries = g.sortedEntries :=
  eq_sortedEntries (h.sortedEntries_perm.trans (perm_of_lookup_eq hl)) h.sortedEntries_pairwise

/-- Each value replaced by what it gives with its key. -/
def mapEntries {μ : Type} (f : κ → ν → μ) (h : OrderedHash κ ν) : OrderedHash κ μ :=
  ⟨h.entries.map (fun e => (e.1, f e.1 e.2)), by
    rw [List.map_map]
    exact h.nodup⟩

omit [LE κ] [DecidableLE κ] [Std.IsLinearOrder κ] in
theorem lookup_mapEntries {μ : Type} (f : κ → ν → μ) (h : OrderedHash κ ν) (k : κ) :
    (h.mapEntries f).lookup k = (h.lookup k).map (f k) := by
  apply Option.ext
  intro w
  rw [← mem_entries, mapEntries, List.mem_map, Option.map_eq_some_iff]
  constructor
  · rintro ⟨⟨k', v⟩, he, heq⟩
    obtain ⟨rfl, rfl⟩ := Prod.mk.inj heq
    exact ⟨v, mem_entries.1 he, rfl⟩
  · rintro ⟨v, hv, rfl⟩
    exact ⟨(k, v), mem_entries.2 hv, rfl⟩

theorem sortedEntries_mapEntries {μ : Type} (f : κ → ν → μ) (h : OrderedHash κ ν) :
    (h.mapEntries f).sortedEntries = h.sortedEntries.map (fun e => (e.1, f e.1 e.2)) := by
  have hperm : (h.sortedEntries.map (fun e => (e.1, f e.1 e.2))).Perm (h.mapEntries f).entries :=
    h.sortedEntries_perm.map _
  exact (eq_sortedEntries hperm (List.pairwise_map.2 h.sortedEntries_pairwise)).symm

/-- **A map of the sorted entries depends on what it gives of each lookup only.** -/
theorem map_sortedEntries_congr {μ : Type} {f : κ → ν → μ} {h g : OrderedHash κ ν}
    (hl : ∀ k, (h.lookup k).map (f k) = (g.lookup k).map (f k)) :
    h.sortedEntries.map (fun e => f e.1 e.2) = g.sortedEntries.map (fun e => f e.1 e.2) := by
  have hsame : (h.mapEntries f).sortedEntries = (g.mapEntries f).sortedEntries :=
    sortedEntries_eq fun k => by rw [lookup_mapEntries, lookup_mapEntries, hl]
  rw [sortedEntries_mapEntries, sortedEntries_mapEntries] at hsame
  have hsnd := congrArg (List.map Prod.snd) hsame
  rwa [List.map_map, List.map_map] at hsnd

theorem sortedEntries_select (p : κ → Bool) (h : OrderedHash κ ν) :
    (h.select p).sortedEntries = h.sortedEntries.filter (fun e => p e.1) :=
  (eq_sortedEntries (h.sortedEntries_perm.filter _) (h.sortedEntries_pairwise.filter _)).symm

omit [DecidableEq κ] in
/-- The entries come in strictly increasing order. -/
theorem sortedEntries_strict [LT κ] [Std.LawfulOrderLT κ] (h : OrderedHash κ ν) :
    h.sortedEntries.Pairwise (fun e f => e.1 < f.1) := by
  have hne := List.pairwise_map.1 h.sortedEntries_nodup
  refine (h.sortedEntries_pairwise.and hne).imp ?_
  rintro e f ⟨hle, hne⟩
  exact Std.lt_of_le_of_ne hle hne

omit [Std.IsLinearOrder κ] in
/-- One entry has the key. -/
theorem filter_sortedEntries {h : OrderedHash κ ν} {k : κ} {v : ν} (hv : h.lookup k = some v) :
    h.sortedEntries.filter (fun e => decide (e.1 = k)) = [(k, v)] := by
  obtain ⟨pre, post, hs⟩ := List.append_of_mem (mem_sortedEntries.2 hv :
    (k, v) ∈ h.sortedEntries)
  have hn := h.sortedEntries_nodup
  rw [hs, List.map_append, List.map_cons, List.nodup_append, List.nodup_cons] at hn
  have hpre : pre.filter (fun e => decide (e.1 = k)) = [] := by
    rw [List.filter_eq_nil_iff]
    intro e he hk
    exact hn.2.2 e.1 (List.mem_map_of_mem he) k List.mem_cons_self (of_decide_eq_true hk)
  have hpost : post.filter (fun e => decide (e.1 = k)) = [] := by
    rw [List.filter_eq_nil_iff]
    intro e he hk
    have hmem : e.1 ∈ post.map Prod.fst := List.mem_map_of_mem he
    rw [of_decide_eq_true hk] at hmem
    exact hn.2.1.1 hmem
  rw [hs, List.filter_append, hpre, List.filter_cons, if_pos (decide_eq_true rfl), hpost,
    List.nil_append]

/-- Replacing the value of one key keeps the sorted entries around it. -/
theorem sortedEntries_set {h : OrderedHash κ ν} {k : κ} {v : ν} (w : ν)
    (hv : h.lookup k = some v) :
    ∃ pre post, h.sortedEntries = pre ++ (k, v) :: post ∧
      (h.set k w).sortedEntries = pre ++ (k, w) :: post := by
  obtain ⟨pre, post, hs⟩ := List.append_of_mem (mem_sortedEntries.2 hv :
    (k, v) ∈ h.sortedEntries)
  refine ⟨pre, post, hs, (eq_sortedEntries ?_ ?_).symm⟩
  · obtain ⟨pre', post', h1, h2⟩ := entries_set_of_lookup w hv
    have hp := h.sortedEntries_perm
    rw [hs, h1] at hp
    have hrest : (pre ++ post).Perm (pre' ++ post') := by
      have := List.perm_middle.symm.trans (hp.trans List.perm_middle)
      exact (List.perm_cons _).1 this
    rw [h2]
    exact List.perm_middle.trans (((List.perm_cons _).2 hrest).trans List.perm_middle.symm)
  · have hpw := h.sortedEntries_pairwise
    rw [hs, List.pairwise_append, List.pairwise_cons] at hpw
    rw [List.pairwise_append, List.pairwise_cons]
    refine ⟨hpw.1, ⟨fun b hb => hpw.2.1.1 b hb, hpw.2.1.2⟩, fun a ha b hb => ?_⟩
    rcases List.mem_cons.1 hb with rfl | hb
    · exact hpw.2.2 a ha (k, v) List.mem_cons_self
    · exact hpw.2.2 a ha b (List.mem_cons_of_mem _ hb)

end Sorted

end OrderedHash
