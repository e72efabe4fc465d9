import RubyOAuth.Model.KeyedProxies
import RubyOAuth.Proofs.Normalize

set_option autoImplicit false

/-! # Normalizing parameters under keys of any kind

Keys that compare are all strings, all symbols, or one `nil`, so that they come in the order of their
texts: the normalized string is known by what is written under each key, whatever the order of the
entries. -/

namespace RubyOAuth

open Bytes

/-! ## Keys that compare -/

namespace Key

theorem cmp_self (k : Key) : cmp k k = some .eq := by
  have hstr : ∀ s : Bytes, Value.strCmp s s = .eq := by
    intro s
    rw [Value.strCmp, if_neg Std.lt_irrefl, if_pos rfl]
  cases k with
  | nil => rfl
  | str s => exact congrArg some (hstr s)
  | sym s => exact congrArg some (hstr s)

theorem isSome_cmp_comm (k l : Key) : (cmp k l).isSome = (cmp l k).isSome := by
  cases k <;> cases l <;> rfl

theorem comparable_iff {ks : List Key} :
    comparable ks = true ↔ ∀ k ∈ ks, ∀ l ∈ ks, (cmp k l).isSome = true := by
  induction ks with
  | nil => simp [comparable]
  | cons k rest ih =>
      rw [comparable, Bool.and_eq_true, List.all_eq_true, ih]
      constructor
      · rintro ⟨hk, hrest⟩ a ha b hb
        rcases List.mem_cons.1 ha with rfl | ha' <;> rcases List.mem_cons.1 hb with rfl | hb'
        · rw [cmp_self]
          rfl
        · exact hk b hb'
        · rw [isSome_cmp_comm]
          exact hk a ha'
        · exact hrest a ha' b hb'
      · intro h
        exact ⟨fun l hl => h k List.mem_cons_self l (List.mem_cons_of_mem k hl),
          fun a ha b hb => h a (List.mem_cons_of_mem k ha) b (List.mem_cons_of_mem k hb)⟩

theorem le_iff {k l : Key} (h : (cmp k l).isSome = true) : Le k l ↔ k.toS ≤ l.toS := by
  have hle : ∀ a b : Bytes, some (Value.strCmp a b) ≠ some .gt ↔ a ≤ b := by
    intro a b
    rw [← Value.strCmp_ne_gt]
    simp
  cases k <;> cases l <;> simp only [cmp, Option.isSome_none, Bool.false_eq_true] at h
  · exact iff_of_true (by decide) (Std.le_refl _)
  · exact hle _ _
  · exact hle _ _

theorem eq_of_toS_eq {k l : Key} (h : (cmp k l).isSome = true) (hs : k.toS = l.toS) : k = l := by
  cases k <;> cases l <;> simp only [cmp, Option.isSome_none, Bool.false_eq_true] at h
  · rfl
  · exact congrArg Key.str hs
  · exact congrArg Key.sym hs

end Key

/-! ## What is written under each key -/

namespace KeyedParams

variable {rt : Runtime} {params params' : KeyedParams}

theorem mem_keys_of_entry {e : Key × Value} (he : e ∈ params.entries) :
    e.1 ∈ OrderedHash.keys params := List.mem_map_of_mem he

/-- What is written of each parameter, under the text of its key. -/
def written (rt : Runtime) (params : KeyedParams) (h : Key.comparable params.keys = true) :
    OrderedHash Bytes (Except RubyError (List Bytes)) :=
  ⟨params.entries.map (fun e => (e.1.toS, normalizeEntry rt e.1 e.2)), by
    have hkeys : (params.entries.map (fun e => (e.1.toS, normalizeEntry rt e.1 e.2))).map Prod.fst
        = params.keys.map Key.toS := by simp [OrderedHash.keys]
    rw [hkeys]
    refine List.Nodup.map_on (fun k hk l hl hs => ?_) params.nodup
    exact Key.eq_of_toS_eq (Key.comparable_iff.1 h k hk l hl) hs⟩

theorem lookup_written (h : Key.comparable params.keys = true) {t : Bytes}
    {w : Except RubyError (List Bytes)} :
    (written rt params h).lookup t = some w ↔
      ∃ k, k.toS = t ∧ (params.lookup k).map (normalizeEntry rt k) = some w := by
  rw [← OrderedHash.mem_entries, written, List.mem_map]
  constructor
  · rintro ⟨⟨k, v⟩, he, heq⟩
    obtain ⟨ht, rfl⟩ := Prod.mk.inj heq
    exact ⟨k, ht, by rw [OrderedHash.mem_entries.1 he]; rfl⟩
  · rintro ⟨k, rfl, hw⟩
    obtain ⟨v, hv, rfl⟩ := Option.map_eq_some_iff.1 hw
    exact ⟨(k, v), OrderedHash.mem_entries.2 hv, rfl⟩

/-- The normalized string writes them in the order of the texts. -/
theorem normalize_eq_written (h : Key.comparable params.keys = true) :
    normalize rt params
      = (written rt params h).sortedEntries.mapM Prod.snd >>=
          fun items => .ok (joinWith ampersand (items.map (joinWith ampersand))) := by
  have hsorted : (params.entries.insertionSort Key.EntryLe).map
      (fun e => (e.1.toS, normalizeEntry rt e.1 e.2)) = (written rt params h).sortedEntries := by
    refine List.map_insertionSort Key.EntryLe OrderedHash.KeyLe _ params.entries fun a ha b hb => ?_
    exact Key.le_iff (Key.comparable_iff.1 h _ (mem_keys_of_entry ha) _ (mem_keys_of_entry hb))
  rw [normalize, sort, if_pos h, Except.ok_bind, ← hsorted, List.mapM_map]
  rfl

theorem normalize_of_not_comparable (h : Key.comparable params.keys = false) :
    normalize rt params = .error .argumentError := by
  rw [normalize, sort, h]
  rfl

theorem comparable_congr (h : ∀ k, (params.lookup k).isSome = (params'.lookup k).isSome) :
    Key.comparable params.keys = Key.comparable params'.keys := by
  have hmem : ∀ k, k ∈ OrderedHash.keys params ↔ k ∈ OrderedHash.keys params' := by
    intro k
    rw [OrderedHash.mem_keys, OrderedHash.mem_keys, h]
  rw [Bool.eq_iff_iff, Key.comparable_iff, Key.comparable_iff]
  simp only [hmem]

/-- **Parameters of which the same is written under every key normalize alike.** -/
theorem normalize_congr_entries (h : ∀ k, (params.lookup k).map (normalizeEntry rt k)
    = (params'.lookup k).map (normalizeEntry rt k)) : normalize rt params = normalize rt params' := by
  have hsome : ∀ k, (params.lookup k).isSome = (params'.lookup k).isSome := by
    intro k
    rw [← Option.isSome_map (f := normalizeEntry rt k), h, Option.isSome_map]
  have hkeys := comparable_congr hsome
  cases hcomp : Key.comparable params.keys with
  | false => rw [normalize_of_not_comparable hcomp, normalize_of_not_comparable (hkeys ▸ hcomp)]
  | true =>
      have hcomp' : Key.comparable params'.keys = true := hkeys ▸ hcomp
      rw [normalize_eq_written hcomp, normalize_eq_written hcomp']
      have hsame : (written rt params hcomp).sortedEntries
          = (written rt params' hcomp').sortedEntries := by
        refine OrderedHash.sortedEntries_eq fun t => Option.ext fun w => ?_
        rw [lookup_written, lookup_written]
        simp only [h]
      rw [hsame]

/-! ## When it raises -/

theorem normalizeEntry_isOk_iff {k : Key} {v : Value} :
    (∃ items, normalizeEntry rt k v = .ok items) ↔ sortable v = true := by
  rw [normalizeEntry.eq_def]
  split
  · exact iff_of_true ⟨_, rfl⟩ rfl
  · exact RubyOAuth.normalizeEntry_isOk_iff

theorem error_of_normalizeEntry {k : Key} {v : Value} {e : RubyError}
    (h : normalizeEntry rt k v = .error e) : e = .argumentError := by
  rw [normalizeEntry.eq_def] at h
  split at h
  · simp at h
  · exact RubyOAuth.error_of_normalizeEntry h

theorem error_of_normalize {e : RubyError} (h : normalize rt params = .error e) :
    e = .argumentError := by
  rcases Except.bind_eq_error.1 h with h | ⟨es, -, h⟩
  · rw [sort] at h
    split_ifs at h
    exact (Except.error.inj h).symm
  · rcases Except.bind_eq_error.1 h with h | ⟨items, -, h⟩
    · obtain ⟨x, -, hx⟩ := Except.error_of_mapM h
      exact error_of_normalizeEntry hx
    · simp at h

/-- The entries in the order they are written in. -/
theorem sort_eq_ok {es : List (Key × Value)} (h : sort params = .ok es) :
    Key.comparable params.keys = true ∧ es.Perm params.entries := by
  rw [sort] at h
  split_ifs at h with hcomp
  rw [← Except.ok.inj h]
  exact ⟨hcomp, List.perm_insertionSort _ _⟩

theorem normalize_isOk_iff :
    (∃ text, normalize rt params = .ok text) ↔
      Key.comparable params.keys = true ∧ ∀ k v, params.lookup k = some v → sortable v = true := by
  constructor
  · rintro ⟨text, htext⟩
    obtain ⟨es, hes, htext⟩ := Except.bind_eq_ok.1 htext
    obtain ⟨items, hitems, -⟩ := Except.bind_eq_ok.1 htext
    obtain ⟨hcomp, hperm⟩ := sort_eq_ok hes
    refine ⟨hcomp, fun k v hkv => ?_⟩
    exact normalizeEntry_isOk_iff.1
      (Except.ok_of_mapM hitems (k, v) (hperm.mem_iff.2 (OrderedHash.mem_entries.2 hkv)))
  · rintro ⟨hcomp, hsortable⟩
    have hall : ∀ e ∈ params.entries.insertionSort Key.EntryLe,
        ∃ items, normalizeEntry rt e.1 e.2 = .ok items := by
      intro e he
      refine normalizeEntry_isOk_iff.2 (hsortable e.1 e.2 (OrderedHash.mem_entries.1 ?_))
      exact (List.perm_insertionSort _ _).mem_iff.1 he
    obtain ⟨items, hitems⟩ := Except.exists_mapM hall
    exact ⟨_, by rw [normalize, sort, if_pos hcomp, Except.ok_bind, hitems, Except.ok_bind]⟩

/-! ## How long it is -/

/-- The text of one parameter. -/
def entryText (rt : Runtime) (e : Key × Value) : Bytes :=
  match normalizeEntry rt e.1 e.2 with
  | .ok items => joinWith ampersand items
  | .error _ => []

theorem length_normalize {text : Bytes} (h : normalize rt params = .ok text)
    (hne : params.entries ≠ []) :
    text.length + 1 = (params.entries.map (fun e => (entryText rt e).length + 1)).sum := by
  obtain ⟨es, hes, h⟩ := Except.bind_eq_ok.1 h
  obtain ⟨items, hitems, h⟩ := Except.bind_eq_ok.1 h
  obtain ⟨-, hperm⟩ := sort_eq_ok hes
  have htexts : items.map (joinWith ampersand) = es.map (entryText rt) := by
    have hall : ∀ e ∈ es, normalizeEntry rt e.1 e.2
        = .ok ((normalizeEntry rt e.1 e.2).toOption.getD []) := by
      intro e he
      obtain ⟨w, hw⟩ := Except.ok_of_mapM hitems e he
      rw [hw]
      rfl
    rw [Except.mapM_of_ok hall, Except.ok.injEq] at hitems
    rw [← hitems, List.map_map]
    refine List.map_congr_left fun e he => ?_
    rw [entryText, hall e he]
    rfl
  have hes_ne : es.map (entryText rt) ≠ [] := by
    intro hnil
    exact hne (List.map_eq_nil_iff.1 hnil ▸ hperm).nil_eq.symm
  rw [← Except.ok.inj h, htexts, length_joinWith ampersand hes_ne, partsSize, List.map_map]
  exact (hperm.map _).sum_eq

end KeyedParams

end RubyOAuth
