import RubyOAuth.Model.RailsRequest
import RubyOAuth.Proofs.Nested

set_option autoImplicit false

/-! # Wrapped values

`wrap_values` puts a value that is neither an array nor `nil` in an array of one element. A string in an
array normalizes as the string does. A hash in an array does not: its leaves get a `[]` after the name of
the parameter. -/

namespace RubyOAuth

open Bytes

/-! ## Leaves under a longer name -/

mutual

/-- What stands before a name stands before the names of the leaves. -/
theorem leaves_append (rt : Runtime) (pre name : Bytes) : ∀ v : Value,
    leaves rt (pre ++ name) v = (leaves rt name v).map (fun l => (pre ++ l.1, l.2))
  | .arr vs => by
    rw [leaves_arr, leaves_arr]
    exact arrayLeaves_append rt pre name vs
  | .hash es => by
    rw [leaves_hash, leaves_hash]
    exact hashLeaves_append rt pre name es
  | .nil => rfl
  | .str _ => rfl
  | .bool true => rfl
  | .bool false => rfl

theorem arrayLeaves_append (rt : Runtime) (pre name : Bytes) : ∀ vs : List Value,
    arrayLeaves rt (pre ++ name) vs = (arrayLeaves rt name vs).map (fun l => (pre ++ l.1, l.2))
  | [] => rfl
  | v :: vs => by
    rw [arrayLeaves, arrayLeaves, List.map_append, List.append_assoc, leaves_append rt pre,
      arrayLeaves_append rt pre name vs]

theorem hashLeaves_append (rt : Runtime) (pre name : Bytes) : ∀ es : List (Bytes × Value),
    hashLeaves rt (pre ++ name) es = (hashLeaves rt name es).map (fun l => (pre ++ l.1, l.2))
  | [] => rfl
  | (k, v) :: es => by
    have hname : pre ++ name ++ [lbracket] ++ k ++ [rbracket]
        = pre ++ (name ++ [lbracket] ++ k ++ [rbracket]) := by simp
    rw [hashLeaves, hashLeaves, List.map_append, hname, leaves_append rt pre,
      hashLeaves_append rt pre name es]

end

/-- A name stands before the names that the leaves have without it. -/
theorem leaves_eq_map (rt : Runtime) (name : Bytes) (v : Value) :
    leaves rt name v = (leaves rt [] v).map (fun l => (name ++ l.1, l.2)) := by
  have h := leaves_append rt name [] v
  rwa [List.append_nil] at h

/-- Whether there are leaves is no matter of the name. -/
theorem leaves_eq_nil_iff (rt : Runtime) (m n : Bytes) (v : Value) :
    leaves rt m v = [] ↔ leaves rt n v = [] := by
  rw [leaves_eq_map rt m, leaves_eq_map rt n, List.map_eq_nil_iff, List.map_eq_nil_iff]

/-! ## Sizes -/

/-- Two brackets make six characters more. -/
theorem length_segment_brackets (k n v : Bytes) :
    (segment (k ++ ascii "[]" ++ n) v).length = (segment (k ++ n) v).length + 6 := by
  have hbrackets : (escapeBytes (ascii "[]")).length = 6 := by decide +kernel
  have happend : ∀ s t, escapeBytes (s ++ t) = escapeBytes s ++ escapeBytes t := fun s t =>
    PercentCode.encode_append s t
  simp only [segment, happend, List.length_append, List.length_cons, hbrackets]
  omega

/-- Under a name with brackets every leaf is longer. -/
theorem partsSize_brackets (rt : Runtime) (k : Bytes) (v : Value) :
    partsSize (segments (leaves rt (k ++ ascii "[]") v))
      = partsSize (segments (leaves rt k v)) + 6 * (leaves rt k v).length := by
  rw [leaves_eq_map rt (k ++ ascii "[]"), leaves_eq_map rt k]
  induction leaves rt [] v with
  | nil => rfl
  | cons l rest ih =>
      simp only [partsSize, segments, List.map_cons, List.map_map, List.sum_cons, List.length_cons,
        length_segment_brackets] at ih ⊢
      omega

/-! ## Wrapping and the segments of an entry -/

/-- `wrap_values` at the names that are not given otherwise. -/
def wrapUnless (given : Bytes → Bool) (k : Bytes) (v : Value) : Value :=
  if given k then v else wrapValue v

theorem sortable_wrapValue {v : Value} : sortable (wrapValue v) = sortable v := by
  cases v <;> simp [wrapValue, sortable, Value.isHash, Value.comparable]

/-- Only a hash is not what it was. -/
theorem normalizeEntry_wrapValue (rt : Runtime) (k : Bytes) {v : Value} (h : v.isHash = false) :
    normalizeEntry rt k (wrapValue v) = normalizeEntry rt k v := by
  cases v with
  | hash es => simp [Value.isHash] at h
  | nil => rfl
  | arr vs => rfl
  | str s => rfl
  | bool b => cases b <;> rfl

theorem entryLeaves_wrapValue_hash (rt : Runtime) (k : Bytes) (es : List (Bytes × Value)) :
    entryLeaves rt (k, wrapValue (.hash es)) = leaves rt (k ++ ascii "[]") (.hash es) :=
  List.append_nil _

/-- What wrapping adds to the segments of a parameter. -/
def wrapSize (rt : Runtime) (given : Bytes → Bool) (e : Bytes × Value) : Nat :=
  if given e.1 = false ∧ e.2.isHash = true then 6 * (entryLeaves rt e).length else 0

theorem partsSize_group {rt : Runtime} {e : Bytes × Value} {items : List Bytes}
    (h : normalizeEntry rt e.1 e.2 = .ok items) :
    partsSize (entrySegments rt e)
      = if entryLeaves rt e = [] then 1 else partsSize (segments (entryLeaves rt e)) := by
  have hperm := normalizeEntry_perm h
  have hnil : items = [] ↔ entryLeaves rt e = [] := by
    constructor
    · rintro rfl
      exact List.map_eq_nil_iff.1 hperm.nil_eq.symm
    · intro hl
      rw [hl] at hperm
      exact hperm.eq_nil
  rw [entrySegments_of_ok h, group]
  by_cases hl : entryLeaves rt e = []
  · rw [if_pos (hnil.2 hl), if_pos hl]
    rfl
  · rw [if_neg (fun hi => hl (hnil.1 hi)), if_neg hl, partsSize_perm hperm]

theorem partsSize_wrap (rt : Runtime) (given : Bytes → Bool) {e : Bytes × Value}
    (h : sortable e.2 = true) :
    partsSize (entrySegments rt (e.1, wrapUnless given e.1 e.2))
      = partsSize (entrySegments rt e) + wrapSize rt given e := by
  obtain ⟨k, v⟩ := e
  rw [wrapUnless, wrapSize]
  by_cases hg : given k = true
  · rw [if_pos hg, if_neg (fun hh => by simp [hg] at hh)]
    rfl
  · rw [Bool.not_eq_true] at hg
    by_cases hh : v.isHash = true
    · cases v with
      | hash es =>
          have hok : sortable (wrapValue (.hash es)) = true := rfl
          obtain ⟨items, hitems⟩ : ∃ items, normalizeEntry rt k (.hash es) = .ok items :=
            normalizeEntry_isOk_iff.2 h
          obtain ⟨items', hitems'⟩ : ∃ items, normalizeEntry rt k (wrapValue (.hash es)) = .ok items :=
            normalizeEntry_isOk_iff.2 hok
          have hleaves : entryLeaves rt (k, .hash es) = leaves rt k (.hash es) := rfl
          have hnil := leaves_eq_nil_iff rt (k ++ ascii "[]") k (.hash es)
          simp only [hg, hh, Bool.false_eq_true, if_false, and_self, if_true]
          rw [partsSize_group hitems', partsSize_group hitems, entryLeaves_wrapValue_hash,
            hleaves, partsSize_brackets]
          by_cases hl : leaves rt k (.hash es) = []
          · rw [if_pos (hnil.2 hl), if_pos hl, hl]
            rfl
          · rw [if_neg (fun h => hl (hnil.1 h)), if_neg hl]
      | _ => simp [Value.isHash] at hh
    · have hsame : entrySegments rt (k, wrapValue v) = entrySegments rt (k, v) := by
        rw [entrySegments, entrySegments, normalizeEntry_wrapValue rt k (Bool.not_eq_true _ ▸ hh)]
      simp [hg, hh, hsame]

/-! ## Wrapping and the whole string -/

section

variable (rt : Runtime) (given : Bytes → Bool) {params : Params}

/-- Every wrapped leaf shows in the length of the normalized string. -/
theorem length_normalize_wrap (h : ∀ e ∈ params.entries, sortable e.2 = true) {text text' : Bytes}
    (ht : normalize rt params = .ok text)
    (ht' : normalize rt (params.mapEntries (wrapUnless given)) = .ok text') :
    text'.length = text.length + (params.sortedEntries.map (wrapSize rt given)).sum := by
  have hsort : ∀ e ∈ params.sortedEntries, sortable e.2 = true := fun e he =>
    h e (params.sortedEntries_perm.mem_iff.1 he)
  have hok : ∀ e ∈ params.sortedEntries, ∃ items, normalizeEntry rt e.1 e.2 = .ok items := fun e he =>
    normalizeEntry_isOk_iff.2 (hsort e he)
  have hok' : ∀ e ∈ (params.mapEntries (wrapUnless given)).sortedEntries,
      ∃ items, normalizeEntry rt e.1 e.2 = .ok items := by
    intro e he
    rw [OrderedHash.sortedEntries_mapEntries] at he
    obtain ⟨f, hf, rfl⟩ := List.mem_map.1 he
    refine normalizeEntry_isOk_iff.2 ?_
    rw [wrapUnless]
    split
    · exact hsort f hf
    · rw [sortable_wrapValue, hsort f hf]
  rw [normalize_eq_listing, listing_eq_ok.2 ⟨hok, rfl⟩] at ht
  rw [normalize_eq_listing, listing_eq_ok.2 ⟨hok', rfl⟩, OrderedHash.sortedEntries_mapEntries,
    List.flatMap_map] at ht'
  rw [← Except.ok.inj ht, ← Except.ok.inj ht']
  have hsize : ∀ es : List (Bytes × Value), (∀ e ∈ es, sortable e.2 = true) →
      partsSize (es.flatMap (fun e => entrySegments rt (e.1, wrapUnless given e.1 e.2)))
        = partsSize (es.flatMap (entrySegments rt)) + (es.map (wrapSize rt given)).sum := by
    intro es
    induction es with
    | nil => intro _; rfl
    | cons e rest ih =>
        intro hes
        rw [List.forall_mem_cons] at hes
        rw [List.flatMap_cons, List.flatMap_cons, partsSize_append, partsSize_append, ih hes.2,
          partsSize_wrap rt given hes.1, List.map_cons, List.sum_cons]
        omega
  have hsum := hsize params.sortedEntries hsort
  cases hes : params.sortedEntries with
  | nil => rfl
  | cons e rest =>
      -- the joins are of one segment at least
      have hne : ∀ f : Bytes × Value → Bytes × Value,
          (e :: rest).flatMap (fun e => entrySegments rt (f e)) ≠ [] := by
        intro f hnil
        rw [List.flatMap_cons, List.append_eq_nil_iff] at hnil
        exact group_ne_nil _ hnil.1
      have hlen : (joinWith ampersand ((e :: rest).flatMap (entrySegments rt))).length + 1
          = partsSize ((e :: rest).flatMap (entrySegments rt)) :=
        length_joinWith ampersand (hne id)
      have hlen' := length_joinWith ampersand (hne fun e => (e.1, wrapUnless given e.1 e.2))
      rw [hes] at hsum
      omega

/-- **Wrapping values keeps the normalized string exactly where it raises anyway, or no value that is
    wrapped is a hash with a leaf.** -/
theorem normalize_mapEntries_iff :
    normalize rt (params.mapEntries (wrapUnless given)) = normalize rt params ↔
      (∃ e ∈ params.entries, sortable e.2 = false) ∨
        ∀ e ∈ params.entries, given e.1 = false → e.2.isHash = true → entryLeaves rt e = [] := by
  by_cases herr : ∃ e ∈ params.entries, sortable e.2 = false
  · refine iff_of_true ?_ (.inl herr)
    obtain ⟨e, he, hs⟩ := herr
    have herr' : ∃ f ∈ (params.mapEntries (wrapUnless given)).entries, sortable f.2 = false := by
      refine ⟨_, List.mem_map_of_mem he, ?_⟩
      simp only [wrapUnless]
      split
      · exact hs
      · rw [sortable_wrapValue, hs]
    rw [normalize_eq_error herr', normalize_eq_error ⟨e, he, hs⟩]
  · have hsort : ∀ e ∈ params.entries, sortable e.2 = true := by
      intro e he
      by_contra hs
      exact herr ⟨e, he, Bool.eq_false_of_not_eq_true hs⟩
    constructor
    · intro hsame
      refine .inr fun e he hg hh => ?_
      obtain ⟨text, ht⟩ := (normalize_isOk_iff rt).2 fun k v hkv =>
        hsort (k, v) (OrderedHash.mem_entries.2 hkv)
      have hsum := length_normalize_wrap rt given hsort ht (hsame.trans ht)
      have hzero : (params.sortedEntries.map (wrapSize rt given)).sum = 0 := by omega
      have hsize := List.sum_eq_zero_iff.1 hzero _
        (List.mem_map_of_mem (params.sortedEntries_perm.mem_iff.2 he))
      rw [wrapSize, if_pos ⟨hg, hh⟩] at hsize
      exact List.length_eq_zero_iff.1 (by omega)
    · rintro (herr' | hall)
      · exact absurd herr' herr
      · refine normalize_congr_entries rt fun k => ?_
        rw [OrderedHash.lookup_mapEntries, Option.map_map]
        cases hk : params.lookup k with
        | none => rfl
        | some v =>
            have he : (k, v) ∈ params.entries := OrderedHash.mem_entries.2 hk
            simp only [Option.map_some, Function.comp_apply, wrapUnless]
            split
            · rfl
            · next hg =>
                by_cases hh : v.isHash = true
                · -- a hash without a leaf gives no segment, in an array or not
                  have hleaves := hall (k, v) he (Bool.eq_false_of_not_eq_true hg) hh
                  cases v with
                  | hash es =>
                      have hplain : leaves rt k (.hash es) = [] := hleaves
                      have hwrapped := (leaves_eq_nil_iff rt (k ++ ascii "[]") k (.hash es)).2 hplain
                      have harray : leaves rt k (.arr [.hash es]) = [] := by
                        rw [leaves_arr, arrayLeaves, arrayLeaves, hwrapped, List.append_nil]
                      show some (Except.ok (normalizeNestedQuery rt (some k) (.arr [.hash es])))
                        = some (Except.ok (normalizeNestedQuery rt (some k) (.hash es)))
                      rw [normalizeNestedQuery_eq, normalizeNestedQuery_eq, harray, hplain]
                  | _ => simp [Value.isHash] at hh
                · rw [normalizeEntry_wrapValue rt k (Bool.eq_false_of_not_eq_true hh)]

end

/-! ## The two proxies -/

/-- The names that `options[:parameters]` gives. -/
def givenByOptions (o : SignatureOptions) (k : Bytes) : Bool :=
  ((o.parameters.getD OrderedHash.empty).lookup k).isSome

/-- What the Rails proxy signs normalizes as what the Rack proxy signs with the values wrapped. -/
theorem ActionDispatchRequest.normalizedParameters_eq (rt : Runtime) (r : DispatchRequest)
    (o : SignatureOptions) (hclobber : o.clobberRequest = false) {params : Params}
    (hp : r.toRackRequest.parameters o = .ok params) :
    (ActionDispatchRequest.proxy r o).normalizedParameters rt
      = normalize rt ((params.select (r.toRackRequest.proxy o).isSigned).mapEntries
          (wrapUnless (givenByOptions o))) := by
  rw [RackRequest.parameters, hclobber, if_neg Bool.false_ne_true] at hp
  obtain ⟨body, hbody, hp⟩ := Except.bind_eq_ok.1 hp
  obtain ⟨query, hquery, hp⟩ := Except.bind_eq_ok.1 hp
  obtain ⟨header, hheader, hp⟩ := Except.bind_eq_ok.1 hp
  have hparams : (ActionDispatchRequest.proxy r o).parameters
      = .ok ((((wrapValues (some body)).merge (wrapValues (some query))).merge
          (header.mapValues Value.str)).merge (o.parameters.getD OrderedHash.empty)) := by
    show ActionDispatchRequest.parameters r o = _
    rw [ActionDispatchRequest.parameters, hclobber, if_neg Bool.false_ne_true, hbody, hquery, hheader]
    rfl
  rw [Proxy.normalizedParameters, Proxy.parametersForSignature, hparams, Except.ok_bind,
    Except.ok_bind, ← Except.ok.inj hp]
  refine normalize_congr_entries rt fun k => ?_
  have hsigned : (ActionDispatchRequest.proxy r o).isSigned k
      = (r.toRackRequest.proxy o).isSigned k := rfl
  rw [OrderedHash.lookup_mapEntries, OrderedHash.lookup_select, OrderedHash.lookup_select, hsigned]
  split
  · simp only [OrderedHash.lookup_merge, wrapValues, OrderedHash.lookup_mapValues]
    by_cases hg : givenByOptions o k = true
    · obtain ⟨v, hv⟩ := Option.isSome_iff_exists.1 hg
      have hwrap : ∀ w, wrapUnless (givenByOptions o) k w = w := fun w => by rw [wrapUnless, if_pos hg]
      simp only [hv, Option.some_or, Option.map_some, hwrap]
    · have hnone : (o.parameters.getD OrderedHash.empty).lookup k = none := by
        simpa [givenByOptions] using hg
      have hwrap : ∀ w, wrapUnless (givenByOptions o) k w = wrapValue w := fun w => by
        rw [wrapUnless, if_neg hg]
      rw [hnone]
      cases header.lookup k with
      | some s =>
          simp only [Option.none_or, Option.map_some, Option.some_or, hwrap]
          exact congrArg some (normalizeEntry_wrapValue rt k rfl).symm
      | none =>
          cases query.lookup k with
          | some v => simp only [Option.none_or, Option.map_none, Option.map_some, Option.some_or, hwrap]
          | none => cases body.lookup k <;> simp [hwrap]
  · rfl

theorem ActionDispatchRequest.parameters_eq_error (r : DispatchRequest) (o : SignatureOptions)
    {e : RubyError} (hp : r.toRackRequest.parameters o = .error e) :
    ActionDispatchRequest.parameters r o = .error e := by
  rw [RackRequest.parameters] at hp
  split at hp
  · simp at hp
  · next hclobber =>
      rw [ActionDispatchRequest.parameters, if_neg hclobber]
      cases hbody : r.requestParams with
      | error e' =>
          rw [hbody] at hp
          exact hp
      | ok body =>
          cases hquery : r.queryParams with
          | error e' =>
              rw [hbody, hquery] at hp
              exact hp
          | ok query =>
              cases hheader : r.headerParams with
              | error e' =>
                  rw [hbody, hquery, hheader] at hp
                  exact hp
              | ok header =>
                  rw [hbody, hquery, hheader] at hp
                  simp at hp

/-- **Wrapped values normalize as they are exactly where no value is a hash with a leaf; and the Rails
    proxy signs what the Rack proxy signs exactly where no signed value of the request is one.** -/
theorem wrapValues_normalize_iff (rt : Runtime) :
    (∀ hash : Params, normalize rt (wrapValues (some hash)) = normalize rt hash ↔
      (∃ e ∈ hash.entries, sortable e.2 = false) ∨
        ∀ e ∈ hash.entries, e.2.isHash = true → entryLeaves rt e = []) ∧
    ∀ (r : DispatchRequest) (o : SignatureOptions),
      (ActionDispatchRequest.proxy r o).normalizedParameters rt
          = (r.toRackRequest.proxy o).normalizedParameters rt ↔
        o.clobberRequest = true ∨
          ∀ params, (r.toRackRequest.proxy o).parametersForSignature = .ok params →
            (∃ e ∈ params.entries, sortable e.2 = false) ∨
              ∀ e ∈ params.entries, givenByOptions o e.1 = false → e.2.isHash = true →
                entryLeaves rt e = [] := by
  constructor
  · intro hash
    have hmap : wrapValues (some hash) = hash.mapEntries (wrapUnless fun _ => false) := rfl
    rw [hmap, normalize_mapEntries_iff]
    simp
  · intro r o
    cases hclobber : o.clobberRequest with
    | true =>
        refine iff_of_true ?_ (.inl rfl)
        have hsame : (ActionDispatchRequest.proxy r o).parameters
            = (r.toRackRequest.proxy o).parameters := by
          show ActionDispatchRequest.parameters r o = r.toRackRequest.parameters o
          rw [ActionDispatchRequest.parameters, RackRequest.parameters, hclobber]
          rfl
        rw [Proxy.normalizedParameters, Proxy.normalizedParameters, Proxy.parametersForSignature,
          Proxy.parametersForSignature, hsame]
        rfl
    | false =>
        cases hp : r.toRackRequest.parameters o with
        | error e =>
            have hrack : (r.toRackRequest.proxy o).parametersForSignature = .error e := by
              rw [Proxy.parametersForSignature]
              show (r.toRackRequest.parameters o >>= _) = _
              rw [hp]
              rfl
            have hrails : (ActionDispatchRequest.proxy r o).parametersForSignature = .error e := by
              rw [Proxy.parametersForSignature]
              show (ActionDispatchRequest.parameters r o >>= _) = _
              rw [ActionDispatchRequest.parameters_eq_error r o hp]
              rfl
            rw [Proxy.normalizedParameters, Proxy.normalizedParameters, hrack, hrails]
            simp
        | ok params =>
            have hrack : (r.toRackRequest.proxy o).parametersForSignature
                = .ok (params.select (r.toRackRequest.proxy o).isSigned) := by
              rw [Proxy.parametersForSignature]
              show (r.toRackRequest.parameters o >>= _) = _
              rw [hp]
              rfl
            rw [ActionDispatchRequest.normalizedParameters_eq rt r o hclobber hp,
              Proxy.normalizedParameters, hrack, Except.ok_bind, normalize_mapEntries_iff]
            simp

/-- A hash under one name. -/
def hashParameters : Params :=
  OrderedHash.ofList [(ascii "a", .hash [(ascii "b", .str (ascii "1"))])]

theorem hashParameters_wrapValues :
    normalize echoRuntime hashParameters = .ok (ascii "a%5Bb%5D=1") ∧
      normalize echoRuntime (wrapValues (some hashParameters)) = .ok (ascii "a%5B%5D%5Bb%5D=1") ∧
      normalize echoRuntime (wrapValues (some hashParameters))
        ≠ normalize echoRuntime hashParameters := by
  have hplain : normalize echoRuntime hashParameters = .ok (ascii "a%5Bb%5D=1") := rfl
  have hwrapped : normalize echoRuntime (wrapValues (some hashParameters))
      = .ok (ascii "a%5B%5D%5Bb%5D=1") := rfl
  exact ⟨hplain, hwrapped, by rw [hplain, hwrapped]; decide +kernel⟩

end RubyOAuth
