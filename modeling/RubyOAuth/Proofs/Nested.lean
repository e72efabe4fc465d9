import RubyOAuth.Proofs.Listing
import RubyOAuth.Proofs.Normalize

set_option autoImplicit false

/-! # Nested parameters

`normalize_nested_query` writes a value out to its leaves, each under the bracketed name of its path,
and sorts at every level. The last sort undoes what the others did, so a parameter lists its leaves in
the order of their segments, whatever the order they were in. -/

namespace RubyOAuth

open Bytes

/-! ## Leaves -/

mutual

/-- The scalars in a value, each under its bracketed name. -/
def leaves (rt : Runtime) (name : Bytes) : Value → List (Bytes × Bytes)
  | .arr vs => arrayLeaves rt name vs
  | .hash es => hashLeaves rt name es
  | v => [(name, v.toS rt)]

def arrayLeaves (rt : Runtime) (name : Bytes) : List Value → List (Bytes × Bytes)
  | [] => []
  | v :: vs => leaves rt (name ++ ascii "[]") v ++ arrayLeaves rt name vs

def hashLeaves (rt : Runtime) (name : Bytes) : List (Bytes × Value) → List (Bytes × Bytes)
  | [] => []
  | (k, v) :: es => leaves rt (name ++ [lbracket] ++ k ++ [rbracket]) v ++ hashLeaves rt name es

end

@[simp] theorem leaves_str (rt : Runtime) (name s : Bytes) : leaves rt name (.str s) = [(name, s)] := rfl

@[simp] theorem leaves_nil (rt : Runtime) (name : Bytes) : leaves rt name .nil = [(name, [])] := rfl

@[simp] theorem leaves_arr (rt : Runtime) (name : Bytes) (vs : List Value) :
    leaves rt name (.arr vs) = arrayLeaves rt name vs := by
  rw [leaves]

@[simp] theorem leaves_hash (rt : Runtime) (name : Bytes) (es : List (Bytes × Value)) :
    leaves rt name (.hash es) = hashLeaves rt name es := by
  rw [leaves]

/-- The leaves of a parameter as `normalize` names them: the elements of an array have its name, unless
    the first one is a hash, and an empty array counts as `nil`. -/
def entryLeaves (rt : Runtime) (e : Bytes × Value) : List (Bytes × Bytes) :=
  match e.2 with
  | .arr vs =>
    let values := if vs.isEmpty then [.nil] else vs
    if (values.head?.map Value.isHash).getD false then arrayLeaves rt e.1 values
    else values.map (fun v => (e.1, v.toS rt))
  | v => leaves rt e.1 v

/-! ## Sorting segments -/

theorem segments_append (ps qs : List (Bytes × Bytes)) :
    segments (ps ++ qs) = segments ps ++ segments qs := List.map_append

theorem sortSegments_eq_iff {ss ts : List Bytes} : sortSegments ss = sortSegments ts ↔ ss.Perm ts :=
  insertionSort_eq_iff (fun _ _ => Std.le_antisymm)

theorem sortSegments_perm (ss : List Bytes) : (sortSegments ss).Perm ss :=
  List.perm_insertionSort (· ≤ ·) ss

mutual

/-- Up to order, a nested query lists the segments of the leaves. -/
theorem normalizeNestedQuery_perm (rt : Runtime) (name : Bytes) :
    ∀ v : Value, (normalizeNestedQuery rt (some name) v).Perm (segments (leaves rt name v))
  | .arr vs => by
    rw [normalizeNestedQuery, leaves_arr]
    exact (sortSegments_perm _).trans (nestedArray_perm rt name vs)
  | .hash es => by
    rw [normalizeNestedQuery, leaves_hash]
    exact (sortSegments_perm _).trans (nestedHash_perm rt name es)
  | .nil => List.Perm.refl _
  | .str _ => List.Perm.refl _
  | .bool true => List.Perm.refl _
  | .bool false => List.Perm.refl _

theorem nestedArray_perm (rt : Runtime) (name : Bytes) :
    ∀ vs : List Value, (nestedArray rt (some name) vs).Perm (segments (arrayLeaves rt name vs))
  | [] => List.Perm.refl _
  | v :: vs => by
    rw [nestedArray, arrayLeaves, segments_append]
    exact (normalizeNestedQuery_perm rt (name ++ ascii "[]") v).append (nestedArray_perm rt name vs)

theorem nestedHash_perm (rt : Runtime) (name : Bytes) :
    ∀ es : List (Bytes × Value), (nestedHash rt (some name) es).Perm (segments (hashLeaves rt name es))
  | [] => List.Perm.refl _
  | (k, v) :: es => by
    unfold nestedHash hashLeaves
    rw [segments_append]
    exact (normalizeNestedQuery_perm rt (name ++ [lbracket] ++ k ++ [rbracket]) v).append
      (nestedHash_perm rt name es)

end

/-- **A nested query lists the leaves in the order of their segments.** -/
theorem normalizeNestedQuery_eq (rt : Runtime) (name : Bytes) (v : Value) :
    normalizeNestedQuery rt (some name) v = sortSegments (segments (leaves rt name v)) := by
  cases v with
  | arr vs =>
      rw [normalizeNestedQuery, leaves_arr, sortSegments_eq_iff]
      exact nestedArray_perm rt name vs
  | hash es =>
      rw [normalizeNestedQuery, leaves_hash, sortSegments_eq_iff]
      exact nestedHash_perm rt name es
  | nil => rfl
  | str s => rfl
  | bool b => cases b <;> rfl

/-- A parameter lists its leaves. -/
theorem normalizeEntry_perm {rt : Runtime} {k : Bytes} {v : Value} {items : List Bytes}
    (h : normalizeEntry rt k v = .ok items) : items.Perm (segments (entryLeaves rt (k, v))) := by
  unfold normalizeEntry at h
  split at h
  · next vs =>
      simp only [entryLeaves]
      generalize (if vs.isEmpty then [Value.nil] else vs) = values at h ⊢
      simp only at h
      split at h
      · next hhash =>
          rw [if_pos hhash, ← Except.ok.inj h, ← leaves_arr]
          exact normalizeNestedQuery_perm rt k (.arr values)
      · next hhash =>
          rw [if_neg hhash]
          obtain ⟨sorted, hsorted, h⟩ := Except.bind_eq_ok.1 h
          have hperm : sorted.Perm values := by
            rw [Value.sort] at hsorted
            split at hsorted
            · rw [← Except.ok.inj hsorted]
              exact List.perm_insertionSort Value.Le values
            · simp at hsorted
          rw [← Except.ok.inj h, segments, List.map_map]
          exact hperm.map _
  · next es =>
      rw [← Except.ok.inj h]
      exact normalizeNestedQuery_perm rt k (.hash es)
  · next hscalar hhash =>
      rw [← Except.ok.inj h]
      cases v with
      | arr vs => exact absurd rfl (hscalar vs)
      | hash es => exact absurd rfl (hhash es)
      | nil => exact List.Perm.refl _
      | str s => exact List.Perm.refl _
      | bool b => cases b <;> exact List.Perm.refl _

/-! ## The listing of nested parameters -/

/-- Every array of the hash itself is of strings or of hashes. -/
def UniformArrays (params : Params) : Prop :=
  ∀ e ∈ params.entries, ∀ vs, e.2 = .arr vs →
    (∀ v ∈ vs, ∃ s, v = .str s) ∨ ∀ v ∈ vs, v.isHash = true

theorem exists_map_str {vs : List Value} (h : ∀ v ∈ vs, ∃ s, v = .str s) :
    ∃ ss : List Bytes, vs = ss.map Value.str := by
  induction vs with
  | nil => exact ⟨[], rfl⟩
  | cons v rest ih =>
      obtain ⟨s, rfl⟩ := h v List.mem_cons_self
      obtain ⟨ss, rfl⟩ := ih (fun w hw => h w (List.mem_cons_of_mem _ hw))
      exact ⟨s :: ss, rfl⟩

/-- Strings and hashes can be put in order. -/
theorem sortable_of_uniform {params : Params} (h : UniformArrays params) :
    ∀ e ∈ params.entries, sortable e.2 = true := by
  intro e he
  obtain ⟨k, v⟩ := e
  cases v with
  | arr vs =>
      rcases h _ he vs rfl with hs | hs
      · obtain ⟨ss, rfl⟩ := exists_map_str hs
        rw [sortable, Value.comparable_map_str, Bool.or_true]
      · cases vs with
        | nil => rfl
        | cons v rest =>
            rw [sortable, List.head?_cons, Option.map_some, hs v List.mem_cons_self]
            rfl
  | _ => rfl

theorem exists_normalizeEntry (rt : Runtime) {params : Params} (h : UniformArrays params) :
    ∀ e ∈ params.sortedEntries, ∃ items, normalizeEntry rt e.1 e.2 = .ok items := fun e he =>
  normalizeEntry_isOk_iff.2 (sortable_of_uniform h e (params.sortedEntries_perm.mem_iff.1 he))

/-- The leaves of a hash of parameters. -/
def hashPairs (rt : Runtime) (params : Params) : List (Bytes × Bytes) :=
  params.entries.flatMap (entryLeaves rt)

theorem nil_mem_entrySegments_iff {rt : Runtime} {e : Bytes × Value} {items : List Bytes}
    (h : normalizeEntry rt e.1 e.2 = .ok items) :
    [] ∈ entrySegments rt e ↔ entryLeaves rt e = [] := by
  have hperm := normalizeEntry_perm h
  rw [entrySegments_of_ok h, group]
  constructor
  · intro hmem
    split at hmem
    · next hnil =>
        rw [hnil] at hperm
        exact List.map_eq_nil_iff.1 hperm.nil_eq.symm
    · exact absurd (hperm.mem_iff.1 hmem) (nil_not_mem_segments _)
  · intro hnil
    rw [hnil] at hperm
    rw [if_pos hperm.eq_nil]
    exact List.mem_singleton_self []

/-- The segments of an entry that are not empty are those of its leaves. -/
theorem filter_entrySegments_perm {rt : Runtime} {e : Bytes × Value} {items : List Bytes}
    (h : normalizeEntry rt e.1 e.2 = .ok items) :
    ((entrySegments rt e).filter (fun s => decide (s ≠ []))).Perm (segments (entryLeaves rt e)) := by
  have hperm := normalizeEntry_perm h
  rw [entrySegments_of_ok h, group]
  split
  · next hnil =>
      rw [hnil] at hperm
      exact hperm
  · rw [List.filter_eq_self.2]
    · exact hperm
    · intro s hs
      refine decide_eq_true ?_
      rintro rfl
      exact nil_not_mem_segments _ (hperm.mem_iff.1 hs)

/-- **Uniform parameters list their leaves**; only a parameter without a leaf leaves a segment empty. -/
theorem listing_leaves (rt : Runtime) {params : Params} (h : UniformArrays params) :
    ∃ ss, listing rt params = .ok ss ∧ (∀ s ∈ ss, ampersand ∉ s) ∧
      (ss.filter (fun s => decide (s ≠ []))).Perm (segments (hashPairs rt params)) ∧
      ([] ∈ ss ↔ ∃ e ∈ params.entries, entryLeaves rt e = []) ∧
      (ss = [] ↔ params.entries = []) := by
  have hall := exists_normalizeEntry rt h
  have hmem := fun e => (params.sortedEntries_perm).mem_iff (a := e)
  refine ⟨_, listing_eq_ok.2 ⟨hall, rfl⟩, ?_, ?_, ?_, ?_⟩
  · intro s hs
    obtain ⟨e, he, hs⟩ := List.mem_flatMap.1 hs
    obtain ⟨items, hitems⟩ := hall e he
    rcases name_of_mem_entrySegments hitems hs with rfl | ⟨n, w, rfl, -⟩
    · exact List.not_mem_nil
    · exact ampersand_not_mem_segment n w
  · rw [List.filter_flatMap, hashPairs, segments, List.map_flatMap]
    refine (List.Perm.flatMap_left _ fun e he => ?_).trans (params.sortedEntries_perm.flatMap_right _)
    obtain ⟨items, hitems⟩ := hall e he
    exact filter_entrySegments_perm hitems
  · rw [List.mem_flatMap]
    constructor
    · rintro ⟨e, he, hs⟩
      obtain ⟨items, hitems⟩ := hall e he
      exact ⟨e, (hmem e).1 he, (nil_mem_entrySegments_iff hitems).1 hs⟩
    · rintro ⟨e, he, hnil⟩
      obtain ⟨items, hitems⟩ := hall e ((hmem e).2 he)
      exact ⟨e, (hmem e).2 he, (nil_mem_entrySegments_iff hitems).2 hnil⟩
  · rw [List.flatMap_eq_nil_iff]
    constructor
    · intro hnil
      rw [List.eq_nil_iff_forall_not_mem]
      intro e he
      exact group_ne_nil _ (hnil e ((hmem e).2 he))
    · intro hnil e he
      have hin := (hmem e).1 he
      rw [hnil] at hin
      exact absurd hin List.not_mem_nil

/-! ## Empty arrays -/

mutual

/-- The leaves with an empty array counted as one, of the empty value. -/
def fullLeaves (rt : Runtime) (name : Bytes) : Value → List (Bytes × Bytes)
  | .arr vs => if vs.isEmpty then [(name, [])] else fullArrayLeaves rt name vs
  | .hash es => fullHashLeaves rt name es
  | v => [(name, v.toS rt)]

def fullArrayLeaves (rt : Runtime) (name : Bytes) : List Value → List (Bytes × Bytes)
  | [] => []
  | v :: vs => fullLeaves rt (name ++ ascii "[]") v ++ fullArrayLeaves rt name vs

def fullHashLeaves (rt : Runtime) (name : Bytes) : List (Bytes × Value) → List (Bytes × Bytes)
  | [] => []
  | (k, v) :: es =>
    fullLeaves rt (name ++ [lbracket] ++ k ++ [rbracket]) v ++ fullHashLeaves rt name es

end

/-- The leaves of a parameter, named as `entryLeaves` names them, with an empty array at any depth
    counted as one leaf. -/
def fullEntryLeaves (rt : Runtime) (e : Bytes × Value) : List (Bytes × Bytes) :=
  match e.2 with
  | .arr vs =>
    if vs.isEmpty then [(e.1, [])]
    else if (vs.head?.map Value.isHash).getD false then fullArrayLeaves rt e.1 vs
    else vs.map (fun v => (e.1, v.toS rt))
  | v => fullLeaves rt e.1 v

def fullPairs (rt : Runtime) (params : Params) : List (Bytes × Bytes) :=
  params.entries.flatMap (fullEntryLeaves rt)

mutual

/-- How many empty arrays a value has. -/
def emptyArrays : Value → Nat
  | .arr vs => if vs.isEmpty then 1 else emptyArraysOf vs
  | .hash es => emptyArraysIn es
  | _ => 0

def emptyArraysOf : List Value → Nat
  | [] => 0
  | v :: vs => emptyArrays v + emptyArraysOf vs

def emptyArraysIn : List (Bytes × Value) → Nat
  | [] => 0
  | (_, v) :: es => emptyArrays v + emptyArraysIn es

end

/-- How many empty arrays stand inside the value of a parameter. -/
def nestedEmptyArrays : Value → Nat
  | .arr vs => emptyArraysOf vs
  | v => emptyArrays v

mutual

/-- An empty array is a leaf more, and the other leaves stay. -/
theorem leaves_sublist (rt : Runtime) (name : Bytes) : ∀ v : Value,
    (leaves rt name v).Sublist (fullLeaves rt name v) ∧
      (fullLeaves rt name v).length = (leaves rt name v).length + emptyArrays v
  | .arr [] => by simp [fullLeaves, arrayLeaves, emptyArrays]
  | .arr (v :: vs) => by
    rw [leaves_arr, fullLeaves, emptyArrays]
    exact arrayLeaves_sublist rt name (v :: vs)
  | .hash es => by
    rw [leaves_hash, fullLeaves, emptyArrays]
    exact hashLeaves_sublist rt name es
  | .nil => ⟨List.Sublist.refl _, rfl⟩
  | .str _ => ⟨List.Sublist.refl _, rfl⟩
  | .bool true => ⟨List.Sublist.refl _, rfl⟩
  | .bool false => ⟨List.Sublist.refl _, rfl⟩

theorem arrayLeaves_sublist (rt : Runtime) (name : Bytes) : ∀ vs : List Value,
    (arrayLeaves rt name vs).Sublist (fullArrayLeaves rt name vs) ∧
      (fullArrayLeaves rt name vs).length = (arrayLeaves rt name vs).length + emptyArraysOf vs
  | [] => ⟨List.Sublist.refl _, rfl⟩
  | v :: vs => by
    obtain ⟨hsub, hlen⟩ := leaves_sublist rt (name ++ ascii "[]") v
    obtain ⟨hsubs, hlens⟩ := arrayLeaves_sublist rt name vs
    rw [arrayLeaves, fullArrayLeaves, emptyArraysOf, List.length_append, List.length_append]
    exact ⟨hsub.append hsubs, by omega⟩

theorem hashLeaves_sublist (rt : Runtime) (name : Bytes) : ∀ es : List (Bytes × Value),
    (hashLeaves rt name es).Sublist (fullHashLeaves rt name es) ∧
      (fullHashLeaves rt name es).length = (hashLeaves rt name es).length + emptyArraysIn es
  | [] => ⟨List.Sublist.refl _, rfl⟩
  | (k, v) :: es => by
    obtain ⟨hsub, hlen⟩ := leaves_sublist rt (name ++ [lbracket] ++ k ++ [rbracket]) v
    obtain ⟨hsubs, hlens⟩ := hashLeaves_sublist rt name es
    rw [hashLeaves, fullHashLeaves, emptyArraysIn, List.length_append, List.length_append]
    exact ⟨hsub.append hsubs, by omega⟩

end

/-- At the top an empty array is a leaf already. -/
theorem entryLeaves_sublist (rt : Runtime) {e : Bytes × Value}
    (h : ∀ vs, e.2 = .arr vs → (∀ v ∈ vs, ∃ s, v = .str s) ∨ ∀ v ∈ vs, v.isHash = true) :
    (entryLeaves rt e).Sublist (fullEntryLeaves rt e) ∧
      (fullEntryLeaves rt e).length = (entryLeaves rt e).length + nestedEmptyArrays e.2 := by
  obtain ⟨k, v⟩ := e
  cases v with
  | arr vs =>
      cases vs with
      | nil => exact ⟨List.Sublist.refl _, rfl⟩
      | cons v rest =>
          simp only [entryLeaves, fullEntryLeaves, nestedEmptyArrays, List.isEmpty_cons,
            Bool.false_eq_true, if_false]
          split
          · exact arrayLeaves_sublist rt k (v :: rest)
          · next hhead =>
              -- an array of strings has no array inside
              have hnone : emptyArraysOf (v :: rest) = 0 := by
                rcases h _ rfl with hs | hs
                · obtain ⟨ss, hss⟩ := exists_map_str hs
                  rw [hss]
                  clear hss hs h hhead
                  induction ss with
                  | nil => rfl
                  | cons s ss ih => simpa [emptyArraysOf, emptyArrays] using ih
                · simp [hs v List.mem_cons_self] at hhead
              exact ⟨List.Sublist.refl _, by rw [hnone, Nat.add_zero]⟩
  | hash es => exact leaves_sublist rt k (.hash es)
  | nil => exact leaves_sublist rt k .nil
  | str s => exact leaves_sublist rt k (.str s)
  | bool b => exact leaves_sublist rt k (.bool b)

/-- **The leaves are all there exactly where no empty array stands inside a parameter.** -/
theorem hashPairs_perm_fullPairs_iff {rt : Runtime} {params : Params} (h : UniformArrays params) :
    (hashPairs rt params).Perm (fullPairs rt params) ↔
      ∀ e ∈ params.entries, nestedEmptyArrays e.2 = 0 := by
  have key : ∀ es : List (Bytes × Value), (∀ e ∈ es, e ∈ params.entries) →
      (es.flatMap (entryLeaves rt)).Sublist (es.flatMap (fullEntryLeaves rt)) ∧
        ((es.flatMap (fullEntryLeaves rt)).length = (es.flatMap (entryLeaves rt)).length ↔
          ∀ e ∈ es, nestedEmptyArrays e.2 = 0) := by
    intro es hes
    induction es with
    | nil => simp
    | cons e rest ih =>
        obtain ⟨hsub, hlen⟩ := entryLeaves_sublist rt (h e (hes e List.mem_cons_self))
        obtain ⟨hsubs, hlens⟩ := ih fun f hf => hes f (List.mem_cons_of_mem _ hf)
        have hle := hsubs.length_le
        refine ⟨hsub.append hsubs, ?_⟩
        rw [List.flatMap_cons, List.flatMap_cons, List.length_append, List.length_append,
          List.forall_mem_cons, ← hlens, hlen]
        omega
  obtain ⟨hsub, hlen⟩ := key params.entries fun _ he => he
  rw [← hlen]
  constructor
  · intro hperm
    exact hperm.length_eq.symm
  · intro heq
    rw [hashPairs, fullPairs, hsub.eq_of_length heq.symm]

/-! ## What is lost -/

/-- Split at `&`, the normalized string has one segment for every leaf, which reads as that leaf, and no
    other unless there is no leaf. -/
def ListsLeaves (rt : Runtime) (params : Params) : Prop :=
  ∃ text, normalize rt params = .ok text ∧
    (((text.splitOn ampersand).filter (fun s => decide (s ≠ []))).map segmentPair).Perm
      (fullPairs rt params) ∧
    (fullPairs rt params ≠ [] → [] ∉ text.splitOn ampersand)

/-- **The leaves are listed exactly where no parameter has an empty array inside, and either every
    parameter has a leaf or none does.** -/
theorem normalize_leaves_iff (rt : Runtime) (params : Params) (h : UniformArrays params) :
    ListsLeaves rt params ↔
      (∀ e ∈ params.entries, nestedEmptyArrays e.2 = 0) ∧
        ((∀ e ∈ params.entries, fullEntryLeaves rt e = []) ∨
          ∀ e ∈ params.entries, fullEntryLeaves rt e ≠ []) := by
  obtain ⟨ss, hss, hsep, hperm, hnil, hempty⟩ := listing_leaves rt h
  have htext : normalize rt params = .ok (joinWith ampersand ss) := by
    rw [normalize_eq_listing, hss]
    rfl
  have hsplit : (joinWith ampersand ss).splitOn ampersand = if ss = [] then [[]] else ss := by
    split
    · next hs =>
        rw [hs]
        rfl
    · next hs => exact splitOn_joinWith hsep hs
  have hfilter : (((joinWith ampersand ss).splitOn ampersand).filter (fun s => decide (s ≠ []))).Perm
      (segments (hashPairs rt params)) := by
    rw [hsplit]
    split
    · next hs =>
        rw [hs] at hperm
        exact hperm
    · exact hperm
  have hpairs := hfilter.map segmentPair
  rw [map_segmentPair_segments] at hpairs
  have hlists : ListsLeaves rt params ↔ (hashPairs rt params).Perm (fullPairs rt params) ∧
      (fullPairs rt params ≠ [] → [] ∉ (joinWith ampersand ss).splitOn ampersand) := by
    constructor
    · rintro ⟨text, ht, hp, hn⟩
      rw [htext, Except.ok.injEq] at ht
      subst ht
      exact ⟨hpairs.symm.trans hp, hn⟩
    · rintro ⟨hp, hn⟩
      exact ⟨_, htext, hpairs.trans hp, hn⟩
  rw [hlists, hashPairs_perm_fullPairs_iff h]
  refine and_congr_right fun hnone => ?_
  have hsame : ∀ e ∈ params.entries, entryLeaves rt e = fullEntryLeaves rt e := by
    intro e he
    obtain ⟨hsub, hlen⟩ := entryLeaves_sublist rt (h e he)
    exact hsub.eq_of_length (by rw [hlen, hnone e he, Nat.add_zero])
  have hfull : fullPairs rt params = [] ↔ ∀ e ∈ params.entries, fullEntryLeaves rt e = [] :=
    List.flatMap_eq_nil_iff
  rw [ne_eq, hfull, hsplit]
  by_cases hno : ∀ e ∈ params.entries, fullEntryLeaves rt e = []
  · exact iff_of_true (fun hn => absurd hno hn) (.inl hno)
  · have hne : ss ≠ [] := by
      rw [ne_eq, hempty]
      intro hs
      refine hno ?_
      rw [hs]
      simp
    rw [if_neg hne, hnil]
    constructor
    · intro hn
      refine .inr fun e he hfe => hn hno ⟨e, he, ?_⟩
      rw [hsame e he, hfe]
    · rintro (hall | hall) - ⟨e, he, hfe⟩
      · exact hno hall
      · exact hall e he (by rw [← hsame e he, hfe])

/-- A string, and an array of hashes. -/
def uniformParameters : Params :=
  OrderedHash.ofList
    [(ascii "b", .str (ascii "1")),
      (ascii "a", .arr [.hash [(ascii "x", .str (ascii "2")), (ascii "y", .nil)]])]

theorem uniformParameters_listsLeaves_iff :
    ListsLeaves echoRuntime uniformParameters ↔
      (∀ e ∈ uniformParameters.entries, nestedEmptyArrays e.2 = 0) ∧
        ((∀ e ∈ uniformParameters.entries, fullEntryLeaves echoRuntime e = []) ∨
          ∀ e ∈ uniformParameters.entries, fullEntryLeaves echoRuntime e ≠ []) :=
  normalize_leaves_iff echoRuntime uniformParameters (by
    intro e he vs hvs
    have hmem : e ∈ [(ascii "b", Value.str (ascii "1")),
        (ascii "a", .arr [.hash [(ascii "x", .str (ascii "2")), (ascii "y", .nil)]])] := he
    rcases List.mem_cons.1 hmem with rfl | hmem
    · simp at hvs
    · rw [List.mem_singleton.1 hmem, Value.arr.injEq] at hvs
      refine .inr fun v hv => ?_
      rw [← hvs, List.mem_singleton] at hv
      rw [hv]
      rfl)

/-- An empty array below the top. -/
def emptyArrayParameters : Params :=
  OrderedHash.ofList [(ascii "a", .hash [(ascii "b", .arr [])])]

theorem emptyArrayParameters_not_listsLeaves :
    UniformArrays emptyArrayParameters ∧
      fullPairs echoRuntime emptyArrayParameters = [(ascii "a[b]", [])] ∧
      normalize echoRuntime emptyArrayParameters = .ok [] ∧
      ¬ ListsLeaves echoRuntime emptyArrayParameters := by
  have hfull : fullPairs echoRuntime emptyArrayParameters = [(ascii "a[b]", [])] := rfl
  have htext : normalize echoRuntime emptyArrayParameters = .ok [] := rfl
  refine ⟨?_, hfull, htext, ?_⟩
  · intro e he vs hvs
    have hmem : e ∈ [(ascii "a", Value.hash [(ascii "b", .arr [])])] := he
    rw [List.mem_singleton.1 hmem] at hvs
    simp at hvs
  · rintro ⟨text, ht, hperm, -⟩
    rw [htext, Except.ok.injEq] at ht
    rw [← ht, hfull] at hperm
    exact absurd hperm.length_eq (by decide)

end RubyOAuth
