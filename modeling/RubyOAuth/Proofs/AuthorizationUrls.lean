import RubyOAuth.Model.RequestToken
import RubyOAuth.Proofs.FormScheme
import RubyOAuth.Proofs.QueryString

set_option autoImplicit false

/-! # What an authorization URL says

Encoding and decoding a form are inverse; between them the query passes through a hash, which keeps one
value for each name, and is merged with names that may be symbols, which collide with the names of the
query only once they are written out. -/

namespace RubyOAuth

open Bytes Uri

variable {rt : Runtime}

/-! ## Forms -/

/-- The pairs that the entries of a hash are written as. -/
def writtenPairs (rt : Runtime) (params : KeyedParams) : List (Bytes × Bytes) :=
  params.entries.map (fun e => (e.1.toS, e.2.toS rt))

/-- All values are strings. -/
def StringValues (params : KeyedParams) : Prop := ∀ e ∈ params.entries, ∃ s, e.2 = .str s

theorem encodeWwwForm_eq {params : KeyedParams} (h : StringValues params) :
    encodeWwwForm rt params
      = joinWith ampersand ((writtenPairs rt params).map (fun p => formText (p.1, some p.2))) := by
  rw [encodeWwwForm, writtenPairs, List.map_map]
  congr 1
  refine List.map_congr_left fun e he => ?_
  obtain ⟨s, hs⟩ := h e he
  simp only [hs, Function.comp_apply]
  rfl

theorem mem_formText {n v : Bytes} {b : UInt8} (h : b ∈ formText (n, some v)) :
    b ∈ encodeFormComponent n ∨ b = equal ∨ b ∈ encodeFormComponent v := by
  have htext : formText (n, some v) = encodeFormComponent n ++ equal :: encodeFormComponent v := rfl
  rwa [htext, List.mem_append, List.mem_cons] at h

/-- **Decoding undoes encoding.** -/
theorem decodeWwwForm_encodeWwwForm {params : KeyedParams} (h : StringValues params)
    (hne : params.entries ≠ []) :
    decodeWwwForm (encodeWwwForm rt params) = writtenPairs rt params := by
  have hsep : ∀ t ∈ (writtenPairs rt params).map (fun p => formText (p.1, some p.2)),
      ampersand ∉ t := by
    intro t ht hmem
    obtain ⟨p, -, rfl⟩ := List.mem_map.1 ht
    rcases mem_formText hmem with hm | hm | hm
    · exact absurd (mem_encodeFormComponent hm).1 (by decide)
    · exact absurd hm (by decide)
    · exact absurd (mem_encodeFormComponent hm).1 (by decide)
  have hpairs : writtenPairs rt params ≠ [] := by simpa [writtenPairs] using hne
  have hlast : ((writtenPairs rt params).map (fun p => formText (p.1, some p.2))).getLast? ≠ some [] := by
    intro hl
    obtain ⟨p, -, hp⟩ := List.mem_map.1 (List.mem_of_getLast? hl)
    simp [formText] at hp
  rw [decodeWwwForm, formLines, encodeWwwForm_eq h, splitOn_joinWith hsep (by simpa using hpairs)]
  simp only [hlast, if_false, List.map_map]
  refine (List.map_congr_left fun p _ => ?_).trans (List.map_id _)
  have hno : equal ∉ encodeFormComponent p.1 := fun hm => (mem_encodeFormComponent hm).2 rfl
  have htext : formText (p.1, some p.2) = encodeFormComponent p.1 ++ equal :: encodeFormComponent p.2 :=
    rfl
  rw [Function.comp_apply, htext, cut_append hno, Option.getD_some, cgiUnescape_encodeFormComponent,
    cgiUnescape_encodeFormComponent, id]

/-- What a form is written with stands in a query as it is. -/
theorem isAssignedQueryChar_of_mem_encodeWwwForm {params : KeyedParams} (h : StringValues params) :
    ∀ b ∈ encodeWwwForm rt params, isAssignedQueryChar b = true := by
  have hsafe : ∀ c : UInt8, (isAlnum c || c == 42 || c == minus || c == dot || c == underscore ||
      c == space) = true → c ≠ space → isAssignedQueryChar c = true := by
    decide +kernel
  have hdigit : ∀ c, PercentCode.isUpperHex c = true → isAssignedQueryChar c = true := by
    decide +kernel
  have hcomponent : ∀ s, ∀ b ∈ encodeFormComponent s, isAssignedQueryChar b = true := by
    intro s b hb
    obtain ⟨c, hc, rfl⟩ := List.mem_map.1 hb
    split
    · decide
    · next hspace =>
        rcases PercentCode.mem_encode hc with hc | rfl | hc
        · exact hsafe c hc hspace
        · decide
        · exact hdigit c hc
  intro b hb
  rw [encodeWwwForm_eq h] at hb
  rcases mem_joinWith hb with rfl | ⟨t, ht, hb⟩
  · decide
  · obtain ⟨p, -, rfl⟩ := List.mem_map.1 ht
    rcases mem_formText hb with hb | rfl | hb
    · exact hcomponent _ b hb
    · decide
    · exact hcomponent _ b hb

/-- **The form that a hash is written as is the query that is read back.** -/
theorem setQuery_encodeWwwForm {u : Uri} (hu : u.isOpaque = false) {params : KeyedParams}
    (h : StringValues params) :
    setQuery u (encodeWwwForm rt params) = .ok { u with query := some (encodeWwwForm rt params) } := by
  have hchars : ∀ b ∈ encodeWwwForm rt params, isAssignedQueryChar b = true :=
    isAssignedQueryChar_of_mem_encodeWwwForm h
  rw [setQuery_of_isQueryChar hu (fun b hb => isQueryChar_of_assigned (hchars b hb)),
    storeQuery_of_assigned hchars]

/-! ## Values by name -/

/-- The keys that are written as the name. -/
def keysNamed (n : Bytes) : List Key := .sym n :: .str n :: (if n = [] then [.nil] else [])

theorem mem_keysNamed {n : Bytes} {k : Key} : k ∈ keysNamed n ↔ k.toS = n := by
  cases k with
  | nil => by_cases hn : n = [] <;> simp [keysNamed, Key.toS, hn, eq_comm]
  | str s => by_cases hn : n = [] <;> simp [keysNamed, Key.toS, hn]
  | sym s => by_cases hn : n = [] <;> simp [keysNamed, Key.toS, hn]

theorem nodup_keysNamed (n : Bytes) : (keysNamed n).Nodup := by
  by_cases hn : n = [] <;> simp [keysNamed, hn]

/-- The texts of the values under the keys that are written as the name. -/
def namedTexts (rt : Runtime) (params : KeyedParams) (n : Bytes) : List Bytes :=
  (keysNamed n).filterMap (fun k => (params.lookup k).map (Value.toS rt))

theorem valuesOf_writtenPairs (params : KeyedParams) (n : Bytes) :
    (valuesOf n (writtenPairs rt params)).Perm (namedTexts rt params n) := by
  have hperm := params.filter_mem_perm (nodup_keysNamed n)
  have hleft : valuesOf n (writtenPairs rt params)
      = (params.entries.filter (fun e => e.1 ∈ keysNamed n)).map (fun e => e.2.toS rt) := by
    simp only [valuesOf, writtenPairs, List.filter_map, List.map_map, mem_keysNamed]
    rfl
  have hright : namedTexts rt params n
      = ((keysNamed n).filterMap (fun k => (params.lookup k).map (fun v => (k, v)))).map
          (fun e => e.2.toS rt) := by
    rw [namedTexts, List.map_filterMap]
    congr 1
    funext k
    cases params.lookup k <;> rfl
  rw [hleft, hright]
  exact hperm.map _

namespace RequestToken

/-! ## Merging -/

/-- The pairs of the URL's query. -/
def basePairs (uri : Uri) : List (Bytes × Bytes) := (uri.query.map decodeWwwForm).getD []

/-- The name of the token. -/
def tokenName : Bytes := ascii "oauth_token"

/-- The names of the parameters, as strings. -/
def paramNames (params : KeyedParams) : List Bytes := params.entries.map (fun e => e.1.toS)

/-- What the query is to hold: the token, the other parameters, and what is named in neither. -/
def expectedPairs (rt : Runtime) (base : List (Bytes × Bytes)) (token : Bytes) (params : KeyedParams) :
    List (Bytes × Bytes) :=
  (tokenName, token) ::
    ((writtenPairs rt params).filter (fun p => p.1 ≠ tokenName) ++
      base.filter (fun p => p.1 ≠ tokenName ∧ p.1 ∉ paramNames params))

/-- The query takes the parameters: the token's name is new, and a name of the query is either the
    string key of a parameter, which replaces it, or stands once and names no parameter. -/
def TakesParams (base : List (Bytes × Bytes)) (params : KeyedParams) : Prop :=
  .str tokenName ∉ params.keys ∧
    ∀ n ∈ base.map Prod.fst, n ≠ tokenName ∧
      (.str n ∈ params.keys ∨ n ∉ paramNames params ∧ (valuesOf n base).length = 1)

/-- The hash of the query keeps the last value of each name. -/
theorem lookup_baseHash (base : List (Bytes × Bytes)) (n : Bytes) :
    (OrderedHash.ofList (base.map (fun p => ((.str p.1 : Key), Value.str p.2)))).lookup (.str n)
      = ((valuesOf n base).getLast?).map Value.str := by
  induction base using List.reverseRecOn with
  | nil => rfl
  | append_singleton rest p ih =>
      rw [OrderedHash.lookup_ofList, List.map_append, List.reverse_append, List.map_singleton,
        List.reverse_singleton, List.singleton_append, OrderedHash.findEntry,
        ← OrderedHash.lookup_ofList, ih, valuesOf_append, valuesOf_cons, valuesOf_nil]
      by_cases hn : p.1 = n <;> simp [hn]

theorem lookup_baseHash_of_ne (base : List (Bytes × Bytes)) {k : Key} (hk : ∀ n, k ≠ .str n) :
    (OrderedHash.ofList (base.map (fun p => ((.str p.1 : Key), Value.str p.2)))).lookup k = none := by
  rw [OrderedHash.lookup_ofList_eq_none, List.map_map]
  intro hm
  obtain ⟨p, -, hp⟩ := List.mem_map.1 hm
  exact hk p.1 hp.symm

/-- The hash that is written back. -/
def mergedQueries (base : List (Bytes × Bytes)) (token : Bytes) (params : KeyedParams) : KeyedParams :=
  (OrderedHash.ofList (base.map (fun p => ((.str p.1 : Key), Value.str p.2)))).merge
    (params.set (.sym tokenName) (.str token))

section

variable {base : List (Bytes × Bytes)} {token : Bytes} {params : KeyedParams}

theorem lookup_mergedQueries_of_ne {k : Key} (hk : ∀ n, k ≠ .str n) (htoken : k ≠ .sym tokenName) :
    (mergedQueries base token params).lookup k = params.lookup k := by
  rw [mergedQueries, OrderedHash.lookup_merge, OrderedHash.lookup_set, if_neg htoken,
    lookup_baseHash_of_ne base hk, Option.or_none]

theorem lookup_mergedQueries_str (n : Bytes) :
    (mergedQueries base token params).lookup (.str n)
      = (params.lookup (.str n)).or ((valuesOf n base).getLast?.map Value.str) := by
  rw [mergedQueries, OrderedHash.lookup_merge, OrderedHash.lookup_set, if_neg (by simp),
    lookup_baseHash]

/-- The values of a name that the query does not have, or that is a string key of a parameter, are those
    of the parameters. -/
theorem namedTexts_mergedQueries {n : Bytes} (hn : n ≠ tokenName)
    (h : (params.lookup (.str n)).isSome ∨ valuesOf n base = []) :
    namedTexts rt (mergedQueries base token params) n = namedTexts rt params n := by
  refine List.filterMap_congr fun k hk => ?_
  rw [mem_keysNamed] at hk
  congr 1
  cases k with
  | nil => exact lookup_mergedQueries_of_ne (by simp) (by simp)
  | sym s =>
      refine lookup_mergedQueries_of_ne (by simp) ?_
      intro he
      exact hn (hk.symm.trans (Key.sym.inj he))
  | str s =>
      obtain rfl : s = n := hk
      rw [lookup_mergedQueries_str]
      rcases h with h | h
      · obtain ⟨v, hv⟩ := Option.isSome_iff_exists.1 h
        rw [hv, Option.some_or]
      · rw [h, List.getLast?_nil, Option.map_none, Option.or_none]

/-- The last value of any other name of the query stays beside those of the parameters. -/
theorem namedTexts_mergedQueries_last {n v : Bytes} (hn : n ≠ tokenName)
    (hp : params.lookup (.str n) = none) (hv : (valuesOf n base).getLast? = some v) :
    (namedTexts rt (mergedQueries base token params) n).Perm (v :: namedTexts rt params n) := by
  have hstr : (mergedQueries base token params).lookup (.str n) = some (.str v) := by
    rw [lookup_mergedQueries_str, hp, hv]
    rfl
  have hsym : (mergedQueries base token params).lookup (.sym n) = params.lookup (.sym n) :=
    lookup_mergedQueries_of_ne (by simp) (fun he => hn (Key.sym.inj he))
  have hnil : (mergedQueries base token params).lookup .nil = params.lookup .nil :=
    lookup_mergedQueries_of_ne (by simp) (by simp)
  have hrest : (if n = [] then [Key.nil] else []).filterMap
      (fun k => ((mergedQueries base token params).lookup k).map (Value.toS rt))
        = (if n = [] then [Key.nil] else []).filterMap
      (fun k => (params.lookup k).map (Value.toS rt)) := by
    by_cases hempty : n = []
    · rw [if_pos hempty, List.filterMap_cons, List.filterMap_cons, hnil]
      rfl
    · rw [if_neg hempty]
      rfl
  rw [namedTexts, namedTexts, keysNamed, List.filterMap_cons, List.filterMap_cons, List.filterMap_cons,
    List.filterMap_cons, hstr, hsym, hp, hrest]
  cases params.lookup (.sym n) with
  | none => exact .refl _
  | some w => exact .swap _ _ _

/-- The values of the token's name: the token, and what a string key or the query has. -/
theorem namedTexts_mergedQueries_token :
    namedTexts rt (mergedQueries base token params) tokenName
      = token :: (((params.lookup (.str tokenName)).or
          ((valuesOf tokenName base).getLast?.map Value.str)).map (Value.toS rt)).toList := by
  have hsym : (mergedQueries base token params).lookup (.sym tokenName) = some (.str token) := by
    rw [mergedQueries, OrderedHash.lookup_merge, OrderedHash.lookup_set, if_pos rfl, Option.some_or]
  rw [namedTexts, keysNamed, if_neg (by decide), List.filterMap_cons, List.filterMap_cons, hsym,
    lookup_mergedQueries_str]
  cases (params.lookup (.str tokenName)).or ((valuesOf tokenName base).getLast?.map Value.str) <;> rfl

theorem valuesOf_expectedPairs (n : Bytes) :
    valuesOf n (expectedPairs rt base token params)
      = if n = tokenName then [token]
        else valuesOf n (writtenPairs rt params) ++
          if n ∈ paramNames params then [] else valuesOf n base := by
  have hparams : valuesOf n ((writtenPairs rt params).filter (fun p => p.1 ≠ tokenName))
      = if n ≠ tokenName then valuesOf n (writtenPairs rt params) else [] := by
    have h := valuesOf_filter (fun m => decide (m ≠ tokenName)) n (writtenPairs rt params)
    simpa only [decide_eq_true_eq] using h
  have hbase : valuesOf n (base.filter (fun p => p.1 ≠ tokenName ∧ p.1 ∉ paramNames params))
      = if n ≠ tokenName ∧ n ∉ paramNames params then valuesOf n base else [] := by
    have h := valuesOf_filter (fun m => decide (m ≠ tokenName ∧ m ∉ paramNames params)) n base
    simpa only [decide_eq_true_eq] using h
  rw [expectedPairs, valuesOf_cons, valuesOf_append, hparams, hbase]
  by_cases hn : n = tokenName
  · subst hn
    simp
  · by_cases hm : n ∈ paramNames params <;> simp [hn, hm, Ne.symm hn]

theorem token_perm_iff :
    (namedTexts rt (mergedQueries base token params) tokenName).Perm [token]
      ↔ .str tokenName ∉ params.keys ∧ tokenName ∉ base.map Prod.fst := by
  rw [namedTexts_mergedQueries_token, ← valuesOf_eq_nil, OrderedHash.mem_keys]
  cases hkey : params.lookup (.str tokenName) with
  | some v => simp
  | none =>
      cases hlast : (valuesOf tokenName base).getLast? with
      | none => simpa using List.getLast?_eq_none_iff.1 hlast
      | some v =>
          have hne : valuesOf tokenName base ≠ [] := by
            intro he
            simp [he] at hlast
          simp [hne]

theorem name_perm_iff {n : Bytes} (hn : n ≠ tokenName) :
    (namedTexts rt (mergedQueries base token params) n).Perm
        (valuesOf n (writtenPairs rt params) ++
          if n ∈ paramNames params then [] else valuesOf n base)
      ↔ (n ∈ base.map Prod.fst →
          .str n ∈ params.keys ∨ n ∉ paramNames params ∧ (valuesOf n base).length = 1) := by
  have hname : n ∉ paramNames params → valuesOf n (writtenPairs rt params) = [] := by
    intro h
    rw [valuesOf_eq_nil, writtenPairs, List.map_map]
    exact h
  have hperm : (valuesOf n (writtenPairs rt params)).Perm (namedTexts rt params n) :=
    valuesOf_writtenPairs params n
  by_cases hbase : valuesOf n base = []
  · have hmem : n ∉ base.map Prod.fst := valuesOf_eq_nil.1 hbase
    rw [namedTexts_mergedQueries hn (Or.inr hbase), hbase, ite_self, List.append_nil]
    exact ⟨fun _ h => absurd h hmem, fun _ => hperm.symm⟩
  · have hmem : n ∈ base.map Prod.fst := by
      by_contra hc
      exact hbase (valuesOf_eq_nil.2 hc)
    by_cases hkey : (params.lookup (.str n)).isSome
    · have hparam : n ∈ paramNames params := by
        obtain ⟨v, hv⟩ := Option.isSome_iff_exists.1 hkey
        exact List.mem_map.2 ⟨_, OrderedHash.mem_entries.2 hv, rfl⟩
      rw [namedTexts_mergedQueries hn (Or.inl hkey), if_pos hparam, List.append_nil]
      exact ⟨fun _ _ => Or.inl (OrderedHash.mem_keys.2 hkey), fun _ => hperm.symm⟩
    · -- the last value of the query stays
      obtain ⟨v, hv⟩ : ∃ v, (valuesOf n base).getLast? = some v :=
        Option.ne_none_iff_exists'.1 fun hc => hbase (List.getLast?_eq_none_iff.1 hc)
      have hlast : (namedTexts rt (mergedQueries base token params) n).Perm
          (v :: namedTexts rt params n) :=
        namedTexts_mergedQueries_last hn (by simpa using hkey) hv
      constructor
      · intro h _
        right
        have hlen := (hlast.symm.trans h).length_eq
        rw [List.length_cons, List.length_append, ← hperm.length_eq] at hlen
        by_cases hparam : n ∈ paramNames params
        · rw [if_pos hparam, List.length_nil] at hlen
          omega
        · rw [if_neg hparam] at hlen
          exact ⟨hparam, by omega⟩
      · intro h
        rcases h hmem with h | ⟨hparam, hone⟩
        · exact absurd (OrderedHash.mem_keys.1 h) hkey
        · obtain ⟨w, hw⟩ := List.length_eq_one_iff.1 hone
          rw [hw, List.getLast?_singleton, Option.some.injEq] at hv
          have hnone : namedTexts rt params n = [] := by
            have hnil := hperm
            rw [hname hparam] at hnil
            exact List.nil_perm.1 hnil
          rw [hnone] at hlast
          rw [if_neg hparam, hname hparam, hw, hv]
          exact hlast

/-- **The query that is written back holds what it should exactly where it takes the parameters.** -/
theorem writtenPairs_mergedQueries_perm_iff :
    (writtenPairs rt (mergedQueries base token params)).Perm (expectedPairs rt base token params)
      ↔ TakesParams base params := by
  rw [perm_iff_valuesOf]
  -- under each name, what is written back is compared with what is expected
  have hwritten : ∀ n, (valuesOf n (writtenPairs rt (mergedQueries base token params))).Perm
      (valuesOf n (expectedPairs rt base token params)) ↔
        (namedTexts rt (mergedQueries base token params) n).Perm
          (valuesOf n (expectedPairs rt base token params)) := by
    intro n
    have hperm : (valuesOf n (writtenPairs rt (mergedQueries base token params))).Perm
        (namedTexts rt (mergedQueries base token params) n) := valuesOf_writtenPairs _ n
    exact ⟨hperm.symm.trans, hperm.trans⟩
  simp only [hwritten]
  constructor
  · intro h
    have htoken := h tokenName
    rw [valuesOf_expectedPairs, if_pos rfl] at htoken
    obtain ⟨hkey, hname⟩ := token_perm_iff.1 htoken
    refine ⟨hkey, fun n hn => ?_⟩
    have hne : n ≠ tokenName := fun he => hname (he ▸ hn)
    have hother := h n
    rw [valuesOf_expectedPairs, if_neg hne] at hother
    exact ⟨hne, (name_perm_iff hne).1 hother hn⟩
  · rintro ⟨hkey, hbase⟩ n
    rw [valuesOf_expectedPairs]
    by_cases hn : n = tokenName
    · rw [if_pos hn, hn]
      exact token_perm_iff.2 ⟨hkey, fun hm => (hbase _ hm).1 rfl⟩
    · rw [if_neg hn]
      exact (name_perm_iff hn).2 fun hm => (hbase n hm).2

end

/-! ## URLs -/

/-- The URL's query decodes to the pairs, in some order. -/
def DecodesTo (url : Bytes) (pairs : List (Bytes × Bytes)) : Prop :=
  ∃ uri query, parseUri url = .ok uri ∧ uri.isOpaque = false ∧ uri.query = some query ∧
    (decodeWwwForm query).Perm pairs

/-- The call returns a URL that holds the token, the parameters and the rest of the query. -/
def KeepsParameters (rt : Runtime) (baseUrl token : Bytes) (params : Option KeyedParams)
    (result : Except RubyError (Option Bytes)) : Prop :=
  ∃ base url, parseUri baseUrl = .ok base ∧ result = .ok (some url) ∧
    DecodesTo url (expectedPairs rt (basePairs base) token (params.getD OrderedHash.empty))

/-- The URL is one whose query takes the parameters. -/
def UrlTakesParams (baseUrl : Bytes) (params : Option KeyedParams) : Prop :=
  ∃ base, parseUri baseUrl = .ok base ∧ base.isOpaque = false ∧
    TakesParams (basePairs base) (params.getD OrderedHash.empty)

theorem stringValues_mergedQueries {base : List (Bytes × Bytes)} {token : Bytes}
    {params : KeyedParams} (h : StringValues params) :
    StringValues (mergedQueries base token params) := by
  rintro ⟨k, v⟩ he
  rw [OrderedHash.mem_entries, mergedQueries, OrderedHash.lookup_merge, OrderedHash.lookup_set] at he
  rcases Option.or_eq_some_iff.1 he with he | ⟨-, he⟩
  · split at he
    · exact ⟨token, (Option.some.inj he).symm⟩
    · exact h _ (OrderedHash.mem_entries.2 he)
  · rw [OrderedHash.lookup_ofList] at he
    obtain ⟨p, -, hp⟩ := List.mem_map.1 (List.mem_reverse.1 (OrderedHash.mem_of_findEntry he))
    exact ⟨p.2, (Prod.mk.inj hp).2.symm⟩

/-- With the token the hash is not empty. -/
theorem entries_merge_ne_nil (queries : KeyedParams) (token : Bytes) (params : Option KeyedParams) :
    (queries.merge (tokenParams token params)).entries ≠ [] := by
  intro he
  have hlook : (queries.merge (tokenParams token params)).lookup (.sym (ascii "oauth_token"))
      = some (.str token) := by
    rw [OrderedHash.lookup_merge, tokenParams, OrderedHash.lookup_set, if_pos rfl, Option.some_or]
  rw [← OrderedHash.mem_entries, he] at hlook
  exact absurd hlook List.not_mem_nil

/-- What is returned for a URL that parses: its query is the merged hash. -/
theorem buildUrl_of_parseUri {baseUrl token : Bytes} {params : Option KeyedParams} {base : Uri}
    (hbase : parseUri baseUrl = .ok base) (hplain : base.isOpaque = false)
    (h : StringValues (params.getD OrderedHash.empty)) :
    buildUrl rt baseUrl (some (tokenParams token params)) = .ok (parsedToS { base with
      query := some (encodeWwwForm rt
        (mergedQueries (basePairs base) token (params.getD OrderedHash.empty))) }) := by
  have hqueries : (baseQueries base).merge (tokenParams token params)
      = mergedQueries (basePairs base) token (params.getD OrderedHash.empty) := by
    rw [baseQueries, hplain, if_neg Bool.false_ne_true, mergedQueries, basePairs]
    cases base.query <;> rfl
  have hne : ¬ (mergedQueries (basePairs base) token
      (params.getD OrderedHash.empty)).entries.isEmpty = true := by
    rw [List.isEmpty_iff]
    exact entries_merge_ne_nil _ token params
  rw [buildUrl, hbase, Except.ok_bind]
  simp only [hqueries]
  rw [if_neg hne, setQuery_encodeWwwForm hplain (stringValues_mergedQueries h)]
  rfl

/-- An opaque URL takes no query. -/
theorem not_opaque_of_buildUrl {baseUrl token url : Bytes} {params : Option KeyedParams} {base : Uri}
    (hbase : parseUri baseUrl = .ok base)
    (h : buildUrl rt baseUrl (some (tokenParams token params)) = .ok url) : base.isOpaque = false := by
  by_contra hc
  have htrue : base.isOpaque = true := by simpa using hc
  have hne : ¬ ((baseQueries base).merge (tokenParams token params)).entries.isEmpty = true := by
    rw [List.isEmpty_iff]
    exact entries_merge_ne_nil _ token params
  rw [buildUrl, hbase, Except.ok_bind, if_neg hne, setQuery, if_pos htrue] at h
  simp at h

/-- What is returned decodes to the merged hash. -/
theorem decodesTo_iff {base : Uri} (hv : base.Valid) (hplain : base.isOpaque = false)
    {queries : KeyedParams} (h : StringValues queries) (hne : queries.entries ≠ [])
    (pairs : List (Bytes × Bytes)) :
    DecodesTo (parsedToS { base with query := some (encodeWwwForm rt queries) }) pairs
      ↔ (writtenPairs rt queries).Perm pairs := by
  have hchars : ∀ b ∈ encodeWwwForm rt queries, isAssignedQueryChar b = true :=
    isAssignedQueryChar_of_mem_encodeWwwForm h
  have hparse := (parseUri_parsedToS hv hchars).1
  have hdecode : decodeWwwForm (encodeWwwForm rt queries) = writtenPairs rt queries :=
    decodeWwwForm_encodeWwwForm h hne
  constructor
  · rintro ⟨uri, query, huri, -, hquery, hperm⟩
    rw [hparse, Except.ok.injEq] at huri
    rw [← huri, Option.some.injEq] at hquery
    rwa [← hquery, hdecode] at hperm
  · intro hperm
    exact ⟨_, _, hparse, hplain, rfl, by rwa [hdecode]⟩

/-- **The URL keeps everything exactly where its query takes the parameters.** -/
theorem urlWithToken_keeps_iff {t : ConsumerToken} {token : Bytes} (ht : t.token = some token)
    (baseUrl : Bytes) {params : Option KeyedParams} (h : StringValues (params.getD OrderedHash.empty)) :
    KeepsParameters rt baseUrl token params (urlWithToken rt t baseUrl params)
      ↔ UrlTakesParams baseUrl params := by
  have hdecodes : ∀ base, parseUri baseUrl = .ok base → base.isOpaque = false → ∀ pairs,
      DecodesTo (parsedToS { base with query := some (encodeWwwForm rt
        (mergedQueries (basePairs base) token (params.getD OrderedHash.empty))) }) pairs ↔
        (writtenPairs rt (mergedQueries (basePairs base) token
          (params.getD OrderedHash.empty))).Perm pairs := fun base hbase hplain =>
    decodesTo_iff (valid_of_parseUri hbase) hplain (stringValues_mergedQueries h)
      (entries_merge_ne_nil _ token params)
  constructor
  · rintro ⟨base, url, hbase, hresult, hurl⟩
    rw [urlWithToken, ht] at hresult
    obtain ⟨built, hbuilt, hsome⟩ := Except.bind_eq_ok.1 hresult
    have hplain := not_opaque_of_buildUrl hbase hbuilt
    obtain rfl : built = url := by simpa using hsome
    rw [buildUrl_of_parseUri hbase hplain h, Except.ok.injEq] at hbuilt
    rw [← hbuilt, hdecodes base hbase hplain] at hurl
    exact ⟨base, hbase, hplain, writtenPairs_mergedQueries_perm_iff.1 hurl⟩
  · rintro ⟨base, hbase, hplain, htakes⟩
    refine ⟨base, _, hbase, ?_, (hdecodes base hbase hplain _).2
      (writtenPairs_mergedQueries_perm_iff.2 htakes)⟩
    rw [urlWithToken, ht]
    exact Except.bind_eq_ok.2 ⟨_, buildUrl_of_parseUri hbase hplain h, rfl⟩

/-- **Authorization URLs keep their parameters exactly where the query takes them**: the token's name
    stands neither in the query nor as a string key of the parameters, and every name of the query
    either is the string key of a parameter or stands once and names no parameter. -/
theorem authorizationUrls_keep_iff (rt : Runtime) (t : ConsumerToken) (token : Bytes)
    (ht : t.token = some token) (params : Option KeyedParams)
    (h : StringValues (params.getD OrderedHash.empty)) :
    (KeepsParameters rt t.consumer.authorizeUrl token params (authorizeUrl rt t params)
      ↔ UrlTakesParams t.consumer.authorizeUrl params) ∧
    (KeepsParameters rt t.consumer.authenticateUrl token params (authenticateUrl rt t params)
      ↔ UrlTakesParams t.consumer.authenticateUrl params) :=
  ⟨urlWithToken_keeps_iff ht t.consumer.authorizeUrl h,
    urlWithToken_keeps_iff ht t.consumer.authenticateUrl h⟩

/-- A token of a consumer whose authorization URL has a query. -/
def tokenAt (authorizeUrl : Bytes) : ConsumerToken where
  consumer := { exampleConsumer with
    options := { exampleConsumer.options with authorizeUrl := some authorizeUrl } }
  token := some (ascii "t")
  secret := none
  params := OrderedHash.empty

def exampleParams : KeyedParams := OrderedHash.ofList [(.sym (ascii "b"), .str (ascii "2"))]

/-- A name that stands once in the query, and another parameter. -/
theorem tokenAt_keeps_iff :
    (KeepsParameters echoRuntime (ascii "http://example.com/?a=1") (ascii "t") (some exampleParams)
        (authorizeUrl echoRuntime (tokenAt (ascii "http://example.com/?a=1")) (some exampleParams))
      ↔ UrlTakesParams (ascii "http://example.com/?a=1") (some exampleParams)) ∧
    StringValues exampleParams := by
  have h : StringValues exampleParams := by
    intro e he
    rw [List.mem_singleton.1 he]
    exact ⟨_, rfl⟩
  exact ⟨(authorizationUrls_keep_iff echoRuntime (tokenAt (ascii "http://example.com/?a=1"))
    (ascii "t") rfl (some exampleParams) h).1, h⟩

/-- Of a name that stands twice one value is lost. -/
theorem tokenAt_not_kept :
    ¬ KeepsParameters echoRuntime (ascii "http://example.com/?a=1&a=2") (ascii "t") none
      (authorizeUrl echoRuntime (tokenAt (ascii "http://example.com/?a=1&a=2")) none) := by
  have hempty : StringValues ((none : Option KeyedParams).getD OrderedHash.empty) := by
    intro e he
    exact absurd he List.not_mem_nil
  have hparse : parseUri (ascii "http://example.com/?a=1&a=2")
      = .ok { exampleSite with path := ascii "/", query := some (ascii "a=1&a=2") } := by
    decide
  intro hkeeps
  obtain ⟨base, hbase, -, -, hnames⟩ := (urlWithToken_keeps_iff
    (t := tokenAt (ascii "http://example.com/?a=1&a=2")) rfl _ hempty).1 hkeeps
  rw [hparse, Except.ok.injEq] at hbase
  subst hbase
  have htwice := (hnames (ascii "a") (by decide)).2
  revert htwice
  decide

end RequestToken

end RubyOAuth
