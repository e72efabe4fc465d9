import RubyOAuth.Model.EmHttp
import RubyOAuth.Model.KeyedProxies
import RubyOAuth.Proofs.MergedParameters
import RubyOAuth.Proofs.MergedSources
import RubyOAuth.Proofs.QueryString

set_option autoImplicit false

/-! # EventMachine and Net::HTTP clients

`merged_parameters` adds form and query up as the Net::HTTP proxy does. It raises at an OAuth parameter
whose name is in one of them, and the query of the connection's URL gives way to the client's own. Where
neither happens, the two clients send the same header. -/

namespace RubyOAuth

open Bytes EmHttpRequest

variable {rt : Runtime}

/-! ## String parameters of the options -/

namespace EmHttpRequest

variable {pre es : List (Key × Value)} {params : OrderedHash Bytes (List Value)}

/-- Entries with string keys and string values. -/
def StringEntries (es : List (Key × Value)) : Prop := ∀ e ∈ es, ∃ k s, e = (.str k, .str s)

theorem foldlM_strings (h : Holds pre params) (hes : StringEntries es) (hn : (givenNames es).Nodup)
    (hnew : ∀ n ∈ givenNames es, n ∉ givenNames pre) :
    ∃ merged, es.foldlM addEntry params = .ok merged ∧ Holds (pre ++ es) merged := by
  refine foldlM_holds (fun e he => ?_) (fun front e post heq hmem => ?_) h
  · obtain ⟨k, s, rfl⟩ := hes e he
    trivial
  · -- a name comes once among the entries, and not before them
    exfalso
    have he : e ∈ es := heq ▸ List.mem_append_right _ List.mem_cons_self
    rw [givenNames, List.map_append, List.mem_append] at hmem
    rcases hmem with hmem | hmem
    · exact hnew _ (List.mem_map_of_mem he) hmem
    · rw [heq, givenNames, List.map_append, List.map_cons, List.nodup_append] at hn
      exact hn.2.2 _ hmem _ List.mem_cons_self rfl

/-- A string cannot be added to what is there. -/
theorem foldlM_strings_error (h : Holds pre params) (hes : StringEntries es) {n : Bytes}
    (hn : n ∈ givenNames es) (hpre : n ∈ givenNames pre) :
    es.foldlM addEntry params = .error .typeError := by
  induction es generalizing pre params with
  | nil => simp [givenNames] at hn
  | cons e rest ih =>
      obtain ⟨k, s, rfl⟩ := hes e List.mem_cons_self
      rw [List.foldlM_cons]
      by_cases hk : k ∈ givenNames pre
      · have hlook : params.lookup k = some (givenValues k pre) := by
          rw [h k, if_pos hk]
        simp only [addEntry, hlook]
        rfl
      · have hadds : AddsTo pre (.str k, .str s) := fun hmem => absurd hmem hk
        obtain ⟨next, hstep, hnext⟩ := addEntry_holds h hadds trivial
        rw [hstep]
        refine ih hnext (fun f hf => hes f (List.mem_cons_of_mem _ hf)) ?_ ?_
        · rcases List.mem_cons.1 hn with rfl | hn
          · exact absurd hpre hk
          · exact hn
        · rw [givenNames, List.map_append]
          exact List.mem_append_left _ hpre

/-! ## What is given under a name -/

theorem givenNames_keyed (ps : Params) : givenNames ps.keyed.entries = ps.keys := by
  rw [givenNames, Params.keyed, List.map_map]
  rfl

theorem givenValues_keyed (n : Bytes) (ps : Params) :
    givenValues n ps.keyed.entries = (ps.lookup n).elim [] flattenValue := by
  have hall : ∀ es : List (Bytes × Value), (es.map Prod.fst).Nodup →
      givenValues n (es.map (fun e => (.str e.1, e.2)))
        = (OrderedHash.findEntry n es).elim [] flattenValue := by
    intro es hn
    induction es with
    | nil => rfl
    | cons e rest ih =>
        rw [List.map_cons, List.nodup_cons] at hn
        have hcons : givenValues n ((e :: rest).map (fun e => ((.str e.1, e.2) : Key × Value)))
            = givenValues n [(.str e.1, e.2)]
              ++ givenValues n (rest.map (fun e => ((.str e.1, e.2) : Key × Value))) :=
          givenValues_append n [_] _
        have hone : givenValues n [(.str e.1, e.2)] = if e.1 = n then flattenValue e.2 else [] :=
          givenValues_singleton n _
        rw [hcons, hone, ih hn.2, OrderedHash.findEntry]
        by_cases he : e.1 = n
        · have hnone : OrderedHash.findEntry n rest = none :=
            OrderedHash.findEntry_eq_none.2 (he ▸ hn.1)
          rw [if_pos he, if_pos he, hnone]
          exact List.append_nil _
        · rw [if_neg he, if_neg he, List.nil_append]
  exact hall ps.entries ps.nodup

theorem stringEntries_keyed {ps : Params} (h : GivesStrings ps) :
    StringEntries ps.keyed.entries := by
  intro e he
  obtain ⟨⟨k, v⟩, hkv, rfl⟩ := List.mem_map.1 he
  obtain ⟨s, rfl⟩ := h k v (OrderedHash.mem_entries.1 hkv)
  exact ⟨k, s, rfl⟩

/-- A written query as `CGI.parse` reads it. -/
theorem lookup_cgiValues (ps : List (Bytes × Bytes)) (n : Bytes) :
    ((cgiParse (formBody ps)).mapValues (fun vs => Value.arr (vs.map Value.str))).lookup n
      = if n ∈ ps.map Prod.fst then some (.arr ((valuesOf n ps).map Value.str)) else none := by
  have hnames : (ps.map (fun p => (p.1, some p.2))).map Prod.fst = ps.map Prod.fst := by simp
  rw [OrderedHash.lookup_mapValues, lookup_cgiParse, cgiFields_joinedBody, fieldValues_pairs, hnames]
  split <;> rfl

theorem flattenValue_strings (ss : List Bytes) :
    flattenValue (.arr (ss.map Value.str)) = ss.map Value.str := by
  refine flattenValue_of_isText fun v hv => ?_
  obtain ⟨s, -, rfl⟩ := List.mem_map.1 hv
  exact ⟨s, rfl⟩

end EmHttpRequest

/-! ## One request, two clients -/

/-- One request as an EventMachine client and as a helper over Net::HTTP hold it: the same method, URL and
    form, and the query in two parts, the client's own before that of the connection's URL. -/
structure EmTwin (query urlQuery form : List (Bytes × Bytes)) where
  em : EmHttpClient
  helper : ClientHelper
  netHttpQuery : Option Bytes
  same_method : em.method = helper.request.method
  same_url : normalizeUri em.url = normalizeUri helper.requestUri
  em_query : em.query = .text (formBody query)
  em_urlQuery : em.connQuery = formBody urlQuery
  em_form : em.postParameters = cgiParams (formBody form)
  netHttp_query : helper.request.queryParams = .ok netHttpQuery
  same_query : netHttpQuery.getD [] = formBody (query ++ urlQuery)
  same_form : helper.request.postParams.getD [] = formBody form
  netHttp_header : helper.request.authHeaderParams = none
  given_strings : GivesStrings helper.oauthParameters
  method_named : helper.signatureMethod ≠ []
  no_clobber : helper.options.clobberRequest = false

namespace EmTwin

variable {query urlQuery form : List (Bytes × Bytes)} (t : EmTwin query urlQuery form)

def options : SignatureOptions := t.helper.signatureOptions t.helper.oauthParameters

/-- No OAuth parameter has a name of form or query. -/
def OauthNamesFree : Prop :=
  ∀ n ∈ t.helper.oauthParameters.keys, n ∉ (form ++ query ++ urlQuery).map Prod.fst

/-- No name that is signed is in both parts of the query. -/
def QueriesApart : Prop :=
  ∀ n, (t.em.proxy t.options).isSigned n = true → n ∈ query.map Prod.fst → n ∉ urlQuery.map Prod.fst

/-- What form and query have under a name on the EventMachine side. -/
def ownValues (query urlQuery form : List (Bytes × Bytes)) (n : Bytes) : List Bytes :=
  valuesOf n form ++ if n ∈ query.map Prod.fst then valuesOf n query else valuesOf n urlQuery

/-- The entries that form and query give. -/
def ownEntries : List (Key × Value) :=
  t.em.postParameters.entries ++ t.em.queryParameters.entries

theorem mem_names {n : Bytes} : n ∈ (form ++ query ++ urlQuery).map Prod.fst ↔
    n ∈ form.map Prod.fst ∨ n ∈ query.map Prod.fst ∨ n ∈ urlQuery.map Prod.fst := by
  rw [List.map_append, List.map_append, List.mem_append, List.mem_append, or_assoc]

theorem ownValues_eq_nil {n : Bytes} (h : n ∈ (form ++ query ++ urlQuery).map Prod.fst) :
    ownValues query urlQuery form n ≠ [] := by
  rw [ownValues, Ne, List.append_eq_nil_iff, not_and]
  intro hform
  rw [valuesOf_eq_nil] at hform
  split
  · next hq => exact fun he => valuesOf_eq_nil.1 he hq
  · next hq =>
      rcases mem_names.1 h with h | h | h
      · exact absurd h hform
      · exact absurd h hq
      · exact fun he => valuesOf_eq_nil.1 he h

/-- The query as the proxy gives it: its own names hide those of the URL. -/
theorem queryParameters_eq : ∃ ps : Params, t.em.queryParameters = ps.keyed ∧ ∀ n, ps.lookup n
    = if n ∈ query.map Prod.fst ∨ n ∈ urlQuery.map Prod.fst then
        some (.arr ((if n ∈ query.map Prod.fst then valuesOf n query else valuesOf n urlQuery).map
          Value.str))
      else none := by
  refine ⟨((cgiParse (formBody urlQuery)).mapValues (fun vs => Value.arr (vs.map Value.str))).merge
    ((cgiParse (formBody query)).mapValues (fun vs => Value.arr (vs.map Value.str))), ?_, fun n => ?_⟩
  · rw [EmHttpRequest.queryParameters, t.em_query, t.em_urlQuery, Params.keyed_merge]
    rfl
  · rw [OrderedHash.lookup_merge, lookup_cgiValues, lookup_cgiValues]
    by_cases hq : n ∈ query.map Prod.fst
    · simp [hq]
    · by_cases hu : n ∈ urlQuery.map Prod.fst
      · simp [hq, hu]
      · simp [hq, hu]

theorem ownEntries_names {n : Bytes} :
    n ∈ givenNames t.ownEntries ↔ n ∈ (form ++ query ++ urlQuery).map Prod.fst := by
  obtain ⟨ps, hps, hlook⟩ := t.queryParameters_eq
  have hform : n ∈ givenNames (cgiParams (formBody form)).entries ↔ n ∈ form.map Prod.fst := by
    rw [cgiParams, givenNames_keyed, OrderedHash.mem_keys, lookup_cgiValues]
    split
    · next h => exact iff_of_true rfl h
    · next h => exact iff_of_false (by simp) h
  have hquery : n ∈ givenNames ps.keyed.entries ↔
      n ∈ query.map Prod.fst ∨ n ∈ urlQuery.map Prod.fst := by
    rw [givenNames_keyed, OrderedHash.mem_keys, hlook]
    split
    · next h => exact iff_of_true rfl h
    · next h => exact iff_of_false (by simp) h
  rw [ownEntries, t.em_form, hps, givenNames, List.map_append, List.mem_append, mem_names, ← hform,
    ← hquery]
  rfl

theorem ownEntries_values (n : Bytes) :
    givenValues n t.ownEntries = (ownValues query urlQuery form n).map Value.str := by
  obtain ⟨ps, hps, hlook⟩ := t.queryParameters_eq
  rw [ownEntries, t.em_form, hps, givenValues_append, cgiParams, givenValues_keyed, givenValues_keyed,
    lookup_cgiValues, hlook, ownValues, List.map_append]
  congr 1
  · split
    · exact flattenValue_strings _
    · next h => rw [valuesOf_eq_nil.2 h]; rfl
  · split
    · exact flattenValue_strings _
    · next h =>
        rw [not_or] at h
        rw [if_neg h.1, valuesOf_eq_nil.2 h.2]
        rfl

/-- Form and query always merge. -/
theorem foldlM_ownEntries : ∃ params, t.ownEntries.foldlM addEntry OrderedHash.empty = .ok params ∧
    Holds t.ownEntries params := by
  have hentry : ∀ e ∈ t.ownEntries, ∃ (s : Bytes) (vs : List Bytes),
      e = (.str s, .arr (vs.map Value.str)) := by
    obtain ⟨ps, hps, hlook⟩ := t.queryParameters_eq
    intro e he
    rcases List.mem_append.1 he with he | he
    · rw [t.em_form] at he
      exact mem_cgiParams he
    · rw [hps] at he
      obtain ⟨⟨n, v⟩, hmem, rfl⟩ := List.mem_map.1 he
      have hv := OrderedHash.mem_entries.1 hmem
      rw [hlook] at hv
      split at hv
      · exact ⟨n, _, by rw [Option.some.inj hv]⟩
      · simp at hv
  have hstart : Holds [] OrderedHash.empty := fun n => rfl
  refine foldlM_holds (fun e he => ?_) (fun front e post heq => ?_) hstart
  · obtain ⟨s, vs, rfl⟩ := hentry e he
    intro v hv
    obtain ⟨w, -, rfl⟩ := List.mem_map.1 hv
    exact ⟨w, rfl⟩
  · refine nothingOverwritten_of_arrays (fun e he => ?_) front e post heq
    obtain ⟨s, vs, rfl⟩ := hentry e he
    exact ⟨s, _, rfl⟩

theorem allParameters_em : t.em.allParameters (t.options.parameters.map Params.keyed)
    = t.ownEntries.foldlM addEntry OrderedHash.empty >>=
        fun params => t.helper.oauthParameters.keyed.entries.foldlM addEntry params := by
  have hentries : ([some t.em.postParameters, some t.em.queryParameters,
      t.options.parameters.map Params.keyed].filterMap id).flatMap OrderedHash.entries
        = t.ownEntries ++ t.helper.oauthParameters.keyed.entries := by
    show t.em.postParameters.entries ++ (t.em.queryParameters.entries ++
      (t.helper.oauthParameters.keyed.entries ++ [])) = _
    rw [List.append_nil, ownEntries, List.append_assoc]
  rw [EmHttpRequest.allParameters, mergedParameters, hentries, List.foldlM_append]

/-- An OAuth name in form or query raises. -/
theorem parameters_em_error (h : ¬ t.OauthNamesFree) :
    (t.em.proxy t.options).parameters = .error .typeError := by
  obtain ⟨params, hparams, hholds⟩ := t.foldlM_ownEntries
  simp only [OauthNamesFree, not_forall, not_not] at h
  obtain ⟨n, hn, hown⟩ := h
  have hraise := foldlM_strings_error hholds (stringEntries_keyed t.given_strings)
    ((givenNames_keyed t.helper.oauthParameters).symm ▸ hn) (t.ownEntries_names.2 hown)
  show t.em.parameters t.options = _
  rw [EmHttpRequest.parameters, options, ClientHelper.signatureOptions, t.no_clobber,
    if_neg Bool.false_ne_true]
  have hall := t.allParameters_em
  rw [hparams, Except.ok_bind, hraise] at hall
  rw [show (some t.helper.oauthParameters) = t.options.parameters from rfl, hall]
  rfl

/-- Otherwise the proxy has what form, query and options give. -/
theorem parameters_em (h : t.OauthNamesFree) : ∃ params : Params,
    (t.em.proxy t.options).parameters = .ok params ∧ ∀ n, params.lookup n
      = match t.helper.oauthParameters.lookup n with
        | some v => some (.arr [v])
        | none => if n ∈ (form ++ query ++ urlQuery).map Prod.fst then
            some (.arr ((ownValues query urlQuery form n).map Value.str)) else none := by
  obtain ⟨params, hparams, hholds⟩ := t.foldlM_ownEntries
  obtain ⟨merged, hmerged, hall⟩ := foldlM_strings hholds (stringEntries_keyed t.given_strings)
    (by rw [givenNames_keyed]; exact t.helper.oauthParameters.nodup)
    (fun n hn hown => h n (by rwa [givenNames_keyed] at hn) (t.ownEntries_names.1 hown))
  refine ⟨merged.mapValues Value.arr, ?_, fun n => ?_⟩
  · show t.em.parameters t.options = _
    have hfold := t.allParameters_em
    rw [hparams, Except.ok_bind, hmerged] at hfold
    rw [EmHttpRequest.parameters, show t.options.clobberRequest = false from t.no_clobber,
      if_neg Bool.false_ne_true, hfold]
    rfl
  · have hmem : n ∈ givenNames (t.ownEntries ++ t.helper.oauthParameters.keyed.entries) ↔
        n ∈ (form ++ query ++ urlQuery).map Prod.fst ∨ n ∈ t.helper.oauthParameters.keys := by
      rw [← t.ownEntries_names, ← givenNames_keyed, givenNames, List.map_append, List.mem_append]
      rfl
    rw [OrderedHash.lookup_mapValues, hall n, givenValues_append, givenValues_keyed,
      t.ownEntries_values]
    cases hv : t.helper.oauthParameters.lookup n with
    | some v =>
        obtain ⟨s, rfl⟩ := t.given_strings n v hv
        have hkey : n ∈ t.helper.oauthParameters.keys := OrderedHash.mem_keys.2 (by rw [hv]; rfl)
        have hfree := h n hkey
        have hnone : ownValues query urlQuery form n = [] := by
          rw [mem_names, not_or, not_or] at hfree
          rw [ownValues, valuesOf_eq_nil.2 hfree.1, if_neg hfree.2.1, valuesOf_eq_nil.2 hfree.2.2]
          rfl
        rw [if_pos (hmem.2 (.inr hkey)), hnone]
        rfl
    | none =>
        have hkey : n ∉ t.helper.oauthParameters.keys := by
          rw [OrderedHash.mem_keys, hv]
          simp
        rw [or_iff_left hkey] at hmem
        by_cases hown : n ∈ (form ++ query ++ urlQuery).map Prod.fst
        · rw [if_pos (hmem.2 hown)]
          simp only [hown, if_true, Option.elim, List.append_nil]
          rfl
        · rw [if_neg (fun hn => hown (hmem.1 hn))]
          simp only [hown, if_false]
          rfl

/-! ## What is signed -/

theorem normalizedParameters_em (h : t.OauthNamesFree) : ∃ ps : List (Bytes × Bytes),
    (t.em.proxy t.options).normalizedParameters rt = .ok (normalForm ps) ∧ ∀ n, valuesOf n ps
      = if (t.em.proxy t.options).isSigned n then
          ownValues query urlQuery form n ++ valuesOf n (flatPairs t.helper.oauthParameters.entries)
        else [] := by
  obtain ⟨params, hparams, hlook⟩ := t.parameters_em h
  have hvalues : ∀ n, (params.lookup n).bind flatValues = match t.helper.oauthParameters.lookup n with
      | some v => flatValues v
      | none => if n ∈ (form ++ query ++ urlQuery).map Prod.fst then
          some (ownValues query urlQuery form n) else none := by
    intro n
    rw [hlook n]
    cases hv : t.helper.oauthParameters.lookup n with
    | some v =>
        obtain ⟨s, rfl⟩ := t.given_strings n v hv
        rfl
    | none =>
        by_cases hown : n ∈ (form ++ query ++ urlQuery).map Prod.fst
        · simp only [hown, if_true, Option.bind_some]
          exact flatValues_arr_map (ownValues_eq_nil hown)
        · simp only [hown, if_false, Option.bind_none]
  have hflat : Flat params := by
    rintro ⟨n, v⟩ he
    have hl := hlook n
    rw [OrderedHash.mem_entries.1 he] at hl
    cases hv : t.helper.oauthParameters.lookup n with
    | some w =>
        obtain ⟨s, rfl⟩ := t.given_strings n w hv
        rw [hv] at hl
        rw [Option.some.inj hl]
        rfl
    | none =>
        rw [hv] at hl
        simp only at hl
        split at hl
        · next hown =>
            rw [Option.some.inj hl, flatValues_arr_map (ownValues_eq_nil hown)]
            rfl
        · exact absurd hl (by simp)
  refine ⟨flatPairs (params.select (t.em.proxy t.options).isSigned).entries, ?_, fun n => ?_⟩
  · rw [Proxy.normalizedParameters, Proxy.parametersForSignature, hparams, Except.ok_bind, Except.ok_bind,
      normalize_flat (flat_select hflat _)]
  · rw [valuesOf_select, valuesOf_flatPairs_lookup, valuesOf_flatPairs_lookup, hvalues n]
    by_cases hsigned : (t.em.proxy t.options).isSigned n = true
    · rw [if_pos hsigned, if_pos hsigned]
      cases hv : t.helper.oauthParameters.lookup n with
      | some v =>
          have hfree := h n (OrderedHash.mem_keys.2 (by rw [hv]; rfl))
          rw [mem_names, not_or, not_or] at hfree
          rw [ownValues, valuesOf_eq_nil.2 hfree.1, if_neg hfree.2.1, valuesOf_eq_nil.2 hfree.2.2]
          rfl
      | none =>
          by_cases hown : n ∈ (form ++ query ++ urlQuery).map Prod.fst
          · simp only [hown, if_true, Option.getD_some, Option.bind_none, Option.getD_none,
              List.append_nil]
          · simp only [hown, if_false, Option.bind_none, Option.getD_none, List.append_nil]
            rw [mem_names, not_or, not_or] at hown
            rw [ownValues, valuesOf_eq_nil.2 hown.1, if_neg hown.2.1, valuesOf_eq_nil.2 hown.2.2]
            rfl
    · rw [if_neg hsigned, if_neg hsigned]

theorem normalizedParameters_netHttp :
    (t.helper.request.proxy t.options).normalizedParameters rt = .ok (normalForm
      ((form ++ (query ++ urlQuery) ++ flatPairs t.helper.oauthParameters.entries).filter
        (fun p => (t.em.proxy t.options).isSigned p.1))) :=
  HttpRequest.normalizedParameters_sources t.no_clobber t.netHttp_header t.netHttp_query t.same_query
    t.same_form t.given_strings

/-- With the OAuth names free, what is hidden of the URL's query is all that differs. -/
theorem normalizedParameters_iff (rt : Runtime) (h : t.OauthNamesFree) :
    (t.em.proxy t.options).normalizedParameters rt
      = (t.helper.request.proxy t.options).normalizedParameters rt ↔ t.QueriesApart := by
  obtain ⟨ps, hps, hvalues⟩ := t.normalizedParameters_em h
  rw [hps, t.normalizedParameters_netHttp, Except.ok.injEq, normalForm_inj, perm_iff_valuesOf]
  refine forall_congr' fun n => ?_
  have hfilter := valuesOf_filter (t.em.proxy t.options).isSigned n
    (form ++ (query ++ urlQuery) ++ flatPairs t.helper.oauthParameters.entries)
  rw [hvalues n, hfilter, ownValues]
  by_cases hsigned : (t.em.proxy t.options).isSigned n = true
  · rw [if_pos hsigned, if_pos hsigned, valuesOf_append, valuesOf_append, valuesOf_append,
      List.perm_append_right_iff, List.perm_append_left_iff]
    by_cases hq : n ∈ query.map Prod.fst
    · rw [if_pos hq]
      constructor
      · intro hperm _ _ hu
        have hlen := hperm.length_eq
        rw [List.length_append, Nat.left_eq_add, List.length_eq_zero_iff] at hlen
        exact valuesOf_eq_nil.1 hlen hu
      · intro hapart
        rw [valuesOf_eq_nil.2 (hapart hsigned hq), List.append_nil]
    · rw [if_neg hq, valuesOf_eq_nil.2 hq, List.nil_append]
      exact iff_of_true (.refl _) (fun _ hmem => absurd hmem hq)
  · rw [if_neg hsigned, if_neg hsigned]
    exact iff_of_true (.refl _) (fun hs => absurd hs hsigned)

theorem signatureBaseString_em (h : t.OauthNamesFree) (hapart : t.QueriesApart) :
    (t.em.proxy t.options).signatureBaseString rt
      = (t.helper.request.proxy t.options).signatureBaseString rt := by
  have huri : (t.em.proxy t.options).normalizedUri = (t.helper.request.proxy t.options).normalizedUri :=
    t.same_url
  have hmethod : (t.em.proxy t.options).method = (t.helper.request.proxy t.options).method :=
    t.same_method
  rw [Proxy.signatureBaseString, Proxy.signatureBaseString, huri, hmethod,
    (t.normalizedParameters_iff rt h).2 hapart]

theorem signatureBaseString_iff (rt : Runtime) {u : Bytes}
    (hu : normalizeUri t.helper.requestUri = .ok u) :
    (t.em.proxy t.options).signatureBaseString rt
        = (t.helper.request.proxy t.options).signatureBaseString rt ↔
      t.OauthNamesFree ∧ t.QueriesApart := by
  refine ⟨fun hbase => ?_, fun h => t.signatureBaseString_em h.1 h.2⟩
  have huri : (t.em.proxy t.options).normalizedUri = .ok u := t.same_url.trans hu
  have huri' : (t.helper.request.proxy t.options).normalizedUri = .ok u := hu
  rw [Proxy.signatureBaseString, Proxy.signatureBaseString, huri, huri', t.normalizedParameters_netHttp]
    at hbase
  simp only [Except.ok_bind] at hbase
  have hfree : t.OauthNamesFree := by
    by_contra h
    rw [Proxy.normalizedParameters, Proxy.parametersForSignature, t.parameters_em_error h] at hbase
    simp at hbase
  refine ⟨hfree, (t.normalizedParameters_iff rt hfree).1 ?_⟩
  cases hem : (t.em.proxy t.options).normalizedParameters rt with
  | error e => simp [hem] at hbase
  | ok text =>
      rw [hem, Except.ok_bind, Except.ok.injEq, baseString_inj] at hbase
      rw [t.normalizedParameters_netHttp, hbase.2.2]

/-! ## The header -/

/-- Both proxies read the method that the OAuth parameters name. -/
theorem oauthSignatureMethod_em (h : t.OauthNamesFree) :
    (t.em.proxy t.options).oauthSignatureMethod
      = (t.helper.request.proxy t.options).oauthSignatureMethod := by
  obtain ⟨params, hparams, hlook⟩ := t.parameters_em h
  obtain ⟨text, htext, hfields⟩ := queryString_of_query t.netHttp_query
  have hname := ClientHelper.lookup_oauthSignatureMethod t.method_named
  have hfree := h (ascii "oauth_signature_method") (OrderedHash.mem_keys.2 (by rw [hname]; rfl))
  have hfields : cgiFields text = (query ++ urlQuery ++ form).map (fun p => (p.1, some p.2)) := by
    rw [hfields, t.netHttp_header, Option.toList_none, List.flatMap_nil, List.append_nil,
      flatMap_cgiFields_toList, flatMap_cgiFields_toList, t.same_query, t.same_form, cgiFields_joinedBody,
      cgiFields_joinedBody, ← List.map_append]
  have hnone : fieldValues (ascii "oauth_signature_method") (cgiFields text) = [] := by
    rw [hfields, fieldValues_pairs, valuesOf_eq_nil]
    rw [mem_names, not_or, not_or] at hfree
    simp only [List.map_append, List.mem_append, not_or]
    exact ⟨hfree.2, hfree.1⟩
  have hlook' := hlook (ascii "oauth_signature_method")
  rw [Proxy.oauthSignatureMethod, Proxy.oauthSignatureMethod, Proxy.oauthParameter, Proxy.oauthParameter,
    hparams, parameters_of_queryString htext t.no_clobber, Except.ok_bind, Except.ok_bind,
    lookup_collected, show t.options.parameters.getD OrderedHash.empty = t.helper.oauthParameters from rfl,
    hname, hnone, hlook']
  simp only [hname]
  rfl

/-- **EventMachine and Net::HTTP sign alike exactly where no OAuth name is in form or query and no signed
    name is in both parts of the query**, and then `oauth!` sets the header that Net::HTTP would send; an
    OAuth name in form or query makes it raise. -/
theorem oauth_em_iff (rt : Runtime) (t : EmTwin query urlQuery form) {u : Bytes}
    (hu : normalizeUri t.helper.requestUri = .ok u) (hscheme : t.helper.options.scheme = .header) :
    ((t.em.proxy t.options).signatureBaseString rt
        = (t.helper.request.proxy t.options).signatureBaseString rt ↔
      t.OauthNamesFree ∧ t.QueriesApart) ∧
    (t.OauthNamesFree → t.QueriesApart → t.em.oauth rt t.helper
      = t.helper.header rt >>= fun value => .ok (t.em.authorize value)) ∧
    (¬ t.OauthNamesFree → t.em.oauth rt t.helper = .error .typeError) := by
  have hoauth : t.em.oauth rt t.helper
      = t.helper.headerOver rt t.em.proxy >>= fun value => .ok (t.em.authorize value) := by
    rw [EmHttpClient.oauth, hscheme]
  refine ⟨t.signatureBaseString_iff rt hu, fun hfree hapart => ?_, fun h => ?_⟩
  · have hsign : sign rt (t.em.proxy t.options) t.options
        = sign rt (t.helper.request.proxy t.options) t.options :=
      sign_congr (t.oauthSignatureMethod_em hfree) rfl rfl rfl (t.signatureBaseString_em hfree hapart)
    have hheader : t.helper.headerOver rt t.em.proxy = t.helper.header rt := by
      rw [← ClientHelper.headerOver_proxy, ClientHelper.headerOver, ClientHelper.headerOver]
      exact congrArg (· >>= _) hsign
    rw [hoauth, hheader]
  · have hname : (t.em.proxy t.options).oauthSignatureMethod = .error .typeError := by
      rw [Proxy.oauthSignatureMethod, Proxy.oauthParameter, t.parameters_em_error h]
      rfl
    have hsign : sign rt (t.em.proxy t.options) t.options = .error .typeError := by
      rw [sign, build, methodName, hname]
      rfl
    rw [hoauth, ClientHelper.headerOver]
    exact congrArg (fun s => (s >>= _) >>= _) hsign

end EmTwin

/-- Where no empty parameter is allowed, OAuth parameters are strings. -/
theorem givesStrings_oauthParameters {h : ClientHelper}
    (hempty : h.options.allowEmptyParams = .names []) : GivesStrings h.oauthParameters := by
  intro k v hv
  obtain ⟨⟨n, value⟩, -, hkeeps, -, rfl⟩ := ClientHelper.lookup_oauthParameters.1 hv
  cases value with
  | some s => exact ⟨s, rfl⟩
  | none => simp [ClientHelper.keeps, hempty] at hkeeps

/-- A request with one name in the client's query and another in the URL. -/
def exampleEmTwin : EmTwin [(ascii "a", ascii "1")] [(ascii "b", ascii "2")] [] where
  em :=
    { method := ascii "GET", contentType := none, body := [], query := .text (ascii "a=1"),
      connQuery := ascii "b=2", url := ascii "http://example.com/?b=2", head := OrderedHash.empty,
      contentType_eq := rfl }
  helper := { helperWithNonce "n" with
    request := ⟨ascii "GET", ascii "/?a=1&b=2", OrderedHash.empty, none, none, false⟩ }
  netHttpQuery := some (ascii "a=1&b=2")
  same_method := rfl
  same_url := by decide +kernel
  em_query := congrArg EmQuery.text (by decide +kernel)
  em_urlQuery := by decide +kernel
  em_form := rfl
  netHttp_query := by decide +kernel
  same_query := by decide +kernel
  same_form := by decide +kernel
  netHttp_header := by decide +kernel
  given_strings := givesStrings_oauthParameters rfl
  method_named := by decide
  no_clobber := rfl

theorem exampleEmTwin_oauth :
    ((exampleEmTwin.em.proxy exampleEmTwin.options).signatureBaseString echoRuntime
        = (exampleEmTwin.helper.request.proxy exampleEmTwin.options).signatureBaseString echoRuntime ↔
      exampleEmTwin.OauthNamesFree ∧ exampleEmTwin.QueriesApart) ∧
    (exampleEmTwin.OauthNamesFree → exampleEmTwin.QueriesApart →
      exampleEmTwin.em.oauth echoRuntime exampleEmTwin.helper
        = exampleEmTwin.helper.header echoRuntime >>= fun value =>
            .ok (exampleEmTwin.em.authorize value)) ∧
    (¬ exampleEmTwin.OauthNamesFree →
      exampleEmTwin.em.oauth echoRuntime exampleEmTwin.helper = .error .typeError) :=
  exampleEmTwin.oauth_em_iff echoRuntime
    (show normalizeUri (ascii "http://example.com/") = .ok (ascii "http://example.com/") by decide +kernel)
    rfl

end RubyOAuth
