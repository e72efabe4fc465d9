import RubyOAuth.Proofs.FormProxies
import RubyOAuth.Proofs.SignedPairs
import RubyOAuth.Proofs.Signing

set_option autoImplicit false

/-! # Form, query and options

The Net::HTTP proxy adds up what form, query and options give under a name. The RestClient and Typhoeus
proxies merge the three into one hash, in which a name has what the last of them gives. The base strings
are the same exactly where no name that is signed is given twice. -/

namespace RubyOAuth

open Bytes

variable {rt : Runtime}

/-! ## Entries in one hash -/

def FlatEntries (es : List (Bytes × Value)) : Prop := ∀ e ∈ es, (flatValues e.2).isSome = true

theorem entryPairs_ne_nil {e : Bytes × Value} (h : (flatValues e.2).isSome = true) :
    entryPairs e ≠ [] := by
  obtain ⟨ss, hss⟩ := Option.isSome_iff_exists.1 h
  rw [entryPairs, hss, Option.getD_some, Ne, List.map_eq_nil_iff]
  exact flatValues_ne_nil hss

theorem flatPairs_filter (signed : Bytes → Bool) (es : List (Bytes × Value)) :
    (flatPairs es).filter (fun p => signed p.1) = flatPairs (es.filter (fun e => signed e.1)) := by
  refine filter_flatMap_of_forall fun e _ p hp => ?_
  obtain ⟨s, -, rfl⟩ := List.mem_map.1 hp
  rfl

/-- What is selected of a hash is the hash of what is selected. -/
theorem select_ofList_perm (signed : Bytes → Bool) (es : List (Bytes × Value)) :
    ((OrderedHash.ofList es).select signed).entries.Perm
      (OrderedHash.ofList (es.filter (fun e => signed e.1))).entries := by
  refine OrderedHash.perm_of_lookup_eq fun k => ?_
  rw [OrderedHash.lookup_select, OrderedHash.lookup_ofList, OrderedHash.lookup_ofList,
    ← List.filter_reverse, OrderedHash.findEntry_filter]

/-- **A hash has all the signed pairs of its entries exactly where no signed name comes twice.** -/
theorem flatPairs_ofList_perm_iff (signed : Bytes → Bool) {es : List (Bytes × Value)}
    (hf : FlatEntries es) :
    (flatPairs ((OrderedHash.ofList es).select signed).entries).Perm
        ((flatPairs es).filter (fun p => signed p.1)) ↔
      ((es.map Prod.fst).filter signed).Nodup := by
  have hnames : (es.map Prod.fst).filter signed = (es.filter (fun e => signed e.1)).map Prod.fst := by
    rw [List.filter_map]
    rfl
  have hsame : (flatPairs ((OrderedHash.ofList es).select signed).entries).Perm
      (flatPairs (OrderedHash.ofList (es.filter (fun e => signed e.1))).entries) :=
    (select_ofList_perm signed es).flatMap_right _
  have hne : ∀ e ∈ es.filter (fun e => signed e.1), entryPairs e ≠ [] := fun e he =>
    entryPairs_ne_nil (hf e (List.mem_of_mem_filter he))
  rw [flatPairs_filter, hnames]
  constructor
  · intro hperm
    exact (OrderedHash.length_flatMap_ofList_iff hne).1 (hsame.symm.trans hperm).length_eq
  · intro hn
    rw [OrderedHash.entries_ofList hn] at hsame
    exact hsame

theorem flat_ofList {es : List (Bytes × Value)} (hf : FlatEntries es) : Flat (OrderedHash.ofList es) :=
  fun e he => hf e ((OrderedHash.entries_ofList_subperm es).subset he)

/-- What a proxy normalizes that merges entries into one hash. -/
theorem normalizedParameters_ofList {p : Proxy} {es : List (Bytes × Value)} (hf : FlatEntries es)
    (hp : p.parameters = .ok (OrderedHash.ofList es)) :
    p.normalizedParameters rt
      = .ok (normalForm (flatPairs ((OrderedHash.ofList es).select p.isSigned).entries)) := by
  rw [Proxy.normalizedParameters, Proxy.parametersForSignature, hp, Except.ok_bind, Except.ok_bind,
    normalize_flat (flat_select (flat_ofList hf) _)]

/-! ## What the Net::HTTP proxy adds up -/

/-- The values that the options give are strings. -/
def GivesStrings (params : Params) : Prop := ∀ k v, params.lookup k = some v → ∃ s, v = .str s

theorem GivesStrings.flatEntries {params : Params} (h : GivesStrings params) :
    FlatEntries params.entries := by
  rintro ⟨k, v⟩ he
  obtain ⟨s, rfl⟩ := h k v (OrderedHash.mem_entries.1 he)
  rfl

theorem fieldValues_pairs (k : Bytes) (ps : List (Bytes × Bytes)) :
    fieldValues k (ps.map (fun p => (p.1, some p.2))) = valuesOf k ps := by
  rw [fieldValues, valuesOf, valuesOf, List.filter_map, List.map_map, List.filterMap_map]
  exact congrFun List.filterMap_eq_map _

/-- Nothing of a written query is lost, and what the options give is added. -/
theorem flatPairs_collected_perm {q : Bytes} {ps : List (Bytes × Bytes)} {given : Params}
    (hq : cgiFields q = ps.map (fun p => (p.1, some p.2))) (hg : GivesStrings given) :
    (flatPairs (collected q given).entries).Perm (ps ++ flatPairs given.entries) := by
  have htext : TextParameters given := fun k v hv => .inr (hg k v hv)
  have hnames : (ps.map (fun p => (p.1, some p.2))).map Prod.fst = ps.map Prod.fst := by simp
  rw [perm_iff_valuesOf]
  intro k
  rw [valuesOf_collected q htext, valuesOf_append, valuesOf_flatPairs_lookup, collectedValues, hq,
    fieldValues_pairs, hnames]
  cases hk : given.lookup k with
  | some v =>
      obtain ⟨s, rfl⟩ := hg k v hk
      exact .refl _
  | none =>
      by_cases hmem : k ∈ ps.map Prod.fst
      · have hne : valuesOf k ps ≠ [] := fun h => valuesOf_eq_nil.1 h hmem
        simp [hmem, hne]
      · simp [hmem, valuesOf_eq_nil.2 hmem]

/-- **The Net::HTTP proxy normalizes form, query and options as they are.** -/
theorem HttpRequest.normalizedParameters_sources {r : HttpRequest} {o : SignatureOptions}
    {query form : List (Bytes × Bytes)} {q : Option Bytes} (hc : o.clobberRequest = false)
    (hauth : r.authHeaderParams = none) (hquery : r.queryParams = .ok q)
    (hq : q.getD [] = formBody query) (hform : r.postParams.getD [] = formBody form)
    (hg : GivesStrings (o.parameters.getD OrderedHash.empty)) :
    (r.proxy o).normalizedParameters rt
      = .ok (normalForm ((form ++ query ++ flatPairs (o.parameters.getD OrderedHash.empty).entries).filter
          (fun p => (r.proxy o).isSigned p.1))) := by
  obtain ⟨text, htext, hfields⟩ := queryString_of_query hquery
  have hpairs : cgiFields text = (query ++ form).map (fun p => (p.1, some p.2)) := by
    rw [hfields, hauth, Option.toList_none, List.flatMap_nil, List.append_nil,
      flatMap_cgiFields_toList, flatMap_cgiFields_toList, hq, hform, cgiFields_joinedBody,
      cgiFields_joinedBody, List.map_append]
  have hflat : Flat (collected text (o.parameters.getD OrderedHash.empty)) :=
    flat_collected text fun k v hv => .inr (hg k v hv)
  have hswap : (query ++ form).Perm (form ++ query) := List.perm_append_comm
  have hperm := (flatPairs_collected_perm hpairs hg).trans (hswap.append_right _)
  rw [Proxy.normalizedParameters, Proxy.parametersForSignature, parameters_of_queryString htext hc,
    Except.ok_bind, Except.ok_bind, normalize_flat (flat_select hflat _), Except.ok.injEq,
    normalForm_inj]
  refine List.Perm.trans ?_ (hperm.filter _)
  rw [flatPairs_filter]
  exact .refl _

/-! ## What a merged query gives -/

/-- The entries of a query that `CGI.parse` makes a hash of. -/
def queryEntries (q : Bytes) : List (Bytes × Value) :=
  ((cgiParse q).mapValues (fun vs => .arr (vs.map Value.str))).entries

theorem queryEntries_eq (q : Bytes) :
    queryEntries q = (collected q OrderedHash.empty).entries := by
  simp [queryEntries, collected, OrderedHash.mapValues, OrderedHash.empty]

theorem flatEntries_queryEntries (q : Bytes) : FlatEntries (queryEntries q) := by
  rw [queryEntries_eq]
  exact flat_collected q textParameters_empty

theorem givesStrings_empty : GivesStrings OrderedHash.empty := fun k v hv => by simp at hv

theorem flatPairs_queryEntries_perm (ps : List (Bytes × Bytes)) :
    (flatPairs (queryEntries (formBody ps))).Perm ps := by
  have h := flatPairs_collected_perm (cgiFields_joinedBody ps) givesStrings_empty
  rw [queryEntries_eq]
  exact h.trans (.of_eq (List.append_nil ps))

/-- Each name of the query is a name of its hash once. -/
theorem names_queryEntries_perm (ps : List (Bytes × Bytes)) :
    ((queryEntries (formBody ps)).map Prod.fst).Perm (ps.map Prod.fst).dedup := by
  have hnodup : ((queryEntries (formBody ps)).map Prod.fst).Nodup := OrderedHash.nodup _
  refine (List.perm_ext_iff_of_nodup hnodup (List.nodup_dedup _)).2 fun k => ?_
  have hkeys : k ∈ (queryEntries (formBody ps)).map Prod.fst ↔
      (((cgiParse (formBody ps)).mapValues (fun vs => Value.arr (vs.map Value.str))).lookup k).isSome :=
    OrderedHash.mem_keys
  rw [hkeys, OrderedHash.lookup_mapValues, Option.isSome_map, lookup_cgiParse, cgiFields_joinedBody,
    List.mem_dedup, List.map_map]
  split
  · next h => simpa using h
  · next h => simpa using h

/-- What a URL's query gives, where it is written as pairs. -/
theorem urlQueryParams_of_query {url : Bytes} {u : Uri} {query : List (Bytes × Bytes)}
    (hu : parseUri url = .ok u)
    (hq : (if u.isOpaque then none else u.query).getD [] = formBody query) :
    ∃ params, urlQueryParams url = .ok params ∧ params.entries = queryEntries (formBody query) := by
  rw [urlQueryParams, hu, Except.ok_bind]
  refine ⟨_, rfl, ?_⟩
  cases h : (if u.isOpaque then none else u.query) with
  | none =>
      rw [h] at hq
      rw [← hq]
      rfl
  | some text =>
      rw [h] at hq
      rw [← hq]
      rfl

/-- **Merged sources are signed as the Net::HTTP proxy signs them exactly where no signed name is given
    twice**, for a form of flat entries. -/
theorem normalizedParameters_merged_iff {p : Proxy} {form given : List (Bytes × Value)}
    {query formPairs : List (Bytes × Bytes)} (hf : FlatEntries form) (hg : FlatEntries given)
    (hp : p.parameters = .ok (OrderedHash.ofList (form ++ queryEntries (formBody query) ++ given)))
    (hform : (flatPairs form).Perm formPairs) :
    p.normalizedParameters rt = .ok (normalForm ((formPairs ++ query ++ flatPairs given).filter
        (fun e => p.isSigned e.1))) ↔
      ((form.map Prod.fst ++ (query.map Prod.fst).dedup ++ given.map Prod.fst).filter p.isSigned).Nodup := by
  have hall : FlatEntries (form ++ queryEntries (formBody query) ++ given) := by
    intro e he
    rcases List.mem_append.1 he with he | he
    · rcases List.mem_append.1 he with he | he
      · exact hf e he
      · exact flatEntries_queryEntries _ e he
    · exact hg e he
  have hpairs : (flatPairs (form ++ queryEntries (formBody query) ++ given)).Perm
      (formPairs ++ query ++ flatPairs given) := by
    rw [flatPairs, List.flatMap_append, List.flatMap_append]
    exact (hform.append (flatPairs_queryEntries_perm query)).append_right _
  have hnames : ((form ++ queryEntries (formBody query) ++ given).map Prod.fst).Perm
      (form.map Prod.fst ++ (query.map Prod.fst).dedup ++ given.map Prod.fst) := by
    rw [List.map_append, List.map_append]
    exact ((names_queryEntries_perm query).append_left _).append_right _
  rw [normalizedParameters_ofList hall hp, Except.ok.injEq, normalForm_inj,
    ← (hpairs.filter _).congr_right, flatPairs_ofList_perm_iff _ hall, (hnames.filter _).nodup_iff]

/-! ## Typhoeus -/

namespace TyphoeusRequest

/-- The parameters of the request that are signed as a form, under names that are text. -/
def posted (r : TyphoeusRequest) : List (Bytes × Value) :=
  if r.method = ascii "POST" then
    (r.params.getD OrderedHash.empty).entries.map (fun e => (e.1.toS, e.2))
  else []

theorem postParameters_eq (r : TyphoeusRequest) :
    r.postParameters = OrderedHash.ofList r.posted := by
  rw [postParameters, posted, stringifyKeys_eq]
  by_cases h : r.method = ascii "POST"
  · rw [if_pos h, if_pos (beq_iff_eq.2 h)]
  · rw [if_neg h, if_neg (fun hb => h (beq_iff_eq.1 hb))]
    rfl

end TyphoeusRequest

/-- One request as Typhoeus and as Net::HTTP hold it: the same method, query and form, and the same
    options, which name the URL and give strings. -/
structure TyphoeusTwin (query : List (Bytes × Bytes)) where
  typhoeus : TyphoeusRequest
  netHttp : HttpRequest
  options : SignatureOptions
  url : Uri
  netHttpQuery : Option Bytes
  same_method : typhoeus.method = netHttp.method
  typhoeus_url : parseUri typhoeus.url = .ok url
  typhoeus_query : (if url.isOpaque then none else url.query).getD [] = formBody query
  typhoeus_flat : FlatEntries typhoeus.posted
  netHttp_query : netHttp.queryParams = .ok netHttpQuery
  same_query : netHttpQuery.getD [] = formBody query
  same_form : netHttp.postParams.getD [] = formBody (flatPairs typhoeus.posted)
  netHttp_header : netHttp.authHeaderParams = none
  given_strings : GivesStrings (options.parameters.getD OrderedHash.empty)
  no_clobber : options.clobberRequest = false

namespace TyphoeusTwin

variable {query : List (Bytes × Bytes)}

/-- The options' parameters. -/
def given (t : TyphoeusTwin query) : Params := t.options.parameters.getD OrderedHash.empty

/-- The names that are given: by form, query and options, each name of the query once. -/
def givenNames (t : TyphoeusTwin query) : List Bytes :=
  t.typhoeus.posted.map Prod.fst ++ (query.map Prod.fst).dedup ++ t.given.keys

theorem parameters_typhoeus (t : TyphoeusTwin query) :
    (t.typhoeus.proxy t.options).parameters = .ok (OrderedHash.ofList
      (t.typhoeus.posted ++ queryEntries (formBody query) ++ t.given.entries)) := by
  obtain ⟨params, hparams, hentries⟩ := urlQueryParams_of_query t.typhoeus_url t.typhoeus_query
  show t.typhoeus.parameters t.options = _
  rw [TyphoeusRequest.parameters, t.no_clobber, if_neg Bool.false_ne_true, hparams, Except.ok_bind,
    TyphoeusRequest.postParameters_eq, OrderedHash.merge_ofList, OrderedHash.merge_ofList, hentries]
  rfl

/-- **Typhoeus and Net::HTTP requests have one base string exactly where no signed name is given
    twice** by form, query and options. -/
theorem signatureBaseString_typhoeus_iff (rt : Runtime) (t : TyphoeusTwin query) {u : Bytes}
    (hu : (t.netHttp.proxy t.options).normalizedUri = .ok u) :
    (t.typhoeus.proxy t.options).signatureBaseString rt
        = (t.netHttp.proxy t.options).signatureBaseString rt ↔
      (t.givenNames.filter (t.typhoeus.proxy t.options).isSigned).Nodup := by
  have hnet : (t.netHttp.proxy t.options).normalizedParameters rt = _ :=
    HttpRequest.normalizedParameters_sources t.no_clobber t.netHttp_header t.netHttp_query t.same_query
      t.same_form t.given_strings
  have hmerged : (t.typhoeus.proxy t.options).normalizedParameters rt = _ ↔ _ :=
    normalizedParameters_merged_iff t.typhoeus_flat t.given_strings.flatEntries t.parameters_typhoeus
      (.refl _)
  have hsigned : (t.netHttp.proxy t.options).isSigned = (t.typhoeus.proxy t.options).isSigned := rfl
  have hu' : (t.typhoeus.proxy t.options).normalizedUri = .ok u := hu
  have hmethod : (t.typhoeus.proxy t.options).method = (t.netHttp.proxy t.options).method :=
    t.same_method
  rw [hsigned] at hnet
  refine Iff.trans ?_ hmerged
  rw [Proxy.signatureBaseString, Proxy.signatureBaseString, hu, hu', hnet, hmethod]
  simp only [Except.ok_bind]
  constructor
  · intro h
    cases hp : (t.typhoeus.proxy t.options).normalizedParameters rt with
    | error e => simp [hp] at h
    | ok text =>
        rw [hp, Except.ok_bind, Except.ok.injEq, baseString_inj] at h
        exact congrArg Except.ok h.2.2
  · intro h
    rw [h, Except.ok_bind]

/-- A form with one field over a query with one pair, signed with a nonce. -/
def exampleTwin : TyphoeusTwin [(ascii "a", ascii "1")] where
  typhoeus :=
    { requestMethod := ascii "post", url := ascii "http://example.com/?a=1",
      params := some (OrderedHash.ofList [(.sym (ascii "b"), .arr [.str (ascii "2"), .str (ascii "3")])]) }
  netHttp :=
    { method := ascii "POST", path := ascii "/?a=1",
      headers := OrderedHash.ofList [(ascii "content-type", formMediaType)],
      body := some (ascii "b=2&b=3"), bodyStream := none, requestBodyPermitted := true }
  options :=
    { uri := some (ascii "http://example.com/"),
      parameters := some (OrderedHash.ofList [(ascii "oauth_nonce", .str (ascii "n"))]) }
  url := ⟨some (ascii "http"), none, some (ascii "example.com"), none, [slash], some (ascii "a=1"), none⟩
  netHttpQuery := some (ascii "a=1")
  same_method := by decide +kernel
  typhoeus_url := by decide +kernel
  typhoeus_query := by decide +kernel
  typhoeus_flat := by unfold FlatEntries; decide +kernel
  netHttp_query := by decide +kernel
  same_query := by decide +kernel
  same_form := by decide +kernel
  netHttp_header := by decide +kernel
  given_strings := by
    intro k v hv
    have hmem := OrderedHash.mem_entries.2 hv
    obtain ⟨rfl, rfl⟩ := Prod.mk.inj (List.mem_singleton.1 hmem)
    exact ⟨_, rfl⟩
  no_clobber := rfl

theorem exampleTwin_signatureBaseString :
    (exampleTwin.typhoeus.proxy exampleTwin.options).signatureBaseString echoRuntime
        = (exampleTwin.netHttp.proxy exampleTwin.options).signatureBaseString echoRuntime ↔
      (exampleTwin.givenNames.filter (exampleTwin.typhoeus.proxy exampleTwin.options).isSigned).Nodup :=
  signatureBaseString_typhoeus_iff echoRuntime exampleTwin
    (show normalizeUri (ascii "http://example.com/") = .ok (ascii "http://example.com/") by decide +kernel)

end TyphoeusTwin

end RubyOAuth
