import RubyOAuth.Proofs.ClientParameters
import RubyOAuth.Proofs.Requests
import RubyOAuth.Proofs.Verify

set_option autoImplicit false

/-! # Signing one Net::HTTP request

What every scheme of `oauth!` starts from: the helper with the amended request, and the fields that
the proxy reads of a request, in the order query, header, body. -/

namespace RubyOAuth

open Bytes

variable {rt : Runtime}

/-! ## Headers -/

theorem header_withHeader (r : HttpRequest) (n m v : Bytes) :
    (r.withHeader n v).header m = if downcase m = downcase n then some v else r.header m := by
  rw [HttpRequest.header, HttpRequest.withHeader, OrderedHash.lookup_set]
  rfl

theorem setHeader_eq_ok {r signed : HttpRequest} {name value : Bytes} :
    r.setHeader name value = .ok signed ↔
      value.any isLineEnd = false ∧ signed = r.withHeader name value := by
  rw [HttpRequest.setHeader]
  split
  · next h => simp [h]
  · next h => simp [h, eq_comm]

theorem header_amendUserAgent (r : HttpRequest) {m : Bytes} (hm : downcase m ≠ ascii "user-agent") :
    (amendUserAgent r).header m = r.header m := by
  have hagent : downcase (ascii "User-Agent") = ascii "user-agent" := by decide
  unfold amendUserAgent
  split
  · split
    · rw [header_withHeader, if_neg (by rw [hagent]; exact hm)]
    · rw [header_withHeader, if_neg (by rw [hagent]; exact hm)]
  · rw [header_withHeader, if_neg (by rw [hagent]; exact hm)]

/-- `amend_user_agent_header` changes headers only. -/
theorem amendUserAgent_eq (r : HttpRequest) :
    ∃ headers, amendUserAgent r = { r with headers := headers } := by
  unfold amendUserAgent
  split
  · split
    · exact ⟨_, rfl⟩
    · exact ⟨_, rfl⟩
  · exact ⟨_, rfl⟩

theorem amendUserAgent_path (r : HttpRequest) : (amendUserAgent r).path = r.path := by
  obtain ⟨headers, h⟩ := amendUserAgent_eq r
  rw [h]

/-- The other headers are what they were. -/
theorem header_setAuthorization (r : HttpRequest) (value : Bytes) {m : Bytes}
    (hm : downcase m ≠ ascii "authorization") :
    (r.withHeader (ascii "Authorization") value).header m = r.header m := by
  have hname : downcase (ascii "Authorization") = ascii "authorization" := by decide
  rw [header_withHeader, if_neg (by rw [hname]; exact hm)]

/-! ## The helper -/

theorem signingHelper_of_full {conn : Connection} {r : HttpRequest} {o : RequestOptions}
    {full : Bytes} (hfull : oauthFullRequestUri conn r.path o = .ok full) (c : Consumer)
    (token : Option Token) (g : Generated) :
    signingHelper rt conn r c token o g
      = if oauthBodyHashRequired r o then
          ClientHelper.hashBody rt ⟨amendUserAgent r, o.requestUri.getD full, c, token, o, g⟩
        else .ok ⟨amendUserAgent r, o.requestUri.getD full, c, token, o, g⟩ := by
  rw [signingHelper, oauthHelper, hfull]
  rfl

/-- The helper of `oauth!` is that of the options, but for the body hash. -/
theorem signingHelper_eq_ok {conn : Connection} {r : HttpRequest} {c : Consumer}
    {token : Option Token} {o : RequestOptions} {g : Generated} {helper : ClientHelper}
    (h : signingHelper rt conn r c token o g = .ok helper) :
    ∃ full hash, oauthFullRequestUri conn r.path o = .ok full ∧
      helper = ⟨amendUserAgent r, o.requestUri.getD full, c, token, { o with bodyHash := hash }, g⟩ := by
  rw [signingHelper, Except.bind_eq_ok] at h
  obtain ⟨first, hfirst, h⟩ := h
  rw [oauthHelper, Except.bind_eq_ok] at hfirst
  obtain ⟨full, hfull, hfirst⟩ := hfirst
  rw [Except.ok.injEq] at hfirst
  subst hfirst
  simp only at h
  split at h
  · rw [ClientHelper.hashBody, Except.bind_eq_ok] at h
    obtain ⟨hash, -, h⟩ := h
    exact ⟨full, hash, hfull, (Except.ok.inj h).symm⟩
  · exact ⟨full, o.bodyHash, hfull, (Except.ok.inj h).symm⟩

/-! ## The fields of a request -/

/-- A request whose full URI is found has a query to read. -/
theorem exists_queryParams {conn : Connection} {r : HttpRequest} {o : RequestOptions} {full : Bytes}
    (h : oauthFullRequestUri conn r.path o = .ok full) : ∃ query, r.queryParams = .ok query := by
  obtain ⟨u, hu, -⟩ := Except.bind_eq_ok.1 h
  rw [HttpRequest.queryParams, hu]
  exact ⟨_, rfl⟩

/-- The query string of a request, field by field. -/
theorem cgiFields_queryString {r : HttpRequest} {q : Bytes} (h : r.queryString = .ok q) :
    ∃ query, r.queryParams = .ok query ∧ cgiFields q
      = (query.toList ++ r.authHeaderParams.toList ++ r.postParams.toList).flatMap cgiFields := by
  rw [HttpRequest.queryString, Except.bind_eq_ok] at h
  obtain ⟨query, hquery, h⟩ := h
  refine ⟨query, hquery, ?_⟩
  rw [← Except.ok.inj h, cgiFields_joinWith]
  congr 1
  cases query <;> cases r.authHeaderParams <;> cases r.postParams <;> rfl


theorem queryString_of_query {r : HttpRequest} {query : Option Bytes}
    (hquery : r.queryParams = .ok query) :
    ∃ q, r.queryString = .ok q ∧ cgiFields q = query.toList.flatMap cgiFields ++
      r.authHeaderParams.toList.flatMap cgiFields ++ r.postParams.toList.flatMap cgiFields := by
  obtain ⟨q, hq⟩ : ∃ q, r.queryString = .ok q := by
    rw [HttpRequest.queryString, hquery]
    exact ⟨_, rfl⟩
  obtain ⟨query', hquery', hfields⟩ := cgiFields_queryString hq
  obtain rfl : query = query' := Except.ok.inj (hquery.symm.trans hquery')
  exact ⟨q, hq, by rw [hfields, List.flatMap_append, List.flatMap_append]⟩

/-- The fields that stand in the request itself: those of the query, then those of the body where the
    proxy reads it. -/
def ownFields (r : HttpRequest) (query : Option Bytes) : List (Bytes × Option Bytes) :=
  query.toList.flatMap cgiFields ++ r.postParams.toList.flatMap cgiFields

/-- No parameter of the query or the body is one of OAuth. -/
def NoOauthParameters (r : HttpRequest) : Prop :=
  ∀ query, r.queryParams = .ok query → ∀ f ∈ ownFields r query, startsWith (ascii "oauth_") f.1 = false

/-- The user agent is no concern of the proxy. -/
theorem amendUserAgent_fields (r : HttpRequest) :
    (amendUserAgent r).queryParams = r.queryParams ∧
      (amendUserAgent r).postParams = r.postParams ∧
      (amendUserAgent r).authHeaderParams = r.authHeaderParams := by
  have hform : (amendUserAgent r).formUrlEncoded = r.formUrlEncoded := by
    rw [HttpRequest.formUrlEncoded, header_amendUserAgent r (by decide)]
    rfl
  have hauth : (amendUserAgent r).authHeaderParams = r.authHeaderParams := by
    rw [HttpRequest.authHeaderParams, header_amendUserAgent r (by decide)]
    rfl
  obtain ⟨headers, hagent⟩ := amendUserAgent_eq r
  refine ⟨by rw [hagent]; rfl, ?_, hauth⟩
  rw [HttpRequest.postParams, HttpRequest.postParams, hform, hagent]
  rfl

theorem queryString_amendUserAgent (r : HttpRequest) :
    (amendUserAgent r).queryString = r.queryString := by
  obtain ⟨hquery, hpost, hauth⟩ := amendUserAgent_fields r
  rw [HttpRequest.queryString, HttpRequest.queryString, hquery, hpost, hauth]

/-- Without OAuth parameters added, a name is collected exactly where a field has it. -/
theorem lookup_collected_empty (q k : Bytes) :
    (collected q OrderedHash.empty).lookup k
      = if k ∈ (cgiFields q).map Prod.fst then
          some (.arr ((fieldValues k (cgiFields q)).map Value.str)) else none := by
  have hnone : (OrderedHash.empty : Params).lookup k = none := rfl
  rw [lookup_collected]
  simp only [hnone, lookup_cgiParse]
  split <;> rfl

/-- What the proxy collects where the request is not clobbered. -/
theorem parameters_eq_ok {r : HttpRequest} {so : SignatureOptions} {params : Params}
    (h : (r.proxy so).parameters = .ok params) (hc : so.clobberRequest = false) {added : Params}
    (ha : so.parameters.getD OrderedHash.empty = added) :
    ∃ q, r.queryString = .ok q ∧ params = collected q added := by
  have hall : r.allParameters so = .ok params := by
    have hparams : r.parameters so = .ok params := h
    rwa [HttpRequest.parameters, hc, if_neg Bool.false_ne_true] at hparams
  rw [allParameters_eq, ha] at hall
  cases hq : r.queryString with
  | error e => simp [hq, Except.map] at hall
  | ok q =>
      rw [hq] at hall
      exact ⟨q, rfl, (Except.ok.inj hall).symm⟩

theorem parameters_of_queryString {r : HttpRequest} {so : SignatureOptions} {q : Bytes}
    (hq : r.queryString = .ok q) (hc : so.clobberRequest = false) :
    (r.proxy so).parameters = .ok (collected q (so.parameters.getD OrderedHash.empty)) := by
  have hall : r.allParameters so = .ok (collected q (so.parameters.getD OrderedHash.empty)) := by
    rw [allParameters_eq, hq]
    rfl
  rw [← hall]
  show r.parameters so = _
  rw [HttpRequest.parameters, hc, if_neg Bool.false_ne_true]

/-- A clobbered request is not looked at. -/
theorem parameters_of_clobber (r : HttpRequest) {so : SignatureOptions}
    (hc : so.clobberRequest = true) :
    (r.proxy so).parameters = match so.parameters with
      | some params => .ok params
      | none => .error .noMethodError := by
  show r.parameters so = _
  unfold HttpRequest.parameters
  exact if_pos hc

/-- With text added, an accessor reads the first value under its name, else what is added. -/
theorem oauthParameter_collected {r : HttpRequest} {so : SignatureOptions} {params : Params}
    (hso : so.parameters = some params) (hc : so.clobberRequest = false) {q : Bytes}
    (hq : r.queryString = .ok q) {name : String}
    (ht : ∀ v, params.lookup (ascii name) = some v → ∃ s, v = .str s) :
    (r.proxy so).oauthParameter name
      = .ok (((fieldValues (ascii name) (cgiFields q)).head?.map Value.str).getD
          ((params.lookup (ascii name)).getD .nil)) := by
  rw [Proxy.oauthParameter, parameters_of_queryString hq hc, hso, Option.getD_some, Except.ok_bind,
    lookup_collected]
  cases hv : params.lookup (ascii name) with
  | some v =>
      obtain ⟨s, rfl⟩ := ht v hv
      cases fieldValues (ascii name) (cgiFields q) <;> rfl
  | none =>
      simp only [lookup_cgiParse]
      split
      · cases fieldValues (ascii name) (cgiFields q) <;> rfl
      · next hno =>
          rw [fieldValues_of_not_mem hno]
          rfl

/-! ## The base string -/

theorem flat_of_textParameters {params : Params} (h : TextParameters params) : Flat params := by
  rintro ⟨k, v⟩ he
  rcases h k v (OrderedHash.mem_entries.1 he) with rfl | ⟨s, rfl⟩
  · rfl
  · rfl

/-- Parameters that are collected, or put in the place of those collected, are flat. -/
theorem flat_parameters {r : HttpRequest} {so : SignatureOptions} {params : Params}
    (ht : ∀ ps ∈ so.parameters, TextParameters ps) (h : (r.proxy so).parameters = .ok params) :
    Flat params := by
  by_cases hc : so.clobberRequest = true
  · rw [parameters_of_clobber r hc] at h
    cases hp : so.parameters with
    | none => simp [hp] at h
    | some ps =>
        simp only [hp, Except.ok.injEq] at h
        exact h ▸ flat_of_textParameters (ht ps hp)
  · obtain ⟨q, -, rfl⟩ := parameters_eq_ok h (Bool.not_eq_true _ ▸ hc) rfl
    refine flat_collected q ?_
    cases hp : so.parameters with
    | none => exact textParameters_empty
    | some ps => exact ht ps hp

/-- **The base string of a Net::HTTP request, in its three parts**, whatever the runtime. -/
theorem signatureBaseString_proxy {r : HttpRequest} {so : SignatureOptions}
    (ht : ∀ ps ∈ so.parameters, TextParameters ps) {base : Bytes} :
    (r.proxy so).signatureBaseString rt = .ok base ↔
      ∃ uri params, normalizeUri (so.uri.getD []) = .ok uri ∧ (r.proxy so).parameters = .ok params ∧
        base = joinWith ampersand ([r.method, uri, normalForm (flatPairs
          (params.select (r.proxy so).isSigned).entries)].map escapeBytes) := by
  have hnorm : ∀ params, (r.proxy so).parameters = .ok params →
      (r.proxy so).normalizedParameters rt
        = .ok (normalForm (flatPairs (params.select (r.proxy so).isSigned).entries)) := by
    intro params hparams
    rw [Proxy.normalizedParameters, Proxy.parametersForSignature, hparams, Except.ok_bind,
      Except.ok_bind, normalize_flat (flat_select (flat_parameters ht hparams) _)]
  rw [Proxy.signatureBaseString, Except.bind_eq_ok]
  constructor
  · rintro ⟨uri, huri, h⟩
    obtain ⟨n, hn, h⟩ := Except.bind_eq_ok.1 h
    cases hparams : (r.proxy so).parameters with
    | error e =>
        rw [Proxy.normalizedParameters, Proxy.parametersForSignature, hparams] at hn
        simp at hn
    | ok params =>
        rw [hnorm params hparams, Except.ok.injEq] at hn
        refine ⟨uri, params, huri, rfl, ?_⟩
        rw [← Except.ok.inj h, ← hn]
        rfl
  · rintro ⟨uri, params, huri, hparams, rfl⟩
    refine ⟨uri, huri, ?_⟩
    rw [hnorm params hparams, Except.ok_bind]
    rfl

/-- The runtime is no matter for the base string of such a request. -/
theorem signatureBaseString_runtime (rt' : Runtime) {r : HttpRequest} {so : SignatureOptions}
    (ht : ∀ ps ∈ so.parameters, TextParameters ps) {base : Bytes}
    (h : (r.proxy so).signatureBaseString rt = .ok base) :
    (r.proxy so).signatureBaseString rt' = .ok base :=
  (signatureBaseString_proxy ht).2 ((signatureBaseString_proxy ht).1 h)

theorem ClientHelper.textParameters_of_mem (h : ClientHelper) :
    ∀ ps ∈ (h.signatureOptions h.oauthParameters).parameters, TextParameters ps := by
  intro ps hps
  exact Option.mem_some_iff.1 hps ▸ textParameters_oauthParameters h

/-! ## A request to sign -/

/-- A `GET` of the root. -/
def rootRequest : HttpRequest where
  method := ascii "GET"
  path := ascii "/"
  headers := OrderedHash.empty
  body := none
  bodyStream := none
  requestBodyPermitted := false

def exampleGenerated : Generated := ⟨ascii "n0nce", ascii "1700000000"⟩

end RubyOAuth
