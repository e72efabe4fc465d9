import RubyOAuth.Proofs.LeafOrder
import RubyOAuth.Proofs.ProviderUrl
import RubyOAuth.Proofs.QueryString
import RubyOAuth.Proofs.RackCoverage
import RubyOAuth.Proofs.Resigning
import RubyOAuth.Proofs.SignedPairs

set_option autoImplicit false

/-! # Client and provider

A Net::HTTP request is signed over what `CGI.parse` collects, and verified over what Rack decodes and
what is read of the header. The provider agrees with every digest exactly where the URL that is signed
is the one contacted, the header's parameters come through as they were signed, and of everything else
the two decoders read the same values, in the order of their names. -/

namespace RubyOAuth

open Bytes Uri

variable {rt : Runtime}

/-! ## Delivery -/

/-- The request as Rack hands it on: method, URL, body and the two headers that are read of it.
    `decode` is Rack's parser of queries and form bodies. -/
def HttpRequest.delivered (decode : Bytes → Except RubyError Params) (http : Connection)
    (r : HttpRequest) : RackRequest where
  requestMethod := r.method
  url := contactedUrl http r
  env := OrderedHash.ofList
    ((r.header (ascii "Authorization")).toList.map (fun v => (ascii "HTTP_AUTHORIZATION", v)))
  contentType := r.header (ascii "Content-Type")
  get := decode (queryText r.path)
  post := decode (r.body.getD [])

/-- What Rack decodes of body and query. -/
def RackRequest.decodedParameters (r : RackRequest) : Except RubyError Params := do
  let requestParams ← r.requestParams
  let queryParams ← r.queryParams
  .ok (requestParams.merge queryParams)

/-! ## What the provider reads of the header -/

theorem hasOauthLine_of_plainName {k : Bytes} (hk : PlainName k)
    (ho : startsWith (ascii "oauth_") k = true) : hasOauthLine k = true := by
  rw [hasOauthLine, splitOn_newline (fun h => (hk.class h).2.2.2.2.2 rfl), List.any_cons, ho]
  rfl

section

variable (rt) (decode : Bytes → Except RubyError Params) (http : Connection) (r : HttpRequest)
  (helper : ClientHelper)

/-- The signed request on the provider's side. -/
def ClientHelper.arrived (s : Bytes) : RackRequest :=
  (helper.request.withHeader (ascii "Authorization") (helper.headerWith rt s)).delivered decode http

theorem lookup_env_arrived (s n : Bytes) :
    (helper.arrived rt decode http s).env.lookup n
      = if n = ascii "HTTP_AUTHORIZATION" then some (helper.headerWith rt s) else none := by
  have henv : (helper.arrived rt decode http s).env
      = OrderedHash.ofList [(ascii "HTTP_AUTHORIZATION", helper.headerWith rt s)] := by
    rw [ClientHelper.arrived, HttpRequest.delivered, header_withHeader, if_pos rfl]
    rfl
  rw [henv, OrderedHash.lookup_ofList, List.reverse_singleton, OrderedHash.findEntry]
  by_cases hn : n = ascii "HTTP_AUTHORIZATION"
  · rw [if_pos hn, if_pos hn.symm]
  · rw [if_neg hn, if_neg (Ne.symm hn)]
    rfl

theorem oauthHeader_arrived (s : Bytes) :
    (helper.arrived rt decode http s).oauthHeader = some (helper.headerWith rt s) := by
  have htake : (helper.headerWith rt s).take 6 = ascii "OAuth " := by
    rw [ClientHelper.headerWith, ClientHelper.headerText, List.append_assoc]
    rfl
  have hother : ascii "X-HTTP_AUTHORIZATION" ≠ ascii "HTTP_AUTHORIZATION" ∧
      ascii "Authorization" ≠ ascii "HTTP_AUTHORIZATION" := by decide
  simp only [RackRequest.oauthHeader, List.filterMap_cons, List.filterMap_nil, lookup_env_arrived,
    if_neg hother.1, if_neg hother.2, if_pos]
  rw [List.find?_cons_of_pos]
  rw [htake]
  rfl

theorem method_arrived (s : Bytes) :
    (helper.arrived rt decode http s).method = helper.request.method := by
  rw [RackRequest.method, lookup_env_arrived, if_neg (by decide)]
  rfl

/-- The provider reads each parameter that was written, as it comes out of its quotes. -/
theorem headerParams_arrived (hrealm : helper.options.realm = none) (s : Bytes) :
    ∃ hdr, (helper.arrived rt decode http s).headerParams = .ok hdr ∧ ∀ k, hdr.lookup k
      = ((helper.oauthParameters.set (ascii "oauth_signature") (.str s)).lookup k).map
          (fun v => stripQuotes (quoted (v.toS rt))) := by
  have hplain := helper.plainName_of_lookup_signed s
  obtain ⟨hdr, hparse, hlook⟩ := ClientHelper.parseHeader_headerText rt hrealm hplain
  refine ⟨hdr.select hasOauthLine, ?_, fun k => ?_⟩
  · rw [RackRequest.headerParams, oauthHeader_arrived]
    exact Except.bind_eq_ok.2 ⟨hdr, hparse, rfl⟩
  · rw [OrderedHash.lookup_select, hlook]
    cases hv : (helper.oauthParameters.set (ascii "oauth_signature") (.str s)).lookup k with
    | none => simp
    | some v =>
        have hline : hasOauthLine k = true := by
          refine hasOauthLine_of_plainName (hplain k v hv) ?_
          rw [OrderedHash.lookup_set] at hv
          split at hv
          · next hk =>
              rw [hk]
              decide
          · exact (ClientHelper.name_of_lookup hv).2.1
        rw [if_pos hline]

/-- What the provider signs: the parameters of the header over those that were decoded. -/
def ClientHelper.receivedParameters (rack : Params) : Params :=
  (rack.merge (helper.oauthParameters.mapValues
    (fun v => .str (stripQuotes (quoted (v.toS rt)))))).select (fun k => k != ascii "oauth_signature")

/-- The header leaves alone what is decoded. -/
theorem decodedParameters_arrived (s : Bytes) :
    (helper.arrived rt decode http s).decodedParameters
      = (helper.request.delivered decode http).decodedParameters := by
  have htype : (helper.arrived rt decode http s).requestParams
      = (helper.request.delivered decode http).requestParams := by
    simp only [RackRequest.requestParams, ClientHelper.arrived, HttpRequest.delivered,
      header_setAuthorization _ _ (show downcase (ascii "Content-Type") ≠ ascii "authorization" by decide)]
    rfl
  rw [RackRequest.decodedParameters, RackRequest.decodedParameters, htype]
  rfl

/-- A base string that the provider computes for the signed request. -/
def ClientHelper.ReceivesBase (base : Bytes) : Prop :=
  ∃ rack uri ss, (helper.request.delivered decode http).decodedParameters = .ok rack ∧
    normalizeUri (contactedUrl http helper.request) = .ok uri ∧
    listing rt (helper.receivedParameters rt rack) = .ok ss ∧
    base = joinWith ampersand ([helper.request.method, uri, joinWith ampersand ss].map escapeBytes)

end

/-! ## What the provider verifies -/

section

variable {decode : Bytes → Except RubyError Params} {http : Connection} {helper : ClientHelper}

/-- The parameters of the signed request, name by name. -/
theorem parameters_arrived (hrealm : helper.options.realm = none) (s : Bytes) {so : SignatureOptions}
    (hc : so.clobberRequest = false) (hp : so.parameters = none) {rack : Params}
    (hrack : (helper.arrived rt decode http s).decodedParameters = .ok rack) :
    ∃ all, ((helper.arrived rt decode http s).proxy so).parameters = .ok all ∧ ∀ k, all.lookup k
      = (((helper.oauthParameters.set (ascii "oauth_signature") (.str s)).lookup k).map
          (fun v => Value.str (stripQuotes (quoted (v.toS rt))))).or (rack.lookup k) := by
  obtain ⟨hdr, hhdr, hlook⟩ := headerParams_arrived rt decode http helper hrealm s
  obtain ⟨requestParams, hrequest, hrack⟩ := Except.bind_eq_ok.1 hrack
  obtain ⟨queryParams, hquery, hrack⟩ := Except.bind_eq_ok.1 hrack
  have hparams : (helper.arrived rt decode http s).parameters so
      = .ok (((requestParams.merge queryParams).merge (hdr.mapValues Value.str)).merge
        (so.parameters.getD OrderedHash.empty)) := by
    rw [RackRequest.parameters, hc, if_neg Bool.false_ne_true, hrequest, hquery, hhdr]
    rfl
  refine ⟨_, hparams, fun k => ?_⟩
  rw [hp, OrderedHash.lookup_merge, OrderedHash.lookup_merge, OrderedHash.lookup_mapValues, hlook,
    Except.ok.inj hrack]
  simp [Option.map_map, Function.comp_def]

/-- Without decoded parameters the provider has none at all. -/
theorem parameters_arrived_error (s : Bytes) {so : SignatureOptions} (hc : so.clobberRequest = false)
    {e : RubyError} (hrack : (helper.arrived rt decode http s).decodedParameters = .error e) :
    ∃ e', ((helper.arrived rt decode http s).proxy so).parameters = .error e' := by
  have hparams : ((helper.arrived rt decode http s).proxy so).parameters
      = (helper.arrived rt decode http s).parameters so := rfl
  rw [hparams, RackRequest.parameters, hc, if_neg Bool.false_ne_true]
  rw [RackRequest.decodedParameters] at hrack
  cases hrequest : (helper.arrived rt decode http s).requestParams with
  | error e' => exact ⟨e', rfl⟩
  | ok requestParams =>
      cases hquery : (helper.arrived rt decode http s).queryParams with
      | error e' => exact ⟨e', rfl⟩
      | ok queryParams => simp [hrequest, hquery] at hrack

/-- The base string of the provider is that of the parameters received. -/
theorem signatureBaseString_arrived (hrealm : helper.options.realm = none) (s : Bytes)
    {so : SignatureOptions} (hc : so.clobberRequest = false) (hp : so.parameters = none)
    (hu : so.unsignedParameters = none) {rack : Params}
    (hrack : (helper.arrived rt decode http s).decodedParameters = .ok rack) {rt' : Runtime}
    (hi : rt'.inspect = rt.inspect) {base : Bytes} :
    ((helper.arrived rt decode http s).proxy so).signatureBaseString rt' = .ok base ↔
      ∃ uri ss, normalizeUri (contactedUrl http helper.request) = .ok uri ∧
        listing rt (helper.receivedParameters rt rack) = .ok ss ∧
        base = joinWith ampersand ([helper.request.method, uri, joinWith ampersand ss].map
          escapeBytes) := by
  obtain ⟨all, hall, hlook⟩ := parameters_arrived hrealm s hc hp hrack
  have hnormal : ((helper.arrived rt decode http s).proxy so).normalizedParameters rt'
      = (listing rt (helper.receivedParameters rt rack)).map (joinWith ampersand) := by
    rw [Proxy.normalizedParameters, Proxy.parametersForSignature, hall, Except.ok_bind, Except.ok_bind,
      normalize_eq_listing, listing_congr_inspect hi]
    congr 1
    refine listing_congr rt fun k => ?_
    rw [ClientHelper.receivedParameters, OrderedHash.lookup_select, OrderedHash.lookup_select, hlook,
      OrderedHash.lookup_merge, OrderedHash.lookup_mapValues, OrderedHash.lookup_set]
    have hsigned : ((helper.arrived rt decode http s).proxy so).isSigned k
        = (k != ascii "oauth_signature") := RackRequest.isSigned_eq (by rw [hu]; rfl) k
    rw [hsigned]
    by_cases hk : k = ascii "oauth_signature"
    · simp [hk]
    · rw [if_neg hk]
  have huri : ((helper.arrived rt decode http s).proxy so).normalizedUri
      = normalizeUri (contactedUrl http helper.request) := rfl
  have hmethod : ((helper.arrived rt decode http s).proxy so).method = helper.request.method :=
    method_arrived rt decode http helper s
  rw [Proxy.signatureBaseString, huri, hnormal, hmethod, Except.bind_eq_ok]
  constructor
  · rintro ⟨uri, huri, h⟩
    cases hl : listing rt (helper.receivedParameters rt rack) with
    | error e => simp [hl, Except.map] at h
    | ok ss =>
        rw [hl] at h
        exact ⟨uri, ss, huri, rfl, (Except.ok.inj h).symm⟩
  · rintro ⟨uri, ss, huri, hl, rfl⟩
    refine ⟨uri, huri, ?_⟩
    rw [hl]
    rfl

/-- The key of the shared secrets. -/
def secretKey (c : Consumer) (token : Option Token) : Bytes :=
  escapeBytes c.secret.toS ++ ampersand :: escapeBytes ((token.map Token.secret).getD .nil).toS

/-- **The provider verifies a signature over the base string that it computes.** -/
theorem verify_arrived_iff (hrealm : helper.options.realm = none)
    (hmethod : downcase helper.signatureMethod = ascii "hmac-sha1") {s : Bytes} (hs : newline ∉ s)
    (c : Consumer) (token : Option Token) (mac : SignatureMethod → Bytes → Bytes → Bytes)
    {so : SignatureOptions} (hso : so = { consumer := some c, token := token }) :
    verify (rt.withMac mac) ((helper.arrived rt decode http s).proxy so) so = .ok true ↔
      ∃ base, helper.ReceivesBase rt decode http base ∧
        s = encodeDigest rt (mac .hmacSha1 (secretKey c token) base) := by
  have hc : so.clobberRequest = false := by rw [hso]
  have hp : so.parameters = none := by rw [hso]
  have hu : so.unsignedParameters = none := by rw [hso]
  have hsame := decodedParameters_arrived rt decode http helper s
  cases hrack : (helper.arrived rt decode http s).decodedParameters with
  | error e =>
      obtain ⟨e', he'⟩ := parameters_arrived_error s hc hrack
      constructor
      · intro h
        obtain ⟨params, hparams⟩ := parameters_of_verify h
        rw [he'] at hparams
        simp at hparams
      · rintro ⟨base, ⟨rack, -, -, hrack', -⟩, -⟩
        rw [← hsame, hrack] at hrack'
        simp at hrack'
  | ok rack =>
      obtain ⟨all, hall, hlook⟩ := parameters_arrived hrealm s hc hp hrack
      have hne := ne_nil_of_downcase hmethod (by decide)
      have hline : newline ∉ helper.signatureMethod := by
        rw [← mem_downcase_iff (by decide), hmethod]
        decide
      have hname : ((helper.arrived rt decode http s).proxy so).oauthSignatureMethod
          = .ok (.str helper.signatureMethod) := by
        have hvalue := hlook (ascii "oauth_signature_method")
        rw [OrderedHash.lookup_set, if_neg (by decide),
          ClientHelper.lookup_oauthSignatureMethod hne, Option.map_some, Value.toS,
          (stripQuotes_quoted_iff _).2 hline] at hvalue
        rw [Proxy.oauthSignatureMethod, Proxy.oauthParameter, hall, Except.ok_bind, hvalue]
        rfl
      have hsignature : ((helper.arrived rt decode http s).proxy so).oauthSignature = .ok (.str s) := by
        have hvalue := hlook (ascii "oauth_signature")
        rw [OrderedHash.lookup_set, if_pos rfl, Option.map_some, Value.toS,
          (stripQuotes_quoted_iff _).2 hs] at hvalue
        rw [Proxy.oauthSignature, Proxy.oauthParameter, hall, Except.ok_bind, hvalue]
        rfl
      have hbuild : build ((helper.arrived rt decode http s).proxy so) so none
          = .ok ⟨.hmacSha1, (helper.arrived rt decode http s).proxy so, so, c.secret,
              (token.map Token.secret).getD .nil⟩ := by
        have hm : availableMethod (downcase helper.signatureMethod) = some .hmacSha1 := by
          rw [hmethod]
          decide
        refine build_eq_ok.2 ⟨_, .hmacSha1, ((token.map Token.secret).getD .nil, c.secret),
          methodName_of_str hname hm, hm, ?_, rfl⟩
        rw [hso]
        rfl
      have hbase : ∀ base, ((helper.arrived rt decode http s).proxy so).signatureBaseString
          (rt.withMac mac) = .ok base ↔ helper.ReceivesBase rt decode http base := by
        intro base
        have hprint : (rt.withMac mac).inspect = rt.inspect := rfl
        rw [signatureBaseString_arrived hrealm s hc hp hu hrack hprint]
        constructor
        · rintro ⟨uri, ss, huri, hss, hbase⟩
          exact ⟨rack, uri, ss, hsame.symm.trans hrack, huri, hss, hbase⟩
        · rintro ⟨rack', uri, ss, hrack', huri, hss, hbase⟩
          obtain rfl : rack = rack' := Except.ok.inj (hrack.symm.trans (hsame.trans hrack'))
          exact ⟨uri, ss, huri, hss, hbase⟩
      rw [verify, hbuild, Except.ok_bind, Signature.verify, hsignature, Except.ok_bind,
        equals_keyed_iff (by decide), KeyedSignature]
      simp only [Value.str.injEq, hbase]
      rfl

end

/-! ## What the client signs -/

namespace ClientHelper

/-- The fields of the request itself that are signed. -/
def signedFields (h : ClientHelper) (query : Option Bytes) : List (Bytes × Option Bytes) :=
  if h.options.clobberRequest then [] else ownFields h.request query

/-- The values that the client signs under a name. -/
def signedValues (h : ClientHelper) (query : Option Bytes) (k : Bytes) : List Bytes :=
  if k ∈ h.options.unsignedParameters.getD [] ∨ k = ascii "oauth_signature" then []
  else collectedValues (h.signedFields query) h.oauthParameters k

/-- Clobbered or not, the parameters have the values of the fields with those of OAuth added. -/
theorem exists_collected {h : ClientHelper} (hauth : h.request.authHeaderParams = none)
    {query : Option Bytes} (hquery : h.request.queryParams = .ok query) :
    ∃ params, (h.request.proxy (h.signatureOptions h.oauthParameters)).parameters = .ok params ∧
      ∀ k, valuesOf k (flatPairs params.entries)
        = collectedValues (h.signedFields query) h.oauthParameters k := by
  have htext := textParameters_oauthParameters h
  by_cases hc : h.options.clobberRequest = true
  · refine ⟨h.oauthParameters, parameters_of_clobber _ hc, fun k => ?_⟩
    · rw [valuesOf_flatPairs_lookup, signedFields, if_pos hc]
      unfold collectedValues
      cases hl : h.oauthParameters.lookup k with
      | none => simp
      | some v =>
          rcases htext k v hl with rfl | ⟨s, rfl⟩
          · rfl
          · rfl
  · rw [Bool.not_eq_true] at hc
    obtain ⟨q, hq, hfields⟩ := queryString_of_query hquery
    refine ⟨_, parameters_of_queryString hq hc, fun k => ?_⟩
    rw [hauth, Option.toList_none, List.flatMap_nil, List.append_nil] at hfields
    rw [show (h.signatureOptions h.oauthParameters).parameters.getD OrderedHash.empty
      = h.oauthParameters from rfl, valuesOf_collected q htext, hfields, signedFields, hc]
    rfl

theorem isSigned_eq {h : ClientHelper} {k : Bytes} :
    (h.request.proxy (h.signatureOptions h.oauthParameters)).isSigned k = true ↔
      ¬ (k ∈ h.options.unsignedParameters.getD [] ∨ k = ascii "oauth_signature") := by
  have hnames : (h.request.proxy (h.signatureOptions h.oauthParameters)).signatureAndUnsignedParameters
      = h.options.unsignedParameters.getD [] ++ [ascii "oauth_signature"] := rfl
  rw [Proxy.isSigned, hnames, Bool.not_eq_true', List.contains_eq_mem, decide_eq_false_iff_not,
    List.mem_append, List.mem_singleton]

/-- **The base string of the client is that of the values signed.** -/
theorem signatureBaseString_signed {h : ClientHelper} (hauth : h.request.authHeaderParams = none)
    {query : Option Bytes} (hquery : h.request.queryParams = .ok query) {rt : Runtime} {base : Bytes}
    (hbase : (h.request.proxy (h.signatureOptions h.oauthParameters)).signatureBaseString rt
      = .ok base) :
    ∃ uri ps, normalizeUri h.requestUri = .ok uri ∧ (∀ k, valuesOf k ps = h.signedValues query k) ∧
      base = joinWith ampersand ([h.request.method, uri, normalForm ps].map escapeBytes) := by
  have ht : ∀ ps ∈ (h.signatureOptions h.oauthParameters).parameters, TextParameters ps := by
    intro ps hps
    exact Option.mem_some_iff.1 hps ▸ textParameters_oauthParameters h
  obtain ⟨uri, params, huri, hparams, rfl⟩ := (signatureBaseString_proxy ht).1 hbase
  obtain ⟨params', hparams', hvalues⟩ := exists_collected hauth hquery
  obtain rfl : params = params' := Except.ok.inj (hparams.symm.trans hparams')
  refine ⟨uri, _, huri, fun k => ?_, rfl⟩
  rw [valuesOf_select, hvalues, signedValues]
  by_cases hk : k ∈ h.options.unsignedParameters.getD [] ∨ k = ascii "oauth_signature"
  · rw [if_pos hk, if_neg (fun hs => isSigned_eq.1 hs hk)]
  · rw [if_neg hk, if_pos (isSigned_eq.2 hk)]

end ClientHelper

/-! ## One list on both sides -/

/-- The name of an OAuth parameter. -/
def ClientHelper.isSent (h : ClientHelper) (k : Bytes) : Bool := (h.oauthParameters.lookup k).isSome

/-- The names that the header does not carry. -/
def ClientHelper.isOther (h : ClientHelper) (k : Bytes) : Bool :=
  !h.isSent k && k != ascii "oauth_signature"

namespace ClientHelper

variable {h : ClientHelper} {rack : Params} {ps : List (Bytes × Bytes)}

theorem lookup_receivedParameters {k : Bytes} {v : Value} (hv : h.oauthParameters.lookup k = some v) :
    (h.receivedParameters rt rack).lookup k = some (.str (stripQuotes (quoted (v.toS rt)))) := by
  rw [receivedParameters, OrderedHash.lookup_select, OrderedHash.lookup_merge,
    OrderedHash.lookup_mapValues, hv, if_pos (bne_iff_ne.2 (name_of_lookup hv).2.2)]
  rfl

/-- **The provider lists the pairs of the client exactly where the header's parameters come through
    alone, and what was decoded lists the rest.** -/
theorem listing_received_iff :
    listing rt (h.receivedParameters rt rack) = .ok (segments (sortPairs ps)) ↔
      (∀ k v, h.oauthParameters.lookup k = some v →
        valuesOf k ps = [stripQuotes (quoted (v.toS rt))]) ∧
      listing rt (rack.select h.isOther)
        = .ok (segments (sortPairs (ps.filter (fun p => !h.isSent p.1)))) := by
  have hname : ∀ k, h.isSent k = true → k ≠ [] ∧ ∀ b ∈ k, lbracket < b := by
    intro k hk
    obtain ⟨v, hv⟩ := Option.isSome_iff_exists.1 hk
    have hletter : ∀ b, (isLower b || b == underscore) = true → lbracket < b := by
      grind [isLower]
    refine ⟨?_, fun b hb => hletter b ((name_of_lookup hv).1 b hb)⟩
    rintro rfl
    exact absurd (name_of_lookup hv).2.1 (by decide)
  have hstr : ∀ k, h.isSent k = true → ∃ s, (h.receivedParameters rt rack).lookup k
      = some (.str s) := by
    intro k hk
    obtain ⟨v, hv⟩ := Option.isSome_iff_exists.1 hk
    exact ⟨_, lookup_receivedParameters hv⟩
  have hrest : listing rt ((h.receivedParameters rt rack).select (fun k => !h.isSent k))
      = listing rt (rack.select h.isOther) := by
    refine listing_congr rt fun k => ?_
    rw [OrderedHash.lookup_select, OrderedHash.lookup_select, receivedParameters,
      OrderedHash.lookup_select, OrderedHash.lookup_merge, OrderedHash.lookup_mapValues, isOther,
      isSent]
    by_cases hk : k = ascii "oauth_signature"
    · simp [hk]
    · cases hv : h.oauthParameters.lookup k <;> simp [hk]
  rw [listing_eq_iff hname hstr, hrest]
  refine and_congr_left' ⟨fun hall k v hv => ?_, fun hall k t hk ht => ?_⟩
  · exact hall k _ (Option.isSome_iff_exists.2 ⟨v, hv⟩) (lookup_receivedParameters hv)
  · obtain ⟨v, hv⟩ := Option.isSome_iff_exists.1 hk
    rw [lookup_receivedParameters hv, Option.some.injEq, Value.str.injEq] at ht
    rw [hall k v hv, ht]

/-- Two lists that join to one text are one, if one of them has a parameter of OAuth. -/
theorem joinWith_received_iff {k : Bytes} {v : Value} (hv : h.oauthParameters.lookup k = some v)
    {ss : List Bytes} (hss : listing rt (h.receivedParameters rt rack) = .ok ss) :
    joinWith ampersand ss = normalForm ps ↔ ss = segments (sortPairs ps) := by
  have hparts : ∀ s ∈ ss, ampersand ∉ s := by
    intro s hs
    obtain ⟨hall, rfl⟩ := listing_eq_ok.1 hss
    obtain ⟨e, he, hse⟩ := List.mem_flatMap.1 hs
    obtain ⟨items, hitems⟩ := hall e he
    rcases name_of_mem_entrySegments hitems hse with rfl | ⟨n, w, rfl, -⟩
    · simp
    · exact ampersand_not_mem_segment n w
  have hparts' : ∀ s ∈ segments (sortPairs ps), ampersand ∉ s := by
    intro s hs
    obtain ⟨p, -, rfl⟩ := List.mem_map.1 hs
    exact ampersand_not_mem_segment p.1 p.2
  have hmem : segment k (stripQuotes (quoted (v.toS rt))) ∈ ss := by
    obtain ⟨-, rfl⟩ := listing_eq_ok.1 hss
    refine List.mem_flatMap.2 ⟨(k, .str (stripQuotes (quoted (v.toS rt)))), ?_, ?_⟩
    · rw [OrderedHash.mem_sortedEntries, lookup_receivedParameters hv]
    · rw [entrySegments_str]
      exact List.mem_singleton_self _
  have hne : ss ≠ [] := List.ne_nil_of_mem hmem
  constructor
  · intro hj
    by_cases hnil : segments (sortPairs ps) = []
    · -- nothing but an empty segment joins to nothing
      have hempty : joinWith ampersand ss = [] := by
        rw [hj, normalForm]
        show joinWith ampersand (segments (sortPairs ps)) = []
        rw [hnil, joinWith_nil]
      have hsplit := splitOn_joinWith hparts hne
      rw [hempty] at hsplit
      rw [← hsplit] at hmem
      exact absurd (List.mem_singleton.1 hmem) (segment_ne_nil _ _)
    · exact (joinWith_inj_of_ne hparts hparts' hne hnil).1 hj
  · rintro rfl
    rfl

/-! ## Where the two sides agree -/

/-- The values that the client signs under a name besides those of OAuth. -/
def otherValues (h : ClientHelper) (query : Option Bytes) (k : Bytes) : List Bytes :=
  if h.isOther k = true ∧ k ∉ h.options.unsignedParameters.getD [] then
    collectedValues (h.signedFields query) OrderedHash.empty k
  else []

/-- Every OAuth parameter is signed, stands on one line, and has no value in the request itself. -/
def SentAlone (h : ClientHelper) (query : Option Bytes) : Prop :=
  ∀ k v, h.oauthParameters.lookup k = some v → k ∉ h.options.unsignedParameters.getD [] ∧
    ∀ s, v = .str s → newline ∉ s ∧ fieldValues k (h.signedFields query) = []

/-- The client signs each OAuth parameter as the provider reads it. -/
theorem sentAlone_iff {query : Option Bytes} (hps : ∀ k, valuesOf k ps = h.signedValues query k) :
    (∀ k v, h.oauthParameters.lookup k = some v →
      valuesOf k ps = [stripQuotes (quoted (v.toS rt))]) ↔ h.SentAlone query := by
  refine forall_congr' fun k => forall_congr' fun v => imp_congr_right fun hv => ?_
  have hsig : k ≠ ascii "oauth_signature" := (name_of_lookup hv).2.2
  rw [hps, signedValues]
  by_cases hk : k ∈ h.options.unsignedParameters.getD []
  · rw [if_pos (.inl hk)]
    simp [hk]
  · rw [if_neg (by simp [hk, hsig])]
    rcases textParameters_oauthParameters h k v hv with rfl | ⟨s, rfl⟩
    · simp only [collectedValues, hv]
      simp [hk, Value.toS, (stripQuotes_quoted_iff []).2]
    · simp only [collectedValues, hv, Value.toS]
      constructor
      · intro heq
        -- one value only, so nothing stands before the parameter
        have hnil : fieldValues k (h.signedFields query) = [] := by
          have hlen := congrArg List.length heq
          simp only [List.length_append, List.length_singleton] at hlen
          exact List.length_eq_zero_iff.1 (by omega)
        rw [hnil, List.nil_append, List.singleton_inj] at heq
        refine ⟨hk, fun s' hs' => ?_⟩
        obtain rfl : s = s' := Value.str.inj hs'
        exact ⟨(stripQuotes_quoted_iff s).1 heq.symm, hnil⟩
      · rintro ⟨-, hone⟩
        obtain ⟨hline, hnil⟩ := hone s rfl
        rw [hnil, (stripQuotes_quoted_iff s).2 hline, List.nil_append]

/-- The other pairs, name by name. -/
theorem valuesOf_filter_isSent {query : Option Bytes}
    (hps : ∀ k, valuesOf k ps = h.signedValues query k) (k : Bytes) :
    valuesOf k (ps.filter (fun p => !h.isSent p.1)) = h.otherValues query k := by
  have hfilter : valuesOf k (ps.filter (fun p => !h.isSent p.1))
      = if h.isSent k = true then [] else valuesOf k ps := by
    rw [valuesOf, valuesOf, List.filter_filter]
    split
    · next hk =>
        rw [List.map_eq_nil_iff, List.filter_eq_nil_iff]
        rintro p - hp
        rw [Bool.and_eq_true, decide_eq_true_eq, Bool.not_eq_true'] at hp
        rw [hp.1, hk] at hp
        exact absurd hp.2 (by decide)
    · next hk =>
        congr 1
        refine List.filter_congr fun p _ => ?_
        by_cases hp : p.1 = k
        · simpa [hp] using hk
        · simp [hp]
  rw [hfilter, hps, signedValues, otherValues, isOther]
  cases hv : h.oauthParameters.lookup k with
  | some v => simp [isSent, hv]
  | none =>
      have hsame : collectedValues (h.signedFields query) h.oauthParameters k
          = collectedValues (h.signedFields query) OrderedHash.empty k := by
        simp only [collectedValues, hv]
        rfl
      rw [hsame]
      by_cases hk : k = ascii "oauth_signature" <;> by_cases hu :
        k ∈ h.options.unsignedParameters.getD [] <;> simp [isSent, hv, hk, hu]

end ClientHelper

section

variable (rt) (decode : Bytes → Except RubyError Params) (http : Connection) (a : Bytes)
  (helper : ClientHelper)

/-- Client and provider see the same request: the URL contacted is signed, every OAuth parameter is sent
    alone, and what is decoded under other names lists the other values that are signed. -/
structure Agrees (query : Option Bytes) : Prop where
  url : SignsUrl http a helper.request.path helper.options
  sent : helper.SentAlone query
  decoded : ∃ rack, (helper.request.delivered decode http).decodedParameters = .ok rack ∧
    ListsValues rt (rack.select helper.isOther) (helper.otherValues query)

end

section

variable {decode : Bytes → Except RubyError Params} {http : Connection} {helper : ClientHelper}

/-- Where strings are decoded, and arrays of strings, they only have to be the same name by name. -/
theorem listsValues_of_flat (rt : Runtime) {query : Option Bytes} {rack : Params} (hflat : Flat rack) :
    ListsValues rt (rack.select helper.isOther) (helper.otherValues query) ↔
      ∀ k, helper.isOther k = true →
        (valuesOf k (flatPairs rack.entries)).Perm (helper.otherValues query k) := by
  have hselect : ∀ k, valuesOf k (flatPairs (rack.select helper.isOther).entries)
      = if helper.isOther k then valuesOf k (flatPairs rack.entries) else [] :=
    valuesOf_select helper.isOther rack
  rw [← listing_pairs_iff, listing_flat (flat_select hflat _)]
  constructor
  · rintro ⟨ps, hps, hvalues⟩ k hk
    have hsort := congrArg (List.map segmentPair) (Except.ok.inj hps)
    rw [map_segmentPair_segments, map_segmentPair_segments, sortPairs_eq_iff,
      perm_iff_valuesOf] at hsort
    have hk' := hsort k
    rw [hselect, if_pos hk] at hk'
    exact hk'.trans (hvalues k)
  · intro h
    refine ⟨_, rfl, fun k => ?_⟩
    rw [hselect]
    by_cases hk : helper.isOther k = true
    · rw [if_pos hk]
      exact h k hk
    · rw [if_neg hk, ClientHelper.otherValues, if_neg (fun hb => hk hb.1)]

/-- **The provider computes the base string of the client exactly where the two see the same.** -/
theorem receivesBase_iff (hauth : helper.request.authHeaderParams = none) {query : Option Bytes}
    (hquery : helper.request.queryParams = .ok query) (hne : helper.signatureMethod ≠ [])
    {a full : Bytes} (ha : http.address = some a)
    (hfull : oauthFullRequestUri http helper.request.path helper.options = .ok full)
    (hrequest : helper.requestUri = helper.options.requestUri.getD full)
    {rt' : Runtime} {base : Bytes}
    (hbase : (helper.request.proxy
      (helper.signatureOptions helper.oauthParameters)).signatureBaseString rt' = .ok base) :
    helper.ReceivesBase rt decode http base ↔ Agrees rt decode http a helper query := by
  obtain ⟨uri, ps, huri, hps, rfl⟩ := ClientHelper.signatureBaseString_signed hauth hquery hbase
  have hmethod := ClientHelper.lookup_oauthSignatureMethod hne
  have hother := ClientHelper.valuesOf_filter_isSent hps
  have hurl := signsUrl_iff (o := helper.options) ha hfull
  rw [← hrequest] at hurl
  constructor
  · rintro ⟨rack, uri', ss, hrack, huri', hss, heq⟩
    obtain ⟨-, rfl, hjoin⟩ := baseString_inj.1 heq
    rw [eq_comm, ClientHelper.joinWith_received_iff hmethod hss] at hjoin
    subst hjoin
    obtain ⟨hsent, hrest⟩ := ClientHelper.listing_received_iff.1 hss
    refine ⟨hurl.1 ⟨uri, huri, huri'⟩, (ClientHelper.sentAlone_iff hps).1 hsent, rack, hrack,
      listing_pairs_iff.1 ⟨_, hrest, fun k => ?_⟩⟩
    rw [hother]
  · rintro ⟨hsigns, hsent, rack, hrack, hlists⟩
    obtain ⟨uri', huri₁, huri₂⟩ := hurl.2 hsigns
    obtain ⟨qs, hrest, hqs⟩ := listing_pairs_iff.2 hlists
    obtain rfl : uri = uri' := Except.ok.inj (huri.symm.trans huri₁)
    -- the two lists of other pairs are one, once sorted
    have hsort : sortPairs qs = sortPairs (ps.filter (fun p => !helper.isSent p.1)) := by
      rw [sortPairs_eq_iff, perm_iff_valuesOf]
      intro k
      rw [hother]
      exact hqs k
    rw [hsort] at hrest
    have hlist := ClientHelper.listing_received_iff.2
      ⟨(ClientHelper.sentAlone_iff hps).2 hsent, hrest⟩
    exact ⟨rack, uri, _, hrack, huri₂, hlist, rfl⟩

/-- Where no field has a value for it, the client reads the method that it sends. -/
theorem methodName_of_sentAlone (hauth : helper.request.authHeaderParams = none)
    {query : Option Bytes} (hquery : helper.request.queryParams = .ok query)
    (hne : helper.signatureMethod ≠ []) (hsent : helper.SentAlone query) {m : SignatureMethod}
    (hm : availableMethod (downcase helper.signatureMethod) = some m) :
    methodName (helper.request.proxy (helper.signatureOptions helper.oauthParameters))
      = .ok (downcase helper.signatureMethod) := by
  have hvalue := ClientHelper.lookup_oauthSignatureMethod hne
  have hnil : fieldValues (ascii "oauth_signature_method") (helper.signedFields query) = [] :=
    ((hsent _ _ hvalue).2 _ rfl).2
  refine methodName_of_str ?_ hm
  by_cases hc : helper.options.clobberRequest = true
  · rw [Proxy.oauthSignatureMethod, Proxy.oauthParameter, parameters_of_clobber _ hc]
    simp only [ClientHelper.signatureOptions, Except.ok_bind, hvalue]
    rfl
  · rw [Bool.not_eq_true] at hc
    obtain ⟨q, hq, hfields⟩ := queryString_of_query hquery
    rw [hauth, Option.toList_none, List.flatMap_nil, List.append_nil] at hfields
    rw [ClientHelper.signedFields, hc, if_neg Bool.false_ne_true, ownFields, ← hfields] at hnil
    rw [oauthSignatureMethod_proxy hne rfl hc hq, firstMethod, hnil]
    rfl

/-- The signature that the client puts into the header, for any digest. -/
theorem sign_withMac_iff (hauth : helper.request.authHeaderParams = none) {query : Option Bytes}
    (hquery : helper.request.queryParams = .ok query)
    (hmethod : downcase helper.signatureMethod = ascii "hmac-sha1") (hsent : helper.SentAlone query)
    {c : Consumer} {token : Option Token} (hc : helper.consumer = c) (ht : helper.token = token)
    {mac : SignatureMethod → Bytes → Bytes → Bytes} {s : Bytes} :
    sign (rt.withMac mac) (helper.request.proxy (helper.signatureOptions helper.oauthParameters))
        (helper.signatureOptions helper.oauthParameters) = .ok s ↔
      ∃ base, (helper.request.proxy (helper.signatureOptions helper.oauthParameters)).signatureBaseString
          (rt.withMac mac) = .ok base ∧ s = encodeDigest rt (mac .hmacSha1 (secretKey c token) base) := by
  have hne := ne_nil_of_downcase hmethod (by decide)
  have hm : availableMethod (downcase helper.signatureMethod) = some .hmacSha1 := by
    rw [hmethod]
    decide
  have hname := methodName_of_sentAlone hauth hquery hne hsent hm
  have hplain : SignatureMethod.hmacSha1 ≠ .plaintext := by decide
  rw [sign_eq_ok]
  constructor
  · rintro ⟨name, m, hname', hm', hsig⟩
    obtain rfl := Except.ok.inj (hname.symm.trans hname')
    obtain rfl : SignatureMethod.hmacSha1 = m := Option.some.inj (hm.symm.trans hm')
    obtain ⟨key, base, hkey, hbase, hs⟩ := (signature_withMac hplain).1 hsig
    refine ⟨base, hbase, ?_⟩
    rw [hs, ← Except.ok.inj hkey, ← hc, ← ht]
    rfl
  · rintro ⟨base, hbase, hs⟩
    refine ⟨_, .hmacSha1, hname, hm, (signature_withMac hplain).2 ⟨_, base, rfl, hbase, ?_⟩⟩
    rw [hs, ← hc, ← ht]
    rfl

end

/-- Rack's parser where no name has a bracket: the last field of a name counts. -/
def decodePlain (text : Bytes) : Except RubyError Params :=
  .ok (OrderedHash.ofList ((cgiFields text).map (fun f => (f.1, ClientHelper.toValue f.2))))

/-- A name that stands twice in the query. -/
def repeatedRequest : HttpRequest := { rootRequest with path := ascii "/?a=1&a=2" }

end RubyOAuth
