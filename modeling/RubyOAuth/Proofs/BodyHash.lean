import RubyOAuth.Proofs.BodyCoverage
import RubyOAuth.Proofs.HeaderSigning
import RubyOAuth.Proofs.QueryString

set_option autoImplicit false

/-! # The body that is hashed and the body that is sent

`create_http_request` gives a string to the request as its body and a stream as its body stream.
`hash_body` looks at the body only, and takes the digest of the signature method that the request
names first. The digests are those of any runtime: a hash is right where it is right for all of them. -/

namespace RubyOAuth

open Bytes

variable {rt rt' : Runtime}

/-! ## Body hashes -/

/-- The digest of a text that a signature method goes with: SHA-256 for HMAC-SHA256, else SHA-1. -/
def bodyDigest (rt : Runtime) (m : SignatureMethod) (text : Bytes) : Bytes :=
  encodeDigest rt (if m = .hmacSha256 then rt.sha256 text else rt.sha1 text)

/-- The hash that `body_hash` gives; plain text has none. -/
def hashText (rt : Runtime) (m : SignatureMethod) (text : Bytes) : Option Bytes :=
  if m = .plaintext then none else some (bodyDigest rt m text)

theorem bodyHash_proxy {r : HttpRequest} {so : SignatureOptions} {m : SignatureMethod}
    {cs ts : Secret} :
    Signature.bodyHash rt ⟨m, r.proxy so, so, cs, ts⟩ = .ok (hashText rt m (r.body.getD [])) := by
  cases m <;> rfl

namespace ClientHelper

/-- Whether a hash that is not there is sent as an empty one. -/
def allowsEmptyHash (o : RequestOptions) : Bool :=
  match o.allowEmptyParams with
  | .all => true
  | .names names => names.contains (ascii "oauth_body_hash")

theorem lookup_oauthBodyHash {h : ClientHelper} {v : Value} :
    h.oauthParameters.lookup (ascii "oauth_body_hash") = some v ↔
      (h.options.bodyHash.getD [] ≠ [] ∨ allowsEmptyHash h.options = true) ∧
        v = toValue h.options.bodyHash := by
  have hkeeps : h.keeps (ascii "oauth_body_hash", h.options.bodyHash) = true ↔
      h.options.bodyHash.getD [] ≠ [] ∨ allowsEmptyHash h.options = true := by
    rw [keeps, Bool.or_eq_true, bne_iff_ne]
    rfl
  rw [lookup_oauthParameters]
  constructor
  · rintro ⟨e, he, hk, hname, rfl⟩
    have hnames : (h.candidateParameters.map Prod.fst).Nodup := by
      rw [names_candidateParameters]
      decide
    obtain rfl : (ascii "oauth_body_hash", h.options.bodyHash) = e :=
      List.inj_on_of_nodup_map hnames List.mem_cons_self he hname
    exact ⟨hkeeps.1 hk, rfl⟩
  · rintro ⟨hk, rfl⟩
    exact ⟨_, List.mem_cons_self, hkeeps.2 hk, rfl, rfl⟩

end ClientHelper

/-- `hash_body` gives the hash of the body with the method that is named first. -/
theorem hashBody_eq_ok {h h' : ClientHelper} (hne : h.signatureMethod ≠ []) {q : Bytes}
    (hq : h.request.queryString = .ok q) :
    h.hashBody rt = .ok h' ↔ ∃ m, availableMethod (downcase (firstMethod q h.options)) = some m ∧
      h' = { h with options :=
        { h.options with bodyHash := hashText rt m (h.request.body.getD []) } } := by
  rw [ClientHelper.hashBody, Except.bind_eq_ok]
  have hread : (h.request.proxy { parameters := some h.oauthParameters }).oauthSignatureMethod
      = .ok (.str (firstMethod q h.options)) := oauthSignatureMethod_proxy hne rfl rfl hq
  constructor
  · rintro ⟨hash, hhash, h⟩
    rw [bodyHash, Except.bind_eq_ok] at hhash
    obtain ⟨sig, hsig, hhash⟩ := hhash
    obtain ⟨name, m, secrets, hname, hm, -, rfl⟩ := build_eq_ok.1 hsig
    obtain rfl : name = downcase (firstMethod q _) := eq_downcase_of_methodName hread hname
    rw [bodyHash_proxy] at hhash
    rw [← Except.ok.inj hhash] at h
    exact ⟨m, hm, (Except.ok.inj h).symm⟩
  · rintro ⟨m, hm, rfl⟩
    refine ⟨_, Except.bind_eq_ok.2
      ⟨_, build_eq_ok.2 ⟨_, m, _, methodName_of_str hread hm, hm, rfl, rfl⟩, ?_⟩, rfl⟩
    exact bodyHash_proxy

/-! ## Requests with their data -/

/-- The content of a stream, which Net::HTTP sends and `hash_body` does not look at. -/
def RequestData.streamed : RequestData → Bytes
  | .stream content _ => content
  | _ => []

section

variable {c : Consumer} {http : Connection} {method : HttpMethod} {path : Bytes}
  {data : RequestData} {headers : List (Bytes × Bytes)}

/-- Only a hash is encoded by the runtime. -/
theorem createHttpRequest_congr (hdata : ∀ params, data ≠ .hash params) :
    createHttpRequest rt c http method path data headers
      = createHttpRequest rt' c http method path data headers := by
  cases data with
  | none => rfl
  | hash params => exact absurd rfl (hdata params)
  | text s length => rfl
  | stream content size => rfl

/-- What is sent is the body, or the content of a stream where there is no body. -/
theorem entityBody_of_createHttpRequest (hm : method.takesData = true) {r : HttpRequest}
    (h : createHttpRequest rt c http method path data headers = .ok r) :
    r.entityBody = r.body.getD [] ++ data.streamed ∧ (data.streamed ≠ [] → r.body.getD [] = []) := by
  obtain ⟨site, cls, first, -, -, hfirst, h⟩ := createHttpRequest_eq_ok.1 h
  rw [if_pos hm] at h
  obtain ⟨-, -, hnone, hstream⟩ := HttpRequest.new_eq_ok hfirst
  cases data with
  | none =>
      rw [← Except.ok.inj h]
      simp [HttpRequest.entityBody, HttpRequest.withHeader, RequestData.streamed, hnone, hstream]
  | hash params =>
      obtain ⟨body, -, h⟩ := Except.bind_eq_ok.1 h
      rw [← Except.ok.inj h]
      simp [HttpRequest.entityBody, HttpRequest.withHeader, RequestData.streamed]
  | text s length =>
      rw [← Except.ok.inj h]
      simp [HttpRequest.entityBody, HttpRequest.withHeader, RequestData.streamed]
  | stream content size =>
      cases size with
      | none => simp [setData] at h
      | some n =>
          rw [← Except.ok.inj h]
          simp [HttpRequest.entityBody, HttpRequest.withHeader, RequestData.streamed, hnone, hstream]

end

/-! ## Another runtime -/

/-- A runtime in which the empty text and the others have different digests, SHA-1 and SHA-256 have
    nothing in common, and every key signs. -/
def markingRuntime (mark : UInt8) : Runtime :=
  { echoRuntime with
    sha1 := fun text => if text = [] then [mark] else [mark + 1]
    sha256 := fun text => if text = [] then [mark + 2] else [mark + 3]
    rsaSign := fun _ _ => .ok []
    readFile := fun _ => .ok [] }

/-- Where there is a base string, or none is needed, there is a signature. -/
theorem exists_signature_marking (mark : UInt8) (sig : Signature)
    (h : sig.method ≠ .plaintext →
      ∃ base, sig.request.signatureBaseString (markingRuntime mark) = .ok base) :
    ∃ s, sig.signature (markingRuntime mark) = .ok s := by
  obtain ⟨m, p, o, cs, ts⟩ := sig
  cases m with
  | plaintext => exact ⟨_, rfl⟩
  | hmacSha1 =>
      obtain ⟨base, hbase⟩ := h (by simp)
      exact ⟨_, signature_hmacSha1.2 ⟨base, hbase, rfl⟩⟩
  | hmacSha256 =>
      obtain ⟨base, hbase⟩ := h (by simp)
      exact ⟨_, signature_hmacSha256.2 ⟨base, hbase, rfl⟩⟩
  | rsaSha1 =>
      obtain ⟨base, hbase⟩ := h (by simp)
      obtain ⟨key, hkey⟩ : ∃ key, Signature.privateKey (markingRuntime mark) ⟨.rsaSha1, p, o, cs, ts⟩
          = .ok key := by
        rw [Signature.privateKey]
        cases o.privateKeyFile with
        | some file => exact ⟨[], rfl⟩
        | none => cases o.privateKey <;> exact ⟨_, rfl⟩
      refine ⟨encodeDigest (markingRuntime mark) [], Except.bind_eq_ok.2 ⟨[], ?_, rfl⟩⟩
      exact Except.bind_eq_ok.2 ⟨key, hkey, Except.bind_eq_ok.2 ⟨base, hbase, rfl⟩⟩

/-- A digest is one byte, which shows the digest function and whether the text is empty. -/
theorem bodyDigest_marking (mark : UInt8) (hmark : mark = 65 ∨ mark = 75) (m : SignatureMethod)
    (text : Bytes) : bodyDigest (markingRuntime mark) m text
      = [mark + (if m = .hmacSha256 then 2 else 0) + if text = [] then 0 else 1] := by
  rw [bodyDigest]
  simp only [markingRuntime]
  by_cases htext : text = []
  · rcases hmark with rfl | rfl <;> cases m <;> simp only [htext, if_true] <;> decide
  · rcases hmark with rfl | rfl <;> cases m <;> simp only [htext, if_false] <;> decide

theorem bodyDigest_marking_inj {m m' : SignatureMethod} {text text' : Bytes}
    (h : bodyDigest (markingRuntime 65) m text = bodyDigest (markingRuntime 65) m' text') :
    (m = .hmacSha256 ↔ m' = .hmacSha256) ∧ (text = [] ↔ text' = []) := by
  rw [bodyDigest_marking 65 (.inl rfl), bodyDigest_marking 65 (.inl rfl)] at h
  by_cases hm : m = .hmacSha256 <;> by_cases hm' : m' = .hmacSha256 <;>
    by_cases ht : text = [] <;> by_cases ht' : text' = [] <;> simp_all

theorem bodyDigest_marking_ne (m : SignatureMethod) (text : Bytes) :
    bodyDigest (markingRuntime 65) m text ≠ bodyDigest (markingRuntime 75) m text := by
  rw [bodyDigest_marking 65 (.inl rfl), bodyDigest_marking 75 (.inr rfl)]
  split <;> split <;> decide

/-! ## The signed request -/

/-- What `oauth!` has for the hash: that of the body where one is required, else that of the options. -/
def IsBodyHash (rt : Runtime) (r : HttpRequest) (o : RequestOptions) (q : Bytes)
    (hash : Option Bytes) : Prop :=
  if oauthBodyHashRequired r o then ∃ m, availableMethod (downcase (firstMethod q o)) = some m ∧
    hash = hashText rt m (r.body.getD [])
  else hash = o.bodyHash

section

variable {http : Connection} {r : HttpRequest} {c : Consumer} {token : Option Token}
  {o : RequestOptions} {g : Generated} {helper : ClientHelper}

theorem signingHelper_iff (hne : o.signatureMethod.getD (ascii "HMAC-SHA1") ≠ []) {q : Bytes}
    (hq : r.queryString = .ok q) :
    signingHelper rt http r c token o g = .ok helper ↔ ∃ full hash,
      oauthFullRequestUri http r.path o = .ok full ∧ IsBodyHash rt r o q hash ∧
      helper = ⟨amendUserAgent r, o.requestUri.getD full, c, token, { o with bodyHash := hash }, g⟩ := by
  have hq' : (amendUserAgent r).queryString = .ok q := (queryString_amendUserAgent r).trans hq
  obtain ⟨headers, hagent⟩ := amendUserAgent_eq r
  have hbody : (amendUserAgent r).body = r.body := by rw [hagent]
  have hfound : ∀ full, oauthFullRequestUri http r.path o = .ok full →
      (signingHelper rt http r c token o g = .ok helper ↔ ∃ hash, IsBodyHash rt r o q hash ∧
        helper = ⟨amendUserAgent r, o.requestUri.getD full, c, token,
          { o with bodyHash := hash }, g⟩) := by
    intro full hfull
    rw [signingHelper_of_full hfull]
    simp only [IsBodyHash]
    split
    · have hiff : ClientHelper.hashBody rt ⟨amendUserAgent r, o.requestUri.getD full, c, token, o, g⟩
          = .ok helper ↔ _ := hashBody_eq_ok
        (h := ⟨amendUserAgent r, o.requestUri.getD full, c, token, o, g⟩) hne hq'
      rw [hiff]
      simp only [hbody]
      constructor
      · rintro ⟨m, hm, rfl⟩
        exact ⟨_, ⟨m, hm, rfl⟩, rfl⟩
      · rintro ⟨-, ⟨m, hm, rfl⟩, rfl⟩
        exact ⟨m, hm, rfl⟩
    · rw [Except.ok.injEq]
      constructor
      · rintro rfl
        exact ⟨_, rfl, rfl⟩
      · rintro ⟨-, rfl, rfl⟩
        rfl
  constructor
  · intro h
    obtain ⟨full, -, hfull, -⟩ := signingHelper_eq_ok h
    obtain ⟨hash, hhash, hspec⟩ := (hfound full hfull).1 h
    exact ⟨full, hash, hfull, hhash, hspec⟩
  · rintro ⟨full, hash, hfull, hhash, hspec⟩
    exact (hfound full hfull).2 ⟨hash, hhash, hspec⟩

/-- Whether a helper can sign is no matter of the digests, nor of the body hash. -/
theorem exists_sign_marking (mark : UInt8) (helper' : ClientHelper)
    (hreq : helper'.request = helper.request) (huri : helper'.requestUri = helper.requestUri)
    (hmethod : helper'.options.signatureMethod = helper.options.signatureMethod)
    (hne : helper.signatureMethod ≠ []) (hclobber : helper.options.clobberRequest = false)
    (hclobber' : helper'.options.clobberRequest = false) {q : Bytes}
    (hq : helper.request.queryString = .ok q) {s : Bytes}
    (hs : sign rt (helper.request.proxy (helper.signatureOptions helper.oauthParameters))
      (helper.signatureOptions helper.oauthParameters) = .ok s) :
    ∃ s', sign (markingRuntime mark)
      (helper'.request.proxy (helper'.signatureOptions helper'.oauthParameters))
      (helper'.signatureOptions helper'.oauthParameters) = .ok s' := by
  have hq' : helper'.request.queryString = .ok q := by rw [hreq, hq]
  have hne' : helper'.signatureMethod ≠ [] := by
    rwa [ClientHelper.signatureMethod, hmethod]
  have hfirst : firstMethod q helper'.options = firstMethod q helper.options := by
    rw [firstMethod, firstMethod, hmethod]
  -- the method that is named first is the same, and the base string fails where the other does
  obtain ⟨name, m, hname, hm, hsig⟩ := sign_eq_ok.1 hs
  obtain rfl := eq_downcase_of_methodName (oauthSignatureMethod_proxy hne rfl hclobber hq) hname
  have hname' : methodName (helper'.request.proxy
      (helper'.signatureOptions helper'.oauthParameters))
        = .ok (downcase (firstMethod q helper.options)) := by
    have hread : (helper'.request.proxy
        (helper'.signatureOptions helper'.oauthParameters)).oauthSignatureMethod = _ :=
      oauthSignatureMethod_proxy hne' rfl hclobber' hq'
    rw [hfirst] at hread
    exact methodName_of_str hread hm
  obtain ⟨s', hs'⟩ := exists_signature_marking mark ⟨m,
      helper'.request.proxy (helper'.signatureOptions helper'.oauthParameters),
      helper'.signatureOptions helper'.oauthParameters,
      (helper'.signatureOptions helper'.oauthParameters).givenConsumerSecret,
      (helper'.signatureOptions helper'.oauthParameters).givenTokenSecret⟩ (by
    intro hp
    obtain ⟨key, base, -, hbase⟩ := exists_macKey (by exact hp) hsig
    obtain ⟨uri, params, hnorm, -, -⟩ := (signatureBaseString_proxy helper.textParameters_of_mem).1 hbase
    refine ⟨_, (signatureBaseString_proxy helper'.textParameters_of_mem).2
      ⟨uri, _, ?_, parameters_of_queryString hq' hclobber', rfl⟩⟩
    rw [← hnorm]
    exact congrArg normalizeUri huri)
  exact ⟨s', sign_eq_ok.2 ⟨_, m, hname', hm, hs'⟩⟩

/-- Whether a request can be signed is no matter of the digests. -/
theorem exists_oauth_marking (mark : UInt8) (hscheme : o.scheme = .header)
    (hclobber : o.clobberRequest = false) (hne : o.signatureMethod.getD (ascii "HMAC-SHA1") ≠ [])
    {signed : HttpRequest} (h : oauth rt http r c token o g = .ok signed) :
    ∃ signed', oauth (markingRuntime mark) http r c token o g = .ok signed' := by
  obtain ⟨helper, hhelper, -⟩ := Except.bind_eq_ok.1 h
  obtain ⟨hline, s, hs, -⟩ := (oauth_header_iff hscheme hhelper).1 h
  obtain ⟨full, -, hfull, -⟩ := signingHelper_eq_ok hhelper
  obtain ⟨query, hquery⟩ := exists_queryParams hfull
  obtain ⟨q, hq, -⟩ := queryString_of_query hquery
  obtain ⟨full', hash, hfull', hhash, hspec⟩ := (signingHelper_iff hne hq).1 hhelper
  obtain ⟨hash', hhash'⟩ : ∃ hash', IsBodyHash (markingRuntime mark) r o q hash' := by
    simp only [IsBodyHash] at hhash ⊢
    split at hhash
    · next hreq =>
        obtain ⟨m, hm, -⟩ := hhash
        exact ⟨_, by rw [if_pos hreq]; exact ⟨m, hm, rfl⟩⟩
    · next hreq => exact ⟨_, by rw [if_neg hreq]⟩
  have hhelper' : signingHelper (markingRuntime mark) http r c token o g = .ok ⟨amendUserAgent r,
      o.requestUri.getD full', c, token, { o with bodyHash := hash' }, g⟩ :=
    (signingHelper_iff hne hq).2 ⟨full', hash', hfull', hhash', rfl⟩
  obtain ⟨s', hs'⟩ := exists_sign_marking mark ⟨amendUserAgent r, o.requestUri.getD full', c, token,
      { o with bodyHash := hash' }, g⟩ (by rw [hspec])
    (by rw [hspec]) (by rw [hspec]) (by rw [hspec]; exact hne) (by rw [hspec]; exact hclobber)
    hclobber (by rw [hspec]; exact (queryString_amendUserAgent r).trans hq) hs
  exact ⟨_, (oauth_header_iff hscheme hhelper').2 ⟨hline, s', hs', rfl⟩⟩

end

section

variable {c : Consumer} {http : Connection} {method : HttpMethod} {path : Bytes}
  {token : Option Token} {o : CallOptions} {data : RequestData} {headers : List (Bytes × Bytes)}
  {g : Generated}

/-- **Whenever the header has a body hash, it is the digest of the entity body**, whatever the digests
    are. -/
def HashesEntityBody (c : Consumer) (http : Connection) (method : HttpMethod) (path : Bytes)
    (token : Option Token) (o : CallOptions) (data : RequestData) (headers : List (Bytes × Bytes))
    (g : Generated) (m : SignatureMethod) : Prop :=
  ∀ rt signed, createSignedRequest rt c http method path token o data headers g = .ok signed →
    ∃ request helper s, createHttpRequest rt c http method path data headers = .ok request ∧
      signingHelper rt http request c token (c.mergeOptions o) g = .ok helper ∧
      signed.header (ascii "Authorization") = some (helper.headerWith rt s) ∧
      ∀ v, helper.oauthParameters.lookup (ascii "oauth_body_hash") = some v →
        v.toS rt = bodyDigest rt m signed.entityBody

/-- When the hash is that of what is sent. One that `hash_body` makes is that of the entity body unless
    a stream has content, and of the method of the options unless the request names one with another
    digest first; plain text makes none. Where none is made, none may come from the options. -/
def HashKept (request : HttpRequest) (o : RequestOptions) (data : RequestData) (m : SignatureMethod)
    (q : Bytes) : Prop :=
  if oauthBodyHashRequired request o then
    ∀ m', availableMethod (downcase (firstMethod q o)) = some m' →
      if m' = .plaintext then ClientHelper.allowsEmptyHash o = false
      else (m' = .hmacSha256 ↔ m = .hmacSha256) ∧ data.streamed = []
  else o.bodyHash.getD [] = [] ∧ ClientHelper.allowsEmptyHash o = false

/-- A run of `create_signed_request`, in its steps. -/
theorem createSignedRequest_eq_ok (hscheme : (c.mergeOptions o).scheme = .header)
    (hne : (c.mergeOptions o).signatureMethod.getD (ascii "HMAC-SHA1") ≠ [])
    {signed : HttpRequest}
    (h : createSignedRequest rt c http method path token o data headers g = .ok signed) :
    ∃ request q helper hash s,
      createHttpRequest rt c http method path data headers = .ok request ∧
      request.queryString = .ok q ∧
      signingHelper rt http request c token (c.mergeOptions o) g = .ok helper ∧
      IsBodyHash rt request (c.mergeOptions o) q hash ∧ helper.options.bodyHash = hash ∧
      helper.options.allowEmptyParams = (c.mergeOptions o).allowEmptyParams ∧
      signed.header (ascii "Authorization") = some (helper.headerWith rt s) ∧
      signed.entityBody = request.entityBody := by
  obtain ⟨request, hrequest, h⟩ := Except.bind_eq_ok.1 h
  obtain ⟨helper, hhelper, -⟩ := Except.bind_eq_ok.1 h
  obtain ⟨s, -, rfl⟩ := oauth_header_eq_ok hscheme hhelper h
  obtain ⟨full, -, hfull, -⟩ := signingHelper_eq_ok hhelper
  obtain ⟨query, hquery⟩ := exists_queryParams hfull
  obtain ⟨q, hq, -⟩ := queryString_of_query hquery
  obtain ⟨full', hash, -, hhash, hspec⟩ := (signingHelper_iff hne hq).1 hhelper
  obtain ⟨hs, hagent⟩ := amendUserAgent_eq request
  refine ⟨request, q, helper, hash, s, hrequest, hq, hhelper, hhash, by rw [hspec], by rw [hspec],
    ?_, ?_⟩
  · rw [header_withHeader, if_pos rfl]
  · rw [hspec, hagent]
    rfl

/-- What the header has for the hash is the text of the option, where that is sent. -/
theorem sentHash_iff {h : ClientHelper} {d : Bytes} :
    (∀ v, h.oauthParameters.lookup (ascii "oauth_body_hash") = some v → v.toS rt = d) ↔
      (h.options.bodyHash.getD [] ≠ [] ∨ ClientHelper.allowsEmptyHash h.options = true →
        h.options.bodyHash.getD [] = d) := by
  have htext : (ClientHelper.toValue h.options.bodyHash).toS rt = h.options.bodyHash.getD [] := by
    cases h.options.bodyHash <;> rfl
  simp only [ClientHelper.lookup_oauthBodyHash, and_imp, htext, forall_eq_apply_imp_iff]

theorem bodyDigest_marking_ne_nil (m : SignatureMethod) (text : Bytes) :
    bodyDigest (markingRuntime 65) m text ≠ [] := by
  rw [bodyDigest_marking 65 (.inl rfl)]
  exact List.cons_ne_nil _ _

/-- The hash is the digest, where it is sent. -/
def SentAs (o : RequestOptions) (hash : Option Bytes) (digest : Bytes) : Prop :=
  hash.getD [] ≠ [] ∨ ClientHelper.allowsEmptyHash o = true → hash.getD [] = digest

/-- What one run says of the hash it sends. -/
theorem hash_of_createSignedRequest (hdata : ∀ params, data ≠ .hash params)
    (hscheme : (c.mergeOptions o).scheme = .header)
    (hne : (c.mergeOptions o).signatureMethod.getD (ascii "HMAC-SHA1") ≠ []) {request : HttpRequest}
    (hrequest : createHttpRequest rt c http method path data headers = .ok request) {q : Bytes}
    (hq : request.queryString = .ok q) (m : SignatureMethod) {signed : HttpRequest}
    (h : createSignedRequest rt' c http method path token o data headers g = .ok signed) :
    ∃ helper hash s, createHttpRequest rt' c http method path data headers = .ok request ∧
      signingHelper rt' http request c token (c.mergeOptions o) g = .ok helper ∧
      signed.header (ascii "Authorization") = some (helper.headerWith rt' s) ∧
      IsBodyHash rt' request (c.mergeOptions o) q hash ∧
      ((∀ v, helper.oauthParameters.lookup (ascii "oauth_body_hash") = some v →
          v.toS rt' = bodyDigest rt' m signed.entityBody) ↔
        SentAs (c.mergeOptions o) hash (bodyDigest rt' m request.entityBody)) := by
  obtain ⟨request', q', helper, hash, s, hrequest', hq', hhelper, hhash, hsame, hallow, hheader, hbody⟩ :=
    createSignedRequest_eq_ok hscheme hne h
  obtain rfl : request = request' :=
    Except.ok.inj (hrequest.symm.trans ((createHttpRequest_congr hdata).trans hrequest'))
  obtain rfl : q = q' := Except.ok.inj (hq.symm.trans hq')
  refine ⟨helper, hash, s, hrequest', hhelper, hheader, hhash, ?_⟩
  rw [sentHash_iff, hsame, hbody, SentAs, ClientHelper.allowsEmptyHash, hallow]
  rfl

/-- There is a run with each of the marked digests. -/
theorem exists_createSignedRequest_marking (hdata : ∀ params, data ≠ .hash params)
    (hscheme : (c.mergeOptions o).scheme = .header)
    (hne : (c.mergeOptions o).signatureMethod.getD (ascii "HMAC-SHA1") ≠ []) {signed : HttpRequest}
    (h : createSignedRequest rt c http method path token o data headers g = .ok signed) (mark : UInt8) :
    ∃ signed', createSignedRequest (markingRuntime mark) c http method path token o data headers g
      = .ok signed' := by
  obtain ⟨request, hrequest, hoauth⟩ := Except.bind_eq_ok.1 h
  obtain ⟨signed', hsigned'⟩ := exists_oauth_marking mark hscheme rfl hne hoauth
  exact ⟨signed', Except.bind_eq_ok.2 ⟨request, (createHttpRequest_congr hdata).trans hrequest, hsigned'⟩⟩

/-- A hash that is right under each mark is kept. -/
theorem hashKept_of_marked {request : HttpRequest} {ro : RequestOptions} {q : Bytes}
    {m : SignatureMethod} (hentity : request.entityBody = request.body.getD [] ++ data.streamed)
    (hstream : data.streamed ≠ [] → request.body.getD [] = [])
    (hmarked : ∀ mark, ∃ hash, IsBodyHash (markingRuntime mark) request ro q hash ∧
      SentAs ro hash (bodyDigest (markingRuntime mark) m request.entityBody)) :
    HashKept request ro data m q := by
  rw [HashKept]
  obtain ⟨hash, hhash, hsent⟩ := hmarked 65
  split
  · next hreq =>
      intro m' hm'
      rw [IsBodyHash, if_pos hreq] at hhash
      obtain ⟨m'', hm'', rfl⟩ := hhash
      obtain rfl : m' = m'' := Option.some.inj (hm'.symm.trans hm'')
      split
      · next hplain =>
          rw [SentAs, hashText, if_pos hplain, Option.getD_none] at hsent
          by_contra hallow
          exact bodyDigest_marking_ne_nil m _ (hsent (.inr (Bool.not_eq_false _ ▸ hallow))).symm
      · next hplain =>
          rw [SentAs, hashText, if_neg hplain, Option.getD_some] at hsent
          obtain ⟨hsame, hempty⟩ := bodyDigest_marking_inj
            (hsent (.inl (bodyDigest_marking_ne_nil m' _)))
          refine ⟨hsame, ?_⟩
          by_contra hcontent
          have hnil := hempty.1 (hstream hcontent)
          rw [hentity, List.append_eq_nil_iff] at hnil
          exact hcontent hnil.2
  · next hreq =>
      -- a hash that is not made does not change with the mark
      obtain ⟨hash', hhash', hsent'⟩ := hmarked 75
      rw [IsBodyHash, if_neg hreq] at hhash hhash'
      subst hhash hhash'
      have hnone : ¬ (ro.bodyHash.getD [] ≠ [] ∨ ClientHelper.allowsEmptyHash ro = true) := fun hs =>
        bodyDigest_marking_ne m _ ((hsent hs).symm.trans (hsent' hs))
      rw [not_or, ne_eq, not_not, Bool.not_eq_true] at hnone
      exact hnone

/-- A hash that is kept is right under every runtime. -/
theorem sentAs_of_hashKept {request : HttpRequest} {ro : RequestOptions} {q : Bytes}
    {m : SignatureMethod} (hentity : request.entityBody = request.body.getD [] ++ data.streamed)
    (hkept : HashKept request ro data m q) {hash : Option Bytes} (hhash : IsBodyHash rt request ro q hash) :
    SentAs ro hash (bodyDigest rt m request.entityBody) := by
  intro hsent
  rw [HashKept] at hkept
  split at hkept
  · next hreq =>
      rw [IsBodyHash, if_pos hreq] at hhash
      obtain ⟨m', hm', rfl⟩ := hhash
      have hm := hkept m' hm'
      split at hm
      · next hplain =>
          rw [hashText, if_pos hplain, hm] at hsent
          simp at hsent
      · next hplain =>
          rw [hashText, if_neg hplain, Option.getD_some, hentity, hm.2, List.append_nil, bodyDigest,
            bodyDigest]
          simp only [hm.1]
  · next hreq =>
      rw [IsBodyHash, if_neg hreq] at hhash
      rw [hhash, hkept.1, hkept.2] at hsent
      simp at hsent

/-- **The body hash covers the body that is sent exactly when the body is no stream with content, no
    other digest is named first, and no hash is passed on from the options.** -/
theorem createSignedRequest_hash_iff (rt : Runtime) (c : Consumer) (http : Connection)
    (method : HttpMethod) (path : Bytes) (token : Option Token) (o : CallOptions) (data : RequestData)
    (headers : List (Bytes × Bytes)) (g : Generated) (signed : HttpRequest) (m : SignatureMethod)
    (htakes : method.takesData = true) (hdata : ∀ params, data ≠ .hash params)
    (hscheme : (c.mergeOptions o).scheme = .header)
    (hmethod : availableMethod (downcase ((c.mergeOptions o).signatureMethod.getD
      (ascii "HMAC-SHA1"))) = some m)
    (h : createSignedRequest rt c http method path token o data headers g = .ok signed) :
    ∃ request q, createHttpRequest rt c http method path data headers = .ok request ∧
      request.queryString = .ok q ∧ (HashesEntityBody c http method path token o data headers g m ↔
        HashKept request (c.mergeOptions o) data m q) := by
  have hne : (c.mergeOptions o).signatureMethod.getD (ascii "HMAC-SHA1") ≠ [] := by
    intro hnil
    have hnone : availableMethod (downcase []) = none := by decide
    rw [hnil, hnone] at hmethod
    exact Option.some_ne_none m hmethod.symm
  obtain ⟨request, q, -, -, -, hrequest, hq, -⟩ := createSignedRequest_eq_ok hscheme hne h
  obtain ⟨hentity, hstream⟩ := entityBody_of_createHttpRequest htakes hrequest
  refine ⟨request, q, hrequest, hq, ?_⟩
  constructor
  · intro hhashes
    refine hashKept_of_marked hentity hstream fun mark => ?_
    obtain ⟨signed', hsigned'⟩ := exists_createSignedRequest_marking hdata hscheme hne h mark
    obtain ⟨request', helper', s', hrequest', hhelper', -, hsent⟩ := hhashes _ _ hsigned'
    obtain ⟨helper, hash, s, hsame, hhelper, -, hhash, hiff⟩ :=
      hash_of_createSignedRequest hdata hscheme hne hrequest hq m hsigned'
    obtain rfl : request = request' := Except.ok.inj (hsame.symm.trans hrequest')
    obtain rfl : helper = helper' := Except.ok.inj (hhelper.symm.trans hhelper')
    exact ⟨hash, hhash, hiff.1 hsent⟩
  · intro hkept rt' signed' hsigned'
    obtain ⟨helper, hash, s, hrequest', hhelper, hheader, hhash, hiff⟩ :=
      hash_of_createSignedRequest hdata hscheme hne hrequest hq m hsigned'
    exact ⟨request, helper, s, hrequest', hhelper, hheader,
      hiff.2 (sentAs_of_hashKept hentity hkept hhash)⟩

end

theorem textUpload_hash_iff :
    ∃ signed, createSignedRequest (markingRuntime 65) exampleConsumer exampleConnection .post
        (ascii "/") none {} (.text (ascii "a") 1) [] exampleGenerated = .ok signed ∧
      ∃ request q, createHttpRequest (markingRuntime 65) exampleConsumer exampleConnection .post
          (ascii "/") (.text (ascii "a") 1) [] = .ok request ∧ request.queryString = .ok q ∧
        (HashesEntityBody exampleConsumer exampleConnection .post (ascii "/") none {}
            (.text (ascii "a") 1) [] exampleGenerated .hmacSha1 ↔
          HashKept request (exampleConsumer.mergeOptions {}) (.text (ascii "a") 1) .hmacSha1 q) := by
  have hok : (createSignedRequest (markingRuntime 65) exampleConsumer exampleConnection .post
      (ascii "/") none {} (.text (ascii "a") 1) [] exampleGenerated).isOk = true := by decide +kernel
  cases h : createSignedRequest (markingRuntime 65) exampleConsumer exampleConnection .post
      (ascii "/") none {} (.text (ascii "a") 1) [] exampleGenerated with
  | error e =>
      rw [h] at hok
      exact absurd hok Bool.false_ne_true
  | ok signed =>
      exact ⟨signed, rfl, createSignedRequest_hash_iff (markingRuntime 65) exampleConsumer
        exampleConnection .post (ascii "/") none {} (.text (ascii "a") 1) [] exampleGenerated signed
        .hmacSha1 rfl (by simp) rfl (by decide) h⟩

/-- The hash of a stream is that of the empty text. -/
theorem streamUpload_hash_differs :
    ¬ HashesEntityBody exampleConsumer exampleConnection .post (ascii "/") none {}
      (.stream (ascii "a") (some 1)) [] exampleGenerated .hmacSha1 := by
  intro hprop
  have hsent : (createSignedRequest (markingRuntime 65) exampleConsumer exampleConnection .post
      (ascii "/") none {} (.stream (ascii "a") (some 1)) [] exampleGenerated).map
        HttpRequest.entityBody = .ok (ascii "a") := by decide +kernel
  have hhash : (do
      let request ← createHttpRequest (markingRuntime 65) exampleConsumer exampleConnection .post
        (ascii "/") (.stream (ascii "a") (some 1)) []
      let helper ← signingHelper (markingRuntime 65) exampleConnection request exampleConsumer none
        (exampleConsumer.mergeOptions {}) exampleGenerated
      Except.ok helper.options.bodyHash) = .ok (some (ascii "A")) := by decide +kernel
  cases h : createSignedRequest (markingRuntime 65) exampleConsumer exampleConnection .post
      (ascii "/") none {} (.stream (ascii "a") (some 1)) [] exampleGenerated with
  | error e =>
      rw [h] at hsent
      exact absurd hsent (by simp [Except.map])
  | ok signed =>
      obtain ⟨request, helper, s, hrequest, hhelper, -, hcovers⟩ := hprop _ signed h
      rw [hrequest, Except.ok_bind, hhelper, Except.ok_bind, Except.ok.injEq] at hhash
      rw [h] at hsent
      have hbody : signed.entityBody = ascii "a" := Except.ok.inj hsent
      have hdigest := hcovers (.str (ascii "A")) (ClientHelper.lookup_oauthBodyHash.2
        ⟨.inl (by rw [hhash]; decide), by rw [hhash]; rfl⟩)
      rw [hbody] at hdigest
      exact absurd hdigest (by decide)

end RubyOAuth
