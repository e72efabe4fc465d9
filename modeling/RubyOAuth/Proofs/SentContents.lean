import RubyOAuth.Proofs.SentHops

set_option autoImplicit false

/-! # What a request keeps of its call

Each step from the arguments of a call to the request that is sent writes a few header fields, and at most
one of target and entity. The names it writes are a function of method, data and scheme; every other field
is the caller's, in the first request of a call as in those after redirects. Only a stream is not sent
again: the first request reads it. -/

namespace RubyOAuth

open Bytes

variable {rt : Runtime} {c : Consumer}

/-! ## Header fields that are written -/

/-- `oauth!` writes these fields, in lower case. -/
def Scheme.writes : Scheme → List Bytes
  | .header => [ascii "user-agent", ascii "authorization"]
  | .body => [ascii "user-agent", ascii "content-type"]
  | .queryString => [ascii "user-agent"]

/-- The data has a form body. -/
def RequestData.isForm : RequestData → Bool
  | .hash _ => true
  | _ => false

/-- `create_http_request` writes these fields. -/
def RequestArgs.writes (args : RequestArgs) : List Bytes :=
  if args.method.takesData then
    ascii "content-length" :: (if args.data.isForm then [ascii "content-type"] else [])
  else []

/-- The field as the caller gives it: the last one of the name in any letter case, without the blanks
    around it. -/
def RequestArgs.givenHeader (args : RequestArgs) (name : Bytes) : Option Bytes :=
  OrderedHash.findEntry (downcase name) (args.headers.map (fun e => (downcase e.1, strip e.2))).reverse

/-- The entity that the data stands for. -/
def RequestData.Entity (rt : Runtime) (data : RequestData) (entity : Bytes) : Prop :=
  match data with
  | .none => entity = []
  | .hash params => normalize rt params = .ok entity
  | .text s _ => entity = s
  | .stream content _ => entity = content

/-- The entity of a call; a method without data has none. -/
def RequestArgs.Entity (rt : Runtime) (args : RequestArgs) (entity : Bytes) : Prop :=
  if args.method.takesData then args.data.Entity rt entity else entity = []

/-! ## Signing -/

/-- What `oauth!` leaves of a request. -/
structure HttpRequest.LeftBy (scheme : Scheme) (r signed : HttpRequest) : Prop where
  method : signed.method = r.method
  headers : ∀ name, downcase name ∉ scheme.writes → signed.header name = r.header name
  target : scheme ≠ .queryString → signed.path = r.path
  entity : scheme ≠ .body → signed.entityBody = r.entityBody

theorem header_setFormData (r : HttpRequest) (params : Params) {name : Bytes}
    (hname : downcase name ≠ ascii "content-type") :
    (setFormData rt r params).header name = r.header name := by
  have htype : downcase (ascii "Content-Type") = ascii "content-type" := by decide
  rw [setFormData, header_withHeader, if_neg (by rw [htype]; exact hname)]
  rfl

variable {conn : Connection} {r signed : HttpRequest} {token : Option Token} {o : RequestOptions}
  {g : Generated}

theorem leftBy_header {helper : ClientHelper} (hscheme : o.scheme = .header)
    (hhelper : signingHelper rt conn r c token o g = .ok helper)
    (h : oauth rt conn r c token o g = .ok signed) : r.LeftBy .header signed := by
  obtain ⟨s, -, rfl⟩ := oauth_header_eq_ok hscheme hhelper h
  obtain ⟨full, hash, -, rfl⟩ := signingHelper_eq_ok hhelper
  obtain ⟨headers, hamended⟩ := amendUserAgent_eq r
  constructor
  · show (amendUserAgent r).method = r.method
    rw [hamended]
  · intro name hname
    simp only [Scheme.writes, List.mem_cons, List.not_mem_nil, or_false, not_or] at hname
    rw [header_setAuthorization _ _ hname.2]
    exact header_amendUserAgent r hname.1
  · intro _
    exact amendUserAgent_path r
  · intro _
    show (amendUserAgent r).entityBody = r.entityBody
    rw [hamended]
    rfl

theorem leftBy_queryString {helper : ClientHelper} (hscheme : o.scheme = .queryString)
    (hhelper : signingHelper rt conn r c token o g = .ok helper)
    (h : oauth rt conn r c token o g = .ok signed) : r.LeftBy .queryString signed := by
  rw [oauth, hhelper, Except.ok_bind, hscheme] at h
  obtain ⟨first, s, hfirst, -, rfl⟩ := setOauthQueryString_eq_ok.1 h
  obtain ⟨old, query, -, -, -, -, rfl, -⟩ := ClientHelper.queryRequest_eq_ok hfirst
  obtain ⟨full, hash, -, rfl⟩ := signingHelper_eq_ok hhelper
  obtain ⟨headers, hamended⟩ := amendUserAgent_eq r
  constructor
  · show (amendUserAgent r).method = r.method
    rw [hamended]
  · intro name hname
    exact header_amendUserAgent r (fun he => hname (by rw [he]; exact List.mem_singleton_self _))
  · exact fun hne => absurd rfl hne
  · intro _
    show (amendUserAgent r).entityBody = r.entityBody
    rw [hamended]
    rfl

theorem leftBy_body {helper : ClientHelper} (hscheme : o.scheme = .body)
    (hhelper : signingHelper rt conn r c token o g = .ok helper)
    (h : oauth rt conn r c token o g = .ok signed) : r.LeftBy .body signed := by
  obtain ⟨query, q₀, q₁, first, s, -, -, rfl, -, -, -, rfl, -⟩ := oauth_body_eq_ok hscheme hhelper h
  obtain ⟨full, hash, -, rfl⟩ := signingHelper_eq_ok hhelper
  obtain ⟨headers, hamended⟩ := amendUserAgent_eq r
  constructor
  · show (amendUserAgent r).method = r.method
    rw [hamended]
  · intro name hname
    simp only [Scheme.writes, List.mem_cons, List.not_mem_nil, or_false, not_or] at hname
    rw [header_setFormData _ _ hname.2, header_setFormData _ _ hname.2]
    exact header_amendUserAgent r hname.1
  · intro _
    exact amendUserAgent_path r
  · exact fun hne => absurd rfl hne

/-- **Signing leaves what its scheme does not write.** -/
theorem oauth_leftBy (h : oauth rt conn r c token o g = .ok signed) : r.LeftBy o.scheme signed := by
  obtain ⟨helper, hhelper, -⟩ := Except.bind_eq_ok.1 h
  cases hscheme : o.scheme with
  | header => exact leftBy_header hscheme hhelper h
  | body => exact leftBy_body hscheme hhelper h
  | queryString => exact leftBy_queryString hscheme hhelper h

/-! ## Making a request -/

theorem lookup_initialHeaders {headers : List (Bytes × Bytes)} {given : OrderedHash Bytes Bytes}
    (h : initialHeaders headers = .ok given) {name : Bytes} (hname : name ≠ ascii "user-agent") :
    given.lookup name
      = OrderedHash.findEntry name (headers.map (fun e => (downcase e.1, strip e.2))).reverse := by
  obtain ⟨es, hes, h⟩ := Except.bind_eq_ok.1 h
  have hentries : es = headers.map (fun e => (downcase e.1, strip e.2)) := by
    refine Except.ok.inj (hes.symm.trans (Except.mapM_of_ok fun e he => ?_))
    obtain ⟨b, hb⟩ := Except.ok_of_mapM hes e he
    split at hb
    · simp at hb
    · next hplain => rw [if_neg hplain]
  rw [← Except.ok.inj h, ← hentries, ← OrderedHash.lookup_ofList]
  split
  · rfl
  · rw [OrderedHash.lookup_set, if_neg hname]

theorem setData_carries {r r' : HttpRequest} {data : RequestData}
    (hbody : r.body = none ∧ r.bodyStream = none) (h : setData rt r data = .ok r') :
    data.Entity rt r'.entityBody ∧
      ∀ name, downcase name ≠ ascii "content-length" →
        (data.isForm = true → downcase name ≠ ascii "content-type") → r'.header name = r.header name := by
  have hlength : downcase (ascii "Content-Length") = ascii "content-length" := by decide
  have htype : downcase (ascii "Content-Type") = ascii "content-type" := by decide
  have hempty : r.entityBody = [] := by rw [HttpRequest.entityBody, hbody.1, hbody.2]; rfl
  cases data with
  | none =>
      obtain rfl := Except.ok.inj h
      exact ⟨hempty, fun _ _ _ => rfl⟩
  | hash params =>
      obtain ⟨body, hnormal, h⟩ := Except.bind_eq_ok.1 h
      obtain rfl := Except.ok.inj h
      refine ⟨hnormal, fun name _ hname => ?_⟩
      rw [header_withHeader, if_neg (by rw [htype]; exact hname rfl)]
      rfl
  | text s length =>
      obtain rfl := Except.ok.inj h
      refine ⟨rfl, fun name hname _ => ?_⟩
      rw [header_withHeader, if_neg (by rw [hlength]; exact hname)]
      rfl
  | stream content size =>
      cases size with
      | none => simp [setData] at h
      | some n =>
          obtain rfl := Except.ok.inj h
          refine ⟨?_, fun name hname _ => ?_⟩
          · show (r.body.or (some content)).getD [] = content
            rw [hbody.1]
            rfl
          · rw [header_withHeader, if_neg (by rw [hlength]; exact hname)]
            rfl

/-- What is made of the arguments of a call. -/
structure HttpRequest.MadeOf (rt : Runtime) (args : RequestArgs) (r : HttpRequest) : Prop where
  method : args.method.requestClass.map Prod.fst = .ok r.method
  headers : ∀ name, downcase name ≠ ascii "user-agent" → downcase name ∉ args.writes →
    r.header name = args.givenHeader name
  entity : args.Entity rt r.entityBody

theorem createHttpRequest_madeOf {conn : Connection} {args : RequestArgs} {path : Bytes}
    {r : HttpRequest}
    (h : createHttpRequest rt c conn args.method path args.data args.headers = .ok r) :
    r.MadeOf rt args := by
  obtain ⟨site, cls, first, -, hcls, hfirst, h⟩ := createHttpRequest_eq_ok.1 h
  obtain ⟨hmethod, -, hbody, hstream⟩ := HttpRequest.new_eq_ok hfirst
  have hgiven : ∀ name, downcase name ≠ ascii "user-agent" →
      first.header name = args.givenHeader name := by
    intro name hname
    rw [HttpRequest.new] at hfirst
    split at hfirst
    · simp at hfirst
    · obtain ⟨given, hheaders, hfirst⟩ := Except.bind_eq_ok.1 hfirst
      obtain rfl := Except.ok.inj hfirst
      exact lookup_initialHeaders hheaders hname
  have hclass : args.method.requestClass.map Prod.fst = .ok first.method := by
    rw [hcls, hmethod]
    rfl
  split at h
  · next hdata =>
      have hlength : downcase (ascii "Content-Length") = ascii "content-length" := by decide
      obtain ⟨hentity, hheaders⟩ :=
        setData_carries (r := first.withHeader (ascii "Content-Length") (ascii "0")) ⟨hbody, hstream⟩ h
      refine ⟨by rw [hclass, (setData_eq_ok h).1]; rfl, fun name hagent hname => ?_, ?_⟩
      · rw [RequestArgs.writes, if_pos hdata, List.mem_cons, not_or] at hname
        rw [hheaders name hname.1 (fun hform => ?_), header_withHeader,
          if_neg (by rw [hlength]; exact hname.1)]
        · exact hgiven name hagent
        · intro he
          exact hname.2 (by rw [if_pos hform, he]; exact List.mem_singleton_self _)
      · rw [RequestArgs.Entity, if_pos hdata]
        exact hentity
  · next hdata =>
      obtain rfl := Except.ok.inj h
      refine ⟨hclass, fun name hagent _ => hgiven name hagent, ?_⟩
      rw [RequestArgs.Entity, if_neg hdata, HttpRequest.entityBody, hbody, hstream]
      rfl

/-! ## Over a run -/

/-- The request has method, header fields and entity of the arguments and asks for the path, with the
    site's in front of it, but for what is written. -/
structure Hop.Carries (rt : Runtime) (c : Consumer) (args : RequestArgs) (path : Bytes)
    (scheme : Scheme) (hop : Hop) : Prop where
  method : args.method.requestClass.map Prod.fst = .ok hop.request.method
  headers : ∀ name, downcase name ∉ scheme.writes ++ args.writes →
    hop.request.header name = args.givenHeader name
  target : ∃ site p, parseUri c.site = .ok site ∧ requestedPath path = .ok p ∧
    hop.target = prefixPath site hop.connection p
  requestLine : scheme ≠ .queryString → hop.request.path = hop.target
  entity : scheme ≠ .body → args.Entity rt hop.request.entityBody

theorem Hop.SentFor.carries {args : RequestArgs} {path : Bytes} {o : CallOptions} {hop : Hop}
    {x : Exchange} (h : hop.SentFor rt c args path o x) :
    hop.Carries rt c args path (c.mergeOptions o).scheme := by
  obtain ⟨p, hp, hcreated⟩ := h.created
  have hmade := createHttpRequest_madeOf hcreated
  have hleft := oauth_leftBy h.signed
  refine ⟨by rw [hmade.method, hleft.method], fun name hname => ?_, ?_, hleft.target, fun hne => ?_⟩
  · rw [List.mem_append, not_or] at hname
    have hagent : downcase name ≠ ascii "user-agent" := by
      intro he
      refine hname.1 ?_
      rw [he]
      cases (c.mergeOptions o).scheme <;> simp [Scheme.writes]
    rw [hleft.headers name hname.1, hmade.headers name hagent hname.2]
  · obtain ⟨site, -, -, hsite, -⟩ := createHttpRequest_eq_ok.1 hcreated
    exact ⟨site, p, hsite, hp, path_of_createHttpRequest hsite hcreated⟩
  · rw [hleft.entity hne]
    exact hmade.entity

/-- **Every request of a run carries its call**: the one at any place of a call asks for the call's own
    path or for the one that the answer before it redirects to, and has the method of the call, its
    entity as the requests before it leave it, and every header field given for it, except what the
    method's data and the scheme write. -/
theorem sentCalls_carry (rt : Runtime) (c : Consumer) (st : ConsumerState) (ops : List Operation) :
    ∀ call ∈ sentCalls rt c st ops, ∀ (i : Nat) hop, call.2[i]? = some hop →
      ∃ path, AsksFor c (some (call.1.path c)) call.1.exchanges i path ∧
        hop.Carries rt c ((call.1.args c).afterSending (call.2.take i)) path (call.1.scheme c) := by
  intro call hcall i hop hi
  obtain ⟨x, path, -, hasks, hsent⟩ := (sentCalls_inOrder rt c st ops call hcall).2 i hop hi
  exact ⟨path, hasks, hsent.carries⟩

/-- A stream is sent before a redirect, and nothing is left of it after. -/
example : (sentHops echoRuntime exampleConsumer {}
      [.getRequestToken (.stream (ascii "x") (some 1)) [] {} [redirectTo "/moved", answer ""]]).map
        (fun sent => sent.2.request.entityBody) = [ascii "x", []] := by
  decide +kernel

theorem exampleOperations_carried :
    (sentHops echoRuntime exampleConsumer {} exampleOperations).length = 3 ∧
      ∀ call ∈ sentCalls echoRuntime exampleConsumer {} exampleOperations,
        ∀ (i : Nat) hop, call.2[i]? = some hop →
          ∃ path, AsksFor exampleConsumer (some (call.1.path exampleConsumer)) call.1.exchanges i path ∧
            hop.Carries echoRuntime exampleConsumer
              ((call.1.args exampleConsumer).afterSending (call.2.take i)) path
              (call.1.scheme exampleConsumer) :=
  ⟨by decide +kernel, sentCalls_carry echoRuntime exampleConsumer {} exampleOperations⟩

end RubyOAuth
