import RubyOAuth.Proofs.ClientParameters
import RubyOAuth.Proofs.Listing
import RubyOAuth.Proofs.SignedUrl

set_option autoImplicit false

/-! # Which changes of a form body are signed

The body of a request with a hash is the normal form of the hash. It enters the base string through
the parameters of the Net::HTTP proxy, which reads the body of a `POST` or `PUT` only; what it reads it
signs, up to the names that are never signed and a name that stands elsewhere without a value. -/

namespace RubyOAuth

open Bytes

/-! ## Normal forms as form bodies -/

/-- Every field of a normal form has a value. -/
theorem isSome_of_normalize {rt : Runtime} {params : Params} {body : Bytes}
    (h : normalize rt params = .ok body) : ∀ f ∈ cgiFields body, f.2.isSome = true := by
  rw [normalize, Except.bind_eq_ok] at h
  obtain ⟨items, hitems, h⟩ := h
  rw [← Except.ok.inj h, cgiFields_joinWith, List.flatMap_map]
  intro f hf
  obtain ⟨segments, hseg, hf⟩ := List.mem_flatMap.1 hf
  rw [cgiFields_joinWith] at hf
  obtain ⟨s, hs, hf⟩ := List.mem_flatMap.1 hf
  obtain ⟨e, -, he⟩ := Except.mem_of_mapM hitems hseg
  obtain ⟨n, w, rfl, -⟩ := segmentOf_normalizeEntry he s hs
  rw [cgiFields_segment, List.mem_singleton] at hf
  rw [hf]
  rfl

theorem valuesOf_formPairs {rt : Runtime} {params : Params} {body : Bytes}
    (h : normalize rt params = .ok body) (k : Bytes) :
    valuesOf k (formPairs body) = fieldValues k (cgiFields body) := by
  have hall := isSome_of_normalize h
  rw [formPairs]
  generalize cgiFields body = fields at hall
  induction fields with
  | nil => rfl
  | cons f rest ih =>
      obtain ⟨n, v⟩ := f
      obtain ⟨w, rfl⟩ := Option.isSome_iff_exists.1 (hall (n, v) List.mem_cons_self)
      rw [List.map_cons, valuesOf_cons, fieldValues_cons,
        ih (fun g hg => hall g (List.mem_cons_of_mem _ hg))]
      rfl

/-! ## The values of one name with two bodies -/

/-- The two lists are the empty one and that of one empty value. -/
def OnlyEmptyValue (vs ws : List Bytes) : Prop := (vs = [] ∧ ws = [[]]) ∨ (vs = [[]] ∧ ws = [])

instance (vs ws : List Bytes) : Decidable (OnlyEmptyValue vs ws) := by
  unfold OnlyEmptyValue; infer_instance

theorem mem_names_iff {fields : List (Bytes × Option Bytes)} (h : ∀ f ∈ fields, f.2.isSome = true)
    (k : Bytes) : k ∈ fields.map Prod.fst ↔ fieldValues k fields ≠ [] := by
  induction fields with
  | nil => simp [fieldValues]
  | cons f rest ih =>
      obtain ⟨n, v⟩ := f
      obtain ⟨w, rfl⟩ := Option.isSome_iff_exists.1 (h (n, v) List.mem_cons_self)
      have hrest := ih (fun g hg => h g (List.mem_cons_of_mem _ hg))
      rw [List.map_cons, List.mem_cons, fieldValues_cons]
      by_cases hn : n = k
      · simp [hn]
      · have hkn : k ≠ n := fun he => hn he.symm
        simp only [hkn, hn, if_false, false_or, hrest]

/-- **Fields with a value that come after others change the values of a name by their own**, but for
    a name sent as `nil`, and for an empty value where the others have the bare name. -/
theorem collectedValues_perm_iff {fields gs hs : List (Bytes × Option Bytes)} {oauthParams : Params}
    (hp : TextParameters oauthParams) (hg : ∀ f ∈ gs, f.2.isSome = true)
    (hh : ∀ f ∈ hs, f.2.isSome = true) (k : Bytes) :
    (collectedValues (fields ++ gs) oauthParams k).Perm
        (collectedValues (fields ++ hs) oauthParams k) ↔
      (fieldValues k gs).Perm (fieldValues k hs) ∨ oauthParams.lookup k = some .nil ∨
        (oauthParams.lookup k = none ∧ (k ∈ fields.map Prod.fst ∧ fieldValues k fields = []) ∧
          OnlyEmptyValue (fieldValues k gs) (fieldValues k hs)) := by
  have hnames : ∀ fs, (∀ f ∈ fs, f.2.isSome = true) → (k ∈ (fields ++ fs).map Prod.fst ↔
      k ∈ fields.map Prod.fst ∨ fieldValues k fs ≠ []) := by
    intro fs hfs
    rw [List.map_append, List.mem_append, mem_names_iff hfs]
  cases hl : oauthParams.lookup k with
  | some v =>
      rcases hp k v hl with rfl | ⟨s, rfl⟩
      · simp [collectedValues, hl]
      · simp [collectedValues, hl, fieldValues_append, List.perm_append_left_iff,
          List.perm_append_right_iff]
  | none =>
      simp only [collectedValues, hl, hnames gs hg, hnames hs hh, fieldValues_append]
      generalize fieldValues k gs = vs
      generalize fieldValues k hs = ws
      by_cases hm : k ∈ fields.map Prod.fst
      · by_cases hnil : fieldValues k fields = []
        · -- the bare name counts as one empty value until there is another
          simp only [hm, true_or, if_true, hnil, List.nil_append, and_self, true_and, reduceCtorEq,
            false_or]
          by_cases hv : vs = []
          · by_cases hw : ws = []
            · simp [hv, hw]
            · simp only [hv, hw, if_true, if_false, OnlyEmptyValue]
              rw [List.perm_comm, List.perm_singleton]
              simp [hw, List.nil_perm]
          · by_cases hw : ws = []
            · simp only [hv, hw, if_true, if_false, OnlyEmptyValue]
              rw [List.perm_singleton]
              simp [hv, List.perm_nil]
            · simp [hv, hw, OnlyEmptyValue]
        · simp [hm, hnil, List.perm_append_left_iff]
      · have hnil := fieldValues_of_not_mem hm
        have hid : ∀ xs : List Bytes, (if xs ≠ [] then if xs = [] then [[]] else xs else []) = xs := by
          intro xs
          by_cases hx : xs = [] <;> simp [hx]
        simp only [hm, false_or, hnil, List.nil_append, hid]
        simp

/-! ## Requests with a form body -/

/-- The base string that `create_signed_request` signs with the header scheme. -/
def headerBaseString (rt : Runtime) (c : Consumer) (http : Connection) (method : HttpMethod)
    (path : Bytes) (token : Option Token) (o : CallOptions) (data : RequestData)
    (headers : List (Bytes × Bytes)) (g : Generated) : Except RubyError Bytes := do
  let request ← createHttpRequest rt c http method path data headers
  let helper ← signingHelper rt http request c token (c.mergeOptions o) g
  (helper.request.proxy (helper.signatureOptions helper.oauthParameters)).signatureBaseString rt

variable {rt : Runtime} {c : Consumer} {http : Connection} {method : HttpMethod} {path : Bytes}
  {token : Option Token} {o : CallOptions} {headers : List (Bytes × Bytes)} {g : Generated}

/-- The request with a hash is the one without data, its normal form as the body. -/
theorem createHttpRequest_hash (hm : method.takesData = true) {data : Params} {r : HttpRequest}
    (h : createHttpRequest rt c http method path (.hash data) headers = .ok r) :
    ∃ r₀ body, createHttpRequest rt c http method path .none headers = .ok r₀ ∧ r₀.body = none ∧
      normalize rt data = .ok body ∧
      r = ({ r₀ with body := some body } : HttpRequest).withHeader (ascii "Content-Type")
        formMediaType := by
  obtain ⟨site, cls, first, hsite, hcls, hfirst, h⟩ := createHttpRequest_eq_ok.1 h
  rw [if_pos hm] at h
  obtain ⟨body, hbody, h⟩ := Except.bind_eq_ok.1 h
  obtain ⟨-, -, hnone, -⟩ := HttpRequest.new_eq_ok hfirst
  refine ⟨first.withHeader (ascii "Content-Length") (ascii "0"), body, ?_, hnone, hbody,
    (Except.ok.inj h).symm⟩
  rw [createHttpRequest_eq_ok]
  refine ⟨site, cls, first, hsite, hcls, hfirst, ?_⟩
  rw [if_pos hm]
  rfl

/-- A form body adds its fields to those of the request without it, for `POST` and `PUT` only. -/
theorem cgiFields_formBody {r₀ r : HttpRequest} (hbody : r₀.body = none) {body q : Bytes}
    (hr : r = amendUserAgent (({ r₀ with body := some body } : HttpRequest).withHeader
      (ascii "Content-Type") formMediaType)) (h : r.queryString = .ok q) :
    ∃ q₀, r₀.queryString = .ok q₀ ∧
      cgiFields q = cgiFields q₀ ++ if r₀.isPostOrPut then cgiFields body else [] := by
  obtain ⟨hs, hagent⟩ := amendUserAgent_eq (({ r₀ with body := some body } : HttpRequest).withHeader
    (ascii "Content-Type") formMediaType)
  have htype : downcase (ascii "Content-Type") ≠ ascii "user-agent" := by decide
  have hauthName : downcase (ascii "Authorization") ≠ ascii "user-agent" := by decide
  have hother : downcase (ascii "Authorization") ≠ downcase (ascii "Content-Type") := by decide
  have hquery : r.queryParams = r₀.queryParams := by
    rw [hr, hagent]
    rfl
  have hmethod : r.isPostOrPut = r₀.isPostOrPut := by
    rw [hr, hagent]
    rfl
  have hrbody : r.body = some body := by
    rw [hr, hagent]
    rfl
  have hauth : r.authHeaderParams = r₀.authHeaderParams := by
    rw [hr, HttpRequest.authHeaderParams, header_amendUserAgent _ hauthName, header_withHeader,
      if_neg hother]
    rfl
  have hform : r.formUrlEncoded = true := by
    rw [hr, HttpRequest.formUrlEncoded, header_amendUserAgent _ htype, header_withHeader, if_pos rfl]
    decide
  have hpost : r.postParams = if r₀.isPostOrPut then some body else none := by
    rw [HttpRequest.postParams, hmethod, hform, hrbody, Bool.and_true]
  have hpost₀ : r₀.postParams = none := by
    rw [HttpRequest.postParams, hbody]
    split <;> rfl
  obtain ⟨query, hq, hfields⟩ := cgiFields_queryString h
  obtain ⟨q₀, hq₀⟩ : ∃ q₀, r₀.queryString = .ok q₀ := by
    rw [HttpRequest.queryString, ← hquery, hq]
    exact ⟨_, rfl⟩
  obtain ⟨query₀, hquery₀, hfields₀⟩ := cgiFields_queryString hq₀
  rw [← hquery, hq, Except.ok.injEq] at hquery₀
  subst hquery₀
  refine ⟨q₀, hq₀, ?_⟩
  rw [hfields, hfields₀, hauth, hpost, hpost₀, Option.toList_none, List.append_nil,
    List.flatMap_append]
  cases r₀.isPostOrPut <;> simp

theorem isPostOrPut_iff (hm : method.takesData = true) {data : RequestData} {r : HttpRequest}
    (h : createHttpRequest rt c http method path data headers = .ok r) :
    r.isPostOrPut = true ↔ method = .post ∨ method = .put := by
  obtain ⟨site, cls, first, -, hcls, hfirst, h⟩ := createHttpRequest_eq_ok.1 h
  rw [if_pos hm] at h
  have hname : r.method = cls.1 := by
    rw [(setData_eq_ok h).1, ← (HttpRequest.new_eq_ok hfirst).1]
    rfl
  have hpost : ∀ name : Bytes, r.method = name → (r.isPostOrPut = true ↔
      downcase name = ascii "post" ∨ downcase name = ascii "put") := by
    rintro name rfl
    rw [HttpRequest.isPostOrPut, Bool.or_eq_true, beq_iff_eq, beq_iff_eq]
  cases method with
  | post =>
      rw [hpost (ascii "POST") (by rw [hname, ← Except.ok.inj hcls])]
      decide
  | put =>
      rw [hpost (ascii "PUT") (by rw [hname, ← Except.ok.inj hcls])]
      decide
  | patch =>
      rw [hpost (ascii "PATCH") (by rw [hname, ← Except.ok.inj hcls])]
      decide
  | get => simp [HttpMethod.takesData] at hm
  | head => simp [HttpMethod.takesData] at hm
  | delete => simp [HttpMethod.takesData] at hm
  | other name => simp [HttpMethod.takesData] at hm

/-! ## The base string -/

/-- The OAuth parameters of a call; they do not depend on the request. -/
def callParameters (c : Consumer) (token : Option Token) (o : CallOptions) (g : Generated) : Params :=
  ClientHelper.oauthParameters
    ⟨⟨[], [], OrderedHash.empty, none, none, false⟩, [], c, token, c.mergeOptions o, g⟩

/-- The name is signed. -/
def signedName (o : CallOptions) (k : Bytes) : Bool :=
  !(o.unsignedParameters.getD [] ++ [ascii "oauth_signature"]).contains k

/-- A request with a form body is signed as it is, without a body hash. -/
theorem signingHelper_form {r : HttpRequest} (hform : isFormMediaType r.contentType = true)
    {helper : ClientHelper}
    (h : signingHelper rt http r c token (c.mergeOptions o) g = .ok helper) :
    ∃ full, oauthFullRequestUri http r.path (c.mergeOptions o) = .ok full ∧
      helper = ⟨amendUserAgent r, full, c, token, c.mergeOptions o, g⟩ := by
  rw [signingHelper, Except.bind_eq_ok] at h
  obtain ⟨first, hfirst, h⟩ := h
  rw [oauthHelper, Except.bind_eq_ok] at hfirst
  obtain ⟨full, hfull, hfirst⟩ := hfirst
  have hno : oauthBodyHashRequired r (c.mergeOptions o) = false := by
    rw [oauthBodyHashRequired, hform]
    simp
  simp only [hno, Bool.false_eq_true, if_false, Except.ok.injEq] at h
  refine ⟨full, hfull, ?_⟩
  rw [← h, ← Except.ok.inj hfirst]
  rfl

/-- The base string of a request with a hash, in its three parts. -/
theorem headerBaseString_hash (hm : method.takesData = true) {data : Params} {s : Bytes}
    (h : headerBaseString rt c http method path token o (.hash data) headers g = .ok s) :
    ∃ r₀ q₀ full uri body q,
      createHttpRequest rt c http method path .none headers = .ok r₀ ∧ r₀.queryString = .ok q₀ ∧
      oauthFullRequestUri http r₀.path (c.mergeOptions o) = .ok full ∧ normalizeUri full = .ok uri ∧
      normalize rt data = .ok body ∧
      cgiFields q = cgiFields q₀ ++ (if r₀.isPostOrPut then cgiFields body else []) ∧
      s = joinWith ampersand ([r₀.method, uri, normalForm (flatPairs
        ((collected q (callParameters c token o g)).select (signedName o)).entries)].map
          escapeBytes) := by
  rw [headerBaseString, Except.bind_eq_ok] at h
  obtain ⟨r, hr, h⟩ := h
  obtain ⟨helper, hhelper, h⟩ := Except.bind_eq_ok.1 h
  obtain ⟨r₀, body, hr₀, hbody, hnorm, rfl⟩ := createHttpRequest_hash hm hr
  have hform : isFormMediaType ((({ r₀ with body := some body } : HttpRequest).withHeader
      (ascii "Content-Type") formMediaType).contentType) = true := by
    rw [HttpRequest.contentType, header_withHeader, if_pos rfl]
    decide
  obtain ⟨full, hfull, rfl⟩ := signingHelper_form hform hhelper
  obtain ⟨uri, params, huri, hparams, rfl⟩ :=
    (signatureBaseString_proxy (ClientHelper.textParameters_of_mem _)).1 h
  -- the parameters are those of the query string with the OAuth parameters added
  have hadded : (ClientHelper.signatureOptions ⟨amendUserAgent (({ r₀ with body := some body } :
      HttpRequest).withHeader (ascii "Content-Type") formMediaType), full, c, token, c.mergeOptions o,
      g⟩ (callParameters c token o g)).parameters.getD OrderedHash.empty = callParameters c token o g :=
    rfl
  obtain ⟨q, hq, rfl⟩ := parameters_eq_ok hparams rfl hadded
  obtain ⟨q₀, hq₀, hfields⟩ := cgiFields_formBody hbody rfl hq
  have hmethod : (amendUserAgent (({ r₀ with body := some body } : HttpRequest).withHeader
      (ascii "Content-Type") formMediaType)).method = r₀.method := by
    obtain ⟨hs, hagent⟩ := amendUserAgent_eq (({ r₀ with body := some body } : HttpRequest).withHeader
      (ascii "Content-Type") formMediaType)
    rw [hagent]
    rfl
  refine ⟨r₀, q₀, full, uri, body, q, hr₀, hq₀, hfull, huri, hnorm, hfields, ?_⟩
  rw [hmethod]
  rfl

/-! ## Which changes are signed -/

/-- Outside the body the name stands without any value. -/
def BareElsewhere (rt : Runtime) (c : Consumer) (http : Connection) (method : HttpMethod)
    (path : Bytes) (headers : List (Bytes × Bytes)) (k : Bytes) : Prop :=
  ∃ r q, createHttpRequest rt c http method path .none headers = .ok r ∧ r.queryString = .ok q ∧
    (cgiParse q).lookup k = some []

/-- The base string shows that the values of the name differ in the two bodies. -/
def ShowsName (rt : Runtime) (c : Consumer) (http : Connection) (method : HttpMethod) (path : Bytes)
    (token : Option Token) (o : CallOptions) (headers : List (Bytes × Bytes)) (g : Generated)
    (body body' k : Bytes) : Prop :=
  signedName o k = true ∧
    ¬ (valuesOf k (formPairs body)).Perm (valuesOf k (formPairs body')) ∧
    -- an OAuth parameter sent as `nil` stands alone
    (callParameters c token o g).lookup k ≠ some .nil ∧
    -- and a bare name elsewhere counts as the empty value
    ¬ ((callParameters c token o g).lookup k = none ∧
      BareElsewhere rt c http method path headers k ∧
      OnlyEmptyValue (valuesOf k (formPairs body)) (valuesOf k (formPairs body')))

/-- **Two form bodies give different base strings exactly for `POST` and `PUT`, and where they differ
    in a name that is shown.** -/
theorem headerBaseString_ne_iff (rt : Runtime) (c : Consumer) (http : Connection)
    (method : HttpMethod) (path : Bytes) (token : Option Token) (o : CallOptions)
    (headers : List (Bytes × Bytes)) (g : Generated) (data data' : Params) (body body' s s' : Bytes)
    (hm : method.takesData = true) (hbody : normalize rt data = .ok body)
    (hbody' : normalize rt data' = .ok body')
    (hs : headerBaseString rt c http method path token o (.hash data) headers g = .ok s)
    (hs' : headerBaseString rt c http method path token o (.hash data') headers g = .ok s') :
    s ≠ s' ↔ (method = .post ∨ method = .put) ∧
      ∃ k, ShowsName rt c http method path token o headers g body body' k := by
  obtain ⟨r, q₀, full, uri, b, q, hr, hq₀, hfull, huri, hb, hq, rfl⟩ := headerBaseString_hash hm hs
  obtain ⟨r', q₀', full', uri', b', q', hr', hq₀', hfull', huri', hb', hq', rfl⟩ :=
    headerBaseString_hash hm hs'
  -- the two requests are one but for the body
  obtain rfl : r = r' := Except.ok.inj (hr.symm.trans hr')
  obtain rfl : q₀ = q₀' := Except.ok.inj (hq₀.symm.trans hq₀')
  obtain rfl : full = full' := Except.ok.inj (hfull.symm.trans hfull')
  obtain rfl : uri = uri' := Except.ok.inj (huri.symm.trans huri')
  obtain rfl : body = b := Except.ok.inj (hbody.symm.trans hb)
  obtain rfl : body' = b' := Except.ok.inj (hbody'.symm.trans hb')
  have htext : TextParameters (callParameters c token o g) := textParameters_oauthParameters _
  rw [ne_eq, baseString_inj, and_iff_right rfl, and_iff_right rfl, normalForm_select_eq_iff]
  simp only [valuesOf_collected _ htext, hq, hq', ← isPostOrPut_iff hm hr]
  by_cases hpost : r.isPostOrPut = true
  · simp only [hpost, if_true, true_and]
    rw [not_forall]
    refine exists_congr fun k => ?_
    have hbare : BareElsewhere rt c http method path headers k ↔
        k ∈ (cgiFields q₀).map Prod.fst ∧ fieldValues k (cgiFields q₀) = [] := by
      have hlookup : (cgiParse q₀).lookup k = some [] ↔
          k ∈ (cgiFields q₀).map Prod.fst ∧ fieldValues k (cgiFields q₀) = [] := by
        rw [lookup_cgiParse]
        split
        · next h => simp [h]
        · next h => simp [h]
      rw [← hlookup]
      constructor
      · rintro ⟨r', q', hr', hq', hl⟩
        obtain rfl : r = r' := Except.ok.inj (hr.symm.trans hr')
        obtain rfl : q₀ = q' := Except.ok.inj (hq₀.symm.trans hq')
        exact hl
      · intro hl
        exact ⟨r, q₀, hr, hq₀, hl⟩
    rw [collectedValues_perm_iff htext (isSome_of_normalize hbody) (isSome_of_normalize hbody'),
      ← valuesOf_formPairs hbody, ← valuesOf_formPairs hbody', ← hbare]
    rw [ShowsName, Classical.not_imp, not_or, not_or]
  · -- the body of a `PATCH` is not looked at
    simp [hpost]

def smallOrder : Params := OrderedHash.ofList [(ascii "size", .str (ascii "s"))]

def largeOrder : Params := OrderedHash.ofList [(ascii "size", .str (ascii "l"))]

theorem post_headerBaseString_ne_iff :
    ∃ s s', headerBaseString echoRuntime exampleConsumer exampleConnection .post (ascii "/orders")
        none {} (.hash smallOrder) [] (answer "").generated = .ok s ∧
      headerBaseString echoRuntime exampleConsumer exampleConnection .post (ascii "/orders") none {}
        (.hash largeOrder) [] (answer "").generated = .ok s' ∧
      (s ≠ s' ↔ (HttpMethod.post = .post ∨ HttpMethod.post = .put) ∧
        ∃ k, ShowsName echoRuntime exampleConsumer exampleConnection .post (ascii "/orders") none {} []
          (answer "").generated (ascii "size=s") (ascii "size=l") k) :=
  ⟨_, _, rfl, rfl, headerBaseString_ne_iff echoRuntime exampleConsumer exampleConnection .post
    (ascii "/orders") none {} [] (answer "").generated smallOrder largeOrder (ascii "size=s")
    (ascii "size=l") _ _ rfl rfl rfl rfl rfl⟩

/-- The two orders of a `PATCH` have one base string. -/
theorem patch_headerBaseString_eq :
    ∃ s, headerBaseString echoRuntime exampleConsumer exampleConnection .patch (ascii "/orders") none
        {} (.hash smallOrder) [] (answer "").generated = .ok s ∧
      headerBaseString echoRuntime exampleConsumer exampleConnection .patch (ascii "/orders") none {}
        (.hash largeOrder) [] (answer "").generated = .ok s ∧
      normalize echoRuntime smallOrder = .ok (ascii "size=s") ∧
      normalize echoRuntime largeOrder = .ok (ascii "size=l") ∧
      ¬ (formPairs (ascii "size=s")).Perm (formPairs (ascii "size=l")) :=
  ⟨_, rfl, rfl, rfl, rfl, by decide⟩

end RubyOAuth
