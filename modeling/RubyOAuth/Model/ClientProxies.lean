import RubyOAuth.Model.KeyedProxies

set_option autoImplicit false

/-! # The proxies of other HTTP clients

RestClient and Curl requests are split by loops of their own where the Net::HTTP proxy uses
`CGI.parse`; a Typhoeus request has its parameters as a hash; the EventMachine proxy gathers its sources
into one hash of arrays. `upcase` and the content
types are those of the other proxies. -/

namespace RubyOAuth

open Bytes

/-- `URI.parse(url).query`, and `CGI.parse` of it where there is one. -/
def urlQueryParams (url : Bytes) : Except RubyError Params := do
  let uri ← parseUri url
  .ok (match if uri.isOpaque then none else uri.query with
    | some query => (cgiParse query).mapValues (fun vs => .arr (vs.map Value.str))
    | none => OrderedHash.empty)

/-! ## `RestClient::Request` -/

structure RestClientPayload where
  contentType : Option Bytes
  text : Bytes

/-- A RestClient request; `requestMethod` is the text of its method. -/
structure RestClientRequest where
  requestMethod : Bytes
  url : Bytes
  payload : Option RestClientPayload

namespace RestClientRequest

def method (r : RestClientRequest) : Bytes := upcase r.requestMethod

/-- One step of `query_string_to_hash`. -/
def addField (result : KeyedParams) (q : Bytes) : KeyedParams :=
  let flag := fun k : Key => if (result.lookup k).isSome then result else result.set k (.bool true)
  match splitFields (· == equal) q with
  | k :: v :: _ => result.set (.str k) (.str v)
  | [k] => flag (.str k)
  | [] => flag .nil

/-- `query_string_to_hash`. -/
def queryStringToHash (query : Bytes) : KeyedParams :=
  (splitFields (· == ampersand) query).foldl addField OrderedHash.empty

/-- `stringify_keys`, for values that are no hashes. -/
def stringifyKeys (hash : KeyedParams) : Params :=
  hash.entries.foldl (fun h e => h.set e.1.toS e.2) OrderedHash.empty

def isFormData (r : RestClientRequest) : Bool :=
  match r.payload with
  | some payload => payload.contentType == some formMediaType
  | none => false

def postParameters (r : RestClientRequest) : Params :=
  if r.isFormData && (r.method == ascii "POST" || r.method == ascii "PUT") then
    stringifyKeys (queryStringToHash ((r.payload.map RestClientPayload.text).getD []))
  else OrderedHash.empty

def parameters (r : RestClientRequest) (o : SignatureOptions) : Except RubyError Params :=
  if o.clobberRequest then .ok (o.parameters.getD OrderedHash.empty)
  else do
    let queryParams ← urlQueryParams r.url
    .ok ((r.postParameters.merge queryParams).merge (o.parameters.getD OrderedHash.empty))

def proxy (r : RestClientRequest) (o : SignatureOptions) : Proxy where
  method := r.method
  uri := r.url
  parameters := r.parameters o
  normalizedUri := normalizeUri r.url
  normalizedUri_of_ok := fun _ hs => hs
  unsignedParameters := o.unsignedParameters.getD []
  consumer := o.consumer
  body := .error .noMethodError

end RestClientRequest

/-! ## `Curl::Easy` -/

structure CurlEasy where
  url : Bytes
  contentType : Option Bytes
  postBody : Option Bytes

namespace CurlEasy

/-- `post_body[param[0]] = param[1]`. -/
def addField (postBody : KeyedParams) (str : Bytes) : KeyedParams :=
  match splitFields (· == equal) str with
  | k :: v :: _ => postBody.set (.str k) (.str v)
  | [k] => postBody.set (.str k) .nil
  | [] => postBody.set .nil .nil

def postParameters (r : CurlEasy) : Except RubyError KeyedParams :=
  if isFormMediaType r.contentType then
    match r.postBody with
    | some body => .ok ((splitFields (· == ampersand) body).foldl addField OrderedHash.empty)
    | none => .error .noMethodError
  else .ok OrderedHash.empty

def parameters (r : CurlEasy) (o : SignatureOptions) : Except RubyError KeyedParams :=
  if o.clobberRequest then
    match o.parameters with
    | some params => .ok params.keyed
    | none => .error .noMethodError
  else do
    let postParameters ← r.postParameters
    let queryParameters ← urlQueryParams r.url
    .ok ((postParameters.merge queryParameters.keyed).merge
      (Params.keyed (o.parameters.getD OrderedHash.empty)))

def normalizedParameters (rt : Runtime) (r : CurlEasy) (o : SignatureOptions) :
    Except RubyError Bytes := do
  let params ← r.parameters o
  KeyedParams.normalizedParameters rt (o.unsignedParameters.getD []) params

def keyedProxy (r : CurlEasy) (o : SignatureOptions) : KeyedProxy where
  -- `method` is `nil`, and nothing is written of it
  method := []
  normalizedUri := normalizeUri (o.uri.getD [])
  parameters := r.parameters o

end CurlEasy

/-! ## `Typhoeus::Request` -/

/-- A Typhoeus request; `requestMethod` is the text of its method option and `params` its option of that
    name, in which hashes have string names. -/
structure TyphoeusRequest where
  requestMethod : Bytes
  url : Bytes
  params : Option KeyedParams

namespace TyphoeusRequest

def method (r : TyphoeusRequest) : Bytes :=
  let requestMethod := upcase r.requestMethod
  if requestMethod.isEmpty then ascii "GET" else requestMethod

def postParameters (r : TyphoeusRequest) : Params :=
  if r.method == ascii "POST" then
    RestClientRequest.stringifyKeys (r.params.getD OrderedHash.empty)
  else OrderedHash.empty

def parameters (r : TyphoeusRequest) (o : SignatureOptions) : Except RubyError Params :=
  if o.clobberRequest then
    match o.parameters with
    | some params => .ok params
    | none => .error .noMethodError
  else do
    let queryParameters ← urlQueryParams r.url
    .ok ((r.postParameters.merge queryParameters).merge (o.parameters.getD OrderedHash.empty))

def proxy (r : TyphoeusRequest) (o : SignatureOptions) : Proxy where
  method := r.method
  uri := o.uri.getD []
  parameters := r.parameters o
  normalizedUri := normalizeUri (o.uri.getD [])
  normalizedUri_of_ok := fun _ hs => hs
  unsignedParameters := o.unsignedParameters.getD []
  consumer := o.consumer
  body := .error .noMethodError

end TyphoeusRequest

/-! ## `EventMachine::HttpClient` -/

/-- The query option of an EventMachine request. -/
inductive EmQuery where
  | hash (params : KeyedParams)
  | text (query : Bytes)

/-- What the proxy reads of an EventMachine client; `body` is the text of the normalized body. -/
structure EmHttpRequest where
  method : Bytes
  contentType : Option Bytes
  body : Bytes
  query : EmQuery
  connQuery : Bytes

/-- `CGI.parse`, as a hash of arrays. -/
def cgiParams (query : Bytes) : KeyedParams :=
  Params.keyed ((cgiParse query).mapValues (fun vs => .arr (vs.map Value.str)))

namespace EmHttpRequest

def queryParameters (r : EmHttpRequest) : KeyedParams :=
  (cgiParams r.connQuery).merge
    (match r.query with
      | .hash params => params
      | .text query => cgiParams query)

def postParameters (r : EmHttpRequest) : KeyedParams :=
  if (r.method == ascii "POST" || r.method == ascii "PUT") && isFormMediaType r.contentType then
    cgiParams r.body
  else OrderedHash.empty

/-- One entry of `merged_parameters`: a key that is there has its value added to the array, where a
    symbol is never there, since the names are kept as strings. -/
def addEntry (params : OrderedHash Bytes (List Value)) (e : Key × Value) :
    Except RubyError (OrderedHash Bytes (List Value)) :=
  let present := match e.1 with
    | .str k => params.lookup k
    | _ => none
  match present, e.2 with
  | some values, .arr vs => .ok (params.set e.1.toS (values ++ vs))
  | some _, _ => .error .typeError
  | none, value => .ok (params.set e.1.toS (flattenValue value))

/-- `merged_parameters`. -/
def mergedParameters (params : OrderedHash Bytes (List Value))
    (extraParams : List (Option KeyedParams)) :
    Except RubyError (OrderedHash Bytes (List Value)) :=
  ((extraParams.filterMap id).flatMap OrderedHash.entries).foldlM addEntry params

/-- `all_parameters`. -/
def allParameters (r : EmHttpRequest) (parameters : Option KeyedParams) :
    Except RubyError (OrderedHash Bytes (List Value)) :=
  mergedParameters OrderedHash.empty [some r.postParameters, some r.queryParameters, parameters]

end EmHttpRequest

end RubyOAuth
