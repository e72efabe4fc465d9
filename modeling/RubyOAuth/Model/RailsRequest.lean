import RubyOAuth.Model.NetHttp

set_option autoImplicit false

/-! # The Rails proxies

Both proxies stand for an `ActionDispatch::Request`, which is a Rack request. `ActionDispatchRequest`
signs the decoded parameters, each value wrapped in an array; `ActionControllerRequest` signs the raw
query and body, which it splits itself. -/

namespace RubyOAuth

open Bytes

/-- A Rack request with its raw query and body. -/
structure DispatchRequest extends RackRequest where
  queryString : Bytes
  rawPost : Bytes

/-- `Hash#to_query` of ActiveSupport, which the repository does not define. -/
structure ActiveSupport where
  toQuery : Params → Bytes
  toQuery_empty : toQuery OrderedHash.empty = []

/-! ## `wrap_values` -/

/-- `(v.is_a?(Array) || v.nil?) ? v : [v]`. -/
def wrapValue : Value → Value
  | .arr vs => .arr vs
  | .nil => .nil
  | v => .arr [v]

/-- `wrap_values`. -/
def wrapValues : Option Params → Params
  | none => OrderedHash.empty
  | some hash => hash.mapValues wrapValue

/-! ## `ActionDispatchRequest` -/

namespace ActionDispatchRequest

def uri (r : DispatchRequest) (o : SignatureOptions) : Bytes := o.uri.getD r.url

def parameters (r : DispatchRequest) (o : SignatureOptions) : Except RubyError Params :=
  if o.clobberRequest then .ok (o.parameters.getD OrderedHash.empty)
  else do
    let rq ← r.requestParams
    let qq ← r.queryParams
    let headerParams ← r.headerParams
    let params := ((wrapValues (some rq)).merge (wrapValues (some qq))).merge
      (headerParams.mapValues Value.str)
    .ok (params.merge (o.parameters.getD OrderedHash.empty))

def proxy (r : DispatchRequest) (o : SignatureOptions) : Proxy where
  method := r.method
  uri := uri r o
  parameters := parameters r o
  normalizedUri := normalizeUri (uri r o)
  normalizedUri_of_ok := fun _ hs => hs
  unsignedParameters := o.unsignedParameters.getD []
  consumer := o.consumer
  body := .error .noMethodError
  binaryText := r.readsHeader o

end ActionDispatchRequest

/-! ## `ActionControllerRequest` -/

/-- What `\s` matches. -/
def isPatternSpace (b : UInt8) : Bool := (decide (9 ≤ b) && decide (b ≤ 13)) || b == space

/-- `s.match(/\A\s*\z/)`. -/
def isBlank (s : Bytes) : Bool := s.all isPatternSpace

def upcase (s : Bytes) : Bytes := s.map (fun b => if isLower b then b - 32 else b)

/-- `normalize` of a list of arrays of strings: the arrays are sorted as arrays, and of each the first
    element is the name and the second the value; what is missing is `nil`, the rest is not looked at. -/
def normalizeLists (params : List (List Bytes)) : Bytes :=
  joinWith ampersand ((params.insertionSort (· ≤ ·)).map
    (fun kv => segment (kv.head?.getD []) (kv.tail.head?.getD [])))

namespace ActionControllerRequest

def method (r : DispatchRequest) : Bytes := upcase r.method

def uri (r : DispatchRequest) (o : SignatureOptions) : Bytes := o.uri.getD r.url

/-- `query_string_blank?`: a `REQUEST_URI` decides by its `?`. -/
def queryStringBlank (r : DispatchRequest) : Bool :=
  match r.env.lookup (ascii "REQUEST_URI") with
  | some uri => (cut question uri).2.isNone
  | none => isBlank r.queryString

/-- `raw_post_signature?`. -/
def rawPostSignature (r : DispatchRequest) : Bool :=
  (r.requestMethod == ascii "POST" || r.requestMethod == ascii "PUT") && isFormMediaType r.contentType

/-- The texts that `parameters_for_signature` joins. -/
def signedTexts (support : ActiveSupport) (r : DispatchRequest) (o : SignatureOptions) :
    Except RubyError (List Bytes) :=
  let given := (o.parameters.map support.toQuery).toList
  if o.clobberRequest then .ok given
  else do
    let headerParams ← r.headerParams
    .ok (given ++ [support.toQuery (headerParams.mapValues Value.str)] ++
      (if queryStringBlank r then [] else [r.queryString]) ++
      (if rawPostSignature r then [r.rawPost] else []))

/-- `p.split("=").map { |esc| CGI.unescape(esc) }`. -/
def splitSegment (p : Bytes) : List Bytes := (splitFields (· == equal) p).map cgiUnescape

def parametersForSignature (support : ActiveSupport) (r : DispatchRequest) (o : SignatureOptions) :
    Except RubyError (List (List Bytes)) := do
  let texts ← signedTexts support r o
  let parts := (splitFields (· == ampersand) (joinWith ampersand texts)).filter (!isBlank ·)
  .ok ((parts.map splitSegment).filter (fun kv => kv.head? != some (ascii "oauth_signature")))

def normalizedParameters (support : ActiveSupport) (r : DispatchRequest) (o : SignatureOptions) :
    Except RubyError Bytes := do
  let params ← parametersForSignature support r o
  .ok (normalizeLists params)

def signatureBaseString (support : ActiveSupport) (r : DispatchRequest) (o : SignatureOptions) :
    Except RubyError Bytes := do
  let uri ← normalizeUri (uri r o)
  let params ← normalizedParameters support r o
  .ok (joinWith ampersand ([method r, uri, params].map escapeBytes))

end ActionControllerRequest

end RubyOAuth
