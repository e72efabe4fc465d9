import RubyOAuth.Model.RequestProxy

set_option autoImplicit false

/-! # Net::HTTP requests and their proxy

`HttpRequest` is what the library reads and writes of a `Net::HTTPGenericRequest`; its headers are
kept under their lower-case names, as Net::HTTP keeps them. The proxy collects its parameters from
query, `Authorization` header and form body with `CGI.parse`, and adds `options[:parameters]`. -/

namespace RubyOAuth

open Bytes

/-! ## `CGI.parse` -/

/-- `CGI.unescape`: a `+` is a space. -/
def cgiUnescape (s : Bytes) : Bytes :=
  PercentCode.decode (s.map (fun b => if b = plus then space else b))

/-- Name and value of a field; a field without `=` has no value. -/
def cgiField (field : Bytes) : Bytes × Option Bytes :=
  (cgiUnescape (cut equal field).1, (cut equal field).2.map cgiUnescape)

/-- The non-empty fields between `&` and `;`. -/
def cgiFields (query : Bytes) : List (Bytes × Option Bytes) :=
  ((query.splitOnP (fun b => b == ampersand || b == semicolon)).filter (!·.isEmpty)).map cgiField

/-- `params[key] ||= []; params[key].push(value) if value`. -/
def cgiPush (params : OrderedHash Bytes (List Bytes)) (field : Bytes × Option Bytes) :
    OrderedHash Bytes (List Bytes) :=
  params.set field.1 ((params.lookup field.1).getD [] ++ field.2.toList)

/-- `CGI.parse`: the values of every name, in order. -/
def cgiParse (query : Bytes) : OrderedHash Bytes (List Bytes) :=
  (cgiFields query).foldl cgiPush OrderedHash.empty

/-! ## `Net::HTTPGenericRequest` -/

structure HttpRequest where
  method : Bytes
  path : Bytes
  headers : OrderedHash Bytes Bytes
  body : Option Bytes
  bodyStream : Option Bytes
  requestBodyPermitted : Bool

/-- `Net::HTTPHeader#content_type`: type and subtype without parameters. -/
def mediaType (value : Bytes) : Bytes :=
  let media := (cut semicolon value).1
  let mainType := strip (cut slash media).1
  match (cut slash media).2 with
  | none => mainType
  | some rest =>
    if rest.all (· == slash) then mainType
    else mainType ++ slash :: strip (cut slash rest).1

/-- A carriage return or a line feed. -/
def isLineEnd (b : UInt8) : Bool := b == newline || b == 13

/-- `initialize_http_header`: values are stripped and may not hold a line end. -/
def initialHeaders (headers : List (Bytes × Bytes)) : Except RubyError (OrderedHash Bytes Bytes) := do
  let es ← headers.mapM (fun e =>
    if (strip e.2).any isLineEnd then .error .argumentError
    else .ok (downcase e.1, strip e.2))
  let given := OrderedHash.ofList es
  -- a request without a `User-Agent` calls itself Ruby
  .ok (if given.keys.contains (ascii "user-agent") then given
    else given.set (ascii "user-agent") (ascii "Ruby"))

namespace HttpRequest

/-- `Net::HTTPGenericRequest#initialize`. -/
def new (method path : Bytes) (headers : List (Bytes × Bytes)) (requestBodyPermitted : Bool) :
    Except RubyError HttpRequest :=
  if path = [] then .error .argumentError
  else do
    let hs ← initialHeaders headers
    .ok ⟨method, path, hs, none, none, requestBodyPermitted⟩

def header (r : HttpRequest) (name : Bytes) : Option Bytes := r.headers.lookup (downcase name)

/-- The request with a header in place of the one it has under the name. -/
def withHeader (r : HttpRequest) (name value : Bytes) : HttpRequest :=
  { r with headers := r.headers.set (downcase name) value }

/-- `Net::HTTPHeader#[]=`, which raises on a value with a line end. Where the library sets a constant, a
    number or an addition to a header that is there, the value has none: `withHeader` is what is left. -/
def setHeader (r : HttpRequest) (name value : Bytes) : Except RubyError HttpRequest :=
  if value.any isLineEnd then .error .argumentError else .ok (r.withHeader name value)

def contentType (r : HttpRequest) : Option Bytes :=
  (r.header (ascii "Content-Type")).map mediaType

/-- The entity body that Net::HTTP sends: the body, else what the stream gives. -/
def entityBody (r : HttpRequest) : Bytes := (r.body.or r.bodyStream).getD []

/-! ## `RequestProxy::Net::HTTP::HTTPRequest` -/

/-- `URI.parse(request.path).query`; an opaque URI has none. -/
def queryParams (r : HttpRequest) : Except RubyError (Option Bytes) := do
  let uri ← parseUri r.path
  .ok (if uri.isOpaque then none else uri.query)

/-- The whole `Authorization` header, where it is an OAuth header. -/
def authHeaderParams (r : HttpRequest) : Option Bytes :=
  (r.header (ascii "Authorization")).filter (fun h => h.take 5 == ascii "OAuth")

def formUrlEncoded (r : HttpRequest) : Bool := isFormMediaType (r.header (ascii "Content-Type"))

/-- `casecmp` with `POST` and `PUT`. -/
def isPostOrPut (r : HttpRequest) : Bool :=
  downcase r.method == ascii "post" || downcase r.method == ascii "put"

def postParams (r : HttpRequest) : Option Bytes :=
  if r.isPostOrPut && r.formUrlEncoded then r.body else none

/-- `params.compact.join("&")`. -/
def queryString (r : HttpRequest) : Except RubyError Bytes := do
  let query ← r.queryParams
  .ok (joinWith ampersand ([query, r.authHeaderParams, r.postParams].filterMap id))

end HttpRequest

def truthy : Value → Bool
  | .nil => false
  | .bool b => b
  | _ => true

/-- `if request_params.key?(k) && v then request_params[k] << v else request_params[k] = [v]`. -/
def addParameter (params : OrderedHash Bytes (List Value)) (e : Bytes × Value) :
    OrderedHash Bytes (List Value) :=
  match params.lookup e.1 with
  | some vs => if truthy e.2 then params.set e.1 (vs ++ [e.2]) else params.set e.1 [e.2]
  | none => params.set e.1 [e.2]

namespace HttpRequest

def allParameters (r : HttpRequest) (o : SignatureOptions) : Except RubyError Params := do
  let query ← r.queryString
  let params := (cgiParse query).mapValues (fun vs => vs.map Value.str)
  .ok (((o.parameters.getD OrderedHash.empty).entries.foldl addParameter params).mapValues Value.arr)

def parameters (r : HttpRequest) (o : SignatureOptions) : Except RubyError Params :=
  if o.clobberRequest then
    match o.parameters with
    | some params => .ok params
    | none => .error .noMethodError
  else r.allParameters o

def proxy (r : HttpRequest) (o : SignatureOptions) : Proxy where
  method := r.method
  uri := o.uri.getD []
  parameters := r.parameters o
  normalizedUri := normalizeUri (o.uri.getD [])
  normalizedUri_of_ok := fun _ hs => hs
  unsignedParameters := o.unsignedParameters.getD []
  consumer := o.consumer
  body := .ok r.body

end HttpRequest

end RubyOAuth
