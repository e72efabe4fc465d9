import RubyOAuth.Lib.Utf8
import RubyOAuth.Model.Credentials
import RubyOAuth.Model.Helper

set_option autoImplicit false

/-! # Request proxies

`Proxy` is what `RequestProxy::Base` needs of a concrete proxy class: the request's method, URI and
parameters, the `unsigned_parameters` and the consumer of the options it was built with. A subclass
may override `normalized_uri`; the field `normalizedUri_of_ok` says that an override only adds a
fallback to Base's own answer. Texts are in UTF-8, but for those that `unescape` leaves binary; the
field `binaryText` tells under which names they are.

`MockRequest` and `RackRequest` follow; the Net::HTTP proxy is in `NetHttp`. -/

namespace RubyOAuth

open Bytes

/-- The options the proxies and the signature classes read. -/
structure SignatureOptions where
  consumer : Option Consumer := none
  consumerSecret : Secret := .nil
  token : Option Token := none
  tokenSecret : Secret := .nil
  uri : Option Bytes := none
  unsignedParameters : Option (List Bytes) := none
  parameters : Option Params := none
  clobberRequest : Bool := false
  privateKeyFile : Option Bytes := none
  privateKey : Option Bytes := none

/-- `URI.parse`. -/
def parseUri (s : Bytes) : Except RubyError Uri :=
  match Uri.parse s with
  | some u => .ok u
  | none => .error .invalidUri

theorem parseUri_eq_ok {s : Bytes} {u : Uri} : parseUri s = .ok u ↔ Uri.parse s = some u := by
  rw [parseUri]
  cases Uri.parse s <;> simp

theorem valid_of_parseUri {s : Bytes} {u : Uri} (h : parseUri s = .ok u) : u.Valid :=
  Uri.valid_of_parse (parseUri_eq_ok.1 h)

/-! ## `normalized_uri` -/

/-- The port where it is not the default of `http` or `https`. -/
def normalizedPort (u : Uri) (scheme : Bytes) : Bytes :=
  if (downcase scheme = ascii "http" ∧ u.effectivePort ≠ some 80) ∨
      (downcase scheme = ascii "https" ∧ u.effectivePort ≠ some 443) then
    colon :: (u.effectivePort.map Uri.decimal).getD []
  else []

/-- The body of `normalized_uri`; a missing scheme or host has no `downcase`. -/
def normalizeParsedUri (u : Uri) : Except RubyError Bytes :=
  match u.scheme, u.host with
  | some s, some h =>
    .ok (downcase s ++ (ascii "://" ++ (downcase h ++ (normalizedPort u s ++
      (if u.path = [] then [slash] else u.path)))))
  | _, _ => .error .noMethodError

def normalizeUri (uri : Bytes) : Except RubyError Bytes := do
  let u ← parseUri uri
  normalizeParsedUri u

/-! ## `RequestProxy::Base` -/

structure Proxy where
  method : Bytes
  uri : Bytes
  parameters : Except RubyError Params
  normalizedUri : Except RubyError Bytes
  normalizedUri_of_ok : ∀ s, normalizeUri uri = .ok s → normalizedUri = .ok s
  unsignedParameters : List Bytes
  consumer : Option Consumer
  body : Except RubyError (Option Bytes)
  binaryText : Bytes → Bool := fun _ => false

mutual

/-- `Array#flatten` of a one-element array. -/
def flattenValue : Value → List Value
  | .arr vs => flattenValues vs
  | v => [v]

def flattenValues : List Value → List Value
  | [] => []
  | v :: vs => flattenValue v ++ flattenValues vs

end

/-- `[v].flatten.first`. -/
def firstOf (v : Value) : Value := (flattenValue v).head?.getD .nil

@[simp] theorem firstOf_str (s : Bytes) : firstOf (.str s) = .str s := rfl

@[simp] theorem firstOf_singleton (s : Bytes) : firstOf (.arr [.str s]) = .str s := rfl

namespace Proxy

/-- The text of a parameter is valid in the encoding that it has. -/
def validText (p : Proxy) (name s : Bytes) : Bool := p.binaryText name || validUtf8 s

/-- The `oauth_*` accessors: `[parameters[name]].flatten.first`. -/
def oauthParameter (p : Proxy) (name : String) : Except RubyError Value := do
  let params ← p.parameters
  .ok (firstOf ((params.lookup (ascii name)).getD .nil))

def oauthConsumerKey (p : Proxy) : Except RubyError Value := p.oauthParameter "oauth_consumer_key"

def oauthToken (p : Proxy) : Except RubyError Value := p.oauthParameter "oauth_token"

def oauthNonce (p : Proxy) : Except RubyError Value := p.oauthParameter "oauth_nonce"

def oauthTimestamp (p : Proxy) : Except RubyError Value := p.oauthParameter "oauth_timestamp"

def oauthSignatureMethod (p : Proxy) : Except RubyError Value :=
  p.oauthParameter "oauth_signature_method"

/-- `oauth_signature`: the empty string when there is none. -/
def oauthSignature (p : Proxy) : Except RubyError Value := do
  match ← p.oauthParameter "oauth_signature" with
  | .nil => .ok (.str [])
  | .bool false => .ok (.str [])
  | v => .ok v

def signatureAndUnsignedParameters (p : Proxy) : List Bytes :=
  p.unsignedParameters ++ [ascii "oauth_signature"]

/-- The names that are signed. -/
def isSigned (p : Proxy) (k : Bytes) : Bool := !p.signatureAndUnsignedParameters.contains k

def parametersForSignature (p : Proxy) : Except RubyError Params := do
  let params ← p.parameters
  .ok (params.select p.isSigned)

def normalizedParameters (rt : Runtime) (p : Proxy) : Except RubyError Bytes := do
  let params ← p.parametersForSignature
  normalize rt params

/-- `signature_base_string`: method, URI and parameters, each escaped. -/
def signatureBaseString (rt : Runtime) (p : Proxy) : Except RubyError Bytes := do
  let uri ← p.normalizedUri
  let params ← p.normalizedParameters rt
  .ok (joinWith ampersand ([p.method, uri, params].map escapeBytes))

end Proxy

/-! ## `MockRequest` -/

structure MockRequest where
  method : Bytes
  uri : Bytes
  parameters : Params

namespace MockRequest

/-- `rescue StandardError`: a URI that does not parse is taken as normalized already. -/
def normalizedUri (r : MockRequest) : Except RubyError Bytes :=
  match normalizeUri r.uri with
  | .ok s => .ok s
  | .error _ => .ok r.uri

def proxy (r : MockRequest) (o : SignatureOptions) : Proxy where
  method := r.method
  uri := r.uri
  parameters := .ok r.parameters
  normalizedUri := r.normalizedUri
  normalizedUri_of_ok := fun s hs => by rw [normalizedUri, hs]
  unsignedParameters := o.unsignedParameters.getD []
  consumer := o.consumer
  body := .error .noMethodError

/-- The hash after `parameters["oauth_signature"] = v`. -/
def withSignature (r : MockRequest) (v : Value) : MockRequest :=
  { r with parameters := r.parameters.set (ascii "oauth_signature") v }

end MockRequest

/-! ## `RackRequest` -/

/-- A Rack request; `get` and `post` are what its decoders return or raise. -/
structure RackRequest where
  requestMethod : Bytes
  url : Bytes
  env : OrderedHash Bytes Bytes
  contentType : Option Bytes
  get : Except RubyError Params
  post : Except RubyError Params

def formMediaType : Bytes := ascii "application/x-www-form-urlencoded"

/-- `content_type && content_type.to_s.downcase.start_with?(...)`. -/
def isFormMediaType (contentType : Option Bytes) : Bool :=
  match contentType with
  | some t => startsWith formMediaType (downcase t)
  | none => false

/-- `k =~ /^oauth_/`: some line of the name begins with `oauth_`. -/
def hasOauthLine (k : Bytes) : Bool := (k.splitOn newline).any (startsWith (ascii "oauth_"))

namespace RackRequest

def method (r : RackRequest) : Bytes :=
  (r.env.lookup (ascii "rack.methodoverride.original_method")).getD r.requestMethod

/-- The first of the authorization headers that is an OAuth header. -/
def oauthHeader (r : RackRequest) : Option Bytes :=
  (["X-HTTP_AUTHORIZATION", "Authorization", "HTTP_AUTHORIZATION"].filterMap
    (fun name => r.env.lookup (ascii name))).find? (fun h => h.take 6 == ascii "OAuth ")

def headerParams (r : RackRequest) : Except RubyError (OrderedHash Bytes Bytes) :=
  match r.oauthHeader with
  | some header => do
    let params ← parseHeader header
    .ok (params.select hasOauthLine)
  | none => .ok OrderedHash.empty

def queryParams (r : RackRequest) : Except RubyError Params := r.get

def requestParams (r : RackRequest) : Except RubyError Params :=
  if isFormMediaType r.contentType then r.post else .ok OrderedHash.empty

/-- Body, query and header merged in this order, then `options[:parameters]`. -/
def parameters (r : RackRequest) (o : SignatureOptions) : Except RubyError Params :=
  if o.clobberRequest then .ok (o.parameters.getD OrderedHash.empty)
  else do
    let requestParams ← r.requestParams
    let queryParams ← r.queryParams
    let headerParams ← r.headerParams
    let params := (requestParams.merge queryParams).merge (headerParams.mapValues Value.str)
    .ok (params.merge (o.parameters.getD OrderedHash.empty))

/-- The value that the parameters have under a name was read of the header. -/
def readsHeader (r : RackRequest) (o : SignatureOptions) (name : Bytes) : Bool :=
  !o.clobberRequest && ((o.parameters.getD OrderedHash.empty).lookup name).isNone &&
    (r.headerParams.toOption.bind (fun params => params.lookup name)).isSome

def proxy (r : RackRequest) (o : SignatureOptions) : Proxy where
  method := r.method
  uri := r.url
  parameters := r.parameters o
  normalizedUri := normalizeUri r.url
  normalizedUri_of_ok := fun _ hs => hs
  unsignedParameters := o.unsignedParameters.getD []
  consumer := o.consumer
  body := .error .noMethodError
  binaryText := r.readsHeader o

end RackRequest

end RubyOAuth
