import RubyOAuth.Model.NetHttp
import RubyOAuth.Model.Signature

set_option autoImplicit false

/-! # `OAuth::Client::Helper` and `oauth!`

Signing a Net::HTTP request: the options of one request, the OAuth parameters they give, and where
`oauth!` puts them. An option `:consumer` or `:token` is the consumer or token passed. A nonce and a
timestamp that the options do not set are those of `Generated`. -/

namespace RubyOAuth

open Bytes

/-! ## Connections and options -/

/-- What the library sees of a `Net::HTTP` object. Its address, if any, comes from a parsed URI. -/
structure Connection where
  address : Option Bytes
  port : Nat
  useSsl : Bool
  proxy : Option Uri
  address_valid : ∀ a ∈ address, Uri.validHost a = true
  deriving DecidableEq

/-- `:allow_empty_params`; `nil` and `false` allow none. -/
inductive AllowEmpty where
  | all
  | names (names : List Bytes)
  deriving DecidableEq, Repr

/-- The options of one request, as merged from those of consumer and call. -/
structure RequestOptions where
  requestUri : Option Bytes := none
  scheme : Scheme := .header
  signatureMethod : Option Bytes := none
  nonce : Option Bytes := none
  timestamp : Option Bytes := none
  bodyHashEnabled : Bool := true
  bodyHash : Option Bytes := none
  oauthCallback : Option Bytes := none
  oauthVerifier : Option Bytes := none
  oauthVersion : Option Bytes := none
  oauthSessionHandle : Option Bytes := none
  allowEmptyParams : AllowEmpty := .names []
  realm : Option Bytes := none
  unsignedParameters : Option (List Bytes) := none
  tokenRequest : Bool := false
  site : Option Bytes := none
  requestEndpoint : Option Bytes := none
  clobberRequest : Bool := false
  privateKeyFile : Option Bytes := none
  privateKey : Option Bytes := none
  deriving DecidableEq, Repr

/-- What `generate_key` and `generate_timestamp` give for one request. -/
structure Generated where
  nonce : Bytes
  timestamp : Bytes
  deriving DecidableEq, Repr

/-! ## The signed URI -/

/-- `uri.host = ...`, which takes a valid host on a URI that is not opaque. -/
def setHost (u : Uri) (host : Bytes) : Except RubyError Uri :=
  if Uri.validHost host && !u.isOpaque then .ok { u with host := some host }
  else .error .invalidUri

/-- `uri.host ||= host`. -/
def setMissingHost (u : Uri) (host : Option Bytes) : Except RubyError Uri :=
  match u.host, host with
  | none, some h => setHost u h
  | _, _ => .ok u

/-- `uri.port ||= port`. A URI parsed with the scheme of a port has that port, and does not print it. -/
def fillPort (u : Uri) (port : Nat) : Option Nat :=
  match u.scheme.bind Uri.defaultPort with
  | some d => u.port.filter (· != d)
  | none => some (u.port.getD port)

/-- `gsub(%r{^https?://}, "")` on a site. -/
def stripHttp (site : Bytes) : Bytes :=
  if startsWith (ascii "https://") site then site.drop 8
  else if startsWith (ascii "http://") site then site.drop 7
  else site

/-- `to_s`: a path that is not rooted gets a slash after an authority. -/
def uriToS (u : Uri) : Bytes :=
  if u.host.isSome && !u.path.isEmpty && u.path.head? != some slash then
    ({ u with path := slash :: u.path } : Uri).print
  else u.print

/-- `to_s` of a URI as it was parsed: the default port of its scheme is not printed. -/
def parsedToS (u : Uri) : Bytes :=
  uriToS { u with port := u.port.filter (fun p => some p != u.scheme.bind Uri.defaultPort) }

/-- `oauth_full_request_uri` after `URI.parse(path)`: host and port of the connection, the host of
    the site where there is a request endpoint, the scheme of the site, and else the one of the
    connection. A site that does not parse is passed over. -/
def fillRequestUri (http : Connection) (o : RequestOptions) (u : Uri) : Except RubyError Uri := do
  let u ← setMissingHost u http.address
  let u := { u with port := fillPort u http.port }
  let u ← match o.requestEndpoint, o.site with
    | some _, some site => setHost u (stripHttp site)
    | _, _ => .ok u
  let site := o.site.bind Uri.parse
  let u ← setMissingHost u (site.bind Uri.host)
  let u ← setMissingHost u (some (ascii "localhost"))
  let connectionScheme := if http.useSsl then ascii "https" else ascii "http"
  .ok { u with scheme := some ((u.scheme.or (site.bind Uri.scheme)).getD connectionScheme) }

def oauthFullRequestUri (http : Connection) (path : Bytes) (o : RequestOptions) :
    Except RubyError Bytes := do
  let u ← parseUri path
  let u ← fillRequestUri http o u
  .ok (uriToS u)

/-! ## `OAuth::Client::Helper` -/

structure ClientHelper where
  request : HttpRequest
  requestUri : Bytes
  consumer : Consumer
  token : Option Token
  options : RequestOptions
  generated : Generated

namespace ClientHelper

/-- `signature_method` as the constructor leaves it. -/
def signatureMethod (h : ClientHelper) : Bytes :=
  h.options.signatureMethod.getD (ascii "HMAC-SHA1")

def nonce (h : ClientHelper) : Bytes := h.options.nonce.getD h.generated.nonce

def timestamp (h : ClientHelper) : Bytes := h.options.timestamp.getD h.generated.timestamp

/-- Every parameter `oauth_parameters` may give, in its order. -/
def candidateParameters (h : ClientHelper) : List (Bytes × Option Bytes) :=
  [(ascii "oauth_body_hash", h.options.bodyHash),
    (ascii "oauth_callback", h.options.oauthCallback),
    (ascii "oauth_consumer_key", some h.consumer.key),
    (ascii "oauth_token", some ((h.token.map Token.token).getD [])),
    (ascii "oauth_signature_method", some h.signatureMethod),
    (ascii "oauth_timestamp", some h.timestamp),
    (ascii "oauth_nonce", some h.nonce),
    (ascii "oauth_verifier", h.options.oauthVerifier),
    (ascii "oauth_version", some (h.options.oauthVersion.getD (ascii "1.0"))),
    (ascii "oauth_session_handle", h.options.oauthSessionHandle)]

/-- `v.to_s != "" || allowed_empty_params == true || allowed_empty_params.include?(k)`. -/
def keeps (h : ClientHelper) (e : Bytes × Option Bytes) : Bool :=
  e.2.getD [] != [] ||
    match h.options.allowEmptyParams with
    | .all => true
    | .names names => names.contains e.1

def toValue : Option Bytes → Value
  | some s => .str s
  | none => .nil

/-- `oauth_parameters`. -/
def oauthParameters (h : ClientHelper) : Params :=
  OrderedHash.ofList ((h.candidateParameters.filter h.keeps).map (fun e => (e.1, toValue e.2)))

/-- The options `signature` hands to `OAuth::Signature.sign`. -/
def signatureOptions (h : ClientHelper) (parameters : Params) : SignatureOptions where
  consumer := some h.consumer
  token := h.token
  uri := some h.requestUri
  unsignedParameters := h.options.unsignedParameters
  parameters := some parameters
  clobberRequest := h.options.clobberRequest
  privateKeyFile := h.options.privateKeyFile
  privateKey := h.options.privateKey

/-- `signature(options.merge(parameters: parameters))`. -/
def signature (rt : Runtime) (h : ClientHelper) (parameters : Params) : Except RubyError Bytes :=
  let o := h.signatureOptions parameters
  sign rt (h.request.proxy o) o

/-- The options `signature` gives without extra ones. -/
def plainOptions (h : ClientHelper) : SignatureOptions where
  consumer := some h.consumer
  token := h.token
  uri := some h.requestUri
  unsignedParameters := h.options.unsignedParameters

/-- `signature` without extra options, on the request as it is. -/
def plainSignature (rt : Runtime) (h : ClientHelper) (request : HttpRequest) :
    Except RubyError Bytes :=
  sign rt (request.proxy h.plainOptions) h.plainOptions

def signatureBaseString (rt : Runtime) (h : ClientHelper) : Except RubyError Bytes :=
  let o : SignatureOptions :=
    { consumer := some h.consumer, token := h.token, uri := some h.requestUri,
      parameters := some h.oauthParameters }
  RubyOAuth.signatureBaseString rt (h.request.proxy o) o

/-- `hash_body`. -/
def hashBody (rt : Runtime) (h : ClientHelper) : Except RubyError ClientHelper := do
  let o : SignatureOptions := { parameters := some h.oauthParameters }
  let hash ← bodyHash rt (h.request.proxy o) o
  .ok { h with options := { h.options with bodyHash := hash } }

/-- `#{k}=\"#{escape(v)}\"`. -/
def headerField (rt : Runtime) (e : Bytes × Value) : Bytes :=
  e.1 ++ equal :: quote :: escape rt e.2 ++ [quote]

def separator : Bytes := ascii ", "

/-- `"OAuth #{realm}#{header_params_str}"`. -/
def headerText (rt : Runtime) (h : ClientHelper) (parameters : Params) : Bytes :=
  ascii "OAuth " ++
    (match h.options.realm with
      | some realm => ascii "realm=\"" ++ realm ++ ascii "\", "
      | none => []) ++
    separator.intercalate (parameters.sortedEntries.map (headerField rt))

def header (rt : Runtime) (h : ClientHelper) : Except RubyError Bytes := do
  let signature ← h.signature rt h.oauthParameters
  .ok (h.headerText rt (h.oauthParameters.set (ascii "oauth_signature") (.str signature)))

end ClientHelper

/-! ## `oauth!` -/

/-- `oauth_helper_options` and the helper over them. -/
def oauthHelper (http : Connection) (request : HttpRequest) (consumer : Consumer)
    (token : Option Token) (o : RequestOptions) (g : Generated) : Except RubyError ClientHelper := do
  let fullUri ← oauthFullRequestUri http request.path o
  .ok ⟨request, o.requestUri.getD fullUri, consumer, token, o, g⟩

/-- `oauth_body_hash_required?`. -/
def oauthBodyHashRequired (request : HttpRequest) (o : RequestOptions) : Bool :=
  !o.tokenRequest && request.requestBodyPermitted && !isFormMediaType request.contentType &&
    o.bodyHashEnabled

/-- `@oauth_ua_string`. -/
def userAgent : Bytes := ascii "OAuth gem v1.1.8"

/-- `amend_user_agent_header`. -/
def amendUserAgent (request : HttpRequest) : HttpRequest :=
  match request.header (ascii "User-Agent") with
  | some agent =>
    if agent = ascii "Ruby" then request.withHeader (ascii "User-Agent") userAgent
    else request.withHeader (ascii "User-Agent") (agent ++ ascii " (" ++ userAgent ++ ascii ")")
  | none => request.withHeader (ascii "User-Agent") userAgent

/-- The helper `oauth!` signs with, after `hash_body` where a body hash is required. -/
def signingHelper (rt : Runtime) (http : Connection) (request : HttpRequest)
    (consumer : Consumer) (token : Option Token) (o : RequestOptions) (g : Generated) :
    Except RubyError ClientHelper := do
  let helper ← oauthHelper http request consumer token o g
  let helper := { helper with request := amendUserAgent request }
  if oauthBodyHashRequired request o then helper.hashBody rt else .ok helper

/-- `set_oauth_header`. -/
def setOauthHeader (rt : Runtime) (helper : ClientHelper) : Except RubyError HttpRequest := do
  let value ← helper.header rt
  helper.request.setHeader (ascii "Authorization") value

/-- `URI.encode_www_form_component`. -/
def encodeFormComponent (s : Bytes) : Bytes :=
  (PercentCode.encode
    (fun b => isAlnum b || b == 42 || b == minus || b == dot || b == underscore || b == space) s).map
    (fun b => if b = space then plus else b)

/-- `URI.encode_www_form` on a hash: `nil` stands without `=`, an array for its elements. -/
def encodeForm (rt : Runtime) (params : Params) : Bytes :=
  joinWith ampersand (params.entries.map (fun e =>
    let field := fun v : Value => match v with
      | .nil => encodeFormComponent e.1
      | v => encodeFormComponent e.1 ++ equal :: encodeFormComponent (v.toS rt)
    match e.2 with
    | .arr vs => joinWith ampersand (vs.map field)
    | v => field v))

/-- `set_form_data`; a body that is set takes the place of a stream. -/
def setFormData (rt : Runtime) (request : HttpRequest) (params : Params) : HttpRequest :=
  ({ request with body := some (encodeForm rt params), bodyStream := none } : HttpRequest).withHeader
    (ascii "Content-Type") formMediaType

/-- `set_oauth_body`: everything goes into the body, then again with the signature. -/
def setOauthBody (rt : Runtime) (helper : ClientHelper) : Except RubyError HttpRequest := do
  let params ← helper.request.parameters {}
  let request := setFormData rt helper.request (helper.oauthParameters.merge params)
  let params ← request.parameters {}
  let signature ← helper.plainSignature rt request
  .ok (setFormData rt request (params.set (ascii "oauth_signature") (.str signature)))

/-- `uri.query = ...`: tabs and line ends go, bytes outside the class are percent-encoded. -/
def setQuery (u : Uri) (query : Bytes) : Except RubyError Uri :=
  if u.isOpaque then .error .invalidUri
  else
    let kept := query.filter (fun b => b != 9 && b != newline && b != 13)
    .ok { u with query := some (Uri.storeQuery kept) }

/-- `set_oauth_query_string`: the parameters go to the end of the query, then the signature. -/
def setOauthQueryString (rt : Runtime) (helper : ClientHelper) : Except RubyError HttpRequest := do
  let oauthParams := joinWith ampersand (helper.oauthParameters.entries.map
    (fun e => escapeBytes e.1 ++ equal :: escape rt e.2))
  let uri ← parseUri helper.request.path
  let query := uri.query.getD []
  let uri ← setQuery uri (if query = [] then oauthParams else query ++ ampersand :: oauthParams)
  let request := { helper.request with path := parsedToS uri }
  let signature ← helper.plainSignature rt request
  .ok { request with path := request.path ++ ascii "&oauth_signature=" ++ escapeBytes signature }

/-- `oauth!`. -/
def oauth (rt : Runtime) (http : Connection) (request : HttpRequest)
    (consumer : Consumer) (token : Option Token) (o : RequestOptions) (g : Generated) :
    Except RubyError HttpRequest := do
  let helper ← signingHelper rt http request consumer token o g
  match o.scheme with
  | .header => setOauthHeader rt helper
  | .body => setOauthBody rt helper
  | .queryString => setOauthQueryString rt helper

/-- `signature_base_string`, which looks at the request as it is. -/
def HttpRequest.signatureBaseString (rt : Runtime) (http : Connection) (request : HttpRequest)
    (consumer : Consumer) (token : Option Token) (o : RequestOptions) (g : Generated) :
    Except RubyError Bytes := do
  let helper ← oauthHelper http request consumer token o g
  let helper ← if oauthBodyHashRequired request o then helper.hashBody rt else .ok helper
  helper.signatureBaseString rt

end RubyOAuth
