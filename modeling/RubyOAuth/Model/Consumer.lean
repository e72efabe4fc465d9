import RubyOAuth.Lib.Fallible
import RubyOAuth.Model.ClientHelper

set_option autoImplicit false

/-! # `OAuth::Consumer`

Building and signing requests, and the two pieces of hidden state a consumer has: the connection
`@http`, made on first use and replaced by some operations, and `@uri`. An operation that raises
leaves the state as it was at that point, so every operation gives a state beside its result.

The server and the clock are an `Exchange` for each request sent: the generated nonce and timestamp,
and the reply. A call that has used up its exchanges and would send another request is `waiting`. -/

namespace RubyOAuth

open Bytes

/-! ## Options of a call -/

/-- The `request_options` of a call. An option the consumer has too is `none` where it is not given. -/
structure CallOptions where
  scheme : Option Scheme := none
  signatureMethod : Option (Option Bytes) := none
  nonce : Option Bytes := none
  timestamp : Option Bytes := none
  bodyHashEnabled : Option Bool := none
  bodyHash : Option Bytes := none
  oauthCallback : Option Bytes := none
  excludeCallback : Bool := false
  oauthVerifier : Option Bytes := none
  oauthVersion : Option (Option Bytes) := none
  oauthSessionHandle : Option Bytes := none
  allowEmptyParams : AllowEmpty := .names []
  realm : Option Bytes := none
  unsignedParameters : Option (List Bytes) := none
  tokenRequest : Bool := false
  tokenRequestRedirectCount : Option Nat := none
  tokenRequestMaxRedirects : Option Nat := none
  tokenRequestCrossOriginRedirects : Option Bool := none
  deriving DecidableEq, Repr

/-- `options.merge(request_options)`. -/
def Consumer.mergeOptions (c : Consumer) (o : CallOptions) : RequestOptions where
  scheme := o.scheme.getD c.options.scheme
  signatureMethod := o.signatureMethod.getD c.options.signatureMethod
  nonce := o.nonce
  timestamp := o.timestamp
  bodyHashEnabled := o.bodyHashEnabled.getD c.options.bodyHashEnabled
  bodyHash := o.bodyHash
  oauthCallback := o.oauthCallback
  oauthVerifier := o.oauthVerifier
  oauthVersion := o.oauthVersion.getD c.options.oauthVersion
  oauthSessionHandle := o.oauthSessionHandle
  allowEmptyParams := o.allowEmptyParams
  realm := o.realm
  unsignedParameters := o.unsignedParameters
  tokenRequest := o.tokenRequest
  site := c.options.site
  requestEndpoint := c.options.requestEndpoint

/-! ## `create_http` -/

/-- `url[0] =~ %r{^/}`. -/
def firstIsSlash (url : Bytes) : Bool := url.head? == some slash

/-- The URI a connection is made to: the given URL where it names a host, else the site. -/
def connectionUri (c : Consumer) (url : Option Bytes) : Except RubyError Uri := do
  match c.requestEndpoint.or url with
  | none => parseUri c.site
  | some url =>
    if firstIsSlash url then parseUri c.site
    else
      let uri ← parseUri url
      if uri.host.isNone then parseUri c.site else .ok uri

/-- `Net::HTTP.new(uri.host, uri.port)` with `use_ssl`. -/
def Connection.ofUri (u : Uri) (proxy : Option Uri) (hu : u.Valid) : Connection where
  address := u.host
  port := u.effectivePort.getD 80
  useSsl := u.scheme == some (ascii "https")
  proxy := proxy
  address_valid := hu.2.2.1

theorem connectionUri_valid {c : Consumer} {url : Option Bytes} {u : Uri}
    (h : connectionUri c url = .ok u) : u.Valid := by
  rw [connectionUri] at h
  split at h
  · exact valid_of_parseUri h
  · split at h
    · exact valid_of_parseUri h
    · obtain ⟨v, hv, h⟩ := Except.bind_eq_ok.1 h
      split at h
      · exact valid_of_parseUri h
      · rw [Except.ok.injEq] at h
        exact h ▸ valid_of_parseUri hv

def createHttp (c : Consumer) (url : Option Bytes) : Except RubyError Connection :=
  match h : connectionUri c url with
  | .error e => .error e
  | .ok u => .ok (Connection.ofUri u c.options.proxy (connectionUri_valid h))

/-! ## `create_http_request` -/

/-- The body argument: a hash is form-encoded, a stream is sent as it is, any other object is sent as
    its text. A text has a length in characters; a stream has what is left to read of it, and the size it
    gives. -/
inductive RequestData where
  | none
  | hash (params : Params)
  | text (s : Bytes) (length : Nat)
  | stream (content : Bytes) (size : Option Nat)

/-- A stream that was read to its end. -/
def RequestData.drained : RequestData → RequestData
  | .stream _ size => .stream [] size
  | data => data

/-- Method name of the request class and whether its requests may have a body. -/
def HttpMethod.requestClass : HttpMethod → Except RubyError (Bytes × Bool)
  | .get => .ok (ascii "GET", false)
  | .head => .ok (ascii "HEAD", false)
  | .delete => .ok (ascii "DELETE", false)
  | .post => .ok (ascii "POST", true)
  | .put => .ok (ascii "PUT", true)
  | .patch => .ok (ascii "PATCH", true)
  | .other name => .error (.unknownHttpMethod name)

def HttpMethod.takesData : HttpMethod → Bool
  | .post | .put | .patch => true
  | _ => false

/-- The site's path in front of a path, where the site has one and the connection is to its host. -/
def prefixPath (site : Uri) (http : Connection) (path : Bytes) : Bytes :=
  if site.isOpaque = false ∧ site.path ≠ [slash] ∧ site.host = http.address then site.path ++ path
  else path

/-- The body of a request from its data. -/
def setData (rt : Runtime) (request : HttpRequest) : RequestData → Except RubyError HttpRequest
  | .none => .ok request
  | .hash params => do
    let body ← normalize rt params
    .ok (({ request with body := some body } : HttpRequest).withHeader (ascii "Content-Type")
      formMediaType)
  | .text s length =>
    .ok (({ request with body := some s } : HttpRequest).withHeader (ascii "Content-Length")
      (Uri.decimal length))
  | .stream content size =>
    match size with
    | some n =>
      .ok (({ request with bodyStream := some content } : HttpRequest).withHeader
        (ascii "Content-Length") (Uri.decimal n))
    | none => .error .argumentError

def createHttpRequest (rt : Runtime) (c : Consumer) (http : Connection) (method : HttpMethod)
    (path : Bytes) (data : RequestData) (headers : List (Bytes × Bytes)) :
    Except RubyError HttpRequest := do
  let site ← parseUri c.site
  let cls ← method.requestClass
  let request ← HttpRequest.new cls.1 (prefixPath site http path) headers cls.2
  if method.takesData then
    setData rt (request.withHeader (ascii "Content-Length") (ascii "0")) data
  else .ok request

/-! ## `sign!` -/

/-- `create_signed_request`. -/
def createSignedRequest (rt : Runtime) (c : Consumer) (http : Connection)
    (method : HttpMethod) (path : Bytes) (token : Option Token) (o : CallOptions)
    (data : RequestData) (headers : List (Bytes × Bytes)) (g : Generated) :
    Except RubyError HttpRequest := do
  let request ← createHttpRequest rt c http method path data headers
  oauth rt http request c token (c.mergeOptions o) g

/-! ## State and exchanges -/

/-- `@http` and `@uri`. -/
structure ConsumerState where
  http : Option Connection := none
  uri : Option Uri := none
  deriving DecidableEq

/-- What the library reads of a response. -/
structure Response where
  code : Nat
  wwwAuthenticate : List Bytes
  location : Option Bytes
  body : Bytes
  deriving DecidableEq, Repr

/-- One request sent: what is generated for it, and the reply, or what the network raises. -/
structure Exchange where
  generated : Generated
  reply : Except RubyError Response

/-- A request that was sent: its connection, and the request before and after signing. -/
structure Hop where
  connection : Connection
  unsigned : HttpRequest
  request : HttpRequest

/-- The request target the hop was created with; signing adds to its query at most. -/
def Hop.target (hop : Hop) : Bytes := hop.unsigned.path

/-- A call returns or raises, or waits for another exchange. -/
inductive Result (α : Type) where
  | done (result : Except RubyError α)
  | waiting

/-- The state a call leaves, the requests it sent, and its result. -/
structure Outcome (α : Type) where
  state : ConsumerState
  hops : List Hop
  result : Result α

/-! ## `request` -/

/-- `http`: the connection is made on first use. -/
def Consumer.http (c : Consumer) (st : ConsumerState) :
    ConsumerState × Except RubyError Connection :=
  match st.http with
  | some conn => (st, .ok conn)
  | none =>
    match createHttp c none with
    | .ok conn => ({ st with http := some conn }, .ok conn)
    | .error e => (st, .error e)

/-- `%r{^/} =~ path`: some line begins with a slash. -/
def hasSlashLine (path : Bytes) : Bool := (path.splitOn newline).any firstIsSlash

/-- `"#{uri.path}#{"?#{uri.query}" if uri.query}"`. -/
def pathOfUri (u : Uri) : Bytes := if u.isOpaque then [] else u.pathQuery

/-- The beginning of `request`: any path but one with a leading slash opens a connection of its own,
    and is cut down to path and query. A `nil` path is such a path, and does not parse. -/
def openConnection (c : Consumer) (st : ConsumerState) (path : Option Bytes) :
    ConsumerState × Except RubyError Bytes :=
  match path with
  | some p =>
    if hasSlashLine p then (st, .ok p)
    else
      match createHttp c (some p) with
      | .error e => (st, .error e)
      | .ok conn => ({ st with http := some conn }, (parseUri p).map pathOfUri)
  | none =>
    match createHttp c none with
    | .error e => (st, .error e)
    | .ok conn => ({ st with http := some conn }, .error .invalidUri)

/-- `headers.grep(/^OAuth /)`. -/
def isOauthChallenge (value : Bytes) : Bool :=
  (value.splitOn newline).any (startsWith (ascii "OAuth "))

def contains (pattern s : Bytes) : Bool := s.tails.any (startsWith pattern)

/-- The check for the Problem Reporting extension. -/
def checkProblem (rsp : Response) : Except RubyError Response :=
  match rsp.wwwAuthenticate.filter isOauthChallenge with
  | [] => .ok rsp
  | h :: _ =>
    if contains (ascii "oauth_problem") h then do
      let params ← parseHeader h
      .error (.reportedProblem (params.lookup (ascii "oauth_problem")))
    else .ok rsp

/-- The arguments of a request. -/
structure RequestArgs where
  method : HttpMethod
  token : Option Token
  data : RequestData
  headers : List (Bytes × Bytes)

/-- The arguments after requests were sent: they are the same objects, but a stream that was sent as a
    body has been read. -/
def RequestArgs.afterSending (args : RequestArgs) (hops : List Hop) : RequestArgs :=
  if hops.any (·.request.bodyStream.isSome) then { args with data := args.data.drained } else args

/-- `request` once the connection is chosen. -/
def sendRequest (rt : Runtime) (c : Consumer) (st : ConsumerState) (args : RequestArgs)
    (path : Bytes) (o : CallOptions) (x : Exchange) : Outcome Response :=
  match c.http st with
  | (st, .error e) => ⟨st, [], .done (.error e)⟩
  | (st, .ok conn) =>
    match createHttpRequest rt c conn args.method path args.data args.headers with
    | .error e => ⟨st, [], .done (.error e)⟩
    | .ok unsigned =>
      match oauth rt conn unsigned c args.token (c.mergeOptions o) x.generated with
      | .error e => ⟨st, [], .done (.error e)⟩
      | .ok request => ⟨st, [⟨conn, unsigned, request⟩], .done (x.reply >>= checkProblem)⟩

/-- `request`. -/
def Consumer.request (rt : Runtime) (c : Consumer) (st : ConsumerState) (args : RequestArgs)
    (path : Option Bytes) (o : CallOptions) (x : Exchange) : Outcome Response :=
  match openConnection c st path with
  | (st, .error e) => ⟨st, [], .done (.error e)⟩
  | (st, .ok path) => sendRequest rt c st args path o x

/-! ## `token_request` -/

/-- `token_request_options`. -/
def tokenRequestOptions (o : CallOptions) : CallOptions :=
  { o with tokenRequest := true, tokenRequestRedirectCount := none, tokenRequestMaxRedirects := none,
           tokenRequestCrossOriginRedirects := none }

/-- `URI#merge`, for an absolute base. -/
def mergeUri (base : Uri) (reference : Bytes) : Except RubyError Uri := do
  let r ← parseUri reference
  if r.scheme.isNone ∧ base.scheme.isNone then .error .badUri else .ok (base.resolve r)

def tokenRequestUri (c : Consumer) (path : Bytes) : Except RubyError Uri := do
  let uri ← parseUri path
  if uri.scheme.isSome then .ok uri
  else do
    let site ← parseUri c.site
    mergeUri site path

/-- `token_request_redirect_uri`, and `response.error!` where there is none. -/
def tokenRequestRedirectUri (currentUri : Uri) (rsp : Response) : Except RubyError Uri :=
  match rsp.location with
  | none => .error .httpError
  | some location => if location = [] then .error .httpError else mergeUri currentUri location

/-- `token_request_cross_origin?`. -/
def tokenRequestCrossOrigin (current redirected : Uri) : Bool :=
  downcase (current.scheme.getD []) != downcase (redirected.scheme.getD []) ||
    downcase (current.host.getD []) != downcase (redirected.host.getD []) ||
    current.effectivePort != redirected.effectivePort

/-- The schemes whose URIs have a `request_uri`. -/
def hasRequestUri (u : Uri) : Bool :=
  u.scheme == some (ascii "http") || u.scheme == some (ascii "https") ||
    u.scheme == some (ascii "ws") || u.scheme == some (ascii "wss")

/-- `token_request_redirect_path`; `request_uri` is `nil` for an opaque URI. -/
def tokenRequestRedirectPath (current redirected : Uri) : Except RubyError (Option Bytes) :=
  if tokenRequestCrossOrigin current redirected then .ok (some (parsedToS redirected))
  else if !hasRequestUri redirected then .error .noMethodError
  else if redirected.isOpaque then .ok none
  else .ok (some redirected.requestTarget)

def tokenRequestMaxRedirects (c : Consumer) (o : CallOptions) : Option Nat :=
  o.tokenRequestMaxRedirects.or c.options.tokenRequestMaxRedirects

def tokenRequestCrossOriginRedirects (c : Consumer) (o : CallOptions) : Bool :=
  o.tokenRequestCrossOriginRedirects.getD c.options.tokenRequestCrossOriginRedirects

/-- A redirect is followed: the path of the next request and its options. -/
def followRedirect (c : Consumer) (o : CallOptions) (path : Bytes) (rsp : Response) :
    Except RubyError (Option Bytes × CallOptions) := do
  let currentUri ← tokenRequestUri c path
  let redirectedUri ← tokenRequestRedirectUri currentUri rsp
  let redirectCount := o.tokenRequestRedirectCount.getD 0 + 1
  match tokenRequestMaxRedirects c o with
  | none => .error .argumentError
  | some m =>
    if redirectCount > m then .error .httpError
    else if tokenRequestCrossOrigin currentUri redirectedUri &&
        !tokenRequestCrossOriginRedirects c o then .error .httpError
    else do
      let next ← tokenRequestRedirectPath currentUri redirectedUri
      .ok (next, { o with tokenRequestRedirectCount := some redirectCount })

/-- The first value of every name of a form-encoded response. -/
def parseTokenResponse (body : Bytes) : OrderedHash Bytes (Option Bytes) :=
  OrderedHash.ofList ((cgiParse body).entries.map (fun e => (strip e.1, e.2.head?)))

/-- What `token_request` does with a response. -/
inductive TokenStep where
  | finish (result : Except RubyError (OrderedHash Bytes (Option Bytes)))
  | follow (path : Option Bytes) (o : CallOptions)

def tokenStep (c : Consumer) (o : CallOptions) (path : Bytes) (rsp : Response) : TokenStep :=
  if 200 ≤ rsp.code ∧ rsp.code ≤ 299 then .finish (.ok (parseTokenResponse rsp.body))
  else if 300 ≤ rsp.code ∧ rsp.code ≤ 399 then
    match followRedirect c o path rsp with
    | .ok next => .follow next.1 next.2
    | .error e => .finish (.error e)
  else if 400 ≤ rsp.code ∧ rsp.code ≤ 499 then .finish (.error .unauthorized)
  else .finish (.error .httpError)

/-- `token_request`, one exchange for every request it sends. -/
def Consumer.tokenRequest (rt : Runtime) (c : Consumer) (args : RequestArgs) :
    List Exchange → ConsumerState → Option Bytes → CallOptions →
      Outcome (OrderedHash Bytes (Option Bytes))
  | [], st, path, _ => ⟨(openConnection c st path).1, [], .waiting⟩
  | x :: xs, st, path, o =>
    let out := c.request rt st args path (tokenRequestOptions o) x
    match out.result with
    | .waiting => ⟨out.state, out.hops, .waiting⟩
    | .done (.error e) => ⟨out.state, out.hops, .done (.error e)⟩
    | .done (.ok rsp) =>
      -- only a path that is one gets a response
      match tokenStep c o (path.getD []) rsp with
      | .finish result => ⟨out.state, out.hops, .done result⟩
      | .follow next o' =>
        let rest := tokenRequest rt c (args.afterSending out.hops) xs out.state next o'
        ⟨rest.state, out.hops ++ rest.hops, rest.result⟩

end RubyOAuth
