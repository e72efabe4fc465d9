import RubyOAuth.Model.KeyedParams
import RubyOAuth.Model.Tokens

set_option autoImplicit false

/-! # Authorization URLs

`authorize_url` and `authenticate_url` of a request token: the query of the consumer's URL is decoded
into a hash, the parameters and the token are merged into it, and it is encoded again. The names of the
query are strings, the token's name is a symbol, the caller's may be either. -/

namespace RubyOAuth

open Bytes

/-! ## `URI.decode_www_form` and `URI.encode_www_form` -/

/-- `str.each_line("&")`, each without its `&`. -/
def formLines (str : Bytes) : List Bytes :=
  let lines := str.splitOn ampersand
  if lines.getLast? = some [] then lines.dropLast else lines

/-- `URI.decode_www_form`, of the ASCII text that a query is. Names and values are taken to be valid
    UTF-8, so that `scrub!` leaves them. -/
def decodeWwwForm (str : Bytes) : List (Bytes × Bytes) :=
  (formLines str).map (fun line =>
    (cgiUnescape (cut equal line).1, cgiUnescape ((cut equal line).2.getD [])))

/-- `URI.encode_www_form` on a hash with keys of any kind. -/
def encodeWwwForm (rt : Runtime) (params : KeyedParams) : Bytes :=
  joinWith ampersand (params.entries.map (fun e =>
    let field := fun v : Value => match v with
      | .nil => encodeFormComponent e.1.toS
      | v => encodeFormComponent e.1.toS ++ equal :: encodeFormComponent (v.toS rt)
    match e.2 with
    | .arr vs => joinWith ampersand (vs.map field)
    | v => field v))

namespace RequestToken

/-! ## `RequestToken` -/

/-- `queries`, from the URL. -/
def baseQueries (uri : Uri) : KeyedParams :=
  match if uri.isOpaque then none else uri.query with
  | some query => OrderedHash.ofList ((decodeWwwForm query).map (fun p => (.str p.1, .str p.2)))
  | none => OrderedHash.empty

/-- `build_url`. -/
def buildUrl (rt : Runtime) (baseUrl : Bytes) (params : Option KeyedParams) :
    Except RubyError Bytes := do
  let uri ← parseUri baseUrl
  let queries := match params with
    | some params => (baseQueries uri).merge params
    | none => baseQueries uri
  if queries.entries.isEmpty then .ok (parsedToS uri)
  else do
    let uri ← setQuery uri (encodeWwwForm rt queries)
    .ok (parsedToS uri)

/-- `(params || {}).merge(oauth_token: token)`. -/
def tokenParams (token : Bytes) (params : Option KeyedParams) : KeyedParams :=
  (params.getD OrderedHash.empty).set (.sym (ascii "oauth_token")) (.str token)

/-- A URL of the consumer with token and parameters; without a token there is none. -/
def urlWithToken (rt : Runtime) (t : ConsumerToken) (baseUrl : Bytes) (params : Option KeyedParams) :
    Except RubyError (Option Bytes) :=
  match t.token with
  | none => .ok none
  | some token => do
    let url ← buildUrl rt baseUrl (some (tokenParams token params))
    .ok (some url)

def authorizeUrl (rt : Runtime) (t : ConsumerToken) (params : Option KeyedParams) :
    Except RubyError (Option Bytes) := urlWithToken rt t t.consumer.authorizeUrl params

def authenticateUrl (rt : Runtime) (t : ConsumerToken) (params : Option KeyedParams) :
    Except RubyError (Option Bytes) := urlWithToken rt t t.consumer.authenticateUrl params

end RequestToken

end RubyOAuth
