import RubyOAuth.Lib.Machine
import RubyOAuth.Model.Consumer

set_option autoImplicit false

/-! # Token operations and runs of a consumer

`get_request_token`, `get_access_token` and `AccessToken#request` on top of the consumer, and a
consumer as a machine: each input is one operation with the exchanges it may use, the outputs are the
requests it sends. -/

namespace RubyOAuth

open Bytes

/-! ## Token endpoints -/

/-- `request_options[:oauth_callback] ||= OAuth::OUT_OF_BAND unless ...`. -/
def callbackOptions (o : CallOptions) : CallOptions :=
  if o.excludeCallback then o
  else { o with oauthCallback := o.oauthCallback.or (some (ascii "oob")) }

/-- `get_request_token`, up to the response. -/
def Consumer.getRequestToken (rt : Runtime) (c : Consumer) (st : ConsumerState) (data : RequestData)
    (headers : List (Bytes × Bytes)) (o : CallOptions) (xs : List Exchange) :
    Outcome (OrderedHash Bytes (Option Bytes)) :=
  c.tokenRequest rt ⟨c.options.httpMethod, none, data, headers⟩ xs st (some c.requestTokenEndpoint)
    (callbackOptions o)

/-- `get_access_token` of consumer and request token, up to the response. -/
def Consumer.getAccessToken (rt : Runtime) (c : Consumer) (st : ConsumerState) (token : Token)
    (data : RequestData) (headers : List (Bytes × Bytes)) (o : CallOptions) (xs : List Exchange) :
    Outcome (OrderedHash Bytes (Option Bytes)) :=
  c.tokenRequest rt ⟨c.options.httpMethod, some token, data, headers⟩ xs st
    (some c.accessTokenEndpoint) o

/-! ## Tokens from responses -/

/-- `Token#to_query`. -/
def Token.toQuery (t : Token) : Bytes :=
  ascii "oauth_token=" ++ escapeBytes t.token ++
    (ascii "&oauth_token_secret=" ++ escapeBytes t.secret.toS)

/-- The hash `token_request` returns: every name as a symbol and as a string. -/
def responseHash (values : OrderedHash Bytes (Option Bytes)) : OrderedHash Key (Option Bytes) :=
  values.entries.foldl (fun h e => (h.set (.sym e.1) e.2).set (.str e.1) e.2) OrderedHash.empty

structure ConsumerToken where
  consumer : Consumer
  token : Option Bytes
  secret : Option Bytes
  params : OrderedHash Key (Option Bytes)

/-- `ConsumerToken.from_hash`. -/
def ConsumerToken.fromHash (consumer : Consumer) (hash : OrderedHash Key (Option Bytes)) :
    ConsumerToken where
  consumer := consumer
  token := (hash.lookup (.sym (ascii "oauth_token"))).join
  secret := (hash.lookup (.sym (ascii "oauth_token_secret"))).join
  params := hash

/-! ## `AccessToken#request` -/

/-- `URI#==`: components compare after case folding, with `/` for the empty path. -/
def sameUri (u v : Uri) : Bool :=
  let components := fun u : Uri =>
    (u.scheme.map downcase, u.userinfo, u.host.map downcase, u.effectivePort,
      if u.path = [] then [slash] else u.path, u.query, u.fragment)
  components u == components v

/-- `uri`: the site, unless it was set. -/
def Consumer.uri (c : Consumer) (st : ConsumerState) : ConsumerState × Except RubyError Uri :=
  match st.uri with
  | some u => (st, .ok u)
  | none =>
    match parseUri c.site with
    | .ok u => ({ st with uri := some u }, .ok u)
    | .error e => (st, .error e)

/-- `uri(custom_uri)`: a new connection to the site is made. -/
def Consumer.setUri (c : Consumer) (st : ConsumerState) (u : Uri) :
    ConsumerState × Except RubyError Unit :=
  match createHttp c none with
  | .ok conn => (⟨some conn, some u⟩, .ok ())
  | .error e => ({ st with uri := some u }, .error e)

/-- `AccessToken#request`: a path that names another URI than the consumer's sets `uri` before, and
    back after, whether or not the request raises. -/
def accessTokenRequest (rt : Runtime) (c : Consumer) (st : ConsumerState) (args : RequestArgs)
    (path : Bytes) (x : Exchange) : Outcome Response :=
  match parseUri path with
  | .error e => ⟨st, [], .done (.error e)⟩
  | .ok requestUri =>
    match c.uri st with
    | (st, .error e) => ⟨st, [], .done (.error e)⟩
    | (st, .ok siteUri) =>
      if requestUri.scheme.isSome && !sameUri requestUri siteUri then
        let out :=
          match c.setUri st requestUri with
          | (st, .ok ()) => c.request rt st args (some path) {} x
          | (st, .error e) => ⟨st, [], .done (.error e)⟩
        match c.setUri out.state siteUri with
        | (st, .ok ()) => ⟨st, out.hops, out.result⟩
        -- what `ensure` raises is what the caller sees
        | (st, .error e) => ⟨st, out.hops, .done (.error e)⟩
      else c.request rt st args (some path) {} x

/-! ## A consumer as a machine -/

/-- One operation. -/
inductive Operation where
  | request (args : RequestArgs) (path : Bytes) (o : CallOptions) (x : Exchange)
  | getRequestToken (data : RequestData) (headers : List (Bytes × Bytes)) (o : CallOptions)
      (xs : List Exchange)
  | getAccessToken (token : Token) (data : RequestData) (headers : List (Bytes × Bytes))
      (o : CallOptions) (xs : List Exchange)
  | accessToken (args : RequestArgs) (path : Bytes) (x : Exchange)

/-- The path the operation is called with, or the endpoint it uses. -/
def Operation.path (c : Consumer) : Operation → Bytes
  | .request _ path _ _ => path
  | .getRequestToken .. => c.requestTokenEndpoint
  | .getAccessToken .. => c.accessTokenEndpoint
  | .accessToken _ path _ => path

/-- The state an operation leaves and the requests it sends. -/
def Operation.perform (rt : Runtime) (c : Consumer) (st : ConsumerState) :
    Operation → ConsumerState × List Hop
  | .request args path o x =>
    let out := c.request rt st args (some path) o x
    (out.state, out.hops)
  | .getRequestToken data headers o xs =>
    let out := c.getRequestToken rt st data headers o xs
    (out.state, out.hops)
  | .getAccessToken token data headers o xs =>
    let out := c.getAccessToken rt st token data headers o xs
    (out.state, out.hops)
  | .accessToken args path x =>
    let out := accessTokenRequest rt c st args path x
    (out.state, out.hops)

/-- What comes back from an operation: a response, or the values that a token is made of. -/
inductive Returned where
  | response (result : Result Response)
  | values (result : Result (OrderedHash Bytes (Option Bytes)))

/-- What an operation returns or raises. -/
def Operation.returned (rt : Runtime) (c : Consumer) (st : ConsumerState) : Operation → Returned
  | .request args path o x => .response (c.request rt st args (some path) o x).result
  | .getRequestToken data headers o xs => .values (c.getRequestToken rt st data headers o xs).result
  | .getAccessToken token data headers o xs =>
    .values (c.getAccessToken rt st token data headers o xs).result
  | .accessToken args path x => .response (accessTokenRequest rt c st args path x).result

/-- One step of the machine: the hops are labelled with the operation that sent them. -/
def consumerStep (rt : Runtime) (c : Consumer) (st : ConsumerState) (op : Operation) :
    ConsumerState × List (Operation × List Hop) :=
  ((op.perform rt c st).1, [(op, (op.perform rt c st).2)])

end RubyOAuth
