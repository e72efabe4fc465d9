import RubyOAuth.Lib.Delegation
import RubyOAuth.Model.Tokens

set_option autoImplicit false

/-! # A client's session

The tokens of the three-legged flow are objects: a request token comes from `get_request_token`, an
access token from `get_access_token` on a request token, and a resource is asked for through an access
token. A session is any sequence of these calls on one consumer, on whatever tokens it holds by then; a
call that raises gives no token. -/

namespace RubyOAuth

open Bytes

/-! ## Tokens as objects -/

/-- What the token signs with. A token that the response did not name is `nil`, which is sent and signed
    as the empty string. -/
def ConsumerToken.credentials (t : ConsumerToken) : Token :=
  ⟨t.token.getD [], (t.secret.map Secret.str).getD .nil⟩

/-- The calls that `AccessToken` has for the HTTP methods. -/
inductive AccessCall where
  | get (headers : List (Bytes × Bytes))
  | head (headers : List (Bytes × Bytes))
  | delete (headers : List (Bytes × Bytes))
  | post (body : RequestData) (headers : List (Bytes × Bytes))
  | put (body : RequestData) (headers : List (Bytes × Bytes))
  | patch (body : RequestData) (headers : List (Bytes × Bytes))

def AccessCall.args (token : Token) : AccessCall → RequestArgs
  | .get headers => ⟨.get, some token, .none, headers⟩
  | .head headers => ⟨.head, some token, .none, headers⟩
  | .delete headers => ⟨.delete, some token, .none, headers⟩
  | .post body headers => ⟨.post, some token, body, headers⟩
  | .put body headers => ⟨.put, some token, body, headers⟩
  | .patch body headers => ⟨.patch, some token, body, headers⟩

/-! ## The session -/

structure SessionState where
  consumer : ConsumerState := {}
  requestTokens : List ConsumerToken := []
  accessTokens : List ConsumerToken := []

/-- One call; a token is named by its place among those of its kind. -/
inductive SessionOperation where
  | getRequestToken (data : RequestData) (headers : List (Bytes × Bytes)) (o : CallOptions)
      (xs : List Exchange)
  | getAccessToken (index : Nat) (data : RequestData) (headers : List (Bytes × Bytes))
      (o : CallOptions) (xs : List Exchange)
  | access (index : Nat) (call : AccessCall) (path : Bytes) (x : Exchange)

/-- What happened in a call: the options its requests were signed with, the exchanges it was given and the
    requests it sent. -/
structure SessionCall where
  options : CallOptions
  exchanges : List Exchange
  hops : List Hop

/-- A call, with the token it was made on and the token it gave. -/
inductive SessionEvent where
  | requested (call : SessionCall) (given : Option ConsumerToken)
  | exchanged (token : ConsumerToken) (call : SessionCall) (given : Option ConsumerToken)
  | accessed (token : ConsumerToken) (call : SessionCall)

/-- `from_hash(consumer, response)`, where there is a response. -/
def givenToken (c : Consumer) (result : Result (OrderedHash Bytes (Option Bytes))) :
    Option ConsumerToken :=
  match result with
  | .done (.ok values) => some (ConsumerToken.fromHash c (responseHash values))
  | _ => none

def sessionStep (rt : Runtime) (c : Consumer) (s : SessionState) :
    SessionOperation → SessionState × List SessionEvent
  | .getRequestToken data headers o xs =>
    let out := c.getRequestToken rt s.consumer data headers o xs
    let given := givenToken c out.result
    ({ s with consumer := out.state, requestTokens := s.requestTokens ++ given.toList },
      [.requested ⟨tokenRequestOptions (callbackOptions o), xs, out.hops⟩ given])
  | .getAccessToken index data headers o xs =>
    match s.requestTokens[index]? with
    | none => (s, [])
    | some token =>
      let out := c.getAccessToken rt s.consumer token.credentials data headers o xs
      let given := givenToken c out.result
      ({ s with consumer := out.state, accessTokens := s.accessTokens ++ given.toList },
        [.exchanged token ⟨tokenRequestOptions o, xs, out.hops⟩ given])
  | .access index call path x =>
    match s.accessTokens[index]? with
    | none => (s, [])
    | some token =>
      let out := accessTokenRequest rt c s.consumer (call.args token.credentials) path x
      ({ s with consumer := out.state }, [.accessed token ⟨{}, [x], out.hops⟩])

/-! ## The flow it stands for -/

/-- The tokens held, as a party to delegated access. -/
def SessionState.holdings (s : SessionState) : Delegation.Holdings ConsumerToken where
  temporary := {t | t ∈ s.requestTokens}
  granted := {t | t ∈ s.accessTokens}

/-- What a call amounts to in that flow. -/
def SessionEvent.steps : SessionEvent → List (Delegation.Event ConsumerToken)
  | .requested _ given => given.toList.map .issue
  | .exchanged token _ given => .present token :: given.toList.map (.grant token)
  | .accessed token _ => [.use token]

end RubyOAuth
