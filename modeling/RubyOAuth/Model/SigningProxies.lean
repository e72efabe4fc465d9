import RubyOAuth.Model.ClientProxies
import RubyOAuth.Model.Signature

set_option autoImplicit false

/-! # `sign!` on every proxy

`Base#sign!` writes the signature into the hash that `parameters` returns. A request hash keeps it, and
so do options whose parameters take the place of the request's; any other hash is made for the call, and
the next call makes another. -/

namespace RubyOAuth

open Bytes

/-- A request of a class whose proxy signs through `Base#sign!`. -/
inductive SigningRequest where
  | hash (r : MockRequest)
  | netHttp (r : HttpRequest)
  | rack (r : RackRequest)
  | restClient (r : RestClientRequest)

/-- Its proxy: the options are the caller's hash. -/
structure SigningProxy where
  request : SigningRequest
  options : SignatureOptions
  signed : Bool := false

namespace SigningProxy

def base (p : SigningProxy) : Proxy :=
  match p.request with
  | .hash r => r.proxy p.options
  | .netHttp r => r.proxy p.options
  | .rack r => r.proxy p.options
  | .restClient r => r.proxy p.options

/-- `parameters["oauth_signature"] = signature`, as far as a later call sees it. -/
def withSignature (p : SigningProxy) (signature : Bytes) : SigningProxy :=
  match p.request with
  | .hash r => { p with request := .hash (r.withSignature (.str signature)) }
  | _ =>
    match p.options.clobberRequest, p.options.parameters with
    | true, some params =>
      { p with
        options := { p.options with
          parameters := some (params.set (ascii "oauth_signature") (.str signature)) } }
    | _, _ => p

/-- `sign!`, with what it returns. -/
def sign! (rt : Runtime) (p : SigningProxy) (o : SignatureOptions) :
    Except RubyError (SigningProxy × Value) := do
  let signature ← sign rt p.base o
  let p := { p.withSignature signature with signed := true }
  let value ← p.base.oauthSignature
  .ok (p, value)

/-- `signed_uri(with_oauth: ...)`, `none` where the request has not been signed. -/
def signedUri (rt : Runtime) (p : SigningProxy) (withOauth : Bool) :
    Except RubyError (Option Bytes) :=
  if p.signed then do
    let params ← p.base.parameters
    let query ← normalize rt
      (if withOauth then params else params.select (fun k => !oauthParameterNames.contains k))
    .ok (some (p.base.uri ++ question :: query))
  else .ok none

end SigningProxy

end RubyOAuth
