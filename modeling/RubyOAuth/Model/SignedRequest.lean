import RubyOAuth.Model.ClientHelper

set_option autoImplicit false

/-! # Proxies that sign their request

`sign!` puts the signature into the parameters of a request hash; `signed_uri` and `oauth_header` are
then the two places from which the parameters are sent. An empty array among the parameters stays
one here, where Ruby's `normalize` leaves a `nil` in it. -/

namespace RubyOAuth

open Bytes

/-- A proxy of a request hash, and whether it has been signed. -/
structure MockProxy where
  request : MockRequest
  options : SignatureOptions
  signed : Bool := false

namespace MockProxy

def base (p : MockProxy) : Proxy := p.request.proxy p.options

/-- `sign!`. -/
def sign! (rt : Runtime) (p : MockProxy) (o : SignatureOptions)
    (block : Option SecretBlock := none) : Except RubyError MockProxy := do
  let signature ← sign rt p.base o block
  .ok { p with request := p.request.withSignature (.str signature), signed := true }

/-- `oauth_parameters`: the names in `PARAMETERS`, but for blank values. -/
def oauthParameters (p : MockProxy) : Params :=
  p.request.parameters.filter (fun k v => oauthParameterNames.contains k &&
    match v with
    | .nil => false
    | .str s => s != []
    | _ => true)

def nonOauthParameters (p : MockProxy) : Params :=
  p.request.parameters.select (fun k => !oauthParameterNames.contains k)

/-- `signed_uri(with_oauth: ...)`, `none` where the request has not been signed. -/
def signedUri (rt : Runtime) (p : MockProxy) (withOauth : Bool) : Except RubyError (Option Bytes) :=
  if p.signed then do
    let query ← normalize rt (if withOauth then p.request.parameters else p.nonOauthParameters)
    .ok (some (p.request.uri ++ question :: query))
  else .ok none

/-- `oauth_header`. -/
def oauthHeader (rt : Runtime) (p : MockProxy) (realm : Option Bytes) : Bytes :=
  ascii "OAuth " ++
    (match realm with
      | some realm => ascii "realm=\"" ++ realm ++ ascii "\", "
      | none => []) ++
    ClientHelper.separator.intercalate (p.oauthParameters.entries.map (ClientHelper.headerField rt))

end MockProxy

end RubyOAuth
