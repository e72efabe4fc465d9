import RubyOAuth.Model.ClientHelper
import RubyOAuth.Model.ClientProxies

set_option autoImplicit false

/-! # `oauth!` on an EventMachine client

An EventMachine client signs in its head only. Its proxy takes the URL of the connection, so the
`request_uri` that `oauth!` gives the helper is not looked at. -/

namespace RubyOAuth

open Bytes

/-- `header` of a helper over a request of any class, given by its proxy. -/
def ClientHelper.headerOver (rt : Runtime) (h : ClientHelper) (proxy : SignatureOptions → Proxy) :
    Except RubyError Bytes := do
  let o := h.signatureOptions h.oauthParameters
  let signature ← sign rt (proxy o) o
  .ok (h.headerText rt (h.oauthParameters.set (ascii "oauth_signature") (.str signature)))

theorem ClientHelper.headerOver_proxy (rt : Runtime) (h : ClientHelper) :
    h.headerOver rt h.request.proxy = h.header rt := rfl

/-- `parameters` of the proxy. -/
def EmHttpRequest.parameters (r : EmHttpRequest) (o : SignatureOptions) : Except RubyError Params :=
  if o.clobberRequest then
    match o.parameters with
    | some params => .ok params
    | none => .error .noMethodError
  else do
    let params ← r.allParameters (o.parameters.map Params.keyed)
    .ok (params.mapValues Value.arr)

/-- An EventMachine client with its head; `url` is the text of the normalized URL of the connection. -/
structure EmHttpClient extends EmHttpRequest where
  url : Bytes
  head : OrderedHash Bytes Bytes
  contentType_eq : contentType = head.lookup (ascii "Content-Type")

namespace EmHttpClient

def proxy (c : EmHttpClient) (o : SignatureOptions) : Proxy where
  method := c.method
  uri := c.url
  parameters := c.parameters o
  normalizedUri := normalizeUri c.url
  normalizedUri_of_ok := fun _ hs => hs
  unsignedParameters := o.unsignedParameters.getD []
  consumer := o.consumer
  body := .error .noMethodError

/-- `req[:head].merge!("Authorization" => value)`. -/
def authorize (c : EmHttpClient) (value : Bytes) : EmHttpClient :=
  { c with
    head := c.head.set (ascii "Authorization") value
    contentType_eq := by
      rw [OrderedHash.lookup_set, if_neg (by decide)]
      exact c.contentType_eq }

/-- `oauth!`, with the helper of its options; the helper's own request is not looked at. -/
def oauth (rt : Runtime) (c : EmHttpClient) (helper : ClientHelper) : Except RubyError EmHttpClient :=
  match helper.options.scheme with
  | .header => do
    let value ← helper.headerOver rt c.proxy
    .ok (c.authorize value)
  | .body => .error .notImplemented
  | .queryString => .error .notImplemented

end EmHttpClient

end RubyOAuth
