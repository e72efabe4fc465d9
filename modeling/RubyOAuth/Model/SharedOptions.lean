import RubyOAuth.Lib.Machine
import RubyOAuth.Model.ClientHelper

set_option autoImplicit false

/-! # Helpers over one options hash

`Client::Helper` keeps the hash it is made with, and writes signature method, nonce, timestamp and body
hash into it. Requests whose helpers are made with one hash find there what was written before. -/

namespace RubyOAuth

open Bytes

/-- The entries of the hash that no helper writes. -/
structure SharedHash where
  requestUri : Bytes
  consumer : Consumer
  token : Option Token

/-- A request that is signed through the hash, and whether `hash_body` is called for it. A nonce of
    `generate_key` has word characters only. -/
structure HelperCall where
  request : HttpRequest
  hashesBody : Bool
  generated : Generated
  nonce_word : ∀ b ∈ generated.nonce, isAlnum b = true
  nonce_ne : generated.nonce ≠ []

namespace SharedHash

/-- The helper of a request, over the hash as it stands. -/
def helper (hash : SharedHash) (o : RequestOptions) (call : HelperCall) : ClientHelper :=
  ⟨call.request, hash.requestUri, hash.consumer, hash.token, o, call.generated⟩

/-- `@options[:signature_method] ||= "HMAC-SHA1"`, in the constructor. -/
def construct (o : RequestOptions) : RequestOptions :=
  { o with signatureMethod := some (o.signatureMethod.getD (ascii "HMAC-SHA1")) }

/-- `options[:timestamp] ||= ...` and `options[:nonce] ||= ...`, which `oauth_parameters` calls. -/
def memoize (o : RequestOptions) (g : Generated) : RequestOptions :=
  { o with
    nonce := some (o.nonce.getD g.nonce)
    timestamp := some (o.timestamp.getD g.timestamp) }

/-- Signing one request: the hash that is left, and the header or what is raised. Both `hash_body` and
    `header` begin with `oauth_parameters`. -/
def sign (rt : Runtime) (hash : SharedHash) (o : RequestOptions) (call : HelperCall) :
    RequestOptions × List (HelperCall × Except RubyError Bytes) :=
  let helper := hash.helper (memoize (construct o) call.generated) call
  if call.hashesBody then
    match helper.hashBody rt with
    | .ok hashed => (hashed.options, [(call, hashed.header rt)])
    | .error e => (helper.options, [(call, .error e)])
  else (helper.options, [(call, helper.header rt)])

end SharedHash

end RubyOAuth
