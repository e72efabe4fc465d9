import RubyOAuth.Lib.UriResolve
import RubyOAuth.Model.Value

set_option autoImplicit false

/-! # Consumers, tokens and their options

The data of `OAuth::Consumer` and `OAuth::Token`. A consumer's options are the merge of
`@@default_options` with what its creator gives; the defaults are the defaults of the fields. An
option that may be present with a `nil` value is an `Option` of an `Option`. -/

namespace RubyOAuth

/-- A secret: a string in most uses, a key or certificate object where RSA is used. The objects are
    known by the PEM text `to_s` gives. -/
inductive Secret where
  | nil
  | str (s : Bytes)
  | certificate (pem : Bytes)
  | rsaKey (pem : Bytes)
  deriving DecidableEq, Repr

namespace Secret

def toS : Secret → Bytes
  | .nil => []
  | .str s => s
  | .certificate pem => pem
  | .rsaKey pem => pem

end Secret

structure Token where
  token : Bytes
  secret : Secret
  deriving DecidableEq, Repr

/-- How the OAuth parameters are sent. -/
inductive Scheme where
  | header
  | body
  | queryString
  deriving DecidableEq, Repr

/-- The methods `create_http_request` knows, and any other. -/
inductive HttpMethod where
  | get
  | head
  | delete
  | post
  | put
  | patch
  | other (name : Bytes)
  deriving DecidableEq, Repr

structure ConsumerOptions where
  site : Option Bytes := none
  signatureMethod : Option Bytes := some (ascii "HMAC-SHA1")
  requestTokenPath : Bytes := ascii "/oauth/request_token"
  authenticatePath : Bytes := ascii "/oauth/authenticate"
  authorizePath : Bytes := ascii "/oauth/authorize"
  accessTokenPath : Bytes := ascii "/oauth/access_token"
  requestTokenUrl : Option (Option Bytes) := none
  authenticateUrl : Option Bytes := none
  authorizeUrl : Option Bytes := none
  accessTokenUrl : Option (Option Bytes) := none
  proxy : Option Uri := none
  scheme : Scheme := .header
  httpMethod : HttpMethod := .post
  bodyHashEnabled : Bool := true
  oauthVersion : Option Bytes := some (ascii "1.0")
  tokenRequestMaxRedirects : Option Nat := some 10
  tokenRequestCrossOriginRedirects : Bool := false
  requestEndpoint : Option Bytes := none
  deriving DecidableEq, Repr

structure Consumer where
  key : Bytes
  secret : Secret
  options : ConsumerOptions := {}
  deriving DecidableEq, Repr

namespace Consumer

def site (c : Consumer) : Bytes := c.options.site.getD []

def requestEndpoint (c : Consumer) : Option Bytes := c.options.requestEndpoint

/-- `request_token_url? ? request_token_url : request_token_path`. -/
def requestTokenEndpoint (c : Consumer) : Bytes :=
  match c.options.requestTokenUrl with
  | some url => url.getD (c.site ++ c.options.requestTokenPath)
  | none => c.options.requestTokenPath

/-- `access_token_url? ? access_token_url : access_token_path`. -/
def accessTokenEndpoint (c : Consumer) : Bytes :=
  match c.options.accessTokenUrl with
  | some url => url.getD (c.site ++ c.options.accessTokenPath)
  | none => c.options.accessTokenPath

def authenticateUrl (c : Consumer) : Bytes :=
  c.options.authenticateUrl.getD (c.site ++ c.options.authenticatePath)

def authorizeUrl (c : Consumer) : Bytes :=
  c.options.authorizeUrl.getD (c.site ++ c.options.authorizePath)

end Consumer

end RubyOAuth
