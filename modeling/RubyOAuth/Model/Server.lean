import RubyOAuth.Lib.Base64
import RubyOAuth.Model.Tokens

set_option autoImplicit false

/-! # `generate_key` and `OAuth::Server`

What the library generates: keys from random bytes, timestamps from the clock, and the credentials and
consumers a server makes of them. -/

namespace RubyOAuth

open Bytes

/-! ## Keys and timestamps -/

/-- What `OpenSSL::Random.random_bytes(size)` draws. -/
def RandomBytes (size : Nat) : Type := { s : Bytes // s.length = size }

/-- `\w`. -/
def isWordChar (b : UInt8) : Bool := isAlnum b || b == underscore

/-- `generate_key` and `generate_nonce`: `Base64.encode64(...).gsub(/\W/, "")`. -/
def generateKey {size : Nat} (random : RandomBytes size) : Bytes :=
  (Base64.encode64 random.1).filter isWordChar

/-- `generate_timestamp`: `Time.now.to_i.to_s`. -/
def generateTimestamp (seconds : Nat) : Bytes := Uri.decimal seconds

/-- What one request draws: a nonce of the default size, and the time. -/
def Generated.draw (random : RandomBytes 32) (seconds : Nat) : Generated where
  nonce := generateKey random
  timestamp := generateTimestamp seconds

/-! ## `OAuth::Server` -/

/-- A server with its paths: the defaults are `@@server_paths`, which the paths given override. -/
structure Server where
  baseUrl : Bytes
  requestTokenPath : Bytes := ascii "/oauth/request_token"
  authorizePath : Bytes := ascii "/oauth/authorize"
  accessTokenPath : Bytes := ascii "/oauth/access_token"

namespace Server

def requestTokenUrl (s : Server) : Bytes := s.baseUrl ++ s.requestTokenPath

def authorizeUrl (s : Server) : Bytes := s.baseUrl ++ s.authorizePath

def accessTokenUrl (s : Server) : Bytes := s.baseUrl ++ s.accessTokenPath

/-- `generate_credentials`. -/
def generateCredentials (key : RandomBytes 16) (secret : RandomBytes 32) : Bytes × Bytes :=
  (generateKey key, generateKey secret)

def createConsumer (s : Server) (key : RandomBytes 16) (secret : RandomBytes 32) : Consumer where
  key := (generateCredentials key secret).1
  secret := .str (generateCredentials key secret).2
  options := {
    site := some s.baseUrl
    requestTokenPath := s.requestTokenPath
    authorizePath := s.authorizePath
    accessTokenPath := s.accessTokenPath }

end Server

end RubyOAuth
