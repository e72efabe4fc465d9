import RubyOAuth.Model.RequestProxy

set_option autoImplicit false

/-! # `OAuth::Signature`

Building a signature object from a request and its options, signing and verifying. The secrets come
from five places, the later ones overriding the earlier: consumer, `:consumer_secret`, token,
`:token_secret`, and the block. -/

namespace RubyOAuth

open Bytes

/-! ## The block -/

/-- The block of `build`, `sign` and `verify`. A block of arity 1 gets the request, any other the
    token, the consumer key, the nonce and the timestamp; its result is `none` where it is not an
    `Array`. -/
inductive SecretBlock where
  | request (lookup : Proxy → Except RubyError (Option (List Secret)))
  | credentials (lookup : Value → Value → Value → Value → Except RubyError (Option (List Secret)))

def SecretBlock.call (b : SecretBlock) (p : Proxy) : Except RubyError (Option (List Secret)) :=
  match b with
  | .request lookup => lookup p
  | .credentials lookup => do
    let token ← p.oauthToken
    let key ← p.oauthConsumerKey
    let nonce ← p.oauthNonce
    let timestamp ← p.oauthTimestamp
    lookup token key nonce timestamp

/-! ## Signature classes -/

/-- The classes registered in `AVAILABLE_METHODS`. -/
inductive SignatureMethod where
  | plaintext
  | hmacSha1
  | hmacSha256
  | rsaSha1
  deriving DecidableEq, Repr

/-- `available_methods[name]`. -/
def availableMethod (name : Bytes) : Option SignatureMethod :=
  if name = ascii "plaintext" then some .plaintext
  else if name = ascii "hmac-sha1" then some .hmacSha1
  else if name = ascii "hmac-sha256" then some .hmacSha256
  else if name = ascii "rsa-sha1" then some .rsaSha1
  else none

/-- An instance of a signature class. -/
structure Signature where
  method : SignatureMethod
  request : Proxy
  options : SignatureOptions
  consumerSecret : Secret
  tokenSecret : Secret

/-! ## Secrets -/

/-- The consumer secret of the options. -/
def SignatureOptions.givenConsumerSecret (o : SignatureOptions) : Secret :=
  if o.consumerSecret = .nil then (o.consumer.map Consumer.secret).getD .nil else o.consumerSecret

/-- The token secret of the options. -/
def SignatureOptions.givenTokenSecret (o : SignatureOptions) : Secret :=
  if o.tokenSecret = .nil then (o.token.map Token.secret).getD .nil else o.tokenSecret

/-- Token secret and consumer secret after the block, if any, has been asked: an array of two
    overrides both, any other result neither. -/
def resolveSecrets (p : Proxy) (o : SignatureOptions) (block : Option SecretBlock) :
    Except RubyError (Secret × Secret) :=
  match block with
  | none => .ok (o.givenTokenSecret, o.givenConsumerSecret)
  | some b => do
    match ← b.call p with
    | some [tokenSecret, consumerSecret] => .ok (tokenSecret, consumerSecret)
    | _ => .ok (o.givenTokenSecret, o.givenConsumerSecret)

/-- `String#downcase`, which raises on a text that is not valid in its encoding. Letters that are not
    ASCII are left as they are: no name of a method has one. -/
def downcaseText (valid : Bool) (s : Bytes) : Except RubyError Bytes :=
  if valid then .ok (downcase s) else .error .argumentError

/-- `build`: the signature method of the request, else of its consumer, in any letter case. -/
def methodName (p : Proxy) : Except RubyError Bytes := do
  match ← p.oauthSignatureMethod with
  | .str s => downcaseText (p.validText (ascii "oauth_signature_method") s) s
  | .nil | .bool false =>
    let name := (p.consumer.bind (·.options.signatureMethod)).getD []
    downcaseText (validUtf8 name) name
  | _ => .error .noMethodError

def build (p : Proxy) (o : SignatureOptions) (block : Option SecretBlock) :
    Except RubyError Signature := do
  match availableMethod (← methodName p) with
  | none =>
    match ← p.oauthSignatureMethod with
    | .str s => .error (.unknownSignatureMethod (some s))
    | _ => .error (.unknownSignatureMethod none)
  | some m =>
    let secrets ← resolveSecrets p o block
    .ok ⟨m, p, o, secrets.2, secrets.1⟩

/-! ## Signing and comparing -/

/-- `chomp`, for the text `Base64.encode64` gives. -/
def chomp (s : Bytes) : Bytes := if s.getLast? = some newline then s.dropLast else s

/-- `Base64.encode64(s).chomp.delete("\n")`. -/
def encodeDigest (rt : Runtime) (s : Bytes) : Bytes :=
  (chomp (rt.encode64 s)).filter (fun b => b != newline)

/-- The accumulator of `Base#==` over `signature.bytes.zip(other.bytes)`: a missing byte of `other`
    counts as 0, its further bytes are not looked at. -/
def orDifferences (check : Nat) : Bytes → Bytes → Nat
  | [], _ => check
  | x :: xs, [] => orDifferences (check ||| (x.toNat ^^^ 0)) xs []
  | x :: xs, y :: ys => orDifferences (check ||| (x.toNat ^^^ y.toNat)) xs ys

/-- `Base#==` on strings. -/
def sameSignature (signature other : Bytes) : Bool :=
  orDifferences (signature.length ^^^ other.length) signature other == 0

def certificateMarker : Bytes := ascii "-----BEGIN CERTIFICATE-----"

/-- `consumer_secret =~ /-----BEGIN CERTIFICATE-----/`. -/
def hasCertificateMarker (s : Bytes) : Bool := s.tails.any (startsWith certificateMarker)

namespace Signature

/-- `secret`. -/
def secret (sig : Signature) : Bytes :=
  escapeBytes sig.consumerSecret.toS ++ ampersand :: escapeBytes sig.tokenSecret.toS

def signatureBaseString (rt : Runtime) (sig : Signature) : Except RubyError Bytes :=
  match sig.method with
  | .plaintext => .ok sig.secret
  | _ => sig.request.signatureBaseString rt

/-- The key text `RSA::SHA1#digest` reads. -/
def privateKey (rt : Runtime) (sig : Signature) : Except RubyError Bytes :=
  match sig.options.privateKeyFile, sig.options.privateKey with
  | some file, _ => rt.readFile file
  | none, some key => .ok key
  | none, none => .ok sig.consumerSecret.toS

def digest (rt : Runtime) (sig : Signature) : Except RubyError Bytes :=
  match sig.method with
  | .plaintext => .error .notImplemented
  | .hmacSha1 => do .ok (rt.hmacSha1 sig.secret (← sig.signatureBaseString rt))
  | .hmacSha256 => do .ok (rt.hmacSha256 sig.secret (← sig.signatureBaseString rt))
  | .rsaSha1 => do
    let key ← sig.privateKey rt
    rt.rsaSign key (← sig.signatureBaseString rt)

def signature (rt : Runtime) (sig : Signature) : Except RubyError Bytes :=
  match sig.method with
  | .plaintext => sig.signatureBaseString rt
  | _ => do .ok (encodeDigest rt (← sig.digest rt))

/-- `RSA::SHA1#==` once the signature is decoded: public-key verification, and comparison with an own
    signature where the key cannot verify. -/
def rsaMatches (rt : Runtime) (sig : Signature) (decoded : Bytes) : Except RubyError Bool := do
  let base ← sig.signatureBaseString rt
  let verified : Except RubyError Bool :=
    match sig.consumerSecret with
    | .nil => .error .noMethodError
    | s => rt.rsaVerify s.toS decoded base
  match verified with
  | .error .pkeyError =>
    match sig.consumerSecret with
    | .str s =>
      if hasCertificateMarker s then .error .pkeyError
      else do .ok ((← rt.rsaSign s base) == decoded)
    | .rsaKey pem => do .ok ((← rt.rsaSign pem base) == decoded)
    | _ => .error .pkeyError
  | result => result

/-- `self == other`. -/
def equals (rt : Runtime) (sig : Signature) (other : Value) : Except RubyError Bool :=
  match sig.method with
  | .plaintext => do .ok ((← sig.signature rt) == other.toS rt)
  | .rsaSha1 =>
    match other with
    | .str s => sig.rsaMatches rt (rt.decode64 s)
    | _ => .error .noMethodError
  | _ => do
    let signature ← sig.signature rt
    match other with
    | .str s => .ok (sameSignature signature s)
    | _ => .error .noMethodError

def verify (rt : Runtime) (sig : Signature) : Except RubyError Bool := do
  sig.equals rt (← sig.request.oauthSignature)

/-- `body_hash`: the digest of the body, or of the empty string. -/
def bodyHash (rt : Runtime) (sig : Signature) : Except RubyError (Option Bytes) :=
  match sig.method with
  | .plaintext => .ok none
  | .hmacSha256 => do .ok (some (encodeDigest rt (rt.sha256 ((← sig.request.body).getD []))))
  | _ => do .ok (some (encodeDigest rt (rt.sha1 ((← sig.request.body).getD []))))

end Signature

/-! ## `OAuth::Signature` -/

def sign (rt : Runtime) (p : Proxy) (o : SignatureOptions) (block : Option SecretBlock := none) :
    Except RubyError Bytes := do
  (← build p o block).signature rt

def verify (rt : Runtime) (p : Proxy) (o : SignatureOptions) (block : Option SecretBlock := none) :
    Except RubyError Bool := do
  (← build p o block).verify rt

def signatureBaseString (rt : Runtime) (p : Proxy) (o : SignatureOptions)
    (block : Option SecretBlock := none) : Except RubyError Bytes := do
  (← build p o block).signatureBaseString rt

def bodyHash (rt : Runtime) (p : Proxy) (o : SignatureOptions)
    (block : Option SecretBlock := none) : Except RubyError (Option Bytes) := do
  (← build p o block).bodyHash rt

/-! ## The comparison is equality -/

theorem orDifferences_eq_zero (check : Nat) (s t : Bytes) (hlen : s.length = t.length) :
    orDifferences check s t = 0 ↔ check = 0 ∧ s = t := by
  induction s generalizing check t with
  | nil =>
      have ht : t = [] := List.length_eq_zero_iff.1 hlen.symm
      simp [orDifferences, ht]
  | cons x xs ih =>
      cases t with
      | nil => simp at hlen
      | cons y ys =>
          have hbyte : x.toNat ^^^ y.toNat = 0 ↔ x = y := by
            rw [Nat.xor_eq_zero_iff, UInt8.toNat_inj]
          rw [orDifferences, ih _ _ (by simpa using hlen), Nat.or_eq_zero_iff, hbyte,
            List.cons.injEq, and_assoc]

/-- The accumulator never loses a difference it has seen. -/
theorem orDifferences_ne_zero {check : Nat} (hc : check ≠ 0) (s t : Bytes) :
    orDifferences check s t ≠ 0 := by
  induction s generalizing check t with
  | nil => exact hc
  | cons x xs ih =>
      cases t with
      | nil => exact ih (fun h => hc (Nat.or_eq_zero_iff.1 h).1) []
      | cons y ys => exact ih (fun h => hc (Nat.or_eq_zero_iff.1 h).1) ys

/-- **The byte comparison decides equality**, whatever the two lengths. -/
theorem sameSignature_iff {s t : Bytes} : sameSignature s t = true ↔ s = t := by
  rw [sameSignature, beq_iff_eq]
  by_cases hlen : s.length = t.length
  · rw [orDifferences_eq_zero _ _ _ hlen, Nat.xor_eq_zero_iff]
    simp [hlen]
  · have hx : s.length ^^^ t.length ≠ 0 := fun h => hlen (Nat.xor_eq_zero_iff.1 h)
    have hne : s ≠ t := fun h => hlen (congrArg List.length h)
    simp [orDifferences_ne_zero hx, hne]

end RubyOAuth
