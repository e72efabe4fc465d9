import RubyOAuth.Lib.Base64
import RubyOAuth.Proofs.BaseString
import RubyOAuth.Proofs.SigningKeys

set_option autoImplicit false

/-! # Signatures as they are sent

A signature travels as the Base64 text of a digest or of RSA bytes, in one line. With the Base64 of the
standard library the text gives its bytes back. An HMAC signature seen once then passes for another
request only where the two base strings have one digest; an RSA signature passes in every spelling that
decodes to it. -/

namespace RubyOAuth

open Bytes

/-- The runtime's Base64 is the one of the standard library. -/
structure StandardBase64 (rt : Runtime) : Prop where
  encode64 : rt.encode64 = Base64.encode64
  decode64 : rt.decode64 = Base64.decode64

/-! ## The text of a digest -/

theorem encodeDigest_eq_filter (rt : Runtime) (s : Bytes) :
    encodeDigest rt s = (rt.encode64 s).filter (fun b => b != newline) := by
  rw [encodeDigest, chomp]
  split
  · next hlast =>
      have hne : rt.encode64 s ≠ [] := fun h => by simp [h] at hlast
      have hsplit : rt.encode64 s = (rt.encode64 s).dropLast ++ [newline] := by
        rw [List.getLast?_eq_some_getLast hne, Option.some.injEq] at hlast
        rw [← hlast, List.dropLast_append_getLast]
      conv_rhs => rw [hsplit]
      simp
  · rfl

/-- **The bytes of a signature come back from its text.** -/
theorem StandardBase64.decode_encodeDigest {rt : Runtime} (h : StandardBase64 rt) (s : Bytes) :
    Base64.decode64 (encodeDigest rt s) = s := by
  rw [encodeDigest_eq_filter, h.encode64, Base64.decode64_filter, Base64.decode64_encode64]

theorem StandardBase64.encodeDigest_inj {rt : Runtime} (h : StandardBase64 rt) {s t : Bytes} :
    encodeDigest rt s = encodeDigest rt t ↔ s = t := by
  constructor
  · intro he
    rw [← h.decode_encodeDigest s, he, h.decode_encodeDigest]
  · rintro rfl
    rfl

/-! ## HMAC -/

/-- The digest of an HMAC method. -/
def SignatureMethod.hmac (rt : Runtime) : SignatureMethod → Option (Bytes → Bytes → Bytes)
  | .hmacSha1 => some rt.hmacSha1
  | .hmacSha256 => some rt.hmacSha256
  | _ => none

theorem request_of_build {p : Proxy} {o : SignatureOptions} {block : Option SecretBlock}
    {sig : Signature} (h : build p o block = .ok sig) : sig.request = p := by
  obtain ⟨name, m, secrets, -, -, -, rfl⟩ := build_eq_ok.1 h
  rfl

theorem Signature.equals_mac_iff {rt : Runtime} {sig : Signature} {mac : Bytes → Bytes → Bytes}
    (h : sig.method.hmac rt = some mac) {v : Value} :
    sig.equals rt v = .ok true ↔ ∃ base, sig.request.signatureBaseString rt = .ok base ∧
      v = .str (encodeDigest rt (mac sig.secret base)) := by
  obtain ⟨m, p, o, cs, ts⟩ := sig
  cases m with
  | plaintext => simp [SignatureMethod.hmac] at h
  | rsaSha1 => simp [SignatureMethod.hmac] at h
  | hmacSha1 =>
      obtain rfl := Option.some.inj h
      exact equals_keyed_iff (by simp)
  | hmacSha256 =>
      obtain rfl := Option.some.inj h
      exact equals_keyed_iff (by simp)

/-- A request passes under HMAC with the text of the digest of its base string, and no other. -/
theorem verify_mac_iff {rt : Runtime} {p : Proxy} {o : SignatureOptions}
    {block : Option SecretBlock} {sig : Signature} (hsig : build p o block = .ok sig)
    {mac : Bytes → Bytes → Bytes} (hmac : sig.method.hmac rt = some mac) :
    verify rt p o block = .ok true ↔ ∃ base, p.signatureBaseString rt = .ok base ∧
      p.oauthSignature = .ok (.str (encodeDigest rt (mac sig.secret base))) := by
  have hp := request_of_build hsig
  rw [verify, hsig, Except.ok_bind, Signature.verify, hp, Except.bind_eq_ok]
  constructor
  · rintro ⟨v, hv, heq⟩
    obtain ⟨base, hbase, rfl⟩ := (Signature.equals_mac_iff hmac).1 heq
    exact ⟨base, hp ▸ hbase, hv⟩
  · rintro ⟨base, hbase, hv⟩
    exact ⟨_, hv, (Signature.equals_mac_iff hmac).2 ⟨base, hp.symm ▸ hbase, rfl⟩⟩

/-- Two base strings with one digest under the key. -/
def Collide (rt : Runtime) (p q : Proxy) (digest : Bytes → Bytes) : Prop :=
  ∃ b c, p.signatureBaseString rt = .ok b ∧ q.signatureBaseString rt = .ok c ∧ b ≠ c ∧
    digest b = digest c

/-- **A signature that passed once passes again for the same method, target and signed pairs, and
    otherwise only by a collision of the digest.** -/
theorem verify_replayed_iff {rt : Runtime} (h64 : StandardBase64 rt) (p q : Proxy)
    (o o' : SignatureOptions) (block block' : Option SecretBlock) {sig sig' : Signature}
    (hsig : build p o block = .ok sig) (hsig' : build q o' block' = .ok sig')
    (hm : sig.method = sig'.method) (hsecrets : sig.SameSecrets sig')
    {mac : Bytes → Bytes → Bytes} (hmac : sig.method.hmac rt = some mac)
    (hcarried : p.oauthSignature = q.oauthSignature) (hp : verify rt p o block = .ok true)
    {u v : Uri} {ps qs : Params} (hu : parseUri p.uri = .ok u) (hv : parseUri q.uri = .ok v)
    (hau : AbsoluteHttp u) (hav : AbsoluteHttp v) (hps : p.parameters = .ok ps)
    (hqs : q.parameters = .ok qs) (hfp : Flat ps) (hfq : Flat qs) :
    verify rt q o' block' = .ok true ↔
      (p.method = q.method ∧ SameTarget u v ∧ signedPairs p ps = signedPairs q qs) ∨
        Collide rt p q (mac sig.secret) := by
  have hbp : p.signatureBaseString rt = _ := signatureBaseString_flat hu hau hps hfp
  have hbq : q.signatureBaseString rt = _ := signatureBaseString_flat hv hav hqs hfq
  have hkey : sig.secret = sig'.secret := Signature.secret_eq_iff.2 hsecrets
  obtain ⟨b, hb, hseen⟩ := (verify_mac_iff hsig hmac).1 hp
  rw [verify_mac_iff hsig' (hm ▸ hmac), ← hcarried, hseen, ← hkey]
  -- equal base strings, by their parts
  have hparts : (∃ c, q.signatureBaseString rt = .ok c ∧ b = c) ↔
      p.method = q.method ∧ SameTarget u v ∧ signedPairs p ps = signedPairs q qs := by
    rw [hbp, Except.ok.injEq] at hb
    rw [hbq, ← hb]
    simp only [Except.ok.injEq, exists_eq_left']
    rw [baseString_inj, Uri.print_inj (canonicalUri_valid (valid_of_parseUri hu) hau)
      (canonicalUri_valid (valid_of_parseUri hv) hav), canonicalUri_inj hau hav, normalForm_inj,
      signedPairs, signedPairs, Multiset.coe_eq_coe]
  rw [← hparts]
  constructor
  · rintro ⟨c, hc, htext⟩
    rw [Except.ok.injEq, Value.str.injEq, h64.encodeDigest_inj] at htext
    by_cases hbc : b = c
    · exact .inl ⟨c, hc, hbc⟩
    · exact .inr ⟨b, c, hb, hc, hbc, htext⟩
  · rintro (⟨c, hc, rfl⟩ | ⟨b', c, hb', hc, -, htext⟩)
    · exact ⟨b, hc, rfl⟩
    · obtain rfl := Except.ok.inj (hb.symm.trans hb')
      exact ⟨c, hc, by rw [htext]⟩

/-- Digests that show key and text, RSA keys that sign for themselves, and the Base64 of the standard
    library. -/
def sendingRuntime : Runtime :=
  { echoRuntime with
    encode64 := Base64.encode64
    decode64 := Base64.decode64
    rsaSign := fun key text => .ok (key ++ text)
    rsaVerify := fun key signature text => .ok (signature == key ++ text) }

theorem sendingRuntime_standardBase64 : StandardBase64 sendingRuntime where
  encode64 := rfl
  decode64 := rfl

/-- A request with a pair that is signed and a signature. -/
def sentRequest (methodName : Bytes) (query : List (Bytes × Bytes)) (signature : Bytes) :
    MockRequest where
  method := ascii "GET"
  uri := ascii "http://a.b/"
  parameters := OrderedHash.ofList ((ascii "oauth_signature_method", .str methodName) ::
    (ascii "oauth_signature", .str signature) :: query.map (fun e => (e.1, .str e.2)))

def sharedSecret : SignatureOptions := { consumerSecret := .str (ascii "k") }

/-- What the digest of the request's base string is sent as. -/
def sentSignature : Bytes := encodeDigest sendingRuntime (ascii
  "k&GET&http%3A%2F%2Fa.b%2F&oauth_signature_method%3DHMAC-SHA1%26x%3D1")

def firstRequest : MockRequest :=
  sentRequest (ascii "HMAC-SHA1") [(ascii "x", ascii "1")] sentSignature

/-- The same signature over another pair. -/
def replayedRequest : MockRequest :=
  sentRequest (ascii "HMAC-SHA1") [(ascii "x", ascii "2")] sentSignature

theorem replayedRequest_verify_iff :
    verify sendingRuntime (replayedRequest.proxy {}) sharedSecret none = .ok true ↔
      ((firstRequest.proxy {}).method = (replayedRequest.proxy {}).method ∧
        SameTarget ⟨some (ascii "http"), none, some (ascii "a.b"), none, [slash], none, none⟩
          ⟨some (ascii "http"), none, some (ascii "a.b"), none, [slash], none, none⟩ ∧
        signedPairs (firstRequest.proxy {}) firstRequest.parameters
          = signedPairs (replayedRequest.proxy {}) replayedRequest.parameters) ∨
        Collide sendingRuntime (firstRequest.proxy {}) (replayedRequest.proxy {})
          (sendingRuntime.hmacSha1 (ascii "k&")) :=
  verify_replayed_iff sendingRuntime_standardBase64 (firstRequest.proxy {}) (replayedRequest.proxy {})
    sharedSecret sharedSecret none none
    (show build _ _ _
      = .ok ⟨.hmacSha1, firstRequest.proxy {}, sharedSecret, .str (ascii "k"), .nil⟩ from rfl)
    (show build _ _ _
      = .ok ⟨.hmacSha1, replayedRequest.proxy {}, sharedSecret, .str (ascii "k"), .nil⟩ from rfl)
    rfl ⟨rfl, rfl⟩ rfl rfl (by decide +kernel) (by decide +kernel)
    (by decide +kernel) (by decide +kernel) (by decide +kernel) rfl rfl (by decide +kernel)
    (by decide +kernel)

/-! ## RSA -/

/-- A public key passes exactly the bytes that the private key makes of a text. -/
def KeyPair (rt : Runtime) (privateKey publicKey : Bytes) : Prop :=
  ∀ text d, rt.rsaSign privateKey text = .ok d →
    ∀ d', rt.rsaVerify publicKey d' text = .ok (d' == d)

theorem sign_rsa {rt : Runtime} {p : Proxy} {o : SignatureOptions} {block : Option SecretBlock}
    {sig : Signature} {s : Bytes} (hsig : build p o block = .ok sig) (hm : sig.method = .rsaSha1)
    (h : sign rt p o block = .ok s) : ∃ key base d, sig.privateKey rt = .ok key ∧
      p.signatureBaseString rt = .ok base ∧ rt.rsaSign key base = .ok d ∧ s = encodeDigest rt d := by
  rw [sign, hsig, Except.ok_bind, Signature.signature, hm] at h
  obtain ⟨d, hd, h⟩ := Except.bind_eq_ok.1 h
  rw [Signature.digest, hm] at hd
  obtain ⟨key, hkey, hd⟩ := Except.bind_eq_ok.1 hd
  obtain ⟨base, hbase, hd⟩ := Except.bind_eq_ok.1 hd
  rw [Signature.signatureBaseString, hm, request_of_build hsig] at hbase
  exact ⟨key, base, d, hkey, hbase, hd, (Except.ok.inj h).symm⟩

/-- Where the key answers, its answer counts. -/
theorem Signature.rsaMatches_of_rsaVerify {rt : Runtime} {sig : Signature} {base decoded : Bytes}
    {b : Bool} (hm : sig.method = .rsaSha1) (hsecret : sig.consumerSecret ≠ .nil)
    (hbase : sig.request.signatureBaseString rt = .ok base)
    (h : rt.rsaVerify sig.consumerSecret.toS decoded base = .ok b) :
    sig.rsaMatches rt decoded = .ok b := by
  obtain ⟨m, p, o, cs, ts⟩ := sig
  simp only at hm hsecret hbase h
  subst hm
  rw [Signature.rsaMatches, Signature.signatureBaseString, hbase, Except.ok_bind]
  cases cs with
  | nil => exact absurd rfl hsecret
  | str s => simp only [h]
  | certificate pem => simp only [h]
  | rsaKey pem => simp only [h]

/-- **An RSA signature passes in every spelling of its bytes and in no other text**: what one side
    signs, another that has the same base string and the public key verifies from the text it got. -/
theorem verify_rsa_iff {rt : Runtime} (h64 : StandardBase64 rt) (p q : Proxy)
    (o o' : SignatureOptions) (block block' : Option SecretBlock) {sig sig' : Signature}
    {key s text : Bytes} (hsig : build p o block = .ok sig) (hsig' : build q o' block' = .ok sig')
    (hm : sig.method = .rsaSha1) (hm' : sig'.method = .rsaSha1)
    (hkey : sig.privateKey rt = .ok key) (hsecret : sig'.consumerSecret ≠ .nil)
    (hpair : KeyPair rt key sig'.consumerSecret.toS) (hsign : sign rt p o block = .ok s)
    (hbase : q.signatureBaseString rt = p.signatureBaseString rt)
    (hcarried : q.oauthSignature = .ok (.str text)) :
    verify rt q o' block' = .ok true ↔ Base64.decode64 text = Base64.decode64 s := by
  obtain ⟨key', base, d, hkey', hsigned, hd, rfl⟩ := sign_rsa hsig hm hsign
  obtain rfl := Except.ok.inj (hkey.symm.trans hkey')
  have hq := request_of_build hsig'
  have hverify : verify rt q o' block' = .ok (Base64.decode64 text == d) := by
    rw [verify, hsig', Except.ok_bind, Signature.verify, hq, hcarried, Except.ok_bind,
      Signature.equals, hm', ← h64.decode64]
    exact Signature.rsaMatches_of_rsaVerify hm' hsecret (hq.symm ▸ hbase.trans hsigned)
      (hpair base d hd _)
  rw [hverify, h64.decode_encodeDigest, Except.ok.injEq, beq_iff_eq]

def keyPair : SignatureOptions := { consumerSecret := .str (ascii "pem") }

/-- The signature of the request, with a line end in the middle of the text. -/
def brokenSignature : Bytes :=
  ascii "cGVtR0VUJmh0dHAlM0ElMkYlMkZhLmIlMkYmb2F1dGhfc2lnbmF0dX\nJlX21ldGhvZCUzRFJTQS1TSEEx"

theorem brokenSignature_verify_iff :
    verify sendingRuntime ((sentRequest (ascii "RSA-SHA1") [] brokenSignature).proxy {}) keyPair none
        = .ok true ↔
      Base64.decode64 brokenSignature = Base64.decode64 (encodeDigest sendingRuntime
        (ascii "pemGET&http%3A%2F%2Fa.b%2F&oauth_signature_method%3DRSA-SHA1")) :=
  verify_rsa_iff sendingRuntime_standardBase64 ((sentRequest (ascii "RSA-SHA1") [] []).proxy {})
    ((sentRequest (ascii "RSA-SHA1") [] brokenSignature).proxy {}) keyPair keyPair none none
    (show build _ _ _ = .ok ⟨.rsaSha1, (sentRequest (ascii "RSA-SHA1") [] []).proxy {}, keyPair,
      .str (ascii "pem"), .nil⟩ from rfl)
    (show build _ _ _ = .ok ⟨.rsaSha1, (sentRequest (ascii "RSA-SHA1") [] brokenSignature).proxy {},
      keyPair, .str (ascii "pem"), .nil⟩ from rfl)
    rfl rfl (show Signature.privateKey _ _ = .ok (ascii "pem") from rfl) (by decide)
    (fun text d hd d' => by rw [← Except.ok.inj hd]; rfl) (by decide +kernel) (by decide +kernel)
    rfl

end RubyOAuth
