import RubyOAuth.Model.ClientProxies
import RubyOAuth.Proofs.SentSignatures

set_option autoImplicit false

/-! # Signatures of Curl requests

The Curl proxy has no method, so its base string begins with a separator, as the base string of no request
does that has a method. A digest of the one is no digest of the other, unless the two collide. -/

namespace RubyOAuth

open Bytes

variable {rt : Runtime}

/-- The text of the digest that signs a request with keys of any kind. -/
def KeyedProxy.hmacSignature (rt : Runtime) (p : KeyedProxy) (unsignedParameters : List Bytes)
    (mac : Bytes → Bytes) : Except RubyError Bytes := do
  .ok (encodeDigest rt (mac (← p.signatureBaseString rt unsignedParameters)))

namespace CurlEasy

theorem signatureBaseString_eq_ok {r : CurlEasy} {o : SignatureOptions} {names : List Bytes} {b : Bytes}
    (h : (r.keyedProxy o).signatureBaseString rt names = .ok b) :
    ∃ uri text, b = joinWith ampersand ([[], uri, text].map escapeBytes) := by
  obtain ⟨uri, -, h⟩ := Except.bind_eq_ok.1 h
  obtain ⟨params, -, h⟩ := Except.bind_eq_ok.1 h
  obtain ⟨text, -, h⟩ := Except.bind_eq_ok.1 h
  exact ⟨uri, text, (Except.ok.inj h).symm⟩

/-- The base string of a request with a method is none of a Curl request. -/
theorem signatureBaseString_ne {r : CurlEasy} {o : SignatureOptions} {names : List Bytes} {q : Proxy}
    {b c : Bytes} (hmethod : q.method ≠ []) (hb : (r.keyedProxy o).signatureBaseString rt names = .ok b)
    (hc : q.signatureBaseString rt = .ok c) : b ≠ c := by
  obtain ⟨uri, text, rfl⟩ := signatureBaseString_eq_ok hb
  obtain ⟨uri', -, hc⟩ := Except.bind_eq_ok.1 hc
  obtain ⟨text', -, hc⟩ := Except.bind_eq_ok.1 hc
  rw [← Except.ok.inj hc, Ne, baseString_inj]
  exact fun h => hmethod h.1.symm

/-- **What signs a Curl request passes for a request that has a method only by a collision** of the digest
    under the two keys, whatever the requests and the options. -/
theorem verify_hmacSignature_iff (h64 : StandardBase64 rt) (r : CurlEasy) (o o' : SignatureOptions)
    (q : Proxy) (block : Option SecretBlock) {sig : Signature} {mac : Bytes → Bytes → Bytes}
    {key s : Bytes} (hsig : build q o' block = .ok sig) (hmac : sig.method.hmac rt = some mac)
    (hmethod : q.method ≠ [])
    (hs : (r.keyedProxy o).hmacSignature rt (o.unsignedParameters.getD []) (mac key) = .ok s)
    (hcarried : q.oauthSignature = .ok (.str s)) :
    verify rt q o' block = .ok true ↔ ∃ b c,
      (r.keyedProxy o).signatureBaseString rt (o.unsignedParameters.getD []) = .ok b ∧
        q.signatureBaseString rt = .ok c ∧ b ≠ c ∧ mac key b = mac sig.secret c := by
  obtain ⟨b, hb, hs⟩ := Except.bind_eq_ok.1 hs
  obtain rfl := Except.ok.inj hs
  rw [verify_mac_iff hsig hmac, hcarried]
  constructor
  · rintro ⟨c, hc, htext⟩
    rw [Except.ok.injEq, Value.str.injEq, h64.encodeDigest_inj] at htext
    exact ⟨b, c, hb, hc, signatureBaseString_ne hmethod hb hc, htext⟩
  · rintro ⟨b', c, hb', hc, -, htext⟩
    obtain rfl := Except.ok.inj (hb.symm.trans hb')
    exact ⟨c, hc, by rw [htext]⟩

/-- A Curl request for the URL of `sentRequest`. -/
def exampleCurl : CurlEasy := ⟨ascii "http://a.b/", none, none⟩

/-- Its URL, with the one parameter that is signed. -/
def curlOptions : SignatureOptions where
  uri := some (ascii "http://a.b/")
  parameters := some (OrderedHash.ofList [(ascii "oauth_signature_method", .str (ascii "HMAC-SHA1"))])

def curlSignature : Bytes := encodeDigest sendingRuntime (ascii
  "k&&http%3A%2F%2Fa.b%2F&oauth_signature_method%3DHMAC-SHA1")

theorem exampleCurl_verify_iff :
    verify sendingRuntime ((sentRequest (ascii "HMAC-SHA1") [] curlSignature).proxy {}) sharedSecret none
        = .ok true ↔ ∃ b c,
      (exampleCurl.keyedProxy curlOptions).signatureBaseString sendingRuntime [] = .ok b ∧
        ((sentRequest (ascii "HMAC-SHA1") [] curlSignature).proxy {}).signatureBaseString sendingRuntime
          = .ok c ∧ b ≠ c ∧
        sendingRuntime.hmacSha1 (ascii "k&") b = sendingRuntime.hmacSha1 (ascii "k&") c :=
  verify_hmacSignature_iff sendingRuntime_standardBase64 exampleCurl curlOptions sharedSecret
    ((sentRequest (ascii "HMAC-SHA1") [] curlSignature).proxy {}) none
    (show build _ _ _ = .ok ⟨.hmacSha1, (sentRequest (ascii "HMAC-SHA1") [] curlSignature).proxy {},
      sharedSecret, .str (ascii "k"), .nil⟩ from rfl)
    rfl (by decide) (by decide +kernel) rfl

end CurlEasy

end RubyOAuth
