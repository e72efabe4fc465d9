import RubyOAuth.Proofs.Verify

set_option autoImplicit false

/-! # Signing keys

`Signature::Base#secret` joins the two escaped secrets with `&`. The separator never comes out of
escaping, so the key can be cut in one place only, and the secrets are read back from the two halves. -/

namespace RubyOAuth

open Bytes

/-- The same consumer secret and the same token secret; `nil` counts as the empty string. -/
def Signature.SameSecrets (sig sig' : Signature) : Prop :=
  sig.consumerSecret.toS = sig'.consumerSecret.toS ∧ sig.tokenSecret.toS = sig'.tokenSecret.toS

/-- The consumer's half is what stands before the first `&`. -/
theorem Signature.cut_secret (sig : Signature) :
    cut ampersand sig.secret
      = (escapeBytes sig.consumerSecret.toS, some (escapeBytes sig.tokenSecret.toS)) := by
  rw [Signature.secret]
  exact cut_append (not_mem_escapeBytes (by decide) (by decide) sig.consumerSecret.toS) _

theorem Signature.secret_eq_iff {sig sig' : Signature} :
    sig.secret = sig'.secret ↔ sig.SameSecrets sig' := by
  constructor
  · intro h
    have hcut := congrArg (cut ampersand) h
    rw [Signature.cut_secret, Signature.cut_secret, Prod.mk.injEq, Option.some.injEq] at hcut
    exact ⟨escapeBytes_inj.1 hcut.1, escapeBytes_inj.1 hcut.2⟩
  · rintro ⟨hconsumer, htoken⟩
    rw [Signature.secret, Signature.secret, hconsumer, htoken]

/-- A plain-text signature is the key itself. -/
theorem Signature.signature_plaintext (rt : Runtime) {sig : Signature} (hm : sig.method = .plaintext) :
    sig.signature rt = .ok sig.secret := by
  rw [Signature.signature, hm, Signature.signatureBaseString, hm]

/-- **Keys are equal exactly for equal secrets**, and so a plain-text signature made with one pair of
    secrets passes with another exactly where the pairs are equal. -/
theorem secrets_unambiguous (rt : Runtime) (p p' : Proxy) (o o' : SignatureOptions)
    (block block' : Option SecretBlock) {sig sig' : Signature} {s : Bytes}
    (hsig : build p o block = .ok sig) (hsig' : build p' o' block' = .ok sig')
    (hm : sig.method = .plaintext) (hm' : sig'.method = .plaintext)
    (hsign : sign rt p' o' block' = .ok s) (hcarried : p.oauthSignature = .ok (.str s)) :
    (∀ a b : Signature, a.secret = b.secret ↔ a.SameSecrets b) ∧
      (verify rt p o block = .ok true ↔ sig.SameSecrets sig') := by
  refine ⟨fun a b => Signature.secret_eq_iff, ?_⟩
  -- the signature carried is the signer's key
  rw [sign, hsig', Except.ok_bind, Signature.signature_plaintext rt hm', Except.ok.injEq] at hsign
  subst hsign
  have hrequest : sig.request = p := by
    obtain ⟨name, m, secrets, -, -, -, rfl⟩ := build_eq_ok.1 hsig
    rfl
  have hne : sig.method ≠ .rsaSha1 := by
    rw [hm]
    simp
  rw [verify, hsig, Except.ok_bind, Signature.verify, hrequest, hcarried, Except.ok_bind,
    equals_str_iff hne, Signature.signature_plaintext rt hm, Except.ok.injEq,
    Signature.secret_eq_iff]

def splitSecrets : SignatureOptions :=
  { consumerSecret := .str (ascii "a"), tokenSecret := .str (ascii "b") }

def joinedSecret : SignatureOptions := { consumerSecret := .str (ascii "a&b") }

/-- The secret `a&b` does not pass for `a` and `b`. -/
theorem plaintextRequest_secrets_unambiguous :
    (∀ a b : Signature, a.secret = b.secret ↔ a.SameSecrets b) ∧
      (verify echoRuntime ((plaintextRequest.withSignature (.str (ascii "a%26b&"))).proxy splitSecrets)
          splitSecrets none = .ok true ↔
        ascii "a" = ascii "a&b" ∧ ascii "b" = []) :=
  secrets_unambiguous (s := ascii "a%26b&") echoRuntime
    ((plaintextRequest.withSignature (.str (ascii "a%26b&"))).proxy splitSecrets)
    (plaintextRequest.proxy joinedSecret) splitSecrets joinedSecret none none rfl rfl rfl rfl
    (by decide) rfl

end RubyOAuth
