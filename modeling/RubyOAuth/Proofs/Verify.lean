import RubyOAuth.Lib.Fallible
import RubyOAuth.Model.Signature

set_option autoImplicit false

/-! # Verification accepts what signing makes

For the methods that recompute the signature (all but RSA), verifying a request means comparing its
`oauth_signature` with what signing the same request gives, byte for byte. What is signed leaves
`oauth_signature` out, so a request can be signed before it carries one. -/

namespace RubyOAuth

open Bytes

/-! ## What `build` gives -/

/-- A signature object holds the request, the method the request names and the resolved secrets. -/
theorem build_eq_ok {p : Proxy} {o : SignatureOptions} {block : Option SecretBlock}
    {sig : Signature} :
    build p o block = .ok sig ↔ ∃ name m secrets, methodName p = .ok name ∧
      availableMethod name = some m ∧ resolveSecrets p o block = .ok secrets ∧
      sig = ⟨m, p, o, secrets.2, secrets.1⟩ := by
  rw [build, Except.bind_eq_ok]
  constructor
  · rintro ⟨name, hname, h⟩
    cases hm : availableMethod name with
    | none =>
        rw [hm] at h
        obtain ⟨v, -, h⟩ := Except.bind_eq_ok.1 h
        split at h <;> simp at h
    | some m =>
        rw [hm] at h
        obtain ⟨secrets, hsec, h⟩ := Except.bind_eq_ok.1 h
        exact ⟨name, m, secrets, hname, hm, hsec, (Except.ok.inj h).symm⟩
  · rintro ⟨name, m, secrets, hname, hm, hsec, rfl⟩
    refine ⟨name, hname, ?_⟩
    rw [hm]
    exact Except.bind_eq_ok.2 ⟨secrets, hsec, rfl⟩

theorem availableMethod_eq_some {name : Bytes} {m : SignatureMethod}
    (h : availableMethod name = some m) :
    name ∈ [ascii "plaintext", ascii "hmac-sha1", ascii "hmac-sha256", ascii "rsa-sha1"] := by
  by_contra hno
  simp only [List.mem_cons, List.not_mem_nil, or_false, not_or] at hno
  rw [availableMethod, if_neg hno.1, if_neg hno.2.1, if_neg hno.2.2.1, if_neg hno.2.2.2] at h
  simp at h

/-- A name of an available method is ASCII, in any letter case. -/
theorem validUtf8_of_availableMethod {s : Bytes} {m : SignatureMethod}
    (h : availableMethod (downcase s) = some m) : validUtf8 s = true := by
  refine validUtf8_of_downcase rfl fun b hb => ?_
  have hascii : ∀ name ∈ [ascii "plaintext", ascii "hmac-sha1", ascii "hmac-sha256", ascii "rsa-sha1"],
      ∀ b ∈ name, b ≤ 0x7F := by decide +kernel
  exact hascii _ (availableMethod_eq_some h) b hb

theorem Proxy.validText_of_utf8 (p : Proxy) (name : Bytes) {s : Bytes} (h : validUtf8 s = true) :
    p.validText name s = true := by
  rw [validText, h, Bool.or_true]

theorem methodName_of_validText {p : Proxy} {s : Bytes} (h : p.oauthSignatureMethod = .ok (.str s))
    (hvalid : p.validText (ascii "oauth_signature_method") s = true) :
    methodName p = .ok (downcase s) := by
  rw [methodName, h, Except.ok_bind]
  simp only [downcaseText, hvalid, if_true]

theorem eq_downcase_of_methodName {p : Proxy} {s name : Bytes}
    (h : p.oauthSignatureMethod = .ok (.str s)) (hname : methodName p = .ok name) :
    name = downcase s := by
  rw [methodName, h, Except.ok_bind] at hname
  simp only [downcaseText] at hname
  split at hname
  · exact (Except.ok.inj hname).symm
  · simp at hname

/-- A text that names an available method is one. -/
theorem methodName_of_str {p : Proxy} {s : Bytes} {m : SignatureMethod}
    (h : p.oauthSignatureMethod = .ok (.str s)) (hav : availableMethod (downcase s) = some m) :
    methodName p = .ok (downcase s) :=
  methodName_of_validText h (p.validText_of_utf8 _ (validUtf8_of_availableMethod hav))

/-! ## What a signature is -/

theorem signature_hmacSha1 {rt : Runtime} {p : Proxy} {o : SignatureOptions} {cs ts : Secret}
    {s : Bytes} :
    Signature.signature rt ⟨.hmacSha1, p, o, cs, ts⟩ = .ok s ↔
      ∃ base, p.signatureBaseString rt = .ok base ∧ s = encodeDigest rt
        (rt.hmacSha1 (escapeBytes cs.toS ++ ampersand :: escapeBytes ts.toS) base) := by
  simp only [Signature.signature, Signature.digest, Signature.signatureBaseString,
    Signature.secret, Except.bind_eq_ok, Except.ok.injEq]
  constructor
  · rintro ⟨d, ⟨base, hbase, rfl⟩, rfl⟩
    exact ⟨base, hbase, rfl⟩
  · rintro ⟨base, hbase, rfl⟩
    exact ⟨_, ⟨base, hbase, rfl⟩, rfl⟩

theorem signature_hmacSha256 {rt : Runtime} {p : Proxy} {o : SignatureOptions} {cs ts : Secret}
    {s : Bytes} :
    Signature.signature rt ⟨.hmacSha256, p, o, cs, ts⟩ = .ok s ↔
      ∃ base, p.signatureBaseString rt = .ok base ∧ s = encodeDigest rt
        (rt.hmacSha256 (escapeBytes cs.toS ++ ampersand :: escapeBytes ts.toS) base) := by
  simp only [Signature.signature, Signature.digest, Signature.signatureBaseString,
    Signature.secret, Except.bind_eq_ok, Except.ok.injEq]
  constructor
  · rintro ⟨d, ⟨base, hbase, rfl⟩, rfl⟩
    exact ⟨base, hbase, rfl⟩
  · rintro ⟨base, hbase, rfl⟩
    exact ⟨_, ⟨base, hbase, rfl⟩, rfl⟩

/-! ## The digest as a parameter -/

/-- The runtime with `mac` for HMAC and for RSA signing, each method with a digest of its own. -/
def Runtime.withMac (rt : Runtime) (mac : SignatureMethod → Bytes → Bytes → Bytes) : Runtime :=
  { rt with
    hmacSha1 := mac .hmacSha1
    hmacSha256 := mac .hmacSha256
    rsaSign := fun key text => .ok (mac .rsaSha1 key text) }

/-- The key of a digest: the two secrets, or the private key. -/
def Signature.macKey (rt : Runtime) (sig : Signature) : Except RubyError Bytes :=
  match sig.method with
  | .rsaSha1 => sig.privateKey rt
  | _ => .ok sig.secret

/-- **Every method but plain text encodes one digest of the base string.** -/
theorem signature_withMac {rt : Runtime} {mac : SignatureMethod → Bytes → Bytes → Bytes}
    {sig : Signature}
    (hm : sig.method ≠ .plaintext) {s : Bytes} :
    sig.signature (rt.withMac mac) = .ok s ↔
      ∃ key base, sig.macKey rt = .ok key ∧
        sig.request.signatureBaseString (rt.withMac mac) = .ok base ∧
        s = encodeDigest rt (mac sig.method key base) := by
  obtain ⟨m, p, o, cs, ts⟩ := sig
  cases m with
  | plaintext => exact absurd rfl hm
  | hmacSha1 =>
      rw [signature_hmacSha1]
      constructor
      · rintro ⟨base, hbase, rfl⟩
        exact ⟨_, base, rfl, hbase, rfl⟩
      · rintro ⟨key, base, hkey, hbase, rfl⟩
        rw [← Except.ok.inj hkey]
        exact ⟨base, hbase, rfl⟩
  | hmacSha256 =>
      rw [signature_hmacSha256]
      constructor
      · rintro ⟨base, hbase, rfl⟩
        exact ⟨_, base, rfl, hbase, rfl⟩
      · rintro ⟨key, base, hkey, hbase, rfl⟩
        rw [← Except.ok.inj hkey]
        exact ⟨base, hbase, rfl⟩
  | rsaSha1 =>
      constructor
      · intro h
        obtain ⟨d, hd, h⟩ := Except.bind_eq_ok.1 h
        obtain ⟨key, hkey, hd⟩ := Except.bind_eq_ok.1 hd
        obtain ⟨base, hbase, hd⟩ := Except.bind_eq_ok.1 hd
        rw [← Except.ok.inj h, ← Except.ok.inj hd]
        exact ⟨key, base, hkey, hbase, rfl⟩
      · rintro ⟨key, base, hkey, hbase, rfl⟩
        refine Except.bind_eq_ok.2 ⟨mac .rsaSha1 key base, Except.bind_eq_ok.2 ⟨key, hkey, ?_⟩, rfl⟩
        exact Except.bind_eq_ok.2 ⟨base, hbase, rfl⟩

theorem exists_macKey {rt : Runtime} {sig : Signature} (hm : sig.method ≠ .plaintext) {s : Bytes}
    (h : sig.signature rt = .ok s) :
    ∃ key base, sig.macKey rt = .ok key ∧ sig.request.signatureBaseString rt = .ok base := by
  obtain ⟨m, p, o, cs, ts⟩ := sig
  cases m with
  | plaintext => exact absurd rfl hm
  | hmacSha1 =>
      obtain ⟨base, hbase, -⟩ := signature_hmacSha1.1 h
      exact ⟨_, base, rfl, hbase⟩
  | hmacSha256 =>
      obtain ⟨base, hbase, -⟩ := signature_hmacSha256.1 h
      exact ⟨_, base, rfl, hbase⟩
  | rsaSha1 =>
      obtain ⟨d, hd, -⟩ := Except.bind_eq_ok.1 h
      obtain ⟨key, hkey, hd⟩ := Except.bind_eq_ok.1 hd
      obtain ⟨base, hbase, -⟩ := Except.bind_eq_ok.1 hd
      exact ⟨key, base, hkey, hbase⟩

/-- Signing without a block. -/
theorem sign_eq_ok {rt : Runtime} {p : Proxy} {o : SignatureOptions} {s : Bytes} :
    sign rt p o = .ok s ↔ ∃ name m, methodName p = .ok name ∧ availableMethod name = some m ∧
      Signature.signature rt ⟨m, p, o, o.givenConsumerSecret, o.givenTokenSecret⟩ = .ok s := by
  rw [sign, Except.bind_eq_ok]
  constructor
  · rintro ⟨sig, hsig, h⟩
    obtain ⟨name, m, secrets, hname, hm, hsec, rfl⟩ := build_eq_ok.1 hsig
    rw [← Except.ok.inj hsec] at h
    exact ⟨name, m, hname, hm, h⟩
  · rintro ⟨name, m, hname, hm, h⟩
    exact ⟨_, build_eq_ok.2 ⟨name, m, _, hname, hm, rfl, rfl⟩, h⟩

/-! ## Signatures are not empty -/

/-- Digests and RSA signatures have at least one byte, and Base64 shows them. -/
structure NonemptyDigests (rt : Runtime) : Prop where
  hmacSha1 : ∀ key text, rt.hmacSha1 key text ≠ []
  hmacSha256 : ∀ key text, rt.hmacSha256 key text ≠ []
  rsaSign : ∀ key text d, rt.rsaSign key text = .ok d → d ≠ []
  encoded : ∀ d, d ≠ [] → encodeDigest rt d ≠ []

theorem sign_ne_nil {rt : Runtime} (hd : NonemptyDigests rt) {p : Proxy} {o : SignatureOptions}
    {block : Option SecretBlock} {s : Bytes} (h : sign rt p o block = .ok s) : s ≠ [] := by
  obtain ⟨⟨m, q, o', cs, ts⟩, -, hs⟩ := Except.bind_eq_ok.1 h
  cases m with
  | plaintext =>
      rw [← Except.ok.inj hs]
      simp [Signature.secret]
  | hmacSha1 =>
      obtain ⟨base, -, rfl⟩ := signature_hmacSha1.1 hs
      exact hd.encoded _ (hd.hmacSha1 _ base)
  | hmacSha256 =>
      obtain ⟨base, -, rfl⟩ := signature_hmacSha256.1 hs
      exact hd.encoded _ (hd.hmacSha256 _ base)
  | rsaSha1 =>
      obtain ⟨d, hdigest, hs⟩ := Except.bind_eq_ok.1 hs
      obtain ⟨key, -, hdigest⟩ := Except.bind_eq_ok.1 hdigest
      obtain ⟨base, -, hdigest⟩ := Except.bind_eq_ok.1 hdigest
      rw [← Except.ok.inj hs]
      exact hd.encoded d (hd.rsaSign key base d hdigest)

/-- `String#inspect`, for ASCII text. -/
def inspectString (s : Bytes) : Bytes :=
  quote :: (s.flatMap (fun b =>
    if b = newline then ascii "\\n"
    else if b = quote || b = 92 then [92, b] else [b]) ++ [quote])

/-- Digests that show key and text, and arrays of one string as Ruby prints them. -/
def printingRuntime : Runtime :=
  { echoRuntime with
    hmacSha1 := fun key text => key ++ ampersand :: text
    hmacSha256 := fun key text => key ++ ampersand :: text
    encode64 := escapeBytes
    inspect := fun v => match v with
      | .arr [.str s] => lbracket :: (inspectString s ++ [rbracket])
      | _ => [] }

theorem printingRuntime_nonemptyDigests : NonemptyDigests printingRuntime where
  hmacSha1 key text := by simp [printingRuntime]
  hmacSha256 key text := by simp [printingRuntime]
  rsaSign key text d h := by simp [printingRuntime, echoRuntime] at h
  encoded d hd := by
    have hline : newline ∉ escapeBytes d := not_mem_escapeBytes (by decide) (by decide) d
    have hchomp : chomp (escapeBytes d) = escapeBytes d := by
      rw [chomp, if_neg]
      intro hl
      exact hline (List.mem_of_getLast? hl)
    have hkeep : (escapeBytes d).filter (fun b => b != newline) = escapeBytes d := by
      rw [List.filter_eq_self]
      intro b hb
      rw [bne_iff_ne]
      rintro rfl
      exact hline hb
    show (chomp (escapeBytes d)).filter _ ≠ []
    rw [hchomp, hkeep]
    intro h
    exact hd (escapeBytes_inj.1 h)

/-! ## Comparing -/

/-- A recomputing method accepts a string exactly when it is the signature. -/
theorem equals_str_iff {rt : Runtime} {sig : Signature} (hm : sig.method ≠ .rsaSha1) {s : Bytes} :
    sig.equals rt (.str s) = .ok true ↔ sig.signature rt = .ok s := by
  by_cases h : sig.method = .plaintext
  · rw [Signature.equals, h]
    simp only [Except.bind_eq_ok, Value.toS, Except.ok.injEq, beq_iff_eq, exists_eq_right]
  · rw [Signature.equals]
    · simp only [Except.bind_eq_ok, Except.ok.injEq, sameSignature_iff, exists_eq_right]

/-- An HMAC method compares strings only. -/
def matchesText (v : Value) (signature : Bytes) : Except RubyError Bool :=
  match v with
  | .str s => .ok (sameSignature signature s)
  | _ => .error .noMethodError

theorem equals_eq_matchesText {rt : Runtime} {sig : Signature} (hp : sig.method ≠ .plaintext)
    (hr : sig.method ≠ .rsaSha1) (v : Value) :
    sig.equals rt v = sig.signature rt >>= matchesText v := by
  obtain ⟨m, p, o, cs, ts⟩ := sig
  cases m with
  | plaintext => exact absurd rfl hp
  | rsaSha1 => exact absurd rfl hr
  | hmacSha1 => rfl
  | hmacSha256 => rfl

/-- An HMAC method accepts nothing but a string. -/
theorem equals_hmac_iff {rt : Runtime} {sig : Signature} (hp : sig.method ≠ .plaintext)
    (hr : sig.method ≠ .rsaSha1) {v : Value} :
    sig.equals rt v = .ok true ↔ ∃ s, v = .str s ∧ sig.signature rt = .ok s := by
  rw [equals_eq_matchesText hp hr, Except.bind_eq_ok]
  cases v <;> simp [matchesText, sameSignature_iff]

/-- The signature that the key makes. -/
def KeyedSignature (rt : Runtime) (p : Proxy) (key : Bytes) (v : Value) : SignatureMethod → Prop
  | .plaintext => v.toS rt = key
  | .hmacSha1 => ∃ base, p.signatureBaseString rt = .ok base ∧
      v = .str (encodeDigest rt (rt.hmacSha1 key base))
  | .hmacSha256 => ∃ base, p.signatureBaseString rt = .ok base ∧
      v = .str (encodeDigest rt (rt.hmacSha256 key base))
  | .rsaSha1 => False

/-- A recomputing method accepts exactly the signature that its two secrets make. -/
theorem equals_keyed_iff {rt : Runtime} {p : Proxy} {o : SignatureOptions} {m : SignatureMethod}
    (hm : m ≠ .rsaSha1) {cs ts : Secret} {v : Value} :
    Signature.equals rt ⟨m, p, o, cs, ts⟩ v = .ok true ↔
      KeyedSignature rt p (escapeBytes cs.toS ++ ampersand :: escapeBytes ts.toS) v m := by
  cases m with
  | plaintext =>
      simp only [Signature.equals, Signature.signature, Signature.signatureBaseString,
        Except.ok_bind, Except.ok.injEq, beq_iff_eq, KeyedSignature]
      exact eq_comm
  | rsaSha1 => exact absurd rfl hm
  | hmacSha1 =>
      rw [equals_hmac_iff (by simp) (by simp)]
      constructor
      · rintro ⟨s, rfl, hs⟩
        obtain ⟨base, hbase, rfl⟩ := signature_hmacSha1.1 hs
        exact ⟨base, hbase, rfl⟩
      · rintro ⟨base, hbase, rfl⟩
        exact ⟨_, rfl, signature_hmacSha1.2 ⟨base, hbase, rfl⟩⟩
  | hmacSha256 =>
      rw [equals_hmac_iff (by simp) (by simp)]
      constructor
      · rintro ⟨s, rfl, hs⟩
        obtain ⟨base, hbase, rfl⟩ := signature_hmacSha256.1 hs
        exact ⟨base, hbase, rfl⟩
      · rintro ⟨base, hbase, rfl⟩
        exact ⟨_, rfl, signature_hmacSha256.2 ⟨base, hbase, rfl⟩⟩

/-- **Verifying compares with signing.** -/
theorem verify_eq_sign {rt : Runtime} {p : Proxy} {o : SignatureOptions}
    {block : Option SecretBlock} {s : Bytes} (hs : p.oauthSignature = .ok (.str s))
    (hm : ∀ name, methodName p = .ok name → availableMethod name ≠ some .rsaSha1) :
    verify rt p o block = .ok true ↔ sign rt p o block = .ok s := by
  rw [verify, sign, Except.bind_eq_ok, Except.bind_eq_ok]
  refine exists_congr (fun sig => and_congr_right (fun hsig => ?_))
  obtain ⟨name, m, secrets, hname, hav, -, rfl⟩ := build_eq_ok.1 hsig
  have hne : m ≠ .rsaSha1 := by
    rintro rfl
    exact hm name hname hav
  rw [Signature.verify, hs, Except.ok_bind]
  exact equals_str_iff hne

/-! ## What signing reads -/

/-- The signature depends on the method, the secrets and the base string alone. -/
theorem sign_congr {rt : Runtime} {p q : Proxy} {o : SignatureOptions} {block : Option SecretBlock}
    (hmethod : p.oauthSignatureMethod = q.oauthSignatureMethod) (hconsumer : p.consumer = q.consumer)
    (hbinary : p.binaryText = q.binaryText)
    (hsecrets : resolveSecrets p o block = resolveSecrets q o block)
    (hbase : p.signatureBaseString rt = q.signatureBaseString rt) :
    sign rt p o block = sign rt q o block := by
  have hname : methodName p = methodName q := by
    simp only [methodName, Proxy.validText, hmethod, hconsumer, hbinary]
  have hsig : ∀ m cs ts,
      Signature.signature rt ⟨m, p, o, cs, ts⟩ = Signature.signature rt ⟨m, q, o, cs, ts⟩ := by
    intro m cs ts
    cases m <;>
      simp only [Signature.signature, Signature.digest, Signature.signatureBaseString,
        Signature.privateKey, Signature.secret, hbase]
  rw [sign, sign, build, build, hname, hmethod, hsecrets]
  cases methodName q with
  | error e => rfl
  | ok name =>
      simp only [Except.ok_bind]
      cases availableMethod name with
      | none =>
          cases q.oauthSignatureMethod with
          | error e => rfl
          | ok v => cases v <;> rfl
      | some m =>
          cases resolveSecrets q o block with
          | error e => rfl
          | ok secrets => exact hsig m secrets.2 secrets.1

/-- A body hash depends on the method and the body. -/
theorem bodyHash_congr {rt : Runtime} {p q : Proxy} {o : SignatureOptions}
    (hmethod : p.oauthSignatureMethod = q.oauthSignatureMethod) (hconsumer : p.consumer = q.consumer)
    (hbinary : p.binaryText = q.binaryText)
    (hbody : p.body = q.body) : bodyHash rt p o = bodyHash rt q o := by
  have hname : methodName p = methodName q := by
    simp only [methodName, Proxy.validText, hmethod, hconsumer, hbinary]
  rw [bodyHash, bodyHash, build, build, hname, hmethod]
  cases methodName q with
  | error e => rfl
  | ok name =>
      simp only [Except.ok_bind]
      cases availableMethod name with
      | none =>
          cases q.oauthSignatureMethod with
          | error e => rfl
          | ok v => cases v <;> rfl
      | some m =>
          simp only [resolveSecrets, Except.ok_bind, Signature.bodyHash, hbody]

/-! ## Placing a signature in a request -/

namespace MockRequest

/-- Every other accessor reads the same. -/
theorem oauthParameter_withSignature (r : MockRequest) (v : Value) (o : SignatureOptions)
    {name : String} (h : ascii name ≠ ascii "oauth_signature") :
    ((r.withSignature v).proxy o).oauthParameter name = (r.proxy o).oauthParameter name := by
  simp only [Proxy.oauthParameter, proxy, withSignature, Except.ok_bind, OrderedHash.lookup_set,
    if_neg h]

theorem oauthSignature_withSignature (r : MockRequest) (o : SignatureOptions) {v : Value}
    {s : Bytes} (hv : v = .str s ∨ v = .arr [.str s]) :
    ((r.withSignature v).proxy o).oauthSignature = .ok (.str s) := by
  have hfirst : firstOf v = .str s := by rcases hv with rfl | rfl <;> simp
  simp only [Proxy.oauthSignature, Proxy.oauthParameter, proxy, withSignature, Except.ok_bind,
    OrderedHash.lookup_set, if_true, Option.getD_some, hfirst]

theorem signatureBaseString_withSignature (rt : Runtime) (r : MockRequest) (v : Value)
    (o : SignatureOptions) :
    ((r.withSignature v).proxy o).signatureBaseString rt = (r.proxy o).signatureBaseString rt := by
  have hsel : (r.parameters.set (ascii "oauth_signature") v).select (r.proxy o).isSigned
      = r.parameters.select (r.proxy o).isSigned :=
    OrderedHash.select_set (by simp [Proxy.isSigned, Proxy.signatureAndUnsignedParameters]) v
  have hparams : ((r.withSignature v).proxy o).normalizedParameters rt
      = (r.proxy o).normalizedParameters rt :=
    congrArg (normalize rt) hsel
  rw [Proxy.signatureBaseString, Proxy.signatureBaseString, hparams]
  rfl

/-- **Signing does not read `oauth_signature`**: a request signs the same before and after it is given
    one, unless the block is handed the request itself. -/
theorem sign_withSignature (rt : Runtime) (r : MockRequest) (v : Value) (o : SignatureOptions)
    {block : Option SecretBlock} (hb : ∀ lookup, block ≠ some (.request lookup)) :
    sign rt ((r.withSignature v).proxy o) o block = sign rt (r.proxy o) o block := by
  have hread : ∀ name, ascii name ≠ ascii "oauth_signature" →
      ((r.withSignature v).proxy o).oauthParameter name = (r.proxy o).oauthParameter name :=
    fun _ h => oauthParameter_withSignature r v o h
  have hsecrets : resolveSecrets ((r.withSignature v).proxy o) o block
      = resolveSecrets (r.proxy o) o block := by
    cases block with
    | none => rfl
    | some b =>
        cases b with
        | request lookup => exact absurd rfl (hb lookup)
        | credentials lookup =>
            simp only [resolveSecrets, SecretBlock.call, Proxy.oauthToken, Proxy.oauthConsumerKey,
              Proxy.oauthNonce, Proxy.oauthTimestamp]
            rw [hread "oauth_token" (by decide), hread "oauth_consumer_key" (by decide),
              hread "oauth_nonce" (by decide), hread "oauth_timestamp" (by decide)]
  exact sign_congr (hread _ (by decide)) rfl rfl hsecrets (signatureBaseString_withSignature rt r v o)

/-- **A request verifies exactly when its `oauth_signature` is what signing it gives**: for HMAC and
    plain text, whatever the method, URI, parameters and options, and whatever HMAC and Base64
    compute. -/
theorem verify_iff_sign (rt : Runtime) (r : MockRequest) (o : SignatureOptions)
    (block : Option SecretBlock) (s : Bytes) (v : Value) (m : Bytes)
    (hv : v = .str s ∨ v = .arr [.str s])
    (hmethod : (r.proxy o).oauthSignatureMethod = .ok (.str m))
    (hm : downcase m = ascii "hmac-sha1" ∨ downcase m = ascii "hmac-sha256" ∨
      downcase m = ascii "plaintext") :
    verify rt ((r.withSignature v).proxy o) o block = .ok true ↔
      sign rt ((r.withSignature v).proxy o) o block = .ok s := by
  have hmethod' : ((r.withSignature v).proxy o).oauthSignatureMethod = .ok (.str m) :=
    (oauthParameter_withSignature r v o (by decide)).trans hmethod
  refine verify_eq_sign (oauthSignature_withSignature r o hv) ?_
  intro name hname
  rw [eq_downcase_of_methodName hmethod' hname]
  rcases hm with h | h | h <;> rw [h] <;> decide

end MockRequest

/-- A plain-text signed request with an upper-case method name. -/
def plaintextRequest : MockRequest where
  method := ascii "GET"
  uri := ascii "http://example.com/"
  parameters := OrderedHash.ofList
    [(ascii "oauth_signature_method", .str (ascii "PLAINTEXT")), (ascii "size", .str (ascii "big"))]

theorem plaintextRequest_verify_iff :
    verify echoRuntime
        ((plaintextRequest.withSignature (.arr [.str (ascii "kd94&")])).proxy
          { consumerSecret := .str (ascii "kd94") })
        { consumerSecret := .str (ascii "kd94") } none = .ok true ↔
      sign echoRuntime
        ((plaintextRequest.withSignature (.arr [.str (ascii "kd94&")])).proxy
          { consumerSecret := .str (ascii "kd94") })
        { consumerSecret := .str (ascii "kd94") } none = .ok (ascii "kd94&") :=
  MockRequest.verify_iff_sign echoRuntime plaintextRequest { consumerSecret := .str (ascii "kd94") }
    none (ascii "kd94&") (.arr [.str (ascii "kd94&")]) (ascii "PLAINTEXT") (.inr rfl) rfl
    (by decide)

/-! ## Verifying without a consumer secret -/

/-- No consumer secret is resolved: neither a consumer nor `:consumer_secret` is given, and the block,
    if any, yields no array of two or one with a `nil` consumer secret. The token secret is `ts`. -/
def NoConsumerSecret (p : Proxy) (o : SignatureOptions) (block : Option SecretBlock)
    (ts : Secret) : Prop :=
  o.consumer = none ∧ o.consumerSecret = .nil ∧
    match block with
    | none => ts = o.givenTokenSecret
    | some b => ∃ result, b.call p = .ok result ∧
        (((∀ t c, result ≠ some [t, c]) ∧ ts = o.givenTokenSecret) ∨ result = some [ts, .nil])

theorem resolveSecrets_of_noConsumerSecret {p : Proxy} {o : SignatureOptions}
    {block : Option SecretBlock} {ts : Secret} (h : NoConsumerSecret p o block ts) :
    resolveSecrets p o block = .ok (ts, .nil) := by
  obtain ⟨hc, hcs, hb⟩ := h
  have hgiven : o.givenConsumerSecret = .nil := by
    rw [SignatureOptions.givenConsumerSecret, if_pos hcs, hc]
    rfl
  cases block with
  | none =>
      simp only at hb
      rw [resolveSecrets, hgiven, ← hb]
  | some b =>
      obtain ⟨result, hcall, hres⟩ := hb
      rw [resolveSecrets, hcall, Except.ok_bind]
      rcases hres with ⟨hne, rfl⟩ | rfl
      · split
        · next he => exact absurd rfl (hne _ _)
        · rw [hgiven]
      · rfl

/-- The signature that passes when only the token secret is in the key. -/
def EmptySecretSignature (rt : Runtime) (p : Proxy) (ts : Secret) (v : Value) :
    SignatureMethod → Prop
  | .plaintext => v.toS rt = ampersand :: escapeBytes ts.toS
  | .hmacSha1 => ∃ base, p.signatureBaseString rt = .ok base ∧
      v = .str (encodeDigest rt (rt.hmacSha1 (ampersand :: escapeBytes ts.toS) base))
  | .hmacSha256 => ∃ base, p.signatureBaseString rt = .ok base ∧
      v = .str (encodeDigest rt (rt.hmacSha256 (ampersand :: escapeBytes ts.toS) base))
  | .rsaSha1 => False

theorem equals_without_consumerSecret {rt : Runtime} {p : Proxy} {o : SignatureOptions}
    {m : SignatureMethod} (hm : m ≠ .rsaSha1) (ts : Secret) (v : Value) :
    Signature.equals rt ⟨m, p, o, .nil, ts⟩ v = .ok true ↔ EmptySecretSignature rt p ts v m := by
  rw [equals_keyed_iff hm]
  cases m <;> rfl

/-- **Without a consumer secret the empty one is used**: the request passes exactly with the signature
    made from an empty consumer secret and the resolved token secret. -/
theorem verify_without_consumerSecret_iff (rt : Runtime) (p : Proxy) (o : SignatureOptions)
    (block : Option SecretBlock) (ts : Secret) (name : Bytes) (m : SignatureMethod)
    (hname : p.oauthSignatureMethod = .ok (.str name))
    (hav : availableMethod (downcase name) = some m) (hm : m ≠ .rsaSha1)
    (h : NoConsumerSecret p o block ts) :
    verify rt p o block = .ok true ↔
      ∃ v, p.oauthSignature = .ok v ∧ EmptySecretSignature rt p ts v m := by
  have hbuild : build p o block = .ok ⟨m, p, o, .nil, ts⟩ :=
    build_eq_ok.2 ⟨_, m, _, methodName_of_str hname hav, hav, resolveSecrets_of_noConsumerSecret h, rfl⟩
  rw [verify, hbuild, Except.ok_bind, Signature.verify, Except.bind_eq_ok]
  exact exists_congr (fun v => and_congr_right (fun _ => equals_without_consumerSecret hm ts v))

/-- A lookup of secrets that fails. -/
def failedLookup : SecretBlock := .credentials (fun _ _ _ _ => .ok none)

theorem plaintextRequest_verify_failedLookup :
    verify echoRuntime ((plaintextRequest.withSignature (.str (ascii "&"))).proxy {}) {}
        (some failedLookup) = .ok true ↔
      ∃ v, ((plaintextRequest.withSignature (.str (ascii "&"))).proxy {}).oauthSignature = .ok v ∧
        EmptySecretSignature echoRuntime
          ((plaintextRequest.withSignature (.str (ascii "&"))).proxy {}) .nil v .plaintext :=
  verify_without_consumerSecret_iff echoRuntime _ {} (some failedLookup) .nil (ascii "PLAINTEXT")
    .plaintext rfl (by decide) (by decide)
    ⟨rfl, rfl, none, rfl, .inl ⟨fun _ _ h => by simp at h, rfl⟩⟩

/-- A failed lookup lets the signature `&` through. -/
theorem verify_passes_without_consumerSecret :
    NoConsumerSecret ((plaintextRequest.withSignature (.str (ascii "&"))).proxy {}) {}
        (some failedLookup) .nil ∧
      verify echoRuntime ((plaintextRequest.withSignature (.str (ascii "&"))).proxy {}) {}
        (some failedLookup) = .ok true :=
  ⟨⟨rfl, rfl, none, rfl, .inl ⟨fun _ _ h => by simp at h, rfl⟩⟩, by decide +kernel⟩

/-! ## Verifying with public material -/

/-- A certificate, as an object or as PEM text. -/
def Secret.IsCertificate : Secret → Prop
  | .certificate _ => True
  | .str s => hasCertificateMarker s = true
  | _ => False

/-- The request's signature passes RSA verification with the public key of the secret. -/
def RsaVerifies (rt : Runtime) (p : Proxy) (secret : Secret) : Prop :=
  ∃ base s, p.signatureBaseString rt = .ok base ∧ p.oauthSignature = .ok (.str s) ∧
    rt.rsaVerify secret.toS (rt.decode64 s) base = .ok true

theorem availableMethod_eq_rsaSha1 {name : Bytes} :
    availableMethod name = some .rsaSha1 ↔ name = ascii "rsa-sha1" := by
  unfold availableMethod
  constructor
  · intro h
    split_ifs at h with h1 h2 h3 h4
    · simp at h
    · simp at h
    · simp at h
    · exact h4
  · rintro rfl
    decide

/-- With a certificate there is no private key to fall back to. -/
theorem rsaMatches_certificate_iff {rt : Runtime} {p : Proxy} {o : SignatureOptions} {cs ts : Secret}
    (hcs : cs.IsCertificate) {decoded : Bytes} :
    Signature.rsaMatches rt ⟨.rsaSha1, p, o, cs, ts⟩ decoded = .ok true ↔
      ∃ base, p.signatureBaseString rt = .ok base ∧ rt.rsaVerify cs.toS decoded base = .ok true := by
  rw [Signature.rsaMatches, Except.bind_eq_ok]
  refine exists_congr fun base => and_congr_right fun _ => ?_
  cases cs with
  | nil => exact hcs.elim
  | rsaKey pem => exact hcs.elim
  | certificate pem =>
      simp only [Secret.toS]
      cases rt.rsaVerify pem decoded base with
      | ok b => rfl
      | error e => cases e <;> simp
  | str s =>
      have hmarker : hasCertificateMarker s = true := hcs
      simp only [Secret.toS]
      cases rt.rsaVerify s decoded base with
      | ok b => rfl
      | error e => cases e <;> simp [hmarker]

/-- **With a certificate as the consumer's secret** a request passes exactly where it names RSA and
    passes RSA verification, or names another method and has the signature that the text of the
    certificate makes as a shared secret. -/
theorem verify_certificate_iff (rt : Runtime) (p : Proxy) (c : Consumer) (token : Option Token)
    (hcs : c.secret.IsCertificate) :
    verify rt p { consumer := some c, token := token } = .ok true ↔
      (methodName p = .ok (ascii "rsa-sha1") ∧ RsaVerifies rt p c.secret) ∨
        ∃ name m v, methodName p = .ok name ∧ availableMethod name = some m ∧
          p.oauthSignature = .ok v ∧
          KeyedSignature rt p (escapeBytes c.secret.toS ++ ampersand ::
            escapeBytes ((token.map Token.secret).getD .nil).toS) v m := by
  have hsecrets : ∀ o : SignatureOptions, o = { consumer := some c, token := token } →
      resolveSecrets p o none = .ok ((token.map Token.secret).getD .nil, c.secret) := by
    rintro o rfl
    rfl
  generalize ho : ({ consumer := some c, token := token } : SignatureOptions) = o
  have hsecrets := hsecrets o ho.symm
  rw [verify, Except.bind_eq_ok]
  constructor
  · rintro ⟨sig, hsig, hv⟩
    obtain ⟨name, m, secrets, hname, hm, hsec, rfl⟩ := build_eq_ok.1 hsig
    obtain rfl := Except.ok.inj (hsecrets.symm.trans hsec)
    obtain ⟨v, hsigned, hv⟩ := Except.bind_eq_ok.1 hv
    by_cases hrsa : m = .rsaSha1
    · subst hrsa
      left
      refine ⟨hname.trans (congrArg Except.ok (availableMethod_eq_rsaSha1.1 hm)), ?_⟩
      cases v with
      | str s =>
          obtain ⟨base, hbase, hverify⟩ := (rsaMatches_certificate_iff hcs).1 hv
          exact ⟨base, s, hbase, hsigned, hverify⟩
      | _ => simp [Signature.equals] at hv
    · exact .inr ⟨name, m, v, hname, hm, hsigned, (equals_keyed_iff hrsa).1 hv⟩
  · rintro (⟨hname, base, s, hbase, hsigned, hverify⟩ | ⟨name, m, v, hname, hm, hsigned, hv⟩)
    · refine ⟨_, build_eq_ok.2 ⟨_, .rsaSha1, _, hname, by decide, hsecrets, rfl⟩, ?_⟩
      rw [Signature.verify, hsigned, Except.ok_bind]
      exact (rsaMatches_certificate_iff hcs).2 ⟨base, hbase, hverify⟩
    · have hrsa : m ≠ .rsaSha1 := by
        rintro rfl
        exact hv
      refine ⟨_, build_eq_ok.2 ⟨_, m, _, hname, hm, hsecrets, rfl⟩, ?_⟩
      rw [Signature.verify, hsigned, Except.ok_bind]
      exact (equals_keyed_iff hrsa).2 hv

/-- A consumer known by its certificate. -/
def certificateConsumer : Consumer where
  key := ascii "key"
  secret := .str (ascii "-----BEGIN CERTIFICATE-----MII")

/-- The request says `PLAINTEXT` and carries the certificate as it would a secret. -/
def confusedRequest : MockRequest :=
  plaintextRequest.withSignature
    (.str (escapeBytes (ascii "-----BEGIN CERTIFICATE-----MII") ++ [ampersand]))

def certificateProxy : Proxy := confusedRequest.proxy { consumer := some certificateConsumer }

theorem certificateProxy_verify_iff :
    verify echoRuntime certificateProxy
        { consumer := some certificateConsumer, token := none } = .ok true ↔
      (methodName certificateProxy = .ok (ascii "rsa-sha1") ∧
          RsaVerifies echoRuntime certificateProxy certificateConsumer.secret) ∨
        ∃ name m v, methodName certificateProxy = .ok name ∧
          availableMethod name = some m ∧ certificateProxy.oauthSignature = .ok v ∧
          KeyedSignature echoRuntime certificateProxy
            (escapeBytes certificateConsumer.secret.toS ++ ampersand ::
              escapeBytes (((none : Option Token).map Token.secret).getD .nil).toS) v m :=
  verify_certificate_iff echoRuntime certificateProxy certificateConsumer none
    (show hasCertificateMarker (ascii "-----BEGIN CERTIFICATE-----MII") = true by decide +kernel)

/-- It passes without passing RSA verification. -/
theorem certificateProxy_passes :
    certificateConsumer.secret.IsCertificate ∧
      verify echoRuntime certificateProxy
        { consumer := some certificateConsumer, token := none } = .ok true ∧
      ¬ RsaVerifies echoRuntime certificateProxy certificateConsumer.secret := by
  refine ⟨show hasCertificateMarker (ascii "-----BEGIN CERTIFICATE-----MII") = true by decide +kernel,
    by decide +kernel, ?_⟩
  rintro ⟨base, s, -, -, h⟩
  exact absurd h (by simp [echoRuntime])

end RubyOAuth
