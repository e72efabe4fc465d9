import RubyOAuth.Proofs.RackCoverage
import RubyOAuth.Proofs.Verify

set_option autoImplicit false

/-! # How verification ends

Verifying a Rack request answers, or raises `UnknownSignatureMethod` or `OAuth::Problem`, exactly where
the method it names can be read, and where that method needs a base string and a signature, these can be
read too. Everything else is an exception of Ruby's own or of OpenSSL. -/

namespace RubyOAuth

open Bytes

/-! ## Documented outcomes -/

/-- The exceptions the library defines for a request that cannot be verified. -/
def RubyError.documented : RubyError → Bool
  | .unknownSignatureMethod _ => true
  | .problem _ => true
  | .reportedProblem _ => true
  | _ => false

/-- A result, or a documented exception. -/
def Documented {α : Type} (x : Except RubyError α) : Prop :=
  ∀ e, x = .error e → e.documented = true

section

variable {α β : Type}

@[simp] theorem documented_ok (a : α) : Documented (.ok a : Except RubyError α) := by
  intro e h
  simp at h

@[simp] theorem documented_error {e : RubyError} :
    Documented (.error e : Except RubyError α) ↔ e.documented = true := by
  constructor
  · intro h
    exact h e rfl
  · intro h e' he
    rw [← Except.error.inj he]
    exact h

theorem documented_bind {x : Except RubyError α} {f : α → Except RubyError β} :
    Documented (x >>= f) ↔ Documented x ∧ ∀ a, x = .ok a → Documented (f a) := by
  cases x with
  | error e => simp
  | ok a => simp

/-- Where nothing documented is raised, a documented outcome is a result. -/
theorem documented_iff_ok {x : Except RubyError α}
    (h : ∀ e, x = .error e → e.documented = false) : Documented x ↔ ∃ a, x = .ok a := by
  cases x with
  | error e => simp [h e rfl]
  | ok a => simp

end

/-! ## What each part raises -/

theorem undocumented_normalizeUri {s : Bytes} {e : RubyError} (he : normalizeUri s = .error e) :
    e.documented = false := by
  rcases Except.bind_eq_error.1 he with h | ⟨u, -, h⟩
  · rw [parseUri] at h
    split at h
    · simp at h
    · rw [← Except.error.inj h]
      rfl
  · rw [normalizeParsedUri] at h
    split at h
    · simp at h
    · rw [← Except.error.inj h]
      rfl

theorem undocumented_normalize {rt : Runtime} {params : Params} {e : RubyError}
    (he : normalize rt params = .error e) : e.documented = false := by
  rw [error_of_normalize he]
  rfl

/-- A header that was found begins with `OAuth `, so it can only be badly formed. -/
theorem RackRequest.documented_headerParams (r : RackRequest) : Documented r.headerParams := by
  intro e he
  rw [headerParams] at he
  cases hh : r.oauthHeader with
  | none => simp [hh] at he
  | some header =>
      simp only [hh] at he
      rcases Except.bind_eq_error.1 he with h | ⟨params, -, h⟩
      · have hstart : header.take 6 = ascii "OAuth " := by
          rw [oauthHeader] at hh
          simpa using List.find?_some hh
        have hlen : ¬ header.length < 6 := by
          have hl := congrArg List.length hstart
          rw [List.length_take, show (ascii "OAuth ").length = 6 from rfl] at hl
          omega
        rw [parseHeader, if_neg hlen] at h
        simp only at h
        split at h
        · rw [← Except.error.inj h]
          rfl
        · simp at h
      · simp at h

/-! ## The condition -/

/-- The value that an accessor reads. -/
def accessed (params : Params) (name : String) : Value :=
  firstOf ((params.lookup (ascii name)).getD .nil)

/-- The method a request names, else its consumer, in a text that is valid in its encoding. -/
def namedMethod (p : Proxy) (c : Consumer) : Value → Option Bytes
  | .str s => if p.validText (ascii "oauth_signature_method") s then some (downcase s) else none
  | .nil | .bool false =>
    let name := c.options.signatureMethod.getD []
    if validUtf8 name then some (downcase name) else none
  | _ => none

/-- The text of a signature; a missing one is empty. -/
def signatureText : Value → Option Bytes
  | .str s => some s
  | .nil | .bool false => some []
  | _ => none

/-- URI and parameters have a normal form: the URL is absolute, and no array that is signed mixes
    elements that do not compare. -/
def FormsBase (url : Bytes) (params : Params) : Prop :=
  (∃ u, parseUri url = .ok u ∧ u.scheme.isSome = true ∧ u.host.isSome = true) ∧
    ∀ k v, k ≠ ascii "oauth_signature" → params.lookup k = some v → sortable v = true

/-- The private key that the secret may be. -/
def fallbackKey : Secret → Option Bytes
  | .str s => if hasCertificateMarker s then none else some s
  | .rsaKey pem => some pem
  | _ => none

/-- OpenSSL decides whether the signature is one with this key: it verifies, or it cannot verify and
    signs with the private key. -/
def RsaDecides (rt : Runtime) (secret : Secret) (decoded base : Bytes) : Prop :=
  secret ≠ .nil ∧
    ((∃ b, rt.rsaVerify secret.toS decoded base = .ok b) ∨
      rt.rsaVerify secret.toS decoded base = .error .pkeyError ∧
        ∃ key s, fallbackKey secret = some key ∧ rt.rsaSign key base = .ok s)

/-- What the method needs of the request can be read. -/
def MethodReads (rt : Runtime) (p : Proxy) (params : Params) (secret : Secret) :
    SignatureMethod → Prop
  | .plaintext => True
  | m => FormsBase p.uri params ∧
      ∃ s, signatureText (accessed params "oauth_signature") = some s ∧
        (m = .rsaSha1 → ∃ base, p.signatureBaseString rt = .ok base ∧
          RsaDecides rt secret (rt.decode64 s) base)

/-- The request can be verified, or names an unknown method. -/
def Answerable (rt : Runtime) (p : Proxy) (params : Params) (c : Consumer) : Prop :=
  ∃ name, namedMethod p c (accessed params "oauth_signature_method") = some name ∧
    ∀ m, availableMethod name = some m → MethodReads rt p params c.secret m

/-! ## The parts of a verification -/

section

variable {rt : Runtime} {p : Proxy} {params : Params}

theorem oauthParameter_eq (hp : p.parameters = .ok params) (name : String) :
    p.oauthParameter name = .ok (accessed params name) := by
  rw [Proxy.oauthParameter, hp, Except.ok_bind, accessed]

theorem downcaseText_eq (valid : Bool) (s : Bytes) :
    downcaseText valid s =
      ((if valid then some (downcase s) else none).map .ok).getD (.error .argumentError) := by
  cases valid <;> rfl

/-- What is raised where no method can be read is not documented. -/
theorem methodName_eq (hp : p.parameters = .ok params) {c : Consumer} (hc : p.consumer = some c) :
    ∃ e : RubyError, e.documented = false ∧
      methodName p = ((namedMethod p c (accessed params "oauth_signature_method")).map .ok).getD
        (.error e) := by
  rw [methodName, Proxy.oauthSignatureMethod, oauthParameter_eq hp, Except.ok_bind, hc]
  cases accessed params "oauth_signature_method" with
  | nil => exact ⟨.argumentError, rfl, downcaseText_eq _ _⟩
  | str s => exact ⟨.argumentError, rfl, downcaseText_eq _ _⟩
  | bool b =>
      cases b with
      | false => exact ⟨.argumentError, rfl, downcaseText_eq _ _⟩
      | true => exact ⟨.noMethodError, rfl, rfl⟩
  | arr vs => exact ⟨.noMethodError, rfl, rfl⟩
  | hash es => exact ⟨.noMethodError, rfl, rfl⟩

theorem oauthSignature_eq (hp : p.parameters = .ok params) :
    ∃ v, p.oauthSignature = .ok v ∧
      ∀ s, v = .str s ↔ signatureText (accessed params "oauth_signature") = some s := by
  rw [Proxy.oauthSignature, oauthParameter_eq hp, Except.ok_bind]
  cases accessed params "oauth_signature" with
  | nil => exact ⟨.str [], rfl, fun s => by simp [signatureText]⟩
  | bool b =>
      cases b with
      | false => exact ⟨.str [], rfl, fun s => by simp [signatureText]⟩
      | true => exact ⟨.bool true, rfl, fun s => by simp [signatureText]⟩
  | str s => exact ⟨.str s, rfl, fun t => by simp [signatureText]⟩
  | arr vs => exact ⟨.arr vs, rfl, fun s => by simp [signatureText]⟩
  | hash es => exact ⟨.hash es, rfl, fun s => by simp [signatureText]⟩

/-- The base string is formed, or what is raised is not documented. -/
theorem documented_signatureBaseString_iff (rt : Runtime) (hp : p.parameters = .ok params)
    (huri : p.normalizedUri = normalizeUri p.uri)
    (hsigned : ∀ k, p.isSigned k = true ↔ k ≠ ascii "oauth_signature") :
    (Documented (p.signatureBaseString rt) ↔ FormsBase p.uri params) ∧
      ((∃ base, p.signatureBaseString rt = .ok base) ↔ FormsBase p.uri params) := by
  have hnormalized : p.normalizedParameters rt = normalize rt (params.select p.isSigned) := by
    rw [Proxy.normalizedParameters, Proxy.parametersForSignature, hp, Except.ok_bind, Except.ok_bind]
  have hsortable : (∃ n, normalize rt (params.select p.isSigned) = .ok n) ↔
      ∀ k v, k ≠ ascii "oauth_signature" → params.lookup k = some v → sortable v = true := by
    rw [normalize_isOk_iff]
    refine forall_congr' fun k => forall_congr' fun v => ?_
    rw [OrderedHash.lookup_select]
    by_cases hk : p.isSigned k = true
    · rw [if_pos hk]
      simp [(hsigned k).1 hk]
    · have hkeq : k = ascii "oauth_signature" := by
        by_contra hne
        exact hk ((hsigned k).2 hne)
      rw [if_neg hk]
      simp [hkeq]
  have hok : (∃ base, p.signatureBaseString rt = .ok base) ↔ FormsBase p.uri params := by
    unfold FormsBase
    rw [← normalizeUri_isOk_iff, ← hsortable, Proxy.signatureBaseString, huri, hnormalized]
    constructor
    · rintro ⟨base, h⟩
      obtain ⟨t, ht, h⟩ := Except.bind_eq_ok.1 h
      obtain ⟨n, hn, -⟩ := Except.bind_eq_ok.1 h
      exact ⟨⟨t, ht⟩, n, hn⟩
    · rintro ⟨⟨t, ht⟩, n, hn⟩
      rw [ht, hn]
      exact ⟨_, rfl⟩
  refine ⟨?_, hok⟩
  rw [← hok]
  refine documented_iff_ok fun e he => ?_
  rw [Proxy.signatureBaseString, huri, hnormalized] at he
  rcases Except.bind_eq_error.1 he with h | ⟨t, -, h⟩
  · exact undocumented_normalizeUri h
  · rcases Except.bind_eq_error.1 h with h | ⟨n, -, h⟩
    · exact undocumented_normalize h
    · simp at h

/-- An HMAC method answers where there are a base string and a signature to compare. -/
theorem documented_equals_hmac_iff {m : SignatureMethod} (hm : m = .hmacSha1 ∨ m = .hmacSha256)
    {o : SignatureOptions} {cs ts : Secret} {v : Value} :
    Documented (Signature.equals rt ⟨m, p, o, cs, ts⟩ v) ↔
      Documented (p.signatureBaseString rt) ∧
        ((∃ base, p.signatureBaseString rt = .ok base) → ∃ s, v = .str s) := by
  have hsign : ∃ f : Bytes → Bytes, Signature.signature rt ⟨m, p, o, cs, ts⟩
      = p.signatureBaseString rt >>= fun base => .ok (f base) := by
    rcases hm with rfl | rfl
    · refine ⟨fun base => encodeDigest rt
        (rt.hmacSha1 (Signature.secret ⟨.hmacSha1, p, o, cs, ts⟩) base), ?_⟩
      simp only [Signature.signature, Signature.digest, Signature.signatureBaseString]
      cases p.signatureBaseString rt <;> rfl
    · refine ⟨fun base => encodeDigest rt
        (rt.hmacSha256 (Signature.secret ⟨.hmacSha256, p, o, cs, ts⟩) base), ?_⟩
      simp only [Signature.signature, Signature.digest, Signature.signatureBaseString]
      cases p.signatureBaseString rt <;> rfl
  have hequals : Signature.equals rt ⟨m, p, o, cs, ts⟩ v
      = Signature.signature rt ⟨m, p, o, cs, ts⟩ >>= matchesText v := by
    rcases hm with rfl | rfl <;> exact equals_eq_matchesText (by simp) (by simp) v
  obtain ⟨f, hf⟩ := hsign
  rw [hequals, hf]
  cases p.signatureBaseString rt with
  | error e => simp
  | ok base => cases v <;> simp [matchesText, RubyError.documented]

/-- RSA answers where there is a base string and OpenSSL decides. -/
theorem documented_rsaMatches_iff
    (hverify : ∀ key d b e, rt.rsaVerify key d b = .error e → e.documented = false)
    (hsign : ∀ key b e, rt.rsaSign key b = .error e → e.documented = false)
    {o : SignatureOptions} {cs ts : Secret} {decoded : Bytes} :
    Documented (Signature.rsaMatches rt ⟨.rsaSha1, p, o, cs, ts⟩ decoded) ↔
      Documented (p.signatureBaseString rt) ∧
        ∀ base, p.signatureBaseString rt = .ok base → RsaDecides rt cs decoded base := by
  have hbase : Signature.signatureBaseString rt ⟨.rsaSha1, p, o, cs, ts⟩
      = p.signatureBaseString rt := rfl
  rw [Signature.rsaMatches, hbase, documented_bind]
  refine and_congr_right fun _ => forall_congr' fun base => imp_congr_right fun _ => ?_
  have hfallback : ∀ key : Bytes, Documented ((rt.rsaSign key base) >>= fun s =>
      (.ok (s == decoded) : Except RubyError Bool)) ↔ ∃ s, rt.rsaSign key base = .ok s := by
    intro key
    cases hk : rt.rsaSign key base with
    | error e => simp [hsign key base e hk]
    | ok s => simp
  -- any other error of OpenSSL is raised
  have hundecided : ∀ {e : RubyError}, rt.rsaVerify cs.toS decoded base = .error e →
      e ≠ .pkeyError → ¬ RsaDecides rt cs decoded base := by
    rintro e hv hne ⟨-, ⟨b, hb⟩ | ⟨hpkey, -⟩⟩
    · rw [hv] at hb
      cases hb
    · rw [hv] at hpkey
      exact hne (Except.error.inj hpkey)
  cases cs with
  | nil => simp [RsaDecides, RubyError.documented]
  | certificate pem =>
      simp only [Secret.toS] at hundecided ⊢
      cases hv : rt.rsaVerify pem decoded base with
      | ok b => simp [RsaDecides, Secret.toS, hv]
      | error e =>
          have hd := hverify pem decoded base e hv
          by_cases hpkey : e = .pkeyError
          · subst hpkey
            simp [RsaDecides, Secret.toS, hv, fallbackKey, RubyError.documented]
          · refine iff_of_false ?_ (hundecided hv hpkey)
            cases e with
            | pkeyError => exact absurd rfl hpkey
            | _ => exact fun h => Bool.false_ne_true (hd.symm.trans (h _ rfl))
  | str s =>
      simp only [Secret.toS] at hundecided ⊢
      cases hv : rt.rsaVerify s decoded base with
      | ok b => simp [RsaDecides, Secret.toS, hv]
      | error e =>
          have hd := hverify s decoded base e hv
          by_cases hpkey : e = .pkeyError
          · subst hpkey
            by_cases hmarker : hasCertificateMarker s = true
            · simp [RsaDecides, Secret.toS, hv, hmarker, fallbackKey, RubyError.documented]
            · simp [RsaDecides, Secret.toS, hv, hmarker, fallbackKey, hfallback]
          · refine iff_of_false ?_ (hundecided hv hpkey)
            cases e with
            | pkeyError => exact absurd rfl hpkey
            | _ => exact fun h => Bool.false_ne_true (hd.symm.trans (h _ rfl))
  | rsaKey pem =>
      simp only [Secret.toS] at hundecided ⊢
      cases hv : rt.rsaVerify pem decoded base with
      | ok b => simp [RsaDecides, Secret.toS, hv]
      | error e =>
          have hd := hverify pem decoded base e hv
          by_cases hpkey : e = .pkeyError
          · subst hpkey
            simp [RsaDecides, Secret.toS, hv, fallbackKey, hfallback]
          · refine iff_of_false ?_ (hundecided hv hpkey)
            cases e with
            | pkeyError => exact absurd rfl hpkey
            | _ => exact fun h => Bool.false_ne_true (hd.symm.trans (h _ rfl))

/-! ## How verification ends -/

/-- A verification with readable parameters. -/
theorem documented_verify_of_parameters
    (hverify : ∀ key d b e, rt.rsaVerify key d b = .error e → e.documented = false)
    (hsign : ∀ key b e, rt.rsaSign key b = .error e → e.documented = false)
    (hp : p.parameters = .ok params) {c : Consumer} (hc : p.consumer = some c)
    (huri : p.normalizedUri = normalizeUri p.uri)
    (hsigned : ∀ k, p.isSigned k = true ↔ k ≠ ascii "oauth_signature") (token : Option Token) :
    Documented (verify rt p { consumer := some c, token := token }) ↔
      Answerable rt p params c := by
  generalize ho : ({ consumer := some c, token := token } : SignatureOptions) = o
  have hsecrets : resolveSecrets p o none = .ok ((token.map Token.secret).getD .nil, c.secret) := by
    rw [← ho]
    rfl
  obtain ⟨hbaseDoc, hbaseOk⟩ := documented_signatureBaseString_iff rt hp huri hsigned
  obtain ⟨v, hv, hvs⟩ := oauthSignature_eq hp
  obtain ⟨e, he, hname⟩ := methodName_eq hp hc
  unfold Answerable
  cases hn : namedMethod p c (accessed params "oauth_signature_method") with
  | none =>
      -- the method is no string, or not a valid one
      rw [hn, Option.map_none, Option.getD_none] at hname
      simp [verify, build, hname, he]
  | some name =>
      rw [hn, Option.map_some, Option.getD_some] at hname
      simp only [Option.some.injEq, exists_eq_left']
      cases hm : availableMethod name with
      | none =>
          have hunknown : ∃ n, build p o none = .error (.unknownSignatureMethod n) := by
            rw [build, hname, Except.ok_bind, hm, Proxy.oauthSignatureMethod, oauthParameter_eq hp,
              Except.ok_bind]
            cases accessed params "oauth_signature_method" with
            | str s => exact ⟨some s, rfl⟩
            | _ => exact ⟨none, rfl⟩
          obtain ⟨n, hbuild⟩ := hunknown
          simp [verify, hbuild, RubyError.documented]
      | some m =>
          have hbuild : build p o none = .ok ⟨m, p, o, c.secret, (token.map Token.secret).getD .nil⟩ :=
            build_eq_ok.2 ⟨name, m, _, hname, hm, hsecrets, rfl⟩
          simp only [Option.some.injEq, forall_eq']
          rw [verify, hbuild, Except.ok_bind, Signature.verify, hv, Except.ok_bind]
          cases m with
          | plaintext => simp [Signature.equals, Signature.signature, Signature.signatureBaseString,
              MethodReads]
          | hmacSha1 =>
              rw [documented_equals_hmac_iff (.inl rfl), hbaseDoc, hbaseOk]
              simp only [MethodReads, hvs, reduceCtorEq, false_imp_iff, and_true]
              exact and_congr_right fun hforms => forall_prop_of_true hforms
          | hmacSha256 =>
              rw [documented_equals_hmac_iff (.inr rfl), hbaseDoc, hbaseOk]
              simp only [MethodReads, hvs, reduceCtorEq, false_imp_iff, and_true]
              exact and_congr_right fun hforms => forall_prop_of_true hforms
          | rsaSha1 =>
              simp only [MethodReads, forall_const]
              by_cases hstr : ∃ s, v = .str s
              · obtain ⟨s, rfl⟩ := hstr
                have htext := (hvs s).1 rfl
                rw [htext]
                simp only [Option.some.injEq, exists_eq_left']
                show Documented (Signature.rsaMatches rt _ (rt.decode64 s)) ↔ _
                rw [documented_rsaMatches_iff hverify hsign, hbaseDoc]
                refine and_congr_right fun hforms => ?_
                obtain ⟨base, hbase⟩ := hbaseOk.2 hforms
                simp [hbase]
              · have hnone : ∀ s, signatureText (accessed params "oauth_signature") ≠ some s :=
                  fun s hs => hstr ⟨s, (hvs s).2 hs⟩
                have herror : Signature.equals rt ⟨.rsaSha1, p, o, c.secret,
                    (token.map Token.secret).getD .nil⟩ v = .error .noMethodError := by
                  cases v with
                  | str s => exact absurd ⟨s, rfl⟩ hstr
                  | _ => rfl
                rw [herror]
                simp [hnone, RubyError.documented]

end

/-- **Verifying a Rack request ends as documented exactly where its header is badly formed or the merged
    parameters are answerable.** -/
theorem RackRequest.documented_verify_iff (rt : Runtime)
    (hverify : ∀ key d b e, rt.rsaVerify key d b = .error e → e.documented = false)
    (hsign : ∀ key b e, rt.rsaSign key b = .error e → e.documented = false)
    (r : RackRequest) (c : Consumer) (token : Option Token) (G P : Params) (hget : r.get = .ok G)
    (hpost : r.post = .ok P) :
    Documented (verify rt (r.proxy { consumer := some c, token := token })
        { consumer := some c, token := token }) ↔
      ∀ params, r.parameters { consumer := some c, token := token } = .ok params →
        Answerable rt (r.proxy { consumer := some c, token := token }) params c := by
  cases hp : r.parameters { consumer := some c, token := token } with
  | ok params =>
      have hsigned : ∀ k, (r.proxy { consumer := some c, token := token }).isSigned k = true ↔
          k ≠ ascii "oauth_signature" := by
        intro k
        simp [Proxy.isSigned, Proxy.signatureAndUnsignedParameters, proxy]
      rw [documented_verify_of_parameters hverify hsign hp rfl rfl hsigned token]
      simp
  | error e =>
      -- only the header can be unreadable
      have hdoc : e.documented = true := by
        rw [parameters, if_neg Bool.false_ne_true] at hp
        rcases Except.bind_eq_error.1 hp with h | ⟨_, -, hp⟩
        · rw [requestParams, hpost] at h
          split at h <;> simp at h
        · rcases Except.bind_eq_error.1 hp with h | ⟨_, -, hp⟩
          · simp [queryParams, hget] at h
          · rcases Except.bind_eq_error.1 hp with h | ⟨_, -, hp⟩
            · exact r.documented_headerParams e h
            · simp at hp
      have hproxy : (r.proxy { consumer := some c, token := token }).parameters = .error e := hp
      have hend : verify rt (r.proxy { consumer := some c, token := token })
          { consumer := some c, token := token } = .error e := by
        rw [verify, build, methodName, Proxy.oauthSignatureMethod, Proxy.oauthParameter, hproxy]
        rfl
      rw [hend, documented_error]
      simp [hdoc]

/-- `oauth_signature_method[x]=1`. -/
def nestedMethodRequest : RackRequest where
  requestMethod := ascii "GET"
  url := ascii "http://example.com/?oauth_signature_method[x]=1"
  env := OrderedHash.empty
  contentType := none
  get := .ok (OrderedHash.ofList
    [(ascii "oauth_signature_method", .hash [(ascii "x", .str (ascii "1"))])])
  post := .ok OrderedHash.empty

def keyConsumer : Consumer := { key := ascii "key", secret := .str (ascii "secret") }

theorem shadowedRequest_documented_verify :
    Documented (verify echoRuntime
        (shadowedRequest.proxy { consumer := some keyConsumer, token := none })
        { consumer := some keyConsumer, token := none }) ↔
      ∀ params, shadowedRequest.parameters { consumer := some keyConsumer, token := none }
          = .ok params →
        Answerable echoRuntime
          (shadowedRequest.proxy { consumer := some keyConsumer, token := none }) params
          keyConsumer :=
  RackRequest.documented_verify_iff echoRuntime
    (fun _ _ _ _ h => by rw [← Except.error.inj h]; rfl)
    (fun _ _ _ h => by rw [← Except.error.inj h]; rfl) shadowedRequest keyConsumer none _ _ rfl rfl

/-- A method that is a hash has no `downcase`. -/
theorem nestedMethodRequest_undocumented :
    ¬ Documented (verify echoRuntime
        (nestedMethodRequest.proxy { consumer := some keyConsumer, token := none })
        { consumer := some keyConsumer, token := none }) := by
  intro h
  have hend : verify echoRuntime
      (nestedMethodRequest.proxy { consumer := some keyConsumer, token := none })
      { consumer := some keyConsumer, token := none } = .error .noMethodError := rfl
  exact absurd (h _ hend) (by decide)

end RubyOAuth
