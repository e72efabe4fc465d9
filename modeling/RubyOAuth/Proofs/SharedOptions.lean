import RubyOAuth.Model.SharedOptions
import RubyOAuth.Proofs.BodyHash

set_option autoImplicit false

/-! # Requests that share their options

What the first helper writes into the hash the next one finds: its nonce, and the hash of its body. A
header is the request's own only where nothing of another request is found. -/

namespace RubyOAuth

open Bytes

variable {rt : Runtime}

/-! ## Reading a header -/

/-- The item of the realm. -/
def realmItem (realm : Option Bytes) : Bytes :=
  match realm with
  | some realm => ascii "realm=\"" ++ realm ++ ascii "\", "
  | none => []

/-- The parameters that a header has after its realm. -/
def headerParameters (realm : Option Bytes) (text : Bytes) :
    Except RubyError (OrderedHash Bytes Bytes) :=
  parseHeader (ascii "OAuth " ++ text.drop (6 + (realmItem realm).length))

/-- What is read are the OAuth parameters, out of their quotes. -/
theorem headerParameters_of_header {h : ClientHelper} {text : Bytes} (htext : h.header rt = .ok text) :
    ∃ params, headerParameters h.options.realm text = .ok params ∧
      ∀ k, k ≠ ascii "oauth_signature" → params.lookup k
        = (h.oauthParameters.lookup k).map (fun v => stripQuotes (quoted (v.toS rt))) := by
  rw [ClientHelper.header, Except.bind_eq_ok] at htext
  obtain ⟨signature, -, htext⟩ := htext
  obtain ⟨params, hparse, hlook⟩ := ClientHelper.parseHeader_sortedEntries rt
    (h.plainName_of_lookup_signed signature)
  refine ⟨params, ?_, fun k hk => ?_⟩
  · have hprefix : text = ascii "OAuth " ++ realmItem h.options.realm ++
        ClientHelper.separator.intercalate ((h.oauthParameters.set (ascii "oauth_signature")
          (.str signature)).sortedEntries.map (ClientHelper.headerField rt)) :=
      (Except.ok.inj htext).symm
    have hlen : 6 + (realmItem h.options.realm).length
        = (ascii "OAuth " ++ realmItem h.options.realm).length := by
      rw [List.length_append]
      rfl
    rw [headerParameters, hprefix, hlen, List.drop_left, hparse]
  · rw [hlook, OrderedHash.lookup_set, if_neg hk]

/-! ## One request -/

namespace SharedHash

/-- The header's nonce was generated for the request, and it has a body hash only where `hash_body` was
    called for the request, with the digest of its body. -/
def HeaderIsOwn (rt : Runtime) (realm : Option Bytes) (call : HelperCall) (text : Bytes) : Prop :=
  ∃ params, headerParameters realm text = .ok params ∧
    params.lookup (ascii "oauth_nonce") = some call.generated.nonce ∧
    ∀ v, params.lookup (ascii "oauth_body_hash") = some v →
      call.hashesBody = true ∧ ∃ m, v = (hashText rt m (call.request.body.getD [])).getD []

/-- The hash has no nonce but the request's own, and where `hash_body` is not called for it, nothing
    that is sent as a body hash. -/
def FindsNothing (o : RequestOptions) (call : HelperCall) : Prop :=
  (∀ n ∈ o.nonce, n = call.generated.nonce) ∧
    (call.hashesBody = false →
      ¬ (o.bodyHash.getD [] ≠ [] ∨ ClientHelper.allowsEmptyHash o = true))

/-- What is kept of the hash: a nonce in it is one that was generated. -/
def KeepsNonce (realm : Option Bytes) (o : RequestOptions) : Prop :=
  o.realm = realm ∧ ∀ n ∈ o.nonce, n ≠ [] ∧ newline ∉ n

variable {hash : SharedHash} {o : RequestOptions} {call : HelperCall} {realm : Option Bytes}

theorem hashText_of_hashBody {h h' : ClientHelper} (hb : h.hashBody rt = .ok h') :
    ∃ m, h' = { h with options :=
      { h.options with bodyHash := hashText rt m (h.request.body.getD []) } } := by
  rw [ClientHelper.hashBody, Except.bind_eq_ok] at hb
  obtain ⟨digest, hdigest, hb⟩ := hb
  rw [RubyOAuth.bodyHash, Except.bind_eq_ok] at hdigest
  obtain ⟨sig, hsig, hdigest⟩ := hdigest
  obtain ⟨_, m, _, -, -, -, rfl⟩ := build_eq_ok.1 hsig
  rw [bodyHash_proxy] at hdigest
  exact ⟨m, by rw [← Except.ok.inj hb, Except.ok.inj hdigest]⟩

/-- What signing a request does: nonce and timestamp are kept, then the hash of the body, where one is
    made; the header is that of the helper over what is then in the hash. -/
theorem sign_cases (rt : Runtime) (hash : SharedHash) (o : RequestOptions) (call : HelperCall) :
    (∃ e, sign rt hash o call = (memoize (construct o) call.generated, [(call, .error e)])) ∨
      ∃ digest, (call.hashesBody = false → digest = o.bodyHash) ∧
        (call.hashesBody = true → ∃ m, digest = hashText rt m (call.request.body.getD [])) ∧
        sign rt hash o call
          = ({ memoize (construct o) call.generated with bodyHash := digest },
            [(call, (hash.helper { memoize (construct o) call.generated with bodyHash := digest }
              call).header rt)]) := by
  rw [sign]
  cases hcall : call.hashesBody with
  | false => exact Or.inr ⟨o.bodyHash, fun _ => rfl, fun h => absurd h (by simp), rfl⟩
  | true =>
      cases hbody : (hash.helper (memoize (construct o) call.generated) call).hashBody rt with
      | error e => exact Or.inl ⟨e, rfl⟩
      | ok hashed =>
          obtain ⟨m, rfl⟩ := hashText_of_hashBody hbody
          exact Or.inr ⟨_, fun h => absurd h (by simp), fun _ => ⟨m, rfl⟩, rfl⟩

theorem newline_not_mem_nonce (call : HelperCall) : newline ∉ call.generated.nonce := by
  intro h
  exact absurd (call.nonce_word newline h) (by decide)

/-- The nonce that stays is one that was generated. -/
theorem keepsNonce_sign (h : KeepsNonce realm o) : KeepsNonce realm (sign rt hash o call).1 := by
  have hmemoize : ∀ n ∈ (memoize (construct o) call.generated).nonce, n ≠ [] ∧ newline ∉ n := by
    intro n hn
    obtain rfl : o.nonce.getD call.generated.nonce = n := Option.some.inj hn
    cases hstored : o.nonce with
    | none => exact ⟨call.nonce_ne, newline_not_mem_nonce call⟩
    | some n => exact h.2 n hstored
  rcases sign_cases rt hash o call with ⟨e, heq⟩ | ⟨digest, -, -, heq⟩
  · rw [heq]
    exact ⟨h.1, hmemoize⟩
  · rw [heq]
    exact ⟨h.1, hmemoize⟩

theorem lookup_oauthNonce {h : ClientHelper} (hne : h.nonce ≠ []) :
    h.oauthParameters.lookup (ascii "oauth_nonce") = some (.str h.nonce) := by
  refine ClientHelper.lookup_oauthParameters.2 ⟨(ascii "oauth_nonce", some h.nonce), ?_, ?_, rfl, rfl⟩
  · simp [ClientHelper.candidateParameters]
  · rw [ClientHelper.keeps, Option.getD_some, bne_iff_ne.2 hne, Bool.true_or]

/-- **A header is the request's own exactly where the hash has nothing of another request.** -/
theorem headerIsOwn_iff (hk : KeepsNonce realm o) {text : Bytes}
    (hmade : (call, .ok text) ∈ (sign rt hash o call).2) :
    HeaderIsOwn rt realm call text ↔ FindsNothing o call := by
  rcases sign_cases rt hash o call with ⟨e, heq⟩ | ⟨digest, hsame, hown, heq⟩
  · rw [heq] at hmade
    simp at hmade
  · rw [heq, List.mem_singleton, Prod.mk.injEq] at hmade
    generalize hh : hash.helper { memoize (construct o) call.generated with bodyHash := digest } call = h
      at hmade
    have hnonce : h.nonce = o.nonce.getD call.generated.nonce := by
      rw [← hh]
      rfl
    have hdigest : h.options.bodyHash = digest := by
      rw [← hh]
      rfl
    have hallows : ClientHelper.allowsEmptyHash h.options = ClientHelper.allowsEmptyHash o := by
      rw [← hh]
      rfl
    have hrealm : h.options.realm = realm := by
      rw [← hk.1, ← hh]
      rfl
    obtain ⟨params, hparams, hlook⟩ := headerParameters_of_header hmade.2.symm
    rw [hrealm] at hparams
    -- the nonce that is sent
    have hword : h.nonce ≠ [] ∧ newline ∉ h.nonce := by
      rw [hnonce]
      cases hstored : o.nonce with
      | none => exact ⟨call.nonce_ne, newline_not_mem_nonce call⟩
      | some n => exact hk.2 n hstored
    have hsent : params.lookup (ascii "oauth_nonce") = some h.nonce := by
      rw [hlook _ (by decide), lookup_oauthNonce hword.1]
      exact congrArg some ((stripQuotes_quoted_iff h.nonce).2 hword.2)
    have hfound : h.nonce = call.generated.nonce ↔ ∀ n ∈ o.nonce, n = call.generated.nonce := by
      rw [hnonce]
      cases o.nonce with
      | none => simp
      | some n => simp
    -- the body hash that is sent
    have hbody : ∀ v, params.lookup (ascii "oauth_body_hash") = some v ↔
        (digest.getD [] ≠ [] ∨ ClientHelper.allowsEmptyHash o = true) ∧
          v = stripQuotes (quoted (digest.getD [])) := by
      intro v
      have htext : (ClientHelper.toValue digest).toS rt = digest.getD [] := by
        cases digest <;> rfl
      have hvalue : ∀ w, h.oauthParameters.lookup (ascii "oauth_body_hash") = some w ↔
          (digest.getD [] ≠ [] ∨ ClientHelper.allowsEmptyHash o = true) ∧
            w = ClientHelper.toValue digest := by
        intro w
        rw [ClientHelper.lookup_oauthBodyHash, hdigest, hallows]
      rw [hlook _ (by decide), Option.map_eq_some_iff]
      constructor
      · rintro ⟨w, hw, rfl⟩
        obtain ⟨hshown, rfl⟩ := (hvalue w).1 hw
        exact ⟨hshown, by rw [htext]⟩
      · rintro ⟨hshown, rfl⟩
        exact ⟨_, (hvalue _).2 ⟨hshown, rfl⟩, by rw [htext]⟩
    constructor
    · rintro ⟨params', hparams', hn, hb⟩
      obtain rfl : params = params' := Except.ok.inj (hparams.symm.trans hparams')
      refine ⟨hfound.1 (Option.some.inj (hsent.symm.trans hn)), fun hcall hshown => ?_⟩
      rw [← hsame hcall] at hshown
      have htrue := (hb _ ((hbody _).2 ⟨hshown, rfl⟩)).1
      exact absurd (hcall.symm.trans htrue) (by simp)
    · rintro ⟨hn, hnone⟩
      refine ⟨params, hparams, hsent.trans (congrArg some (hfound.2 hn)), fun v hv => ?_⟩
      obtain ⟨hshown, rfl⟩ := (hbody v).1 hv
      have hcall : call.hashesBody = true := by
        by_contra hc
        rw [Bool.not_eq_true] at hc
        exact hnone hc (hsame hc ▸ hshown)
      obtain ⟨m, rfl⟩ := hown hcall
      refine ⟨hcall, m, (stripQuotes_quoted_iff _).2 ?_⟩
      rw [hashText]
      split
      · exact List.not_mem_nil
      · exact newline_not_mem_encodeDigest rt _

/-! ## Runs -/

/-- The hash never loses a nonce. -/
theorem nonce_sign (rt : Runtime) (hash : SharedHash) (o : RequestOptions) (call : HelperCall) :
    (sign rt hash o call).1.nonce = some (o.nonce.getD call.generated.nonce) := by
  rcases sign_cases rt hash o call with ⟨e, heq⟩ | ⟨digest, -, -, heq⟩
  · rw [heq]
    rfl
  · rw [heq]
    rfl

/-- Signing answers the request, once. -/
theorem sign_snd (rt : Runtime) (hash : SharedHash) (o : RequestOptions) (call : HelperCall) :
    ∃ result, (sign rt hash o call).2 = [(call, result)] := by
  rcases sign_cases rt hash o call with ⟨e, heq⟩ | ⟨digest, -, -, heq⟩
  · exact ⟨_, by rw [heq]⟩
  · exact ⟨_, by rw [heq]⟩

/-- **The headers of a run are all their requests' own exactly where each request finds nothing of
    another one in the hash.** -/
theorem headers_own_iff (rt : Runtime) (hash : SharedHash) (o : RequestOptions) (calls : List HelperCall)
    (hnonce : o.nonce = none)
    (hmade : ∀ w ∈ (Machine.run (sign rt hash) o calls).2, ∃ text, w.2 = .ok text) :
    (∀ w ∈ (Machine.run (sign rt hash) o calls).2, ∀ text, w.2 = .ok text →
        HeaderIsOwn rt o.realm w.1 text)
      ↔ Machine.Along (sign rt hash) FindsNothing o calls := by
  have hinv : ∀ (o' : RequestOptions) (call : HelperCall), KeepsNonce o.realm o' →
      KeepsNonce o.realm (sign rt hash o' call).1 := fun o' call hk => keepsNonce_sign hk
  refine Machine.run_allowed_iff hinv (fun o' call hk hstep => ?_) ⟨rfl, by simp [hnonce]⟩ hmade
  obtain ⟨result, hresult⟩ := sign_snd rt hash o' call
  rw [hresult] at hstep ⊢
  obtain ⟨text, htext⟩ := hstep _ (List.mem_singleton_self _)
  obtain rfl : result = .ok text := htext
  have hmem : (call, .ok text) ∈ (sign rt hash o' call).2 := by
    rw [hresult]
    exact List.mem_singleton_self _
  have hown := headerIsOwn_iff hk hmem
  rw [List.forall_mem_singleton, ← hown]
  exact ⟨fun h => h text rfl, fun h t ht => Except.ok.inj ht ▸ h⟩

/-- Requests that find nothing of another one were all given one nonce. -/
theorem nonce_eq_of_along {calls : List HelperCall} {n : Bytes} (hn : o.nonce = some n)
    (h : Machine.Along (sign rt hash) FindsNothing o calls) :
    ∀ call ∈ calls, call.generated.nonce = n := by
  induction calls generalizing o with
  | nil => simp
  | cons call rest ih =>
      rw [List.forall_mem_cons]
      refine ⟨(h.1.1 n hn).symm, ih ?_ h.2⟩
      rw [nonce_sign, hn, Option.getD_some]

/-- An upload whose body is hashed. -/
def uploadCall : HelperCall :=
  ⟨⟨ascii "POST", ascii "/", OrderedHash.empty, some (ascii "body"), none, true⟩, true,
    ⟨ascii "n1", ascii "1"⟩, List.all_eq_true.1 (by decide), by decide⟩

/-- A request after it, without a body. -/
def plainCall : HelperCall :=
  ⟨⟨ascii "GET", ascii "/", OrderedHash.empty, none, none, false⟩, false, ⟨ascii "n2", ascii "2"⟩,
    List.all_eq_true.1 (by decide), by decide⟩

def exampleHash : SharedHash where
  requestUri := ascii "http://example.com/"
  consumer := { key := ascii "key", secret := .str (ascii "secret") }
  token := none

theorem uploadThenPlain_own_iff :
    (∀ w ∈ (Machine.run (sign echoRuntime exampleHash) {} [uploadCall, plainCall]).2, ∀ text,
        w.2 = .ok text → HeaderIsOwn echoRuntime none w.1 text)
      ↔ Machine.Along (sign echoRuntime exampleHash) FindsNothing {} [uploadCall, plainCall] := by
  refine headers_own_iff echoRuntime exampleHash {} [uploadCall, plainCall] rfl ?_
  have hall : ((Machine.run (sign echoRuntime exampleHash) {} [uploadCall, plainCall]).2.all
      (fun w => w.2.toOption.isSome)) = true := by
    decide +kernel
  intro w hw
  have hsome := List.all_eq_true.1 hall w hw
  cases hr : w.2 with
  | ok text => exact ⟨text, rfl⟩
  | error e =>
      rw [hr] at hsome
      exact absurd hsome Bool.false_ne_true

/-- The second request is sent with the nonce of the first. -/
theorem plainCall_not_own :
    ¬ ∀ w ∈ (Machine.run (sign echoRuntime exampleHash) {} [uploadCall, plainCall]).2, ∀ text,
      w.2 = .ok text → HeaderIsOwn echoRuntime none w.1 text := by
  intro hown
  have hk : KeepsNonce none (sign echoRuntime exampleHash {} uploadCall).1 :=
    keepsNonce_sign ⟨rfl, by simp⟩
  obtain ⟨result, hresult⟩ := sign_snd echoRuntime exampleHash
    (sign echoRuntime exampleHash {} uploadCall).1 plainCall
  have hmade : result.toOption.isSome = true := by
    have hall : ((sign echoRuntime exampleHash (sign echoRuntime exampleHash {} uploadCall).1
        plainCall).2.all (fun w => w.2.toOption.isSome)) = true := by
      decide +kernel
    simpa [hresult] using hall
  cases result with
  | error e => exact absurd hmade Bool.false_ne_true
  | ok text =>
      have hmem : (plainCall, .ok text) ∈ (sign echoRuntime exampleHash
          (sign echoRuntime exampleHash {} uploadCall).1 plainCall).2 := by
        rw [hresult]
        exact List.mem_singleton_self _
      have hlast := hown (plainCall, .ok text)
        (List.mem_append_right _ (List.mem_append_left _ hmem)) text rfl
      have hstored := ((headerIsOwn_iff hk hmem).1 hlast).1 _
        (nonce_sign echoRuntime exampleHash {} uploadCall)
      exact absurd hstored (by decide)

end SharedHash

end RubyOAuth
