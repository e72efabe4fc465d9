import RubyOAuth.Model.SigningProxies
import RubyOAuth.Proofs.Listing
import RubyOAuth.Proofs.Normalize
import RubyOAuth.Proofs.SplitFields
import RubyOAuth.Proofs.Verify

set_option autoImplicit false

/-! # Where `sign!` takes effect

The signature that `sign!` computes is there afterwards only if the hash it was written into is the one
that the next call returns. -/

namespace RubyOAuth

open Bytes

variable {rt : Runtime}

/-! ## Normalized parameters -/

/-- A string parameter is among the segments of the normalized text. -/
theorem segment_mem_of_normalize {params : Params} {k s query : Bytes}
    (hk : params.lookup k = some (.str s)) (h : normalize rt params = .ok query) :
    segment k s ∈ query.splitOn ampersand := by
  rw [normalize_eq_listing] at h
  cases hl : listing rt params with
  | error e => simp [hl, Except.map] at h
  | ok ss =>
      rw [hl] at h
      have hmem : segment k s ∈ ss := by
        rw [← (listing_eq_ok.1 hl).2, List.mem_flatMap]
        exact ⟨(k, .str s), OrderedHash.mem_sortedEntries.2 hk, by simp [entrySegments_str]⟩
      have hself : (segment k s).splitOn ampersand = [segment k s] := by
        simpa using splitOn_joinWith (fun t ht => List.mem_singleton.1 ht ▸ ampersand_not_mem_segment k s)
          (List.cons_ne_nil (segment k s) [])
      rw [← Except.ok.inj h, splitOn_joinWith_flatMap ampersand (List.ne_nil_of_mem hmem),
        List.mem_flatMap]
      exact ⟨_, hmem, by simp [hself]⟩

namespace SigningProxy

/-! ## What `sign!` leaves -/

/-- The hash of parameters that the proxy keeps from call to call. -/
def keptParameters (p : SigningProxy) : Option Params :=
  match p.request with
  | .hash r => some r.parameters
  | _ => if p.options.clobberRequest then p.options.parameters else none

/-- A kept hash is what `parameters` returns once the signature is in it. -/
theorem parameters_withSignature {p : SigningProxy} {params : Params}
    (h : p.keptParameters = some params) (s : Bytes) :
    (p.withSignature s).base.parameters
      = .ok (params.set (ascii "oauth_signature") (.str s)) := by
  obtain ⟨request, o, signed⟩ := p
  -- a request hash is kept, the options only where they take the place of the request
  have hclobber : (if o.clobberRequest then o.parameters else none) = some params →
      o.clobberRequest = true ∧ o.parameters = some params := by
    intro hc
    split at hc
    · next hflag => exact ⟨hflag, hc⟩
    · exact absurd hc (by simp)
  cases request with
  | hash r =>
      obtain rfl : r.parameters = params := Option.some.inj h
      rfl
  | netHttp r =>
      obtain ⟨hflag, hparams⟩ := hclobber h
      simp only [withSignature, hflag, hparams, base, HttpRequest.proxy, HttpRequest.parameters, if_true]
  | rack r =>
      obtain ⟨hflag, hparams⟩ := hclobber h
      simp only [withSignature, hflag, hparams, base, RackRequest.proxy, RackRequest.parameters, if_true,
        Option.getD_some]
  | restClient r =>
      obtain ⟨hflag, hparams⟩ := hclobber h
      simp only [withSignature, hflag, hparams, base, RestClientRequest.proxy,
        RestClientRequest.parameters, if_true, Option.getD_some]

/-- Without one, nothing is changed. -/
theorem withSignature_of_not_kept {p : SigningProxy} (h : p.keptParameters = none) (s : Bytes) :
    p.withSignature s = p := by
  obtain ⟨request, o, signed⟩ := p
  have hclobber : (if o.clobberRequest then o.parameters else none) = none →
      ¬ (o.clobberRequest = true ∧ ∃ params, o.parameters = some params) := by
    rintro hc ⟨hflag, params, hparams⟩
    rw [if_pos hflag, hparams] at hc
    exact absurd hc (by simp)
  cases request with
  | hash r => exact absurd h (by simp [keptParameters])
  | _ =>
      have hnot := hclobber h
      cases hflag : o.clobberRequest with
      | false => simp only [withSignature, hflag]
      | true =>
          cases hparams : o.parameters with
          | none => simp only [withSignature, hflag, hparams]
          | some params => exact absurd ⟨hflag, params, hparams⟩ hnot

/-- The signature is in effect after `sign!`: it is returned, read back and part of the signed URI. -/
def TakesEffect (rt : Runtime) (p : SigningProxy) (o : SignatureOptions) (signature : Bytes) : Prop :=
  ∃ q value, p.sign! rt o = .ok (q, value) ∧ value = .str signature ∧
    q.base.oauthSignature = .ok (.str signature) ∧
    ∃ query, q.signedUri rt true = .ok (some (q.base.uri ++ question :: query)) ∧
      segment (ascii "oauth_signature") signature ∈ query.splitOn ampersand

/-- The proxy keeps its parameters, and the others can be normalized; or it has the signature already. -/
def TakesSignature (rt : Runtime) (p : SigningProxy) (signature : Bytes) : Prop :=
  match p.keptParameters with
  | some params => ∀ k v, k ≠ ascii "oauth_signature" → params.lookup k = some v → sortable v = true
  | none => p.base.oauthSignature = .ok (.str signature) ∧
      ∃ params query, p.base.parameters = .ok params ∧ normalize rt params = .ok query ∧
        segment (ascii "oauth_signature") signature ∈ query.splitOn ampersand

/-- What is needed of the parameters after `sign!`. -/
theorem takesEffect_iff_parameters {p : SigningProxy} {o : SignatureOptions} {signature : Bytes}
    (hs : sign rt p.base o = .ok signature) :
    TakesEffect rt p o signature ↔
      (p.withSignature signature).base.oauthSignature = .ok (.str signature) ∧
        ∃ params query, (p.withSignature signature).base.parameters = .ok params ∧
          normalize rt params = .ok query ∧
          segment (ascii "oauth_signature") signature ∈ query.splitOn ampersand := by
  have hbase : ({ p.withSignature signature with signed := true } : SigningProxy).base
      = (p.withSignature signature).base := rfl
  have hsign : p.sign! rt o = ((p.withSignature signature).base.oauthSignature >>= fun value =>
      .ok ({ p.withSignature signature with signed := true }, value)) := by
    rw [sign!, hs]
    rfl
  have huri : ∀ query, ({ p.withSignature signature with signed := true } : SigningProxy).signedUri rt true
      = .ok (some ((p.withSignature signature).base.uri ++ question :: query)) ↔
        ∃ params, (p.withSignature signature).base.parameters = .ok params ∧
          normalize rt params = .ok query := by
    intro query
    rw [signedUri, if_pos rfl, hbase, Except.bind_eq_ok]
    simp only [if_true, Except.bind_eq_ok, Except.ok.injEq, Option.some.injEq, List.append_cancel_left_eq,
      List.cons.injEq, true_and, exists_eq_right]
  constructor
  · rintro ⟨q, value, hq, rfl, hback, query, hquery, hmem⟩
    rw [hsign, Except.bind_eq_ok] at hq
    obtain ⟨value, -, heq⟩ := hq
    obtain ⟨rfl, -⟩ := Prod.mk.inj (Except.ok.inj heq)
    obtain ⟨params, hparams, hnorm⟩ := (huri query).1 hquery
    exact ⟨hback, params, query, hparams, hnorm, hmem⟩
  · rintro ⟨hback, params, query, hparams, hnorm, hmem⟩
    refine ⟨{ p.withSignature signature with signed := true }, _, ?_, rfl, hback, query,
      (huri query).2 ⟨params, hparams, hnorm⟩, hmem⟩
    rw [hsign, hback]
    rfl

/-- **`sign!` takes effect exactly on the proxies that keep their parameters.** -/
theorem takesEffect_iff (rt : Runtime) (p : SigningProxy) (o : SignatureOptions) (signature : Bytes)
    (hs : sign rt p.base o = .ok signature) :
    TakesEffect rt p o signature ↔ TakesSignature rt p signature := by
  rw [takesEffect_iff_parameters hs, TakesSignature]
  cases hkept : p.keptParameters with
  | none => rw [withSignature_of_not_kept hkept]
  | some params =>
      have hparams := parameters_withSignature hkept signature
      have hback : (p.withSignature signature).base.oauthSignature = .ok (.str signature) := by
        rw [Proxy.oauthSignature, Proxy.oauthParameter, hparams, Except.ok_bind, Except.ok_bind,
          OrderedHash.lookup_set, if_pos rfl]
        rfl
      -- with the signature in the hash, only the other parameters can stop its normalization
      have hothers : (∃ query, normalize rt (params.set (ascii "oauth_signature") (.str signature))
          = .ok query) ↔
            ∀ k v, k ≠ ascii "oauth_signature" → params.lookup k = some v → sortable v = true := by
        rw [normalize_isOk_iff]
        constructor
        · intro h k v hk hv
          exact h k v (by rw [OrderedHash.lookup_set, if_neg hk, hv])
        · intro h k v hv
          rw [OrderedHash.lookup_set] at hv
          split at hv
          · rw [← Option.some.inj hv]
            rfl
          · next hk => exact h k v hk hv
      refine Iff.trans ?_ hothers
      constructor
      · rintro ⟨-, params', query, hparams', hnorm, -⟩
        rw [hparams, Except.ok.injEq] at hparams'
        exact ⟨query, hparams' ▸ hnorm⟩
      · rintro ⟨query, hnorm⟩
        refine ⟨hback, _, query, hparams, hnorm, segment_mem_of_normalize ?_ hnorm⟩
        rw [OrderedHash.lookup_set, if_pos rfl]

/-- Parameters that choose plain text. -/
def plainTextParameters : Params :=
  OrderedHash.ofList [(ascii "oauth_signature_method", .str (ascii "PLAINTEXT"))]

/-- A request hash keeps its signature. -/
def hashProxy : SigningProxy where
  request := .hash ⟨ascii "GET", ascii "http://example.com/", plainTextParameters⟩
  options := {}

/-- A Net::HTTP request with the same parameters in the options. -/
def netHttpProxy : SigningProxy where
  request := .netHttp ⟨ascii "GET", ascii "/", OrderedHash.empty, none, none, false⟩
  options := { parameters := some plainTextParameters }

theorem hashProxy_takesEffect_iff :
    TakesEffect echoRuntime hashProxy {} (ascii "&")
      ↔ TakesSignature echoRuntime hashProxy (ascii "&") :=
  takesEffect_iff echoRuntime hashProxy {} (ascii "&") rfl

/-- What `sign!` returns there is empty. -/
theorem netHttpProxy_not_takesEffect :
    sign echoRuntime netHttpProxy.base {} = .ok (ascii "&") ∧
      ¬ TakesEffect echoRuntime netHttpProxy {} (ascii "&") := by
  have hs : sign echoRuntime netHttpProxy.base {} = .ok (ascii "&") := rfl
  refine ⟨hs, fun h => ?_⟩
  have hback := ((takesEffect_iff_parameters hs).1 h).1
  have hempty : (netHttpProxy.withSignature (ascii "&")).base.oauthSignature = .ok (.str []) := rfl
  rw [hempty, Except.ok.injEq, Value.str.injEq] at hback
  exact absurd hback (by decide)

end SigningProxy

end RubyOAuth
