import RubyOAuth.Proofs.BaseString
import RubyOAuth.Proofs.Normalize

set_option autoImplicit false

/-! # What a Rack provider covers

`RackRequest` merges body, query, `Authorization` header and `options[:parameters]` into one hash
before anything is signed, so of a name that occurs in several of them the last one alone is covered.
`coverage_iff` says exactly which changes of a value show in the base string. -/

namespace RubyOAuth

open Bytes

/-! ## Two requests that differ in one value -/

/-- Where an application parameter is delivered. -/
inductive Source where
  | body
  | query
  deriving DecidableEq, Repr

namespace RackRequest

/-- The request with the value of `k` in one source replaced. -/
def withValue (r : RackRequest) (k : Bytes) (v : Value) : Source → RackRequest
  | .body => { r with post := r.post.map (fun params => params.set k v) }
  | .query => { r with get := r.get.map (fun params => params.set k v) }

/-- Both requests have normalized parameters and base strings, and they differ. -/
def Distinguished (rt : Runtime) (r r' : RackRequest) (o : SignatureOptions) : Prop :=
  ∃ n n' b b', (r.proxy o).normalizedParameters rt = .ok n ∧
    (r'.proxy o).normalizedParameters rt = .ok n' ∧ (r.proxy o).signatureBaseString rt = .ok b ∧
    (r'.proxy o).signatureBaseString rt = .ok b' ∧ n ≠ n' ∧ b ≠ b'

/-! ## The merged parameters -/

/-- The value that counts for a name: the last of body, query, header and options that has it. -/
def effective (P G : Params) (h : OrderedHash Bytes Bytes) (o : SignatureOptions) (k : Bytes) :
    Option Value :=
  ((o.parameters.getD OrderedHash.empty).lookup k).or
    (((h.lookup k).map Value.str).or ((G.lookup k).or (P.lookup k)))

theorem parameters_eq_ok {r : RackRequest} {o : SignatureOptions} {G P : Params}
    (hform : isFormMediaType r.contentType = true) (hget : r.get = .ok G) (hpost : r.post = .ok P)
    (hclobber : o.clobberRequest = false) {params : Params} (h : r.parameters o = .ok params) :
    ∃ hdr, r.headerParams = .ok hdr ∧ ∀ k, params.lookup k = effective P G hdr o k := by
  rw [parameters, hclobber, requestParams, hform, queryParams, hget, hpost] at h
  simp only [Bool.false_eq_true, if_false, if_true, Except.ok_bind] at h
  obtain ⟨hdr, hhdr, h⟩ := Except.bind_eq_ok.1 h
  rw [Except.ok.injEq] at h
  subst h
  exact ⟨hdr, hhdr, fun k => by simp [effective]⟩

theorem exists_parameters {r : RackRequest} {o : SignatureOptions} {G P : Params}
    {hdr : OrderedHash Bytes Bytes} (hform : isFormMediaType r.contentType = true)
    (hget : r.get = .ok G) (hpost : r.post = .ok P) (hclobber : o.clobberRequest = false)
    (hhdr : r.headerParams = .ok hdr) :
    ∃ params, r.parameters o = .ok params ∧ ∀ k, params.lookup k = effective P G hdr o k := by
  rw [parameters, hclobber, requestParams, hform, queryParams, hget, hpost, hhdr]
  exact ⟨_, rfl, fun k => by simp [effective]⟩

end RackRequest

/-- What `normalized_uri` needs. -/
theorem normalizeUri_isOk_iff {s : Bytes} :
    (∃ t, normalizeUri s = .ok t) ↔
      ∃ u, parseUri s = .ok u ∧ u.scheme.isSome = true ∧ u.host.isSome = true := by
  constructor
  · rintro ⟨t, ht⟩
    obtain ⟨u, hu, ht⟩ := Except.bind_eq_ok.1 ht
    refine ⟨u, hu, ?_⟩
    rw [normalizeParsedUri] at ht
    split at ht
    · next hs hh => simp [hs, hh]
    · simp at ht
  · rintro ⟨u, hu, hs, hh⟩
    obtain ⟨s', hs⟩ := Option.isSome_iff_exists.1 hs
    obtain ⟨h', hh⟩ := Option.isSome_iff_exists.1 hh
    rw [normalizeUri, hu, Except.ok_bind, normalizeParsedUri, hs, hh]
    exact ⟨_, rfl⟩

namespace RackRequest

/-! ## Which changes show -/

/-- The request has a base string: an absolute URL, a header that parses, and no signed array of
    incomparable elements. -/
def HasBaseString (r : RackRequest) (P G : Params) (h : OrderedHash Bytes Bytes)
    (o : SignatureOptions) : Prop :=
  (∃ u, parseUri r.url = .ok u ∧ u.scheme.isSome = true ∧ u.host.isSome = true) ∧
    ∀ k v, k ≠ ascii "oauth_signature" → effective P G h o k = some v → sortable v = true

/-- No source that is merged later has the name. -/
def Unshadowed (G : Params) (h : OrderedHash Bytes Bytes) (o : SignatureOptions) (k : Bytes) :
    Source → Prop
  | .body => G.lookup k = none ∧ h.lookup k = none ∧
      (o.parameters.getD OrderedHash.empty).lookup k = none
  | .query => h.lookup k = none ∧ (o.parameters.getD OrderedHash.empty).lookup k = none

/-- Body and query hash after the change. -/
def changed (P G : Params) (k : Bytes) (v : Value) : Source → Params × Params
  | .body => (P.set k v, G)
  | .query => (P, G.set k v)

def pick (P G : Params) : Source → Params
  | .body => P
  | .query => G

/-- An unshadowed change reaches the merged parameters and nothing else does. -/
theorem effective_changed {P G : Params} {h : OrderedHash Bytes Bytes} {o : SignatureOptions}
    {k : Bytes} {src : Source} (hu : Unshadowed G h o k src) (v : Value) (k' : Bytes) :
    effective (changed P G k v src).1 (changed P G k v src).2 h o k'
      = if k' = k then some v else effective P G h o k' := by
  by_cases hk : k' = k
  · subst hk
    cases src with
    | body => simp [effective, changed, hu.1, hu.2.1, hu.2.2]
    | query => simp [effective, changed, hu.1, hu.2]
  · cases src <;> simp [effective, changed, hk]

/-- A shadowed change does not reach them. -/
theorem effective_changed_of_shadowed {P G : Params} {h : OrderedHash Bytes Bytes}
    {o : SignatureOptions} {k : Bytes} {src : Source} (hu : ¬ Unshadowed G h o k src) (v : Value)
    (k' : Bytes) :
    effective (changed P G k v src).1 (changed P G k v src).2 h o k' = effective P G h o k' := by
  by_cases hk : k' = k
  · subst hk
    cases src with
    | body =>
        cases ho : (o.parameters.getD OrderedHash.empty).lookup k' <;>
          cases hh : h.lookup k' <;> cases hg : G.lookup k' <;>
          simp_all [effective, changed, Unshadowed]
    | query =>
        cases ho : (o.parameters.getD OrderedHash.empty).lookup k' <;>
          cases hh : h.lookup k' <;> simp_all [effective, changed, Unshadowed]
  · cases src <;> simp [effective, changed, hk]

theorem effective_of_unshadowed {P G : Params} {h : OrderedHash Bytes Bytes}
    {o : SignatureOptions} {k : Bytes} {src : Source} (hu : Unshadowed G h o k src) {a : Value}
    (ha : (pick P G src).lookup k = some a) : effective P G h o k = some a := by
  cases src with
  | body =>
      rw [pick] at ha
      simp [effective, hu.1, hu.2.1, hu.2.2, ha]
  | query =>
      rw [pick] at ha
      simp [effective, hu.1, hu.2, ha]

section Coverage

variable {r : RackRequest} {o : SignatureOptions} {G P : Params}
variable (hform : isFormMediaType r.contentType = true) (hget : r.get = .ok G)
  (hpost : r.post = .ok P) (hclobber : o.clobberRequest = false)
  (hunsigned : o.unsignedParameters.getD [] = [])

include hunsigned in
theorem isSigned_eq (k : Bytes) :
    (r.proxy o).isSigned k = (k != ascii "oauth_signature") := by
  rw [Bool.eq_iff_iff]
  simp [Proxy.isSigned, Proxy.signatureAndUnsignedParameters, proxy, hunsigned]

include hform hget hpost in
/-- The changed request reads the changed hashes. -/
theorem withValue_sources (k : Bytes) (v : Value) (src : Source) :
    isFormMediaType (r.withValue k v src).contentType = true ∧
      (r.withValue k v src).get = .ok (changed P G k v src).2 ∧
      (r.withValue k v src).post = .ok (changed P G k v src).1 := by
  cases src with
  | body => exact ⟨hform, hget, by rw [withValue, hpost]; rfl⟩
  | query => exact ⟨hform, by rw [withValue, hget]; rfl, hpost⟩

include hform hget hpost hclobber hunsigned

/-- The normalized parameters are those of any hash with the effective values. -/
theorem normalizedParameters_eq (rt : Runtime) (params : Params) {hdr : OrderedHash Bytes Bytes}
    (hhdr : r.headerParams = .ok hdr)
    (hparams : ∀ k, params.lookup k
      = if k ≠ ascii "oauth_signature" then effective P G hdr o k else none) :
    (r.proxy o).normalizedParameters rt = normalize rt params := by
  obtain ⟨ps, hps, hlook⟩ := exists_parameters hform hget hpost hclobber hhdr
  have hproxy : (r.proxy o).parameters = .ok ps := hps
  rw [Proxy.normalizedParameters, Proxy.parametersForSignature, hproxy, Except.ok_bind,
    Except.ok_bind]
  refine normalize_congr rt (fun k => ?_)
  rw [OrderedHash.lookup_select, hparams, hlook, isSigned_eq hunsigned]
  simp

end Coverage

/-- **Exactly which changes of a value a Rack provider notices**: the request must have a base string,
    and the name must occur in no source merged after the changed one. -/
theorem coverage_iff (rt : Runtime) (r : RackRequest) (o : SignatureOptions) (G P : Params)
    (src : Source) (k : Bytes) (a b : Value) (s t : Bytes)
    (hform : isFormMediaType r.contentType = true) (hget : r.get = .ok G) (hpost : r.post = .ok P)
    (hclobber : o.clobberRequest = false) (hunsigned : o.unsignedParameters.getD [] = [])
    (hk : startsWith (ascii "oauth_") k = false) (ha : (pick P G src).lookup k = some a)
    (hs : scalarText a = some s) (ht : scalarText b = some t) (hne : s ≠ t) :
    Distinguished rt r (r.withValue k b src) o ↔
      ∃ hdr, r.headerParams = .ok hdr ∧ HasBaseString r P G hdr o ∧ Unshadowed G hdr o k src := by
  have hsig : k ≠ ascii "oauth_signature" := by
    rintro rfl
    exact absurd hk (by decide)
  obtain ⟨hform', hget', hpost'⟩ := withValue_sources hform hget hpost k b src
  have hhdr' : (r.withValue k b src).headerParams = r.headerParams := by cases src <;> rfl
  constructor
  · rintro ⟨n, n', b₁, b₂, hn, hn', hb₁, -, hnn, -⟩
    obtain ⟨ps, hps, hnorm⟩ := Except.bind_eq_ok.1 hn
    obtain ⟨params, hparams, hsel⟩ := Except.bind_eq_ok.1 hps
    obtain ⟨hdr, hhdr, hlook⟩ := parameters_eq_ok hform hget hpost hclobber hparams
    have hlook' : ∀ k', ps.lookup k'
        = if k' ≠ ascii "oauth_signature" then effective P G hdr o k' else none := by
      intro k'
      rw [← Except.ok.inj hsel, OrderedHash.lookup_select, hlook, isSigned_eq hunsigned]
      simp
    obtain ⟨u, huri, -⟩ := Except.bind_eq_ok.1 hb₁
    refine ⟨hdr, hhdr, ⟨normalizeUri_isOk_iff.1 ⟨u, huri⟩, ?_⟩, ?_⟩
    · intro k' v hk' hv
      refine (normalize_isOk_iff rt).1 ⟨n, hnorm⟩ k' v ?_
      rw [hlook', if_pos hk', hv]
    · by_contra hu
      have hsame := normalizedParameters_eq hform' hget' hpost' hclobber hunsigned rt ps
        (hhdr'.trans hhdr)
        (fun k' => by rw [hlook', effective_changed_of_shadowed hu])
      rw [hsame, hnorm, Except.ok.injEq] at hn'
      exact hnn hn'
  · rintro ⟨hdr, hhdr, ⟨huri, hsort⟩, hu⟩
    obtain ⟨ps, -, hlook⟩ := exists_parameters hform hget hpost hclobber hhdr
    have hlook' : ∀ k', (ps.select (fun k => k != ascii "oauth_signature")).lookup k'
        = if k' ≠ ascii "oauth_signature" then effective P G hdr o k' else none := by
      intro k'
      rw [OrderedHash.lookup_select, hlook]
      simp
    have hn := normalizedParameters_eq hform hget hpost hclobber hunsigned rt _ hhdr hlook'
    have hn' := normalizedParameters_eq hform' hget' hpost' hclobber hunsigned rt
      ((ps.select (fun k => k != ascii "oauth_signature")).set k b) (hhdr'.trans hhdr)
      (fun k' => by
        rw [OrderedHash.lookup_set, hlook', effective_changed hu]
        by_cases hkk : k' = k
        · subst hkk; simp [hsig]
        · simp [hkk])
    obtain ⟨n, hnorm⟩ := (normalize_isOk_iff rt).2 (fun k' v hv => by
      rw [hlook'] at hv
      split at hv
      · next hk' => exact hsort k' v hk' hv
      · simp at hv)
    have hka : (ps.select (fun k => k != ascii "oauth_signature")).lookup k = some a := by
      rw [hlook', if_pos hsig, effective_of_unshadowed hu ha]
    obtain ⟨n', hnorm', hnn⟩ := normalize_set_scalar hka hs ht hne hnorm
    obtain ⟨x, hx⟩ := normalizeUri_isOk_iff.2 huri
    have hmethod : ((r.withValue k b src).proxy o).method = (r.proxy o).method := by
      cases src <;> rfl
    have hx' : ((r.withValue k b src).proxy o).normalizedUri = .ok x := by cases src <;> exact hx
    rw [hnorm] at hn
    rw [hnorm'] at hn'
    refine ⟨n, n', _, _, hn, hn', signatureBaseString_eq hx hn, signatureBaseString_eq hx' hn',
      hnn, fun h => hnn ?_⟩
    exact (baseString_inj.1 h).2.2

end RackRequest

/-- A form post with `size=big` in the query and `size=small&color=red` in the body. -/
def shadowedRequest : RackRequest where
  requestMethod := ascii "POST"
  url := ascii "http://example.com/?size=big"
  env := OrderedHash.empty
  contentType := some formMediaType
  get := .ok (OrderedHash.ofList [(ascii "size", .str (ascii "big"))])
  post := .ok (OrderedHash.ofList
    [(ascii "size", .str (ascii "small")), (ascii "color", .str (ascii "red"))])

theorem shadowedRequest_coverage_color :
    RackRequest.Distinguished echoRuntime shadowedRequest
        (shadowedRequest.withValue (ascii "color") (.str (ascii "blue")) .body) {} ↔
      ∃ hdr, shadowedRequest.headerParams = .ok hdr ∧
        shadowedRequest.HasBaseString
          (OrderedHash.ofList
            [(ascii "size", .str (ascii "small")), (ascii "color", .str (ascii "red"))])
          (OrderedHash.ofList [(ascii "size", .str (ascii "big"))]) hdr {} ∧
        RackRequest.Unshadowed (OrderedHash.ofList [(ascii "size", .str (ascii "big"))]) hdr {}
          (ascii "color") .body :=
  RackRequest.coverage_iff echoRuntime shadowedRequest {} _ _ .body (ascii "color")
    (.str (ascii "red")) (.str (ascii "blue")) (ascii "red") (ascii "blue") (by decide) rfl rfl rfl
    rfl (by decide) rfl rfl rfl (by decide)

/-- The body's `size` can change without a trace. -/
theorem shadowedRequest_size_uncovered :
    ∃ n b, (shadowedRequest.proxy {}).normalizedParameters echoRuntime = .ok n ∧
      ((shadowedRequest.withValue (ascii "size") (.str (ascii "tiny")) .body).proxy
        {}).normalizedParameters echoRuntime = .ok n ∧
      (shadowedRequest.proxy {}).signatureBaseString echoRuntime = .ok b ∧
      ((shadowedRequest.withValue (ascii "size") (.str (ascii "tiny")) .body).proxy
        {}).signatureBaseString echoRuntime = .ok b :=
  ⟨ascii "color=red&size=big", ascii "POST&http%3A%2F%2Fexample.com%2F&color%3Dred%26size%3Dbig",
    by decide, by decide, by decide, by decide⟩

end RubyOAuth
