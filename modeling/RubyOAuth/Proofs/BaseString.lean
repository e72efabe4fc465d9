import RubyOAuth.Model.RequestProxy
import RubyOAuth.Proofs.Flat

set_option autoImplicit false

/-! # What the signature base string determines

The base string joins three escaped parts, so it determines each of them. The middle one is the text
of a valid URI (`canonicalUri`), hence determines scheme, host, port and path; the last one is a
normal form, hence determines the multiset of signed pairs. -/

namespace RubyOAuth

open Bytes

/-! ## The normalized URI -/

def AbsoluteHttp (u : Uri) : Prop :=
  (u.scheme = some (ascii "http") ∨ u.scheme = some (ascii "https")) ∧ u.host.isSome = true

instance (u : Uri) : Decidable (AbsoluteHttp u) := by unfold AbsoluteHttp; infer_instance

theorem AbsoluteHttp.scheme_isSome {u : Uri} (h : AbsoluteHttp u) : u.scheme.isSome = true := by
  rcases h.1 with hs | hs
  · rw [hs]
    rfl
  · rw [hs]
    rfl

/-- The path, the empty one counting as `/`. -/
def rootedPath (u : Uri) : Bytes := if u.path = [] then [slash] else u.path

/-- The components `normalized_uri` keeps: a default port is left out, the empty path is `/`. -/
def canonicalUri (u : Uri) : Uri where
  scheme := u.scheme
  userinfo := none
  host := u.host.map downcase
  port := if u.effectivePort = u.scheme.bind Uri.defaultPort then none else u.effectivePort
  path := rootedPath u
  query := none
  fragment := none

theorem canonicalUri_valid {u : Uri} (hu : u.Valid) (ha : AbsoluteHttp u) :
    (canonicalUri u).Valid := by
  obtain ⟨hscheme, _, hhost, _, hpath, hstart, _⟩ := hu
  obtain ⟨h, hh⟩ := Option.isSome_iff_exists.1 ha.2
  rw [Uri.validPathStart, hh] at hstart
  refine ⟨hscheme, by simp [canonicalUri], ?_, by simp [canonicalUri, hh], ?_, ?_,
    by simp [canonicalUri], by simp [canonicalUri]⟩
  · intro g hg
    simp only [canonicalUri, hh, Option.map_some, Option.mem_def, Option.some.injEq] at hg
    subst hg
    exact Uri.validHost_downcase (hhost h hh)
  · by_cases hp : u.path = []
    · simp only [canonicalUri, rootedPath, if_pos hp]
      decide
    · simpa only [canonicalUri, rootedPath, if_neg hp] using hpath
  · by_cases hp : u.path = []
    · simp [canonicalUri, Uri.validPathStart, hh, rootedPath, if_pos hp]
    · simpa [canonicalUri, Uri.validPathStart, hh, rootedPath, if_neg hp] using hstart

theorem defaultPort_of_absoluteHttp {u : Uri} (ha : AbsoluteHttp u) :
    ∃ s d, u.scheme = some s ∧ Uri.defaultPort s = some d ∧ downcase s = s ∧
      normalizedPort u s = (if u.effectivePort = some d then []
        else colon :: (u.effectivePort.map Uri.decimal).getD []) := by
  have hlow : downcase (ascii "http") = ascii "http" := by decide
  have hlows : downcase (ascii "https") = ascii "https" := by decide
  have hne : ascii "http" ≠ ascii "https" := by decide
  rcases ha.1 with hs | hs
  · exact ⟨_, 80, hs, by decide, hlow, by simp [normalizedPort, hlow, hne]⟩
  · exact ⟨_, 443, hs, by decide, hlows, by simp [normalizedPort, hlows, hne.symm]⟩

/-- `normalized_uri` is the text of the canonical URI. -/
theorem normalizeParsedUri_of_absoluteHttp {u : Uri} (ha : AbsoluteHttp u) :
    normalizeParsedUri u = .ok (Uri.print (canonicalUri u)) := by
  obtain ⟨h, hh⟩ := Option.isSome_iff_exists.1 ha.2
  obtain ⟨s, d, hs, hd, hlow, hport⟩ := defaultPort_of_absoluteHttp ha
  rw [normalizeParsedUri, hs, hh]
  simp only [Except.ok.injEq, hlow, hport, Uri.print, Uri.printHierarchy, Uri.printAuthority,
    canonicalUri, hs, hh, Option.map_some, Option.bind_some, hd, Uri.printScheme,
    Uri.printUserinfo, uncut, rootedPath]
  rw [Uri.effectivePort_of_defaultPort hs hd]
  by_cases hp : some (u.port.getD d) = some d
  · simp [hp, Uri.printPort, ascii]
  · simp [hp, Uri.printPort, ascii]

/-- Two URIs name the same target: scheme, host up to case, port, path. -/
def SameTarget (u v : Uri) : Prop := u.SameOrigin v ∧ rootedPath u = rootedPath v

theorem canonicalUri_inj {u v : Uri} (hu : AbsoluteHttp u) (hv : AbsoluteHttp v) :
    canonicalUri u = canonicalUri v ↔ SameTarget u v := by
  obtain ⟨s, d, hs, hd, -, -⟩ := defaultPort_of_absoluteHttp hu
  obtain ⟨t, e, ht, he, -, -⟩ := defaultPort_of_absoluteHttp hv
  have heff := Uri.effectivePort_of_defaultPort hs hd
  have heff' := Uri.effectivePort_of_defaultPort ht he
  constructor
  · intro h
    simp only [canonicalUri, Uri.mk.injEq] at h
    obtain ⟨hscheme, -, hhost, hport, hpath, -, -⟩ := h
    refine ⟨⟨hscheme, hhost, ?_⟩, hpath⟩
    have hst : s = t := by simpa [hs, ht] using hscheme
    subst hst
    have hde : d = e := by simpa [hd] using he
    subst hde
    rw [hs, ht, Option.bind_some, hd, heff, heff'] at hport
    rw [heff, heff']
    by_cases hp : some (u.port.getD d) = some d
    · by_cases hq : some (v.port.getD d) = some d
      · rw [hp, hq]
      · simp [hp, hq] at hport
    · by_cases hq : some (v.port.getD d) = some d
      · simp [hp, hq] at hport
      · simpa [hp, hq] using hport
  · rintro ⟨⟨hscheme, hhost, hport⟩, hpath⟩
    simp only [canonicalUri, hscheme, hhost, hport, hpath]

/-! ## The base string -/

/-- **Equal base strings have equal parts.** -/
theorem baseString_inj {m m' u u' q q' : Bytes} :
    joinWith ampersand ([m, u, q].map escapeBytes) = joinWith ampersand ([m', u', q'].map escapeBytes)
      ↔ m = m' ∧ u = u' ∧ q = q' := by
  have hsep : ∀ xs : List Bytes, ∀ t ∈ xs.map escapeBytes, ampersand ∉ t := by
    intro xs t ht
    obtain ⟨x, -, rfl⟩ := List.mem_map.1 ht
    exact not_mem_escapeBytes (by decide) (by decide) x
  rw [joinWith_inj_of_ne (hsep _) (hsep _) (by simp) (by simp), escapeBytes_injective.list_map.eq_iff]
  simp

theorem signatureBaseString_eq {rt : Runtime} {p : Proxy} {u n : Bytes}
    (hu : p.normalizedUri = .ok u) (hn : p.normalizedParameters rt = .ok n) :
    p.signatureBaseString rt
      = .ok (joinWith ampersand ([p.method, u, n].map escapeBytes)) := by
  rw [Proxy.signatureBaseString, hu, hn]
  rfl

/-- The signed pairs of a request, as a multiset. -/
def signedPairs (p : Proxy) (params : Params) : Multiset (Bytes × Bytes) :=
  ↑(flatPairs (params.select p.isSigned).entries)

theorem flat_select {params : Params} (h : Flat params) (f : Bytes → Bool) :
    Flat (params.select f) :=
  fun e he => h e (List.mem_of_mem_filter he)

/-- The base string of a request with an absolute URI and flat parameters. -/
theorem signatureBaseString_flat {rt : Runtime} {p : Proxy} {u : Uri} {params : Params}
    (hu : parseUri p.uri = .ok u) (ha : AbsoluteHttp u) (hp : p.parameters = .ok params)
    (hf : Flat params) :
    p.signatureBaseString rt = .ok (joinWith ampersand
      ([p.method, Uri.print (canonicalUri u),
        normalForm (flatPairs (params.select p.isSigned).entries)].map escapeBytes)) := by
  have huri : p.normalizedUri = .ok (Uri.print (canonicalUri u)) := by
    apply p.normalizedUri_of_ok
    rw [normalizeUri, hu, Except.ok_bind, normalizeParsedUri_of_absoluteHttp ha]
  have hparams : p.normalizedParameters rt
      = .ok (normalForm (flatPairs (params.select p.isSigned).entries)) := by
    rw [Proxy.normalizedParameters, Proxy.parametersForSignature, hp, Except.ok_bind,
      Except.ok_bind, normalize_flat (flat_select hf p.isSigned)]
  exact signatureBaseString_eq huri hparams

/-- **The base string is tamper evident**: two requests with absolute URIs and flat parameters have
    the same base string exactly when methods, targets and multisets of signed pairs agree. -/
theorem signatureBaseString_eq_iff (rt : Runtime) (p q : Proxy) (u v : Uri) (ps qs : Params)
    (hu : parseUri p.uri = .ok u) (hv : parseUri q.uri = .ok v) (hau : AbsoluteHttp u)
    (hav : AbsoluteHttp v) (hp : p.parameters = .ok ps) (hq : q.parameters = .ok qs)
    (hps : Flat ps) (hqs : Flat qs) :
    ∃ b c, p.signatureBaseString rt = .ok b ∧ q.signatureBaseString rt = .ok c ∧
      (b = c ↔ p.method = q.method ∧ SameTarget u v ∧ signedPairs p ps = signedPairs q qs) := by
  refine ⟨_, _, signatureBaseString_flat hu hau hp hps, signatureBaseString_flat hv hav hq hqs, ?_⟩
  rw [baseString_inj, Uri.print_inj (canonicalUri_valid (valid_of_parseUri hu) hau)
    (canonicalUri_valid (valid_of_parseUri hv) hav), canonicalUri_inj hau hav, normalForm_inj,
    signedPairs, signedPairs, Multiset.coe_eq_coe]

/-- The same request written in two ways. -/
def upperCaseRequest : MockRequest where
  method := ascii "GET"
  uri := ascii "HTTP://EXAMPLE.com:80?z=1"
  parameters := OrderedHash.ofList
    [(ascii "tag", .arr [.str (ascii "b"), .str (ascii "a")]), (ascii "q", .nil)]

def lowerCaseRequest : MockRequest where
  method := ascii "GET"
  uri := ascii "http://example.com/"
  parameters := OrderedHash.ofList
    [(ascii "q", .str []), (ascii "tag", .arr [.str (ascii "a"), .str (ascii "b")])]

theorem upperCaseRequest_signatureBaseString :
    ∃ b c, (upperCaseRequest.proxy {}).signatureBaseString echoRuntime = .ok b ∧
      (lowerCaseRequest.proxy {}).signatureBaseString echoRuntime = .ok c ∧
      (b = c ↔ upperCaseRequest.method = lowerCaseRequest.method ∧
        SameTarget
          ⟨some (ascii "http"), none, some (ascii "EXAMPLE.com"), some 80, [], some (ascii "z=1"), none⟩
          ⟨some (ascii "http"), none, some (ascii "example.com"), none, ascii "/", none, none⟩ ∧
        signedPairs (upperCaseRequest.proxy {}) upperCaseRequest.parameters
          = signedPairs (lowerCaseRequest.proxy {}) lowerCaseRequest.parameters) :=
  signatureBaseString_eq_iff echoRuntime (upperCaseRequest.proxy {}) (lowerCaseRequest.proxy {})
    _ _ _ _ (by decide +kernel) (by decide +kernel) (by decide +kernel) (by decide +kernel) rfl rfl
    (by decide +kernel) (by decide +kernel)

end RubyOAuth
