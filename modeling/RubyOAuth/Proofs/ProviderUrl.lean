import RubyOAuth.Lib.UriAppend
import RubyOAuth.Proofs.SignedUrl

set_option autoImplicit false

/-! # The URL that a provider sees

A provider puts the URL of a request together from the host that was contacted and the request line. The
client signs another one where the request line names a scheme or a host of its own, and where the
options say otherwise. -/

namespace RubyOAuth

open Bytes Uri

/-! ## The URL of a request -/

/-- The path with a slash in front. -/
def slashed (p : Bytes) : Bytes := if p.head? = some slash then p else slash :: p

/-- What a request over a connection asks for. -/
def receivedUri (http : Connection) (target : Bytes) : Uri :=
  { contactedUri http target with path := slashed (front target) }

/-- The URL of a request over a connection. -/
def contactedUrl (http : Connection) (r : HttpRequest) : Bytes :=
  parsedToS (receivedUri http r.path)

/-- The scheme that a connection speaks. -/
def Connection.scheme (http : Connection) : Bytes :=
  if http.useSsl then ascii "https" else ascii "http"

/-- The URL that is signed for a request line is the URL contacted: the one given as `request_uri` has the
    scheme, the host, the port and the path of the request; without it the request line names neither
    scheme nor host, the site has the scheme of the connection, and with a request endpoint the site is
    the host that is contacted. -/
structure SignsUrl (http : Connection) (a target : Bytes) (o : RequestOptions) : Prop where
  given : ∀ text ∈ o.requestUri, ∃ u, parseUri text = .ok u ∧ u.scheme = some http.scheme ∧
    u.host.map downcase = some (downcase a) ∧ u.effectivePort = some http.port ∧
    rootedPath u = slashed (front target)
  derived : o.requestUri = none → (∀ u, parseUri target = .ok u → ¬ u.NamesOrigin) ∧
    (∀ s ∈ (o.site.bind Uri.parse).bind Uri.scheme, s = http.scheme) ∧
    (o.requestEndpoint.isSome = true → ∀ site ∈ o.site, downcase (stripHttp site) = downcase a)

/-! ## Two normalized URIs -/

theorem head?_slashed (p : Bytes) : (slashed p).head? = some slash := by
  rw [slashed]
  split
  · assumption
  · rfl

theorem pctValid_slashed (p : Bytes) : pctValid isPathChar (slashed p) = pctValid isPathChar p := by
  rw [slashed]
  split
  · rfl
  · exact pctValid_slash_cons p

theorem rootedPath_of_head {u : Uri} (h : u.path.head? = some slash) : rootedPath u = u.path := by
  rw [rootedPath, if_neg]
  intro hnil
  simp [hnil] at h

/-- A valid URI normalizes as an HTTP one does exactly where it names the same target. -/
theorem normalizeParsedUri_eq_iff {u v : Uri} (hu : u.Valid) (hv : v.Valid) (hav : AbsoluteHttp v) :
    normalizeParsedUri u = normalizeParsedUri v ↔ SameTarget u v := by
  have hiff : AbsoluteHttp u → (normalizeParsedUri u = normalizeParsedUri v ↔ SameTarget u v) := by
    intro hau
    rw [normalizeParsedUri_of_absoluteHttp hau, normalizeParsedUri_of_absoluteHttp hav, Except.ok.injEq,
      print_inj (canonicalUri_valid hu hau) (canonicalUri_valid hv hav), canonicalUri_inj hau hav]
  constructor
  · intro h
    refine (hiff ?_).1 h
    -- what is normalized has a host, and the scheme ends before the first colon
    obtain ⟨t, ht⟩ : ∃ t, v.scheme = some t := Option.isSome_iff_exists.1 hav.scheme_isSome
    have hcolon : ∀ {w : Uri}, w.Valid → ∀ s ∈ w.scheme, colon ∉ s ∧ downcase s = s :=
      fun hw s hs => ⟨not_mem_of_validScheme (hw.1 s hs) (by decide), downcase_of_validScheme (hw.1 s hs)⟩
    rw [normalizeParsedUri_eq hav ht] at h
    cases hs : u.scheme with
    | none => simp [normalizeParsedUri, hs] at h
    | some s =>
        cases hh : u.host with
        | none => simp [normalizeParsedUri, hs, hh] at h
        | some host =>
            simp only [normalizeParsedUri, hs, hh, Except.ok.injEq, (hcolon hu s hs).2] at h
            have hascii : ∀ x : Bytes, ascii "://" ++ x = colon :: ([slash, slash] ++ x) := fun _ => rfl
            rw [hascii, hascii] at h
            have hcut := congrArg (cut colon) h
            rw [cut_append (hcolon hu s hs).1, cut_append (hcolon hv t ht).1, Prod.mk.injEq] at hcut
            refine ⟨?_, by rw [hh]; rfl⟩
            rw [hs, hcut.1, ← ht]
            exact hav.1
  · intro h
    have hau : AbsoluteHttp u := by
      obtain ⟨⟨hscheme, hhost, -⟩, -⟩ := h
      refine ⟨hscheme ▸ hav.1, ?_⟩
      have hsome := congrArg Option.isSome hhost
      rw [Option.isSome_map, Option.isSome_map, hav.2] at hsome
      exact hsome
    exact (hiff hau).2 h

/-! ## What the provider normalizes -/

section

variable {http : Connection} {a : Bytes} {r : HttpRequest} (ha : http.address = some a)

theorem scheme_cases (http : Connection) :
    http.scheme = ascii "http" ∨ http.scheme = ascii "https" := by
  rw [Connection.scheme]
  split
  · exact .inr rfl
  · exact .inl rfl

/-- The host that was contacted, as a base URL. -/
def Connection.base (http : Connection) : Uri :=
  withoutDefaultPort ⟨some http.scheme, none, http.address, some http.port, [], none, none⟩

include ha

theorem receivedUri_valid {target : Bytes} (hpath : pctValid isPathChar (front target) = true)
    (hquery : ∀ q ∈ queryPart target, q.all isQueryChar = true) :
    (receivedUri http target).Valid := by
  refine ⟨?_, by simp [receivedUri, contactedUri], http.address_valid, ?_, ?_, ?_, ?_, ?_⟩
  · intro s hs
    rw [← Option.some.inj hs]
    rcases scheme_cases http with h | h
    · rw [Connection.scheme] at h
      rw [h]
      decide
    · rw [Connection.scheme] at h
      rw [h]
      decide
  · intro _
    rw [receivedUri, contactedUri, ha]
    rfl
  · rw [receivedUri, slashed]
    split
    · exact hpath
    · rw [pctValid_slash_cons]
      exact hpath
  · simp [receivedUri, contactedUri, validPathStart, ha, head?_slashed]
  · simpa [receivedUri, contactedUri, queryPart] using hquery
  · simp [receivedUri, contactedUri]

theorem base_valid : http.base.Valid := by
  have hvalid : (receivedUri http []).Valid := receivedUri_valid ha (by decide) (by decide)
  refine valid_withoutDefaultPort ⟨hvalid.1, by simp, http.address_valid, hvalid.2.2.2.1, rfl, ?_,
    by simp, by simp⟩
  simp [validPathStart, ha]

theorem contactedUrl_eq_append (r : HttpRequest) :
    contactedUrl http r
      = print http.base ++ uncut question (slashed (front r.path), queryPart r.path) := by
  have hstart : (withoutDefaultPort (receivedUri http r.path)).validPathStart = true := by
    simp [withoutDefaultPort, receivedUri, contactedUri, validPathStart, ha, head?_slashed]
  have hto : contactedUrl http r = print (withoutDefaultPort (receivedUri http r.path)) :=
    uriToS_of_validPathStart hstart
  rw [hto]
  exact print_eq_append rfl

/-- The URL of a request reads as the connection and the request line say. -/
theorem parse_contactedUrl {w : Uri} (hw : Uri.parse (contactedUrl http r) = some w) :
    w.Valid ∧ w.scheme = some http.scheme ∧ w.host = some a ∧ w.effectivePort = some http.port ∧
      w.path = slashed (front r.path) := by
  have hbase := base_valid ha
  have hparse : Uri.parse (print http.base) = some http.base := parse_print_of_store hbase rfl
  have hhead : (uncut question (slashed (front r.path), queryPart r.path)).head? = some slash := by
    have hslash := head?_slashed (front r.path)
    cases hp : slashed (front r.path) with
    | nil => simp [hp] at hslash
    | cons b rest =>
        rw [hp, List.head?_cons, Option.some.injEq] at hslash
        cases queryPart r.path with
        | none => simp [uncut, hslash]
        | some q => simp [uncut, hslash]
  have hfront : front (uncut question (slashed (front r.path), queryPart r.path))
      = slashed (front r.path) := by
    have hno : sharp ∉ slashed (front r.path) ∧ question ∉ slashed (front r.path) := by
      have hsharp : sharp ∉ front r.path := fun h =>
        not_mem_cut_fst sharp r.path (mem_of_mem_cut_fst h)
      have hquestion : question ∉ front r.path := not_mem_cut_fst question _
      rw [slashed]
      split
      · exact ⟨hsharp, hquestion⟩
      · exact ⟨List.not_mem_cons_of_ne_of_not_mem (by decide) hsharp,
          List.not_mem_cons_of_ne_of_not_mem (by decide) hquestion⟩
    cases queryPart r.path with
    | none => rw [uncut, front, cut_of_not_mem hno.1, cut_of_not_mem hno.2]
    | some q => exact front_of_query hno.1 hno.2 q
  have hvalid := valid_of_parse hw
  have hhost : http.base.host.isSome = true := by
    rw [show http.base.host = http.address from rfl, ha]
    rfl
  rw [contactedUrl_eq_append ha] at hw
  have heq := parse_append hparse rfl hhost rfl rfl hhead hw
  rw [hfront] at heq
  refine ⟨hvalid, ?_⟩
  rw [heq]
  refine ⟨rfl, ha, ?_, rfl⟩
  exact (effectivePort_filter ⟨some http.scheme, none, http.address, some http.port, [], none, none⟩)

/-- The provider reads the URL where its path is one. -/
theorem exists_parse_contactedUrl (hpath : pctValid isPathChar (front r.path) = true)
    (hquery : ∀ q ∈ queryPart r.path, q.all isQueryChar = true) :
    ∃ w, Uri.parse (contactedUrl http r) = some w := by
  have hvalid := valid_withoutDefaultPort (receivedUri_valid ha hpath hquery)
  have hto : contactedUrl http r = print (withoutDefaultPort (receivedUri http r.path)) :=
    uriToS_of_validPathStart hvalid.2.2.2.2.2.1
  exact ⟨_, hto ▸ parse_print hvalid⟩

/-- **A URI normalizes as the URL of the request does exactly where scheme, host, port and path are those
    of the connection and the request line.** -/
theorem normalizes_contactedUrl_iff (hquery : ∀ q ∈ queryPart r.path, q.all isQueryChar = true)
    {u : Uri} (hu : u.Valid) :
    (∃ uri, normalizeParsedUri u = .ok uri ∧ normalizeUri (contactedUrl http r) = .ok uri) ↔
      u.scheme = some http.scheme ∧ u.host.map downcase = some (downcase a) ∧
        u.effectivePort = some http.port ∧ rootedPath u = slashed (front r.path) := by
  -- what the provider reads names this target
  have hread : ∀ w, Uri.parse (contactedUrl http r) = some w →
      ((∃ uri, normalizeParsedUri u = .ok uri ∧ normalizeParsedUri w = .ok uri) ↔
        u.scheme = some http.scheme ∧ u.host.map downcase = some (downcase a) ∧
          u.effectivePort = some http.port ∧ rootedPath u = slashed (front r.path)) := by
    intro w hw
    obtain ⟨hvalid, hscheme, hhost, hport, hpath⟩ := parse_contactedUrl ha hw
    have habs : AbsoluteHttp w := by
      refine ⟨?_, by rw [hhost]; rfl⟩
      rw [hscheme, Option.some.injEq, Option.some.injEq]
      exact scheme_cases http
    have hrooted : rootedPath w = slashed (front r.path) := by
      rw [rootedPath_of_head (hpath ▸ head?_slashed _), hpath]
    have hboth : (∃ uri, normalizeParsedUri u = .ok uri ∧ normalizeParsedUri w = .ok uri) ↔
        normalizeParsedUri u = normalizeParsedUri w := by
      constructor
      · rintro ⟨uri, hu, hw⟩
        rw [hu, hw]
      · intro h
        exact ⟨_, h.trans (normalizeParsedUri_of_absoluteHttp habs),
          normalizeParsedUri_of_absoluteHttp habs⟩
    rw [hboth, normalizeParsedUri_eq_iff hu hvalid habs, SameTarget, SameOrigin, hscheme, hhost, hport,
      hrooted, Option.map_some]
    tauto
  constructor
  · rintro ⟨uri, huri, hreceived⟩
    obtain ⟨w, hw, hnormal⟩ := Except.bind_eq_ok.1 hreceived
    exact (hread w (parseUri_eq_ok.1 hw)).1 ⟨uri, huri, hnormal⟩
  · rintro ⟨hscheme, hhost, hport, hpath⟩
    have hvalidPath : pctValid isPathChar (front r.path) = true := by
      rw [← pctValid_slashed, ← hpath, rootedPath]
      split
      · decide
      · exact hu.2.2.2.2.1
    obtain ⟨w, hw⟩ := exists_parse_contactedUrl (r := r) ha hvalidPath hquery
    obtain ⟨uri, huri, hnormal⟩ := (hread w hw).2 ⟨hscheme, hhost, hport, hpath⟩
    exact ⟨uri, huri, Except.bind_eq_ok.2 ⟨w, parseUri_eq_ok.2 hw, hnormal⟩⟩

end

/-! ## What the client signs -/

theorem setHost_eq_ok {u v : Uri} {h : Bytes} (hv : setHost u h = .ok v) :
    validHost h = true ∧ v = { u with host := some h } := by
  rw [setHost] at hv
  split at hv
  · next hvalid =>
      rw [Bool.and_eq_true] at hvalid
      exact ⟨hvalid.1, (Except.ok.inj hv).symm⟩
  · simp at hv

theorem setMissingHost_of_isSome {u : Uri} (h : u.host.isSome = true) (host : Option Bytes) :
    setMissingHost u host = .ok u := by
  obtain ⟨g, hg⟩ := Option.isSome_iff_exists.1 h
  simp only [setMissingHost, hg]

theorem setMissingHost_some {u v : Uri} {a : Bytes} (h : setMissingHost u (some a) = .ok v) :
    v = { u with host := some (u.host.getD a) } := by
  cases hh : u.host with
  | none =>
      simp only [setMissingHost, hh] at h
      exact (setHost_eq_ok h).2
  | some g =>
      rw [setMissingHost_of_isSome (by rw [hh]; rfl)] at h
      rw [← Except.ok.inj h, Option.getD_some, ← hh]

section

variable {http : Connection} {o : RequestOptions} {a target full : Bytes} {u : Uri}

/-- The host that is signed: that of the target or of the connection, and with a request endpoint the
    site. -/
def signedHost (o : RequestOptions) (a : Bytes) (u : Uri) : Bytes :=
  if o.requestEndpoint.isSome then (o.site.map stripHttp).getD (u.host.getD a) else u.host.getD a

/-- What `oauth_full_request_uri` makes of a target. -/
theorem fillRequestUri_eq_ok (ha : http.address = some a) (hu : u.Valid) {v : Uri}
    (h : fillRequestUri http o u = .ok v) :
    validHost (signedHost o a u) = true ∧
      v = { u with
        scheme := some ((u.scheme.or ((o.site.bind Uri.parse).bind Uri.scheme)).getD http.scheme)
        host := some (signedHost o a u)
        port := fillPort u http.port } := by
  rw [fillRequestUri, ha] at h
  obtain ⟨first, hfirst, h⟩ := Except.bind_eq_ok.1 h
  obtain rfl := setMissingHost_some hfirst
  have hhost : validHost (u.host.getD a) = true := by
    cases hh : u.host with
    | none => exact http.address_valid a ha
    | some g => exact hu.2.2.1 g hh
  generalize o.site.bind Uri.parse = parsed at h ⊢
  -- once there is a host, no other one is filled in
  have hrest : ∀ w : Uri, w.host.isSome = true → w.scheme = u.scheme →
      (do
        let w ← setMissingHost w (parsed.bind Uri.host)
        let w ← setMissingHost w (some (ascii "localhost"))
        .ok { w with scheme := some ((w.scheme.or (parsed.bind Uri.scheme)).getD http.scheme) })
          = Except.ok v →
      v = { w with scheme := some ((u.scheme.or (parsed.bind Uri.scheme)).getD http.scheme) } := by
    intro w hw hscheme h
    rw [setMissingHost_of_isSome hw, Except.ok_bind, setMissingHost_of_isSome hw, Except.ok_bind,
      hscheme] at h
    exact (Except.ok.inj h).symm
  rw [signedHost]
  cases hend : o.requestEndpoint with
  | none =>
      simp only [hend, Except.ok_bind] at h
      refine ⟨hhost, hrest _ ?_ ?_ h⟩
      · rfl
      · rfl
  | some endpoint =>
      cases hsite : o.site with
      | none =>
          simp only [hend, hsite, Except.ok_bind] at h
          refine ⟨hhost, hrest _ ?_ ?_ h⟩
          · rfl
          · rfl
      | some site =>
          simp only [hend, hsite] at h
          obtain ⟨w, hw, h⟩ := Except.bind_eq_ok.1 h
          obtain ⟨hvalid, rfl⟩ := setHost_eq_ok hw
          refine ⟨hvalid, hrest _ ?_ ?_ h⟩
          · rfl
          · rfl

/-- The URI is signed with its path rooted. -/
theorem uriToS_eq_print {v : Uri} (hv : v.host.isSome = true) :
    uriToS v = print { v with path := if v.path = [] then [] else slashed v.path } := by
  obtain ⟨scheme, userinfo, host, port, path, query, fragment⟩ := v
  have hhost : host.isSome = true := hv
  cases path with
  | nil => simp [uriToS]
  | cons b rest =>
      by_cases hb : b = slash
      · simp [uriToS, hb, slashed]
      · simp [uriToS, hhost, hb, slashed]

/-- A target with a scheme or a host is longer than its path. -/
theorem length_path_of_namesOrigin (hu : Uri.parse target = some u) (hnames : u.NamesOrigin) :
    u.path.length + 2 ≤ (front target).length := by
  obtain ⟨hscheme, hhier, -, -⟩ := components_of_parse hu
  cases hs : u.scheme with
  | none =>
      have hhost : u.host.isSome = true := by
        rcases hnames with h | h
        · simp [hs] at h
        · exact h
      rcases front_of_parse hu hs with ⟨hnone, -, -⟩ | ⟨authority, -, hfront⟩
      · simp [hnone] at hhost
      · rw [hfront]
        simp only [List.length_cons, List.length_append]
        omega
  | some s =>
      -- a scheme has a letter, and a colon follows it
      have hsplit : (splitScheme (front target)).2.length + 2 ≤ (front target).length := by
        rw [hs] at hscheme
        rw [splitScheme] at hscheme ⊢
        split at hscheme
        · next x rest hcut =>
            split at hscheme
            · next hvalid =>
                have htext : front target = x ++ colon :: rest := by
                  rw [← uncut_cut colon (front target), hcut]
                  rfl
                have hne : x ≠ [] := by
                  rintro rfl
                  simp [validScheme, downcase] at hvalid
                have hpos := List.length_pos_iff.2 hne
                rw [hcut] at *
                simp only [hvalid, if_true]
                rw [htext, List.length_append, List.length_cons]
                omega
            · simp at hscheme
        · simp at hscheme
      rcases splitHierarchy_cases hhier with ⟨-, -, -, hpath, -⟩ | ⟨authority, host, hrest, -⟩
      · rw [hpath]
        exact hsplit
      · rw [hrest] at hsplit
        simp only [List.length_cons, List.length_append] at hsplit
        omega

theorem length_slashed (p : Bytes) :
    p.length ≤ (slashed p).length ∧ (slashed p).length ≤ p.length + 1 := by
  rw [slashed]
  split
  · omega
  · rw [List.length_cons]
    omega

/-- A target that names neither scheme nor host is contacted on its own path. -/
theorem slashed_front_eq_iff (hu : Uri.parse target = some u) :
    slashed u.path = slashed (front target) ↔ ¬ u.NamesOrigin := by
  constructor
  · intro h hnames
    have hlength := length_path_of_namesOrigin hu hnames
    have hpath := (length_slashed u.path).2
    have hfront := (length_slashed (front target)).1
    rw [h] at hpath
    omega
  · intro h
    rw [NamesOrigin, not_or, Bool.not_eq_true, Bool.not_eq_true, Option.isSome_eq_false_iff,
      Option.isSome_eq_false_iff, Option.isNone_iff_eq_none, Option.isNone_iff_eq_none] at h
    rcases front_of_parse hu h.1 with ⟨-, hfront, -⟩ | ⟨authority, hhost, -⟩
    · rw [hfront]
    · simp [h.2] at hhost

/-- The URI that is signed, as it is read again. -/
def filledTarget (http : Connection) (o : RequestOptions) (a : Bytes) (u : Uri) : Uri :=
  { u with
    scheme := some ((u.scheme.or ((o.site.bind Uri.parse).bind Uri.scheme)).getD http.scheme)
    host := some (signedHost o a u)
    port := fillPort u http.port
    path := if u.path = [] then [] else slashed u.path }

theorem filledTarget_valid (hu : u.Valid) (hhost : validHost (signedHost o a u) = true) :
    (filledTarget http o a u).Valid := by
  obtain ⟨h1, h2, -, -, h5, -, h7, h8⟩ := hu
  refine ⟨?_, fun i hi => ⟨(h2 i hi).1, rfl⟩, ?_, fun _ => rfl, ?_, ?_, h7, h8⟩
  · intro s hs
    rw [filledTarget, Option.mem_def, Option.some.injEq] at hs
    rw [← hs]
    cases hscheme : u.scheme with
    | some t => exact h1 t hscheme
    | none =>
        rw [Option.none_or]
        cases hsite : (o.site.bind Uri.parse).bind Uri.scheme with
        | some t =>
            obtain ⟨site, hparse, ht⟩ := Option.bind_eq_some_iff.1 hsite
            obtain ⟨text, -, htext⟩ := Option.bind_eq_some_iff.1 hparse
            exact (valid_of_parse htext).1 t ht
        | none =>
            rcases scheme_cases http with h | h
            · rw [Option.getD_none, h]
              decide
            · rw [Option.getD_none, h]
              decide
  · intro h hh
    rw [filledTarget, Option.mem_def, Option.some.injEq] at hh
    rw [← hh]
    exact hhost
  · rw [filledTarget]
    split
    · rfl
    · rw [pctValid_slashed]
      exact h5
  · by_cases hp : u.path = []
    · simp [filledTarget, validPathStart, hp]
    · simp [filledTarget, validPathStart, hp, head?_slashed]

/-- Where the target names no origin, the connection and the site do. -/
theorem filledTarget_of_not_namesOrigin (hu : u.Valid) (h : ¬ u.NamesOrigin) :
    (filledTarget http o a u).scheme
        = some (((o.site.bind Uri.parse).bind Uri.scheme).getD http.scheme) ∧
      (filledTarget http o a u).host
        = some (if o.requestEndpoint.isSome then (o.site.map stripHttp).getD a else a) ∧
      (filledTarget http o a u).effectivePort = some http.port := by
  rw [NamesOrigin, not_or, Bool.not_eq_true, Bool.not_eq_true, Option.isSome_eq_false_iff,
    Option.isSome_eq_false_iff, Option.isNone_iff_eq_none, Option.isNone_iff_eq_none] at h
  have hport : u.port = none := by
    by_contra hne
    have hsome := hu.2.2.2.1 (Option.isSome_iff_ne_none.2 hne)
    simp [h.2] at hsome
  simp [filledTarget, signedHost, fillPort, effectivePort, h.1, h.2, hport]

/-- **What is signed for a request line normalizes as the URL contacted does exactly where the line names
    no origin, and site and endpoint do not say otherwise.** -/
theorem fullRequestUri_contacted_iff (ha : http.address = some a) {r : HttpRequest}
    (hquery : ∀ q ∈ queryPart r.path, q.all isQueryChar = true) (hu : parseUri r.path = .ok u)
    (hfull : oauthFullRequestUri http r.path o = .ok full) :
    (∃ uri, normalizeUri full = .ok uri ∧ normalizeUri (contactedUrl http r) = .ok uri) ↔
      ¬ u.NamesOrigin ∧ (∀ s ∈ (o.site.bind Uri.parse).bind Uri.scheme, s = http.scheme) ∧
        (o.requestEndpoint.isSome = true → ∀ site ∈ o.site, downcase (stripHttp site) = downcase a) := by
  have hparse := parseUri_eq_ok.1 hu
  have hvalid := valid_of_parse hparse
  obtain ⟨u', hu', hfull⟩ := Except.bind_eq_ok.1 hfull
  obtain rfl : u = u' := Except.ok.inj (hu.symm.trans hu')
  obtain ⟨v, hv, hfull⟩ := Except.bind_eq_ok.1 hfull
  obtain ⟨hhost, rfl⟩ := fillRequestUri_eq_ok ha hvalid hv
  have hprint : (filledTarget http o a u).print = full := by
    rw [uriToS_eq_print rfl] at hfull
    exact Except.ok.inj hfull
  have hfilled : (filledTarget http o a u).Valid := filledTarget_valid hvalid hhost
  have hnormal : normalizeUri full = normalizeParsedUri (filledTarget http o a u) := by
    rw [← hprint, normalizeUri, parseUri_eq_ok.2 (parse_print hfilled), Except.ok_bind]
    rfl
  have hrooted : rootedPath (filledTarget http o a u) = slashed u.path := by
    by_cases hp : u.path = []
    · simp [rootedPath, filledTarget, hp, slashed]
    · have hne : slashed u.path ≠ [] := by
        intro hnil
        have hhead := head?_slashed u.path
        simp [hnil] at hhead
      simp [rootedPath, filledTarget, hp, hne]
  rw [hnormal, normalizes_contactedUrl_iff ha hquery hfilled, hrooted, slashed_front_eq_iff hparse]
  -- scheme, host and port are compared where the target names no origin
  have hfields : ¬ u.NamesOrigin →
      ((filledTarget http o a u).scheme = some http.scheme ∧
        (filledTarget http o a u).host.map downcase = some (downcase a) ∧
        (filledTarget http o a u).effectivePort = some http.port ↔
      (∀ s ∈ (o.site.bind Uri.parse).bind Uri.scheme, s = http.scheme) ∧
        (o.requestEndpoint.isSome = true →
          ∀ site ∈ o.site, downcase (stripHttp site) = downcase a)) := by
    intro hnames
    obtain ⟨hscheme, hhost, hport⟩ := filledTarget_of_not_namesOrigin (o := o) (a := a) hvalid hnames
    rw [hscheme, hhost, hport]
    have hsite : some (((o.site.bind Uri.parse).bind Uri.scheme).getD http.scheme) = some http.scheme ↔
        ∀ s ∈ (o.site.bind Uri.parse).bind Uri.scheme, s = http.scheme := by
      cases (o.site.bind Uri.parse).bind Uri.scheme with
      | none => simp
      | some s => simp
    rw [hsite]
    cases o.requestEndpoint with
    | none => simp
    | some endpoint => cases o.site <;> simp
  constructor
  · rintro ⟨hscheme, hhost, hport, hnames⟩
    exact ⟨hnames, (hfields hnames).1 ⟨hscheme, hhost, hport⟩⟩
  · rintro ⟨hnames, hsite⟩
    obtain ⟨hscheme, hhost, hport⟩ := (hfields hnames).2 hsite
    exact ⟨hscheme, hhost, hport, hnames⟩

/-- **The URL that is signed normalizes as the URL contacted does exactly where it is that URL.** -/
theorem signsUrl_iff (ha : http.address = some a) {r : HttpRequest}
    (hfull : oauthFullRequestUri http r.path o = .ok full) :
    (∃ uri, normalizeUri (o.requestUri.getD full) = .ok uri ∧
        normalizeUri (contactedUrl http r) = .ok uri) ↔ SignsUrl http a r.path o := by
  obtain ⟨u, hu, -⟩ := Except.bind_eq_ok.1 hfull
  -- the query of a target that is read is one
  have hquery : ∀ q ∈ queryPart r.path, q.all isQueryChar = true := by
    obtain ⟨raw, hraw, hvalid, -⟩ := parse_eq_some.1 (parseUri_eq_ok.1 hu)
    intro q hq
    rw [← (components_of_split hraw).2.2.1] at hq
    exact hvalid.2.2.2.2.2.2.1 q hq
  cases hrequest : o.requestUri with
  | none =>
      rw [Option.getD_none, fullRequestUri_contacted_iff ha hquery hu hfull]
      constructor
      · rintro ⟨hnames, hsite⟩
        refine ⟨fun text htext => by simp [hrequest] at htext, fun _ => ⟨?_, hsite⟩⟩
        intro u' hu'
        exact Except.ok.inj (hu.symm.trans hu') ▸ hnames
      · intro h
        exact ⟨(h.derived hrequest).1 u hu, (h.derived hrequest).2⟩
  | some text =>
      rw [Option.getD_some]
      constructor
      · rintro ⟨uri, htext, hreceived⟩
        obtain ⟨v, hv, hnormal⟩ := Except.bind_eq_ok.1 htext
        refine ⟨?_, fun hnone => by simp [hrequest] at hnone⟩
        intro text' htext'
        obtain rfl : text = text' := Option.some.inj (hrequest.symm.trans htext')
        exact ⟨v, hv, (normalizes_contactedUrl_iff ha hquery (valid_of_parseUri hv)).1
          ⟨uri, hnormal, hreceived⟩⟩
      · intro h
        obtain ⟨v, hv, hfields⟩ := h.given text hrequest
        obtain ⟨uri, hnormal, hreceived⟩ :=
          (normalizes_contactedUrl_iff ha hquery (valid_of_parseUri hv)).2 hfields
        exact ⟨uri, Except.bind_eq_ok.2 ⟨v, hv, hnormal⟩, hreceived⟩

end

end RubyOAuth
