import RubyOAuth.Proofs.BaseString
import RubyOAuth.Proofs.Requests
import RubyOAuth.Proofs.Signing

set_option autoImplicit false

/-! # The signed URL and the URL contacted

The connection and the signed URI are derived from the path by two chains of defaults. They part where
the path says another scheme than the site (the signed URI takes the site's), and where the request
target does not begin with exactly one slash (it is parsed again as a reference). -/

namespace RubyOAuth

open Bytes Uri

/-! ## What is contacted, and what is signed -/

/-- The URL that a request line reaches over a connection. -/
def contactedUri (conn : Connection) (line : Bytes) : Uri where
  scheme := some (if conn.useSsl then ascii "https" else ascii "http")
  userinfo := none
  host := conn.address
  port := some conn.port
  path := front line
  query := (cut question (cut sharp line).1).2
  fragment := none

/-- The URI in the base string of the signature that `oauth!` makes. -/
def signedUri (rt : Runtime) (c : Consumer) (token : Option Token) (o : CallOptions) (g : Generated)
    (hop : Hop) : Except RubyError Bytes := do
  let helper ← signingHelper rt hop.connection hop.unsigned c token (c.mergeOptions o) g
  let options := match (c.mergeOptions o).scheme with
    | .header => helper.signatureOptions helper.oauthParameters
    | .body | .queryString => helper.plainOptions
  (helper.request.proxy options).normalizedUri

/-- The signed URI is the normalized form of the URL contacted. -/
def SignsContactedUrl (rt : Runtime) (c : Consumer) (token : Option Token) (o : CallOptions)
    (g : Generated) (hop : Hop) : Prop :=
  ∃ uri, signedUri rt c token o g hop = .ok uri ∧
    normalizeParsedUri (contactedUri hop.connection hop.request.path) = .ok uri

instance (rt : Runtime) (c : Consumer) (token : Option Token) (o : CallOptions) (g : Generated)
    (hop : Hop) : Decidable (SignsContactedUrl rt c token o g hop) :=
  match h : signedUri rt c token o g hop with
  | .error _ => .isFalse (fun ⟨_, hu, _⟩ => by simp [h] at hu)
  | .ok uri =>
    decidable_of_iff
      (normalizeParsedUri (contactedUri hop.connection hop.request.path) = .ok uri)
      ⟨fun hn => ⟨uri, h, hn⟩, fun ⟨v, hv, hn⟩ => by
        rw [h, Except.ok.injEq] at hv
        exact hv ▸ hn⟩

/-! ## The condition -/

/-- The connection uses TLS exactly where the site's scheme is `https`, as the path and the connection
    that is there say. -/
def ContactsAsSite (site : Uri) (st : ConsumerState) (path : Bytes) : Prop :=
  if hasSlashLine path then
    ∀ conn, st.http = some conn →
      conn.address.isSome = true ∧ conn.useSsl = (site.scheme == some (ascii "https"))
  else
    ∀ u, parseUri path = .ok u → u.host.isSome = true →
      (u.scheme == some (ascii "https")) = (site.scheme == some (ascii "https"))

/-- Before its query the request target is empty or begins with one slash. -/
def OneSlash (target : Bytes) : Prop :=
  front target = [] ∨
    ((front target).head? = some slash ∧ startsWith [slash, slash] (front target) = false)

/-- What is asked for, with the site's path in front of it, begins with one slash. -/
def TargetHasOneSlash (c : Consumer) (site : Uri) (st : ConsumerState) (path : Bytes) : Prop :=
  ∀ conn p, chosenConnection c st path = .ok conn → requestedPath path = .ok p →
    OneSlash (prefixPath site conn p)

/-! ## The request line -/

variable {rt : Runtime} {c : Consumer} {token : Option Token} {o : CallOptions} {g : Generated}

theorem setQuery_eq_ok {u v : Uri} {q : Bytes} (h : setQuery u q = .ok v) :
    ∃ q', v = { u with query := some q' } := by
  rw [setQuery] at h
  split_ifs at h
  exact ⟨_, (Except.ok.inj h).symm⟩

/-- Signing leaves the request line alone, or prints it again with a query. -/
theorem path_of_oauth {conn : Connection} {r signed : HttpRequest}
    (h : oauth rt conn r c token (c.mergeOptions o) g = .ok signed) :
    signed.path = r.path ∨
      ∃ u q rest, parseUri r.path = .ok u ∧
        signed.path = parsedToS { u with query := some q } ++ ampersand :: rest := by
  rw [oauth, Except.bind_eq_ok] at h
  obtain ⟨helper, hhelper, h⟩ := h
  have hpath : helper.request.path = r.path := by
    obtain ⟨full, hash, -, hhelper⟩ := signingHelper_eq_ok hhelper
    rw [hhelper]
    exact amendUserAgent_path r
  split at h
  · left
    obtain ⟨value, -, h⟩ := Except.bind_eq_ok.1 h
    rw [(setHeader_eq_ok.1 h).2, ← hpath]
    rfl
  · left
    obtain ⟨params, -, h⟩ := Except.bind_eq_ok.1 h
    obtain ⟨params', -, h⟩ := Except.bind_eq_ok.1 h
    obtain ⟨sig, -, h⟩ := Except.bind_eq_ok.1 h
    rw [Except.ok.injEq] at h
    rw [← h, ← hpath]
    rfl
  · right
    obtain ⟨u, hu, h⟩ := Except.bind_eq_ok.1 h
    obtain ⟨v, hv, h⟩ := Except.bind_eq_ok.1 h
    obtain ⟨sig, -, h⟩ := Except.bind_eq_ok.1 h
    rw [Except.ok.injEq] at h
    obtain ⟨q, rfl⟩ := setQuery_eq_ok hv
    refine ⟨u, q, ascii "oauth_signature=" ++ escapeBytes sig, hpath ▸ hu, ?_⟩
    have hsplit : ascii "&oauth_signature=" = ampersand :: ascii "oauth_signature=" := by decide
    rw [← h]
    simp only [hsplit, List.append_assoc, List.cons_append]

/-- The URI as it is printed after parsing: without the default port of its scheme. -/
def withoutDefaultPort (u : Uri) : Uri :=
  { u with port := u.port.filter (fun p => some p != u.scheme.bind defaultPort) }

theorem valid_withoutDefaultPort {u : Uri} (hu : u.Valid) : (withoutDefaultPort u).Valid := by
  obtain ⟨h1, h2, h3, h4, h5, h6, h7, h8⟩ := hu
  refine ⟨h1, h2, h3, fun hp => h4 ?_, h5, h6, h7, h8⟩
  cases hport : u.port with
  | none => simp [withoutDefaultPort, hport] at hp
  | some n => rfl

theorem uriToS_of_validPathStart {u : Uri} (hu : u.validPathStart = true) :
    uriToS u = u.print := by
  rw [uriToS, if_neg]
  intro hc
  simp only [Bool.and_eq_true, bne_iff_ne, ne_eq, Bool.not_eq_true'] at hc
  obtain ⟨⟨hh, hempty⟩, hslash⟩ := hc
  obtain ⟨h, hh⟩ := Option.isSome_iff_exists.1 hh
  rw [validPathStart, hh] at hu
  simp only [hempty, Bool.false_or, beq_iff_eq] at hu
  exact hslash hu

/-- The front of the signed request line: the path, or two slashes, an authority and the path. -/
theorem front_of_oauth {conn : Connection} {r signed : HttpRequest} {u : Uri}
    (h : oauth rt conn r c token (c.mergeOptions o) g = .ok signed)
    (hu : parseUri r.path = .ok u) (hs : u.scheme = none) :
    (u.host = none ∧ front signed.path = u.path) ∨
      ∃ authority, u.host.isSome = true ∧
        front signed.path = slash :: slash :: (authority ++ u.path) := by
  rcases path_of_oauth h with hpath | ⟨u', q, rest, hu', hpath⟩
  · rw [hpath]
    rcases front_of_parse (parseUri_eq_ok.1 hu) hs with ⟨hh, hf, -⟩ | ⟨a, hh, hf⟩
    · exact .inl ⟨hh, hf⟩
    · exact .inr ⟨a, hh, hf⟩
  · rw [hu, Except.ok.injEq] at hu'
    subst hu'
    have hvalid := valid_of_parseUri hu
    -- the URI as it is printed: without a default port, with the new query
    let v : Uri := withoutDefaultPort u
    have hvv : v.Valid := valid_withoutDefaultPort hvalid
    have hprint : ∃ t, signed.path = printHierarchy v ++ question :: t := by
      have hw : ({ v with query := some q } : Uri).validPathStart = true := hvv.2.2.2.2.2.1
      have hto : parsedToS { u with query := some q } = ({ v with query := some q } : Uri).print :=
        uriToS_of_validPathStart hw
      rw [hpath, hto, print]
      cases hf : u.fragment with
      | none => exact ⟨q ++ ampersand :: rest, by
            simp [uncut, v, withoutDefaultPort, hf, printHierarchy, printAuthority]⟩
      | some f =>
          exact ⟨q ++ sharp :: (f ++ ampersand :: rest),
            by
            simp [uncut, v, withoutDefaultPort, hf, printHierarchy, printAuthority]⟩
    obtain ⟨t, ht⟩ := hprint
    have hno : ∀ b, isPathChar b = false → b ≠ lbracket → b ≠ rbracket → b ≠ percent →
        PercentCode.isHex b = false → b ∉ printHierarchy v := fun b => not_mem_printHierarchy hvv
    rw [ht, front_of_query (hno sharp (by decide) (by decide) (by decide) (by decide) (by decide))
      (hno question (by decide) (by decide) (by decide) (by decide) (by decide))]
    have hvs : v.scheme = none := hs
    cases hh : u.host with
    | none =>
        have hvh : v.host = none := hh
        left
        rw [printHierarchy, printAuthority, hvs, hvh]
        exact ⟨rfl, rfl⟩
    | some k =>
        have hvh : v.host = some k := hh
        right
        refine ⟨printUserinfo v.userinfo ++ (k ++ printPort v.port), rfl, ?_⟩
        rw [printHierarchy, printAuthority, hvs, hvh]
        rfl

/-! ## The signed URI -/

/-- The signed URI of a request target `u` without scheme: scheme of the site, host and port of the
    connection where the target has none, and a slash before the path. -/
def filledUri (site : Uri) (conn : Connection) (a : Bytes) (u : Uri) : Uri :=
  { u with
    scheme := site.scheme
    host := some (u.host.getD a)
    port := some (u.port.getD conn.port)
    path := if !u.path.isEmpty && u.path.head? != some slash then slash :: u.path else u.path }

section

variable {site : Uri} (hsite : parseUri c.site = .ok site) (hend : c.options.requestEndpoint = none)
  (habs : AbsoluteHttp site)

include hsite habs in
theorem site_of_absoluteHttp : c.options.site.bind Uri.parse = some site := by
  have hparse := parseUri_eq_ok.1 hsite
  cases hs : c.options.site with
  | none =>
      -- the empty text is a URI without a host
      rw [Consumer.site, hs, Option.getD_none] at hparse
      have hempty : parse [] = some ⟨none, none, none, none, [], none, none⟩ := by decide
      rw [hempty, Option.some.injEq] at hparse
      have hhost := habs.2
      simp [← hparse] at hhost
  | some s => rwa [Consumer.site, hs, Option.getD_some] at hparse

include hsite hend habs in
/-- What `oauth_full_request_uri` gives for a target without scheme. -/
theorem oauthFullRequestUri_eq {conn : Connection} {a target : Bytes} {u : Uri}
    (ha : conn.address = some a) (hu : parseUri target = .ok u) (hs : u.scheme = none) :
    oauthFullRequestUri conn target (c.mergeOptions o) = .ok (filledUri site conn a u).print := by
  have hvalid := valid_of_parseUri hu
  have hva : validHost a = true := conn.address_valid a ha
  obtain ⟨s, hscheme⟩ : ∃ s, site.scheme = some s := by
    rcases habs.1 with h | h
    · exact ⟨_, h⟩
    · exact ⟨_, h⟩
  have hhost : setMissingHost u (some a) = .ok { u with host := some (u.host.getD a) } := by
    cases hh : u.host with
    | none =>
        simp only [setMissingHost, hh, setHost, hva, isOpaque_of_scheme hs, Option.getD_none]
        rfl
    | some h =>
        simp only [setMissingHost, hh, Option.getD_some]
        rw [← hh]
  have hbind : (c.mergeOptions o).site.bind Uri.parse = some site := site_of_absoluteHttp hsite habs
  have hnone : (c.mergeOptions o).requestEndpoint = none := hend
  have hfill : fillRequestUri conn (c.mergeOptions o) u
      = .ok { u with
              scheme := site.scheme
              host := some (u.host.getD a)
              port := some (u.port.getD conn.port) } := by
    rw [fillRequestUri, ha, hhost]
    simp [Except.ok_bind, hbind, hnone, setMissingHost, fillPort, hs, hscheme]
  rw [oauthFullRequestUri, hu, Except.ok_bind, hfill, Except.ok_bind, uriToS]
  simp only [Option.isSome_some, Bool.true_and, filledUri]
  split <;> rfl

theorem filledUri_valid (hsv : site.Valid) {conn : Connection} {a : Bytes} {u : Uri}
    (ha : conn.address = some a) (hu : u.Valid) : (filledUri site conn a u).Valid := by
  obtain ⟨-, h2, h3, h4, h5, h6, h7, h8⟩ := hu
  refine ⟨hsv.1, fun i hi => ⟨(h2 i hi).1, rfl⟩, ?_, fun _ => rfl, ?_, ?_, h7, h8⟩
  · intro h hh
    simp only [filledUri, Option.mem_def, Option.some.injEq] at hh
    subst hh
    cases hu : u.host with
    | none => exact conn.address_valid a ha
    | some g => exact h3 g hu
  · simp only [filledUri]
    split
    · rw [pctValid_slash_cons]
      exact h5
    · exact h5
  · simp only [filledUri, validPathStart]
    split
    · rfl
    · next hno =>
        cases hp : u.path with
        | nil => rfl
        | cons b rest => simpa [hp] using hno

end

/-! ## Comparing the two -/

/-- Host and port as `normalized_uri` writes them. -/
def authorityText (u : Uri) : Bytes := downcase (u.host.getD []) ++ normalizedPort u (u.scheme.getD [])

theorem normalizeParsedUri_eq {u : Uri} (ha : AbsoluteHttp u) {s : Bytes} (hs : u.scheme = some s) :
    normalizeParsedUri u = .ok (s ++ (ascii "://" ++ (authorityText u ++ rootedPath u))) := by
  obtain ⟨h, hh⟩ := Option.isSome_iff_exists.1 ha.2
  obtain ⟨s', -, hs', -, hlow, -⟩ := defaultPort_of_absoluteHttp ha
  have hss : s = s' := Option.some.inj (hs.symm.trans hs')
  subst hss
  simp only [normalizeParsedUri, hs, hh, authorityText, rootedPath, hlow, Option.getD_some,
    List.append_assoc]

theorem not_mem_authorityText {u : Uri} (hv : ∀ h ∈ u.host, validHost h = true) :
    slash ∉ authorityText u := by
  have hdig : ∀ n, slash ∉ decimal n := fun n => not_mem_decimal (by decide)
  rw [authorityText, List.mem_append, not_or]
  constructor
  · rw [mem_downcase_iff (by decide)]
    cases hh : u.host with
    | none => simp
    | some h =>
        exact not_mem_of_validHost (hv h hh) (by decide) (by decide) (by decide) (by decide)
          (by decide)
  · have hcolon : slash ≠ colon := by decide
    rw [normalizedPort]
    split
    · cases u.effectivePort with
      | none => simp [hcolon]
      | some n => simp [hcolon, hdig n]
    · simp

theorem head?_rootedPath {u : Uri} (h : u.path = [] ∨ u.path.head? = some slash) :
    (rootedPath u).head? = some slash := by
  rw [rootedPath]
  split
  · rfl
  · next hne => exact h.resolve_left hne

/-- Text without a slash and rooted text after it can be told apart. -/
theorem rooted_append_inj {a a' p p' : Bytes} (ha : slash ∉ a) (ha' : slash ∉ a')
    (hp : p.head? = some slash) (hp' : p'.head? = some slash) (h : a ++ p = a' ++ p') :
    a = a' ∧ p = p' := by
  obtain ⟨t, rfl⟩ : ∃ t, p = slash :: t := by
    cases p with
    | nil => simp at hp
    | cons b t => exact ⟨t, by rw [List.head?_cons, Option.some.injEq] at hp; rw [hp]⟩
  obtain ⟨t', rfl⟩ : ∃ t, p' = slash :: t := by
    cases p' with
    | nil => simp at hp'
    | cons b t => exact ⟨t, by rw [List.head?_cons, Option.some.injEq] at hp'; rw [hp']⟩
  have hcut := congrArg (cut slash) h
  rw [cut_append ha, cut_append ha', Prod.mk.injEq, Option.some.injEq] at hcut
  exact ⟨hcut.1, by rw [hcut.2]⟩

/-- `http://` and `https://` can be told apart. -/
theorem scheme_append_inj {s s' x x' : Bytes} (hs : s = ascii "http" ∨ s = ascii "https")
    (hs' : s' = ascii "http" ∨ s' = ascii "https")
    (h : s ++ (ascii "://" ++ x) = s' ++ (ascii "://" ++ x')) : s = s' ∧ x = x' := by
  have hascii : ascii "://" = [colon, slash, slash] := by decide
  have hcolon : ∀ t, ascii "://" ++ t = colon :: ([slash, slash] ++ t) := fun t => by rw [hascii]; rfl
  have hno : ∀ t, (t = ascii "http" ∨ t = ascii "https") → colon ∉ t := by
    rintro t (rfl | rfl)
    · decide
    · decide
  rw [hcolon, hcolon] at h
  have hcut := congrArg (cut colon) h
  rw [cut_append (hno s hs), cut_append (hno s' hs'), Prod.mk.injEq, Option.some.injEq] at hcut
  exact ⟨hcut.1, List.append_cancel_left hcut.2⟩

theorem useSsl_iff {site : Uri} (habs : AbsoluteHttp site) (conn : Connection) (line : Bytes) :
    (contactedUri conn line).scheme = site.scheme ↔
      conn.useSsl = (site.scheme == some (ascii "https")) := by
  have hne : ascii "http" ≠ ascii "https" := by decide
  rcases habs.1 with hs | hs
  · cases hssl : conn.useSsl with
    | true => simp [contactedUri, hssl, hs, hne, hne.symm]
    | false => simp [contactedUri, hssl, hs, hne]
  · cases hssl : conn.useSsl with
    | true => simp [contactedUri, hssl, hs]
    | false => simp [contactedUri, hssl, hs, hne]

/-- **Over a target without scheme the two agree on exactly this.** -/
theorem normalized_contactedUri_iff {site : Uri} (habs : AbsoluteHttp site) (hsv : site.Valid)
    {conn : Connection} {a line : Bytes} {u : Uri} (ha : conn.address = some a) (hu : u.Valid)
    (hline : (u.host = none ∧ front line = u.path) ∨
      ∃ authority, u.host.isSome = true ∧ front line = slash :: slash :: (authority ++ u.path)) :
    normalizeParsedUri (contactedUri conn line) = normalizeParsedUri (filledUri site conn a u) ↔
      conn.useSsl = (site.scheme == some (ascii "https")) ∧ u.host = none ∧
        (u.path = [] ∨ u.path.head? = some slash) := by
  have hfilled : AbsoluteHttp (filledUri site conn a u) := ⟨habs.1, rfl⟩
  have hcontacted : AbsoluteHttp (contactedUri conn line) := by
    refine ⟨?_, by rw [contactedUri, ha]; rfl⟩
    cases hssl : conn.useSsl <;> simp [contactedUri, hssl]
  obtain ⟨s, hs⟩ : ∃ s, (contactedUri conn line).scheme = some s := ⟨_, rfl⟩
  obtain ⟨s', hs'⟩ : ∃ s, (filledUri site conn a u).scheme = some s := by
    rcases hfilled.1 with h | h
    · exact ⟨_, h⟩
    · exact ⟨_, h⟩
  have hscheme : s = s' ↔ conn.useSsl = (site.scheme == some (ascii "https")) := by
    rw [← useSsl_iff habs conn line, hs, show site.scheme = some s' from hs', Option.some.injEq]
  have hkind : ∀ {w : Uri} {t : Bytes}, AbsoluteHttp w → w.scheme = some t →
      t = ascii "http" ∨ t = ascii "https" := by
    intro w t hw ht
    simpa [ht] using hw.1
  rw [normalizeParsedUri_eq hcontacted hs, normalizeParsedUri_eq hfilled hs', Except.ok.injEq]
  rcases hline with ⟨hhost, hfront⟩ | ⟨authority, hhost, hfront⟩
  · -- host and port are those of the connection on both sides
    have hport : u.port = none := by
      by_contra hne
      have := hu.2.2.2.1 (Option.isSome_iff_ne_none.2 hne)
      simp [hhost] at this
    have hauth : s = s' → authorityText (contactedUri conn line)
        = authorityText (filledUri site conn a u) := by
      rintro rfl
      rw [authorityText, authorityText, hs, hs']
      simp [contactedUri, filledUri, normalizedPort, effectivePort, ha, hhost, hport]
    constructor
    · intro h
      obtain ⟨heq, hrest⟩ := scheme_append_inj (hkind hcontacted hs) (hkind hfilled hs') h
      refine ⟨hscheme.1 heq, hhost, ?_⟩
      rw [hauth heq] at hrest
      have hpath := List.append_cancel_left hrest
      by_contra hno
      rw [not_or] at hno
      have hslash : (!u.path.isEmpty && u.path.head? != some slash) = true := by
        simp [hno.1, hno.2]
      simp only [rootedPath, contactedUri, filledUri, hfront, hno.1, if_false, hslash, if_true] at hpath
      have hlen := congrArg List.length hpath
      simp at hlen
    · rintro ⟨hssl, -, hpath⟩
      have heq := hscheme.2 hssl
      have hslash : (!u.path.isEmpty && u.path.head? != some slash) = false := by
        rcases hpath with hp | hp
        · simp [hp]
        · simp [hp]
      have hrooted : rootedPath (contactedUri conn line) = rootedPath (filledUri site conn a u) := by
        simp only [rootedPath, contactedUri, filledUri, hfront, hslash, Bool.false_eq_true, if_false]
      rw [hauth heq, heq, hrooted]
  · -- the target is read as host and path, the contacted path is longer than that
    constructor
    · intro h
      exfalso
      obtain ⟨-, hrest⟩ := scheme_append_inj (hkind hcontacted hs) (hkind hfilled hs') h
      obtain ⟨k, hk⟩ := Option.isSome_iff_exists.1 hhost
      have hrooted : u.path = [] ∨ u.path.head? = some slash := by
        have hstart := hu.2.2.2.2.2.1
        rw [validPathStart, hk] at hstart
        simpa using hstart
      have hfrooted : (filledUri site conn a u).path = u.path := by
        rcases hrooted with hp | hp
        · simp [filledUri, hp]
        · simp [filledUri, hp]
      have hpath := (rooted_append_inj
        (not_mem_authorityText (fun h hh => conn.address_valid h hh))
        (not_mem_authorityText (filledUri_valid hsv ha hu).2.2.1)
        (head?_rootedPath (.inr (by rw [contactedUri, hfront]; rfl)))
        (head?_rootedPath (hfrooted ▸ hrooted)) hrest).2
      have hlen := congrArg List.length hpath
      rw [rootedPath, rootedPath, hfrooted, if_neg (by rw [contactedUri, hfront]; simp)] at hlen
      simp only [contactedUri, hfront, List.length_cons, List.length_append] at hlen
      split at hlen
      · simp at hlen
      · omega
    · rintro ⟨-, hnone, -⟩
      simp [hnone] at hhost

/-! ## The request target -/

/-- Data is no concern of method and path. -/
theorem setData_eq_ok {r r' : HttpRequest} {data : RequestData} (h : setData rt r data = .ok r') :
    r'.method = r.method ∧ r'.path = r.path := by
  unfold setData at h
  split at h
  · rw [← Except.ok.inj h]
    exact ⟨rfl, rfl⟩
  · obtain ⟨body, -, h⟩ := Except.bind_eq_ok.1 h
    rw [← Except.ok.inj h]
    exact ⟨rfl, rfl⟩
  · rw [← Except.ok.inj h]
    exact ⟨rfl, rfl⟩
  · split at h
    · rw [← Except.ok.inj h]
      exact ⟨rfl, rfl⟩
    · simp at h

theorem HttpRequest.new_eq_ok {m p : Bytes} {headers : List (Bytes × Bytes)} {permitted : Bool}
    {r : HttpRequest} (h : HttpRequest.new m p headers permitted = .ok r) :
    r.method = m ∧ r.path = p ∧ r.body = none ∧ r.bodyStream = none := by
  unfold HttpRequest.new at h
  split_ifs at h
  obtain ⟨hs, -, h⟩ := Except.bind_eq_ok.1 h
  rw [← Except.ok.inj h]
  exact ⟨rfl, rfl, rfl, rfl⟩

/-- `create_http_request` in its steps. -/
theorem createHttpRequest_eq_ok {conn : Connection} {method : HttpMethod} {p : Bytes}
    {data : RequestData} {headers : List (Bytes × Bytes)} {r : HttpRequest} :
    createHttpRequest rt c conn method p data headers = .ok r ↔ ∃ site cls first,
      parseUri c.site = .ok site ∧ method.requestClass = .ok cls ∧
      HttpRequest.new cls.1 (prefixPath site conn p) headers cls.2 = .ok first ∧
      (if method.takesData then
        setData rt (first.withHeader (ascii "Content-Length") (ascii "0")) data
        else .ok first) = .ok r := by
  unfold createHttpRequest
  simp only [Except.bind_eq_ok]
  constructor
  · rintro ⟨site, hsite, cls, hcls, first, hfirst, h⟩
    exact ⟨site, cls, first, hsite, hcls, hfirst, h⟩
  · rintro ⟨site, cls, first, hsite, hcls, hfirst, h⟩
    exact ⟨site, hsite, cls, hcls, first, hfirst, h⟩

theorem path_of_createHttpRequest {site : Uri} (hsite : parseUri c.site = .ok site)
    {conn : Connection} {method : HttpMethod} {p : Bytes} {data : RequestData}
    {headers : List (Bytes × Bytes)} {r : HttpRequest}
    (h : createHttpRequest rt c conn method p data headers = .ok r) :
    r.path = prefixPath site conn p := by
  obtain ⟨site', cls, first, hsite', -, hfirst, h⟩ := createHttpRequest_eq_ok.1 h
  obtain rfl : site = site' := Except.ok.inj (hsite.symm.trans hsite')
  obtain ⟨-, hpath, -⟩ := HttpRequest.new_eq_ok hfirst
  split at h
  · rw [(setData_eq_ok h).2, ← hpath]
    rfl
  · rw [← Except.ok.inj h, hpath]

theorem head?_of_hasSlashLine {p : Bytes} (hp : newline ∉ p) (h : hasSlashLine p = true) :
    p.head? = some slash := by
  have hsplit : p.splitOn newline = [p] := by
    have hone : ∀ q ∈ [p], newline ∉ q := fun q hq => List.mem_singleton.1 hq ▸ hp
    simpa [joinWith] using splitOn_joinWith hone (by simp)
  rw [hasSlashLine, hsplit] at h
  simpa [firstIsSlash] using h

/-- A URL is asked for over a connection of its own, by its path and query. -/
theorem hop_of_url {u : Uri} {path : Bytes} (hu : parseUri path = .ok u)
    (hscheme : u.scheme.isSome = true) (hhost : u.host.isSome = true)
    {site : Uri} (hsite : parseUri c.site = .ok site) (hend : c.options.requestEndpoint = none)
    {st : ConsumerState} {args : RequestArgs} {o : CallOptions} {x : Exchange} {hop : Hop}
    (hhop : hop ∈ (c.request rt st args (some path) o x).hops) :
    hop.connection.address = u.host ∧ hop.connection.port = u.effectivePort.getD 80 ∧
      hop.connection.useSsl = (u.scheme == some (ascii "https")) ∧
      hop.target = prefixPath site hop.connection u.pathQuery := by
  have hline : hasSlashLine path = false := by
    by_contra hno
    rw [Bool.not_eq_false] at hno
    have hparse := parseUri_eq_ok.1 hu
    have hhead := head?_of_hasSlashLine (not_mem_of_parse hparse (by decide) (by decide)) hno
    simp [scheme_of_slash hparse hhead] at hscheme
  obtain ⟨p, hp, hconn, hcreate, -⟩ := hop_of_request hhop
  rw [chosenConnection, hline] at hconn
  obtain ⟨v, hv, haddress, hport, hssl⟩ := createHttp_eq_ok hconn
  have hvu : v = u := by
    have hfirst : firstIsSlash path = false := by
      by_contra hf
      rw [Bool.not_eq_false, firstIsSlash, beq_iff_eq] at hf
      simp [hasSlashLine_of_head? hf] at hline
    have hnone : u.host.isNone = false := Option.isNone_eq_false_iff.2 hhost
    rw [connectionUri, Consumer.requestEndpoint, hend, Option.none_or] at hv
    simp only [hfirst, Bool.false_eq_true, if_false, hu, Except.ok_bind, hnone] at hv
    exact (Except.ok.inj hv).symm
  subst hvu
  have hpath : p = v.pathQuery := by
    have hop : v.isOpaque = false := isOpaque_of_host (valid_of_parseUri hu) hhost
    rw [requestedPath, hline, hu] at hp
    have hpv := Except.ok.inj hp
    rw [pathOfUri, hop] at hpv
    exact hpv.symm
  refine ⟨haddress, hport, hssl, ?_⟩
  rw [Hop.target, path_of_createHttpRequest hsite hcreate, hpath]

theorem front_nil : front [] = [] := rfl

/-- The front of text with a scheme, or with a slash or a query in front, is read at once. -/
theorem scheme_of_front_nil {s : Bytes} {u : Uri} (h : parse s = some u) (hs : front s = []) :
    u.scheme = none := by
  rw [(components_of_parse h).1, hs]
  rfl

/-- What is left of a URL begins with a slash, is a query, or is read as the URL without its
    fragment. -/
theorem scheme_of_pathOfUri {v u : Uri} (hv : v.Valid) (hhost : v.scheme = none → v.host = none)
    (h : parse (pathOfUri v) = some u) : u.scheme = none := by
  have hquestion : ∀ q : Bytes, front (question :: q) = [] := fun q =>
    front_of_query (s := []) (by simp) (by simp) q
  rw [pathOfUri] at h
  by_cases hop : v.isOpaque = true
  · rw [if_pos hop] at h
    exact scheme_of_front_nil h front_nil
  · rw [if_neg hop] at h
    by_cases hslash : v.path.head? = some slash
    · refine scheme_of_slash h ?_
      have hr := head?_requestTarget v
      rwa [requestTarget, if_pos hslash] at hr
    · by_cases hnil : v.path = []
      · refine scheme_of_front_nil h ?_
        rw [pathQuery, hnil]
        cases hq : v.query with
        | none => rfl
        | some q => exact hquestion q
      · -- a relative path: the text is printed back from `v` without its fragment
        have hscheme : v.scheme = none := by
          by_contra hne
          simp [isOpaque, Option.isSome_iff_ne_none.2 hne, hnil, hslash] at hop
        have hw : ({ v with fragment := none } : Uri).Valid := by
          obtain ⟨h1, h2, h3, h4, h5, h6, h7, -⟩ := hv
          exact ⟨h1, h2, h3, h4, h5, h6, h7, by simp⟩
        have hprint : pathQuery v = ({ v with fragment := none } : Uri).print := by
          simp [pathQuery, print, printHierarchy, printAuthority, hscheme, hhost hscheme,
            printScheme, uncut]
        rw [hprint, parse_print hw, Option.some.injEq] at h
        rw [← h]
        exact hscheme

/-- A request target has no scheme. -/
theorem scheme_of_target {site : Uri} (hsv : site.Valid) (habs : AbsoluteHttp site)
    {conn : Connection} {path p : Bytes} {u : Uri} (hp : requestedPath path = .ok p)
    (hu : parseUri (prefixPath site conn p) = .ok u) : u.scheme = none := by
  have hu := parseUri_eq_ok.1 hu
  have hsitePath : site.path = [] ∨ site.path.head? = some slash := by
    obtain ⟨k, hk⟩ := Option.isSome_iff_exists.1 habs.2
    have hstart := hsv.2.2.2.2.2.1
    rw [validPathStart, hk] at hstart
    simpa using hstart
  by_cases hhead : (prefixPath site conn p).head? = some slash
  · exact scheme_of_slash hu hhead
  · -- nothing stands in front of what is asked for
    have hsame : prefixPath site conn p = p := by
      rw [prefixPath] at hhead ⊢
      split
      · next hpre =>
          rw [if_pos hpre] at hhead
          rcases hsitePath with hnil | hslash
          · rw [hnil, List.nil_append]
          · cases hsp : site.path with
            | nil => rfl
            | cons b t =>
                rw [hsp, List.head?_cons] at hslash
                rw [hsp, List.cons_append, List.head?_cons] at hhead
                exact absurd hslash hhead
      · rfl
    rw [hsame] at hu hhead
    rw [requestedPath] at hp
    by_cases hline : hasSlashLine path = true
    · rw [if_pos hline, Except.ok.injEq] at hp
      subst hp
      exact absurd (head?_of_hasSlashLine (not_mem_of_parse hu (by decide) (by decide)) hline) hhead
    · rw [if_neg hline] at hp
      cases hv : parseUri path with
      | error e => simp [hv, Except.map] at hp
      | ok v =>
          rw [hv] at hp
          have hpv : pathOfUri v = p := Except.ok.inj hp
          refine scheme_of_pathOfUri (valid_of_parseUri hv) (fun hs => ?_) (hpv ▸ hu)
          by_contra hne
          have hslash := slash_of_host (parseUri_eq_ok.1 hv) hs (Option.isSome_iff_ne_none.2 hne)
          exact hline (hasSlashLine_of_head? hslash)

/-! ## The connection -/

/-- The chosen connection has an address and the site's TLS setting exactly where the path and the
    state say so. -/
theorem contactsAsSite_iff {site : Uri} (hsite : parseUri c.site = .ok site)
    (hend : c.options.requestEndpoint = none) (habs : AbsoluteHttp site) {st : ConsumerState}
    {path : Bytes} {conn : Connection} (hconn : chosenConnection c st path = .ok conn) :
    ContactsAsSite site st path ↔
      conn.address.isSome = true ∧ conn.useSsl = (site.scheme == some (ascii "https")) := by
  rw [chosenConnection] at hconn
  unfold ContactsAsSite
  by_cases hline : hasSlashLine path = true
  · rw [if_pos hline] at hconn ⊢
    rcases http_cases c st with ⟨d, hs, hc⟩ | ⟨d, hs, hd, hc⟩ | ⟨e, -, -, hc⟩
    · rw [hc, Except.ok.injEq] at hconn
      subst hconn
      simp [hs]
    · rw [hc, Except.ok.injEq] at hconn
      subst hconn
      obtain ⟨v, hv, hva, -, hvs⟩ := createHttp_eq_ok hd
      rw [connectionUri_none hsite hend, Except.ok.injEq] at hv
      subst hv
      simp [hs, hva, hvs, habs.2]
    · simp [hc] at hconn
  · rw [if_neg hline] at hconn ⊢
    obtain ⟨v, hv, hva, -, hvs⟩ := createHttp_eq_ok hconn
    rw [connectionUri, Consumer.requestEndpoint, hend, Option.none_or] at hv
    have hfirst : firstIsSlash path = false := by
      by_contra hf
      rw [Bool.not_eq_false, firstIsSlash, beq_iff_eq] at hf
      exact hline (hasSlashLine_of_head? hf)
    simp only [hfirst, Bool.false_eq_true, if_false, hsite] at hv
    obtain ⟨w, hw, hv⟩ := Except.bind_eq_ok.1 hv
    rw [hva, hvs]
    split_ifs at hv with hhost
    · -- no host: the connection is to the site
      rw [Except.ok.injEq] at hv
      subst hv
      have hnone : w.host.isSome = false := by simpa using hhost
      simp only [habs.2, and_self, iff_true]
      intro w' hw' hh
      rw [hw, Except.ok.injEq] at hw'
      simp [← hw', hnone] at hh
    · rw [Except.ok.injEq] at hv
      subst hv
      have hsome : w.host.isSome = true := Option.isSome_iff_ne_none.2 (by simpa using hhost)
      constructor
      · intro h
        exact ⟨hsome, h w hw hsome⟩
      · rintro ⟨-, h⟩ w' hw' -
        rw [hw, Except.ok.injEq] at hw'
        exact hw' ▸ h

/-! ## The signed URL is the URL contacted -/

theorem signedUri_eq {hop : Hop} {helper : ClientHelper}
    (h : signingHelper rt hop.connection hop.unsigned c token (c.mergeOptions o) g = .ok helper) :
    signedUri rt c token o g hop = normalizeUri helper.requestUri := by
  rw [signedUri, h, Except.ok_bind]
  cases (c.mergeOptions o).scheme <;> rfl

theorem oneSlash_iff {target : Bytes} {u : Uri} (hu : parseUri target = .ok u)
    (hs : u.scheme = none) :
    OneSlash target ↔ u.host = none ∧ (u.path = [] ∨ u.path.head? = some slash) := by
  unfold OneSlash
  rcases front_of_parse (parseUri_eq_ok.1 hu) hs with ⟨hh, hf, hno⟩ | ⟨a, hh, hf⟩
  · rw [hf] at hno
    simp [hf, hh, hno]
  · have hnone : u.host ≠ none := Option.isSome_iff_ne_none.1 hh
    simp [hf, hnone, startsWith]

/-- **The signed URL is the URL contacted exactly where the connection uses TLS as the site says and
    the request target begins with one slash.** -/
theorem signsContactedUrl_iff (rt : Runtime) (c : Consumer) (site : Uri)
    (hsite : parseUri c.site = .ok site) (habs : AbsoluteHttp site)
    (hend : c.options.requestEndpoint = none) (st : ConsumerState) (args : RequestArgs)
    (path : Bytes) (o : CallOptions) (x : Exchange) :
    ∀ hop ∈ (c.request rt st args (some path) o x).hops,
      (SignsContactedUrl rt c args.token o x.generated hop ↔
        ContactsAsSite site st path ∧ TargetHasOneSlash c site st path) := by
  intro hop hmem
  obtain ⟨p, hp, hconn, hcreate, hsign⟩ := hop_of_request hmem
  have hsv := valid_of_parseUri hsite
  have htarget := path_of_createHttpRequest hsite hcreate
  obtain ⟨helper, hhelper, -⟩ := Except.bind_eq_ok.1 hsign
  have hfull : oauthFullRequestUri hop.connection hop.unsigned.path (c.mergeOptions o)
      = .ok helper.requestUri := by
    obtain ⟨full, hash, hfull, hhelper⟩ := signingHelper_eq_ok hhelper
    rw [hfull, hhelper]
    rfl
  obtain ⟨u, hu, -⟩ := Except.bind_eq_ok.1 hfull
  have hs : u.scheme = none := scheme_of_target hsv habs hp (htarget ▸ hu)
  have hone : TargetHasOneSlash c site st path ↔ OneSlash hop.unsigned.path := by
    rw [htarget]
    constructor
    · intro h
      exact h _ _ hconn hp
    · intro h conn' p' hconn' hp'
      rw [hconn, Except.ok.injEq] at hconn'
      rw [hp, Except.ok.injEq] at hp'
      exact hconn' ▸ hp' ▸ h
  rw [hone, oneSlash_iff hu hs, contactsAsSite_iff hsite hend habs hconn]
  unfold SignsContactedUrl
  rw [signedUri_eq hhelper]
  cases ha : hop.connection.address with
  | none =>
      -- no address: there is no URL to speak of
      simp [normalizeParsedUri, contactedUri, ha]
  | some a =>
      rw [oauthFullRequestUri_eq hsite hend habs ha hu hs, Except.ok.injEq] at hfull
      have hfv := filledUri_valid hsv ha (valid_of_parseUri hu)
      have hnorm : normalizeUri helper.requestUri
          = normalizeParsedUri (filledUri site hop.connection a u) := by
        rw [← hfull, normalizeUri, parseUri_eq_ok.2 (parse_print hfv), Except.ok_bind]
        rfl
      have hok := normalizeParsedUri_of_absoluteHttp
        (show AbsoluteHttp (filledUri site hop.connection a u) from ⟨habs.1, rfl⟩)
      rw [hnorm, Option.isSome_some, eq_self_iff_true, true_and,
        ← normalized_contactedUri_iff habs hsv ha (valid_of_parseUri hu) (front_of_oauth hsign hu hs)]
      constructor
      · rintro ⟨uri, hsigned, hcontacted⟩
        rw [hsigned, hcontacted]
      · intro heq
        exact ⟨_, hok, heq.trans hok⟩

theorem exampleConsumer_signsContactedUrl_iff :
    parseUri exampleConsumer.site = .ok exampleSite ∧
      ∀ hop ∈ (exampleConsumer.request echoRuntime {} postArgs (some (ascii "/people")) {}
          (answer "")).hops,
        (SignsContactedUrl echoRuntime exampleConsumer none {} (answer "").generated hop ↔
          ContactsAsSite exampleSite {} (ascii "/people") ∧
            TargetHasOneSlash exampleConsumer exampleSite {} (ascii "/people")) := by
  have hsite : parseUri exampleConsumer.site = .ok exampleSite := by decide
  exact ⟨hsite, signsContactedUrl_iff echoRuntime exampleConsumer exampleSite hsite
    (by decide) rfl {} postArgs (ascii "/people") {} (answer "")⟩

/-- Site `https`, path with `http`: contacted without TLS, signed as `https`. -/
theorem secureConsumer_not_signsContactedUrl :
    parseUri secureConsumer.site = .ok { exampleSite with scheme := some (ascii "https") } ∧
      secureConsumer.options.requestEndpoint = none ∧
      ¬ ∀ hop ∈ (secureConsumer.request echoRuntime {} postArgs
          (some (ascii "http://example.com/people")) {} (answer "")).hops,
        SignsContactedUrl echoRuntime secureConsumer none {} (answer "").generated hop := by
  decide +kernel

end RubyOAuth
