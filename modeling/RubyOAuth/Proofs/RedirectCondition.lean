import RubyOAuth.Lib.DotSegments
import RubyOAuth.Lib.UriAppend
import RubyOAuth.Proofs.RedirectTarget

set_option autoImplicit false

/-! # Which redirects lead where they should

Whether the two readings of a redirect agree is decided by the form of the path that was asked for and
of `Location`, by the site, and by the host of the connection. A `Location` with an origin needs the
origin that the path names to be the one contacted, and no path of the site to be put in front; one
without needs the path it starts from to be read alike. -/

namespace RubyOAuth

open Bytes Uri

/-! ## The condition -/

/-- The origin that a path names, else that of the site. -/
def namedOrigin (site u : Uri) : Uri :=
  if u.NamesOrigin then { u with scheme := u.scheme.or site.scheme } else site

/-- A `Location` with an origin, on the URL contacted over `conn`: where it is at the origin that the
    path names, it is at the one contacted, and no path of the site is put in front; elsewhere it is
    refused only where it is not at the origin contacted, and followed as an HTTP URL with a path. -/
def OriginAgrees (c : Consumer) (site : Uri) (v : Visit) (u location : Uri) : Prop :=
  if tokenRequestCrossOrigin (namedOrigin site u) ((namedOrigin site u).resolve location) then
    if tokenRequestCrossOriginRedirects c v.options then
      location.scheme.or (namedOrigin site u).scheme = location.scheme.or v.hop.contacted.scheme ∧
        AbsoluteHttp ((namedOrigin site u).resolve location) ∧ location.path ≠ [] ∧
        location.QueryStored ∧ NoPrefix site location.host
    else ¬ v.hop.contacted.SameOrigin (v.hop.contacted.resolve location)
  else
    v.hop.contacted.SameOrigin (v.hop.contacted.resolve location) ∧
      hasRequestUri ((namedOrigin site u).resolve location) = true ∧ location.isOpaque = false ∧
      location.QueryStored ∧ NoPrefix site v.hop.connection.address

instance (c : Consumer) (site : Uri) (v : Visit) (u location : Uri) :
    Decidable (OriginAgrees c site v u location) := by
  unfold OriginAgrees; infer_instance

/-- What was asked for is a URL with a host. -/
def IsUrl (u : Uri) : Prop := u.scheme.isSome = true ∧ u.host.isSome = true

instance (u : Uri) : Decidable (IsUrl u) := by unfold IsUrl; infer_instance

/-- What was asked for is a path that begins with one slash. -/
def IsRooted (path : Bytes) (u : Uri) : Prop := path.head? = some slash ∧ u.host = none

instance (path : Bytes) (u : Uri) : Decidable (IsRooted path u) := by unfold IsRooted; infer_instance

/-- A `Location` without a path is one on the path asked for: read in full, without dot segments, and
    with its query as it is written. -/
def SamePathAgrees (site : Uri) (v : Visit) (u location : Uri) : Prop :=
  IsUrl u ∧ (NoPrefix site v.hop.connection.address ∨ u.path ≠ []) ∨
    IsRooted v.path u ∧ removeDots u.path = u.path ∧
      (location.query = none → u.query = queryPart v.path)

instance (site : Uri) (v : Visit) (u location : Uri) : Decidable (SamePathAgrees site v u location) := by
  unfold SamePathAgrees; infer_instance

/-- A relative `Location` is one below the directory of the path asked for: its last segment takes none
    away, and under a path of the site no dot segment leads above the root. -/
def RelativeAgrees (site : Uri) (v : Visit) (u location : Uri) : Prop :=
  (IsUrl u ∨ IsRooted v.path u ∧ directory (removeDots u.path) = removeDots (directory u.path)) ∧
    (NoPrefix site v.hop.connection.address ∨
      u.path ≠ [] ∧ DotFree site.path ∧ NeverClimbs (directory u.path ++ location.path))

instance (site : Uri) (v : Visit) (u location : Uri) : Decidable (RelativeAgrees site v u location) := by
  unfold RelativeAgrees; infer_instance

/-- A `Location` without an origin: the path names an HTTP origin, and a rooted `Location` gets no path
    of the site in front. -/
def PathAgrees (site : Uri) (v : Visit) (u location : Uri) : Prop :=
  hasRequestUri (namedOrigin site u) = true ∧ location.QueryStored ∧
    if location.path = [] then SamePathAgrees site v u location
    else if location.path.head? = some slash then NoPrefix site v.hop.connection.address
    else RelativeAgrees site v u location

instance (site : Uri) (v : Visit) (u location : Uri) : Decidable (PathAgrees site v u location) := by
  unfold PathAgrees; infer_instance

/-- The condition on a visit that is answered with one more redirect. -/
def Visit.RedirectAgrees (c : Consumer) (site : Uri) (v : Visit) : Prop :=
  v.WithinLimit c → ∀ location ∈ v.location, ∃ u ∈ (parseUri v.path).toOption,
    (namedOrigin site u).scheme.isSome = true ∧
      if location.NamesOrigin then OriginAgrees c site v u location else PathAgrees site v u location

instance (c : Consumer) (site : Uri) (v : Visit) : Decidable (v.RedirectAgrees c site) := by
  unfold Visit.RedirectAgrees; infer_instance

variable {rt : Runtime} {c : Consumer} {site : Uri} {v : Visit} {u location : Uri}

/-! ## The current URI -/

/-- What the redirect code starts from. -/
def currentUri (site u : Uri) : Uri := if u.scheme.isSome then u else site.resolve u

theorem currentUri_origin (site u : Uri) :
    (currentUri site u).scheme = (namedOrigin site u).scheme ∧
      (currentUri site u).host = (namedOrigin site u).host ∧
      (currentUri site u).port = (namedOrigin site u).port := by
  rw [currentUri, namedOrigin]
  by_cases hs : u.scheme.isSome = true
  · obtain ⟨s, hs'⟩ := Option.isSome_iff_exists.1 hs
    rw [if_pos hs, if_pos (.inl hs), hs', Option.some_or]
    exact ⟨rfl, rfl, rfl⟩
  · rw [if_neg hs]
    by_cases hnames : u.NamesOrigin
    · rw [if_pos hnames, resolve_of_namesOrigin _ hnames]
      exact ⟨rfl, rfl, rfl⟩
    · rw [if_neg hnames, resolve_of_not_namesOrigin _ hnames]
      exact ⟨rfl, rfl, rfl⟩

theorem tokenRequestUri_eq (hsite : parseUri c.site = .ok site) {path : Bytes}
    (hu : parseUri path = .ok u) (habs : (namedOrigin site u).scheme.isSome = true) :
    tokenRequestUri c path = .ok (currentUri site u) := by
  rw [tokenRequestUri, hu, Except.ok_bind, currentUri]
  by_cases hs : u.scheme.isSome = true
  · rw [if_pos hs, if_pos hs]
  · rw [if_neg hs, if_neg hs, hsite, Except.ok_bind, mergeUri, hu, Except.ok_bind, if_neg]
    rintro ⟨hnone, hsnone⟩
    rw [Option.isNone_iff_eq_none] at hnone hsnone
    rw [namedOrigin, hnone, hsnone] at habs
    split at habs <;> simp [hsnone] at habs

/-- Only scheme, host and port tell origins apart. -/
theorem crossOrigin_congr {a b a' b' : Uri} (hs : a.scheme = a'.scheme) (hh : a.host = a'.host)
    (hp : a.port = a'.port) (hs' : b.scheme = b'.scheme) (hh' : b.host = b'.host)
    (hp' : b.port = b'.port) : tokenRequestCrossOrigin a b = tokenRequestCrossOrigin a' b' := by
  simp only [tokenRequestCrossOrigin, effectivePort, hs, hh, hp, hs', hh', hp']

theorem resolve_origin {a b : Uri} (hs : a.scheme = b.scheme) (hh : a.host = b.host)
    (hp : a.port = b.port) (location : Uri) :
    (a.resolve location.store).scheme = (b.resolve location).scheme ∧
      (a.resolve location.store).host = (b.resolve location).host ∧
      (a.resolve location.store).port = (b.resolve location).port := by
  by_cases hnames : location.NamesOrigin
  · have hnames' : location.store.NamesOrigin := hnames
    rw [resolve_of_namesOrigin _ hnames, resolve_of_namesOrigin _ hnames']
    exact ⟨by rw [hs]; rfl, rfl, rfl⟩
  · have hnames' : ¬ location.store.NamesOrigin := hnames
    rw [resolve_of_not_namesOrigin _ hnames, resolve_of_not_namesOrigin _ hnames']
    exact ⟨hs, hh, hp⟩

/-- The redirect code compares the origin that the path names. -/
theorem crossOrigin_currentUri (site u location : Uri) :
    tokenRequestCrossOrigin (currentUri site u) ((currentUri site u).resolve location.store)
      = tokenRequestCrossOrigin (namedOrigin site u) ((namedOrigin site u).resolve location) := by
  obtain ⟨hs, hh, hp⟩ := currentUri_origin site u
  obtain ⟨hs', hh', hp'⟩ := resolve_origin hs hh hp location
  exact crossOrigin_congr hs hh hp hs' hh' hp'

/-! ## A `Location` with an origin -/

theorem target_of_namesOrigin {a b : Uri} (hnames : location.NamesOrigin) (hstored : location.QueryStored) :
    (a.resolve location.store).requestTarget = (b.resolve location).requestTarget := by
  rw [hstored.store_eq, resolve_of_namesOrigin _ hnames, resolve_of_namesOrigin _ hnames]
  rfl

/-- A reference with a host, or not opaque itself, resolves to a URI that is not opaque. -/
theorem isOpaque_resolve {a : Uri} (hnames : location.NamesOrigin) (hvalid : location.Valid)
    (hop : location.isOpaque = false) : (a.resolve location).isOpaque = false := by
  have hpath : location.path = [] ∨ location.path.head? = some slash := by
    by_cases hs : location.scheme.isSome = true
    · rw [isOpaque, hs] at hop
      by_cases hnil : location.path = []
      · exact .inl hnil
      · right
        simpa [hnil] using hop
    · obtain ⟨h, hh⟩ := Option.isSome_iff_exists.1 (hnames.resolve_left hs)
      have hstart := hvalid.2.2.2.2.2.1
      rw [validPathStart, hh] at hstart
      simpa using hstart
  rw [resolve_of_namesOrigin _ hnames, isOpaque]
  rcases hpath with hnil | hslash
  · simp [hnil, removeDots]
  · simp [head?_removeDots hslash]

theorem readingsAgree_of_origin (hvalid : location.Valid)
    (habs : (namedOrigin site u).scheme.isSome = true) (hnames : location.NamesOrigin)
    (h : OriginAgrees c site v u location) : ReadingsAgree c site v (currentUri site u) location := by
  obtain ⟨hs, hh, hp⟩ := currentUri_origin site u
  obtain ⟨hs', hh', -⟩ := resolve_origin hs hh hp location
  rw [OriginAgrees] at h
  refine ⟨hs ▸ habs, fun hsame => ?_, fun hcross hoff => ?_, fun hcross hon => ?_⟩
  · rw [crossOrigin_currentUri] at hsame
    rw [hsame] at h
    obtain ⟨horigin, hhas, hop, hstored, hfree⟩ := h
    refine ⟨horigin, ?_, ?_, ?_⟩
    · rw [hasRequestUri] at hhas ⊢
      rw [hs']
      exact hhas
    · rw [hstored.store_eq]
      exact isOpaque_resolve hnames hvalid hop
    · rw [prefixPath_of_noPrefix hfree, target_of_namesOrigin hnames hstored]
  · rw [crossOrigin_currentUri] at hcross
    rw [if_pos hcross, hoff] at h
    exact h
  · rw [crossOrigin_currentUri] at hcross
    rw [if_pos hcross, if_pos hon] at h
    obtain ⟨hsch, habs', hne, hstored, hfree⟩ := h
    rw [hstored.store_eq] at hs' hh'
    refine ⟨?_, ?_, hne, hstored, hfree⟩
    · rw [hs', resolve_of_namesOrigin _ hnames, resolve_of_namesOrigin _ hnames]
      exact hsch
    · rw [AbsoluteHttp] at habs' ⊢
      rw [hs', hh']
      exact habs'

/-! ## A `Location` without an origin -/

/-- How a visit comes about. -/
def Visit.SentBy (rt : Runtime) (c : Consumer) (v : Visit) : Prop :=
  ∃ st args o x, v.hop ∈ (c.request rt st args (some v.path) o x).hops

/-- What stands in front of the path. -/
theorem prefixPath_eq (site : Uri) (conn : Connection) (p : Bytes) :
    prefixPath site conn p = prefixPath site conn [] ++ p := by
  rw [prefixPath, prefixPath]
  split
  · rw [List.append_nil]
  · rfl

/-- The prefix is none, or the path of a site that has a host or a scheme. -/
theorem prefixPath_nil_cases {conn : Connection} (hvalid : site.Valid)
    (h : site.scheme.isSome = true ∨ conn.address.isSome = true) :
    prefixPath site conn [] = [] ∧ NoPrefix site conn.address ∨
      prefixPath site conn [] = site.path ∧ site.path.head? = some slash := by
  by_cases hfree : NoPrefix site conn.address
  · exact .inl ⟨prefixPath_of_noPrefix hfree [], hfree⟩
  · right
    rw [NoPrefix, not_or, not_or, not_or, Bool.not_eq_true, not_not] at hfree
    obtain ⟨hop, hne, hslash, hhost⟩ := hfree
    refine ⟨by rw [prefixPath, if_pos ⟨hop, hslash, hhost⟩, List.append_nil], ?_⟩
    rcases h with hs | hs
    · simpa [isOpaque, hs, hne] using hop
    · rw [← hhost] at hs
      obtain ⟨k, hk⟩ := Option.isSome_iff_exists.1 hs
      have hstart := hvalid.2.2.2.2.2.1
      rw [validPathStart, hk] at hstart
      simpa [hne] using hstart

/-- **The URL contacted has the path and the query of what was asked for, behind the prefix.** -/
theorem contacted_of_asked (hsite : parseUri c.site = .ok site)
    (hend : c.options.requestEndpoint = none) (hsent : v.SentBy rt c)
    (hu : parseUri v.path = .ok u) (hform : IsUrl u ∨ IsRooted v.path u) :
    v.hop.contacted.path = prefixPath site v.hop.connection [] ++ u.path ∧
      v.hop.contacted.query = (if IsUrl u then u.query else queryPart v.path) ∧
      (IsUrl u → v.hop.connection.address = u.host) := by
  obtain ⟨st, args, o, x, hhop⟩ := hsent
  -- the prefix has neither query nor fragment
  have hfront : ∀ t, front (prefixPath site v.hop.connection t)
        = prefixPath site v.hop.connection [] ++ front t ∧
      queryPart (prefixPath site v.hop.connection t) = queryPart t := by
    intro t
    by_cases hpre : site.isOpaque = false ∧ site.path ≠ [slash] ∧ site.host = v.hop.connection.address
    · rw [prefixPath, prefixPath, if_pos hpre, if_pos hpre, List.append_nil]
      exact front_append_path (valid_of_parseUri hsite) t
    · rw [prefixPath, prefixPath, if_neg hpre, if_neg hpre]
      exact ⟨rfl, rfl⟩
  by_cases hurl : IsUrl u
  · obtain ⟨haddress, -, -, htarget⟩ := hop_of_url hu hurl.1 hurl.2 hsite hend hhop
    obtain ⟨hpath, hquery⟩ := components_of_pathQuery (valid_of_parseUri hu)
    refine ⟨?_, ?_, fun _ => haddress⟩
    · show front v.hop.target = _
      rw [htarget, (hfront _).1, hpath]
    · show queryPart v.hop.target = _
      rw [htarget, (hfront _).2, hquery, if_pos hurl]
  · obtain ⟨hslash, hhost⟩ := hform.resolve_left hurl
    have hline := hasSlashLine_of_head? hslash
    obtain ⟨p, hp, -, hcreate, -⟩ := hop_of_request hhop
    rw [requestedPath, if_pos hline, Except.ok.injEq] at hp
    subst hp
    have htarget : v.hop.target = prefixPath site v.hop.connection v.path :=
      path_of_createHttpRequest hsite hcreate
    have hparse := parseUri_eq_ok.1 hu
    have hpath : front v.path = u.path := by
      rcases front_of_parse hparse (scheme_of_slash hparse hslash) with ⟨-, hf, -⟩ | ⟨a, hh, -⟩
      · exact hf
      · simp [hhost] at hh
    refine ⟨?_, ?_, fun h => absurd h hurl⟩
    · show front v.hop.target = _
      rw [htarget, (hfront _).1, hpath]
    · show queryPart v.hop.target = _
      rw [htarget, (hfront _).2, if_neg hurl]

theorem head?_append_of_head? {p : Bytes} (h : p.head? = some slash) (x : Bytes) :
    (p ++ x).head? = some slash := by
  obtain ⟨rest, rfl⟩ := exists_eq_slash_cons h
  rfl

/-- A path is asked for with the prefix in front. -/
theorem target_of_prefix {a b : Uri} {pre : Bytes} (hpath : b.path = pre ++ a.path)
    (hquery : b.query = a.query)
    (hpre : pre = [] ∨ pre.head? = some slash ∧ a.path.head? = some slash) :
    pre ++ a.requestTarget = b.requestTarget := by
  rcases hpre with rfl | ⟨hpre, ha⟩
  · rw [List.nil_append, requestTarget, requestTarget, pathQuery, pathQuery, hpath, hquery,
      List.nil_append]
  · have hb : b.path.head? = some slash := hpath ▸ head?_append_of_head? hpre a.path
    rw [requestTarget, requestTarget, if_pos ha, if_pos hb, pathQuery, pathQuery, hpath, hquery]
    cases a.query with
    | none => rfl
    | some q => simp [uncut]

/-- What is left to show for a `Location` without an origin. -/
theorem readingsAgree_of_paths (habs : (namedOrigin site u).scheme.isSome = true)
    (hhas : hasRequestUri (namedOrigin site u) = true) (hno : ¬ location.NamesOrigin)
    (hstored : location.QueryStored)
    (hpath : (v.hop.contacted.resolve location).path
      = prefixPath site v.hop.connection [] ++ ((currentUri site u).resolve location).path)
    (hquery : (v.hop.contacted.resolve location).query = ((currentUri site u).resolve location).query)
    (hrooted : ((currentUri site u).resolve location).path = [] ∧
        prefixPath site v.hop.connection [] = [] ∨
      ((currentUri site u).resolve location).path.head? = some slash)
    (hpre : prefixPath site v.hop.connection [] = [] ∨
      (prefixPath site v.hop.connection []).head? = some slash) :
    ReadingsAgree c site v (currentUri site u) location := by
  have hs := (currentUri_origin site u).1
  have hsame : tokenRequestCrossOrigin (currentUri site u)
      ((currentUri site u).resolve location.store) = false := by
    by_contra hcross
    exact hno (namesOrigin_of_crossOrigin (Bool.not_eq_false _ ▸ hcross))
  refine ⟨hs ▸ habs, fun _ => ?_, fun hcross => absurd (hsame.symm.trans hcross) Bool.false_ne_true,
    fun hcross => absurd (hsame.symm.trans hcross) Bool.false_ne_true⟩
  rw [hstored.store_eq]
  refine ⟨sameOrigin_resolve _ hno, ?_, ?_, ?_⟩
  · rw [hasRequestUri] at hhas ⊢
    rw [resolve_of_not_namesOrigin _ hno]
    rw [← hs] at hhas
    exact hhas
  · rw [isOpaque]
    rcases hrooted with ⟨hnil, -⟩ | hslash
    · simp [hnil]
    · simp [hslash]
  · rw [prefixPath_eq]
    refine target_of_prefix hpath hquery ?_
    rcases hrooted with ⟨-, hnone⟩ | hslash
    · exact .inl hnone
    · exact hpre.imp_right fun h => ⟨h, hslash⟩

section Path

variable (hsite : parseUri c.site = .ok site) (hend : c.options.requestEndpoint = none)
  (hsent : v.SentBy rt c) (hu : parseUri v.path = .ok u)
  (habs : (namedOrigin site u).scheme.isSome = true)

include hu in
/-- The path in the current URI. -/
theorem path_currentUri (site : Uri) (hrooted : IsRooted v.path u) :
    (currentUri site u).path = removeDots u.path ∧ (currentUri site u).query = u.query ∧
      u.path.head? = some slash := by
  have hparse := parseUri_eq_ok.1 hu
  have hs := scheme_of_slash hparse hrooted.1
  have hno : ¬ u.NamesOrigin := by simp [NamesOrigin, hs, hrooted.2]
  have hslash : u.path.head? = some slash := by
    rcases front_of_parse hparse hs with ⟨-, hf, -⟩ | ⟨a, hh, -⟩
    · rw [← hf, head?_front]
      exact hrooted.1
    · simp [hrooted.2] at hh
  have hne : u.path ≠ [] := by
    rintro hnil
    simp [hnil] at hslash
  rw [currentUri, hs, if_neg (by simp), resolve_of_not_namesOrigin _ hno, resolvePath, if_neg hne,
    if_pos hslash, if_neg hne]
  exact ⟨rfl, rfl, hslash⟩

include habs in
theorem scheme_or_host (hform : IsUrl u ∨ IsRooted v.path u) (haddress : IsUrl u →
    v.hop.connection.address = u.host) (hu : parseUri v.path = .ok u) :
    site.scheme.isSome = true ∨ v.hop.connection.address.isSome = true := by
  rcases hform with hurl | hrooted
  · exact .inr (haddress hurl ▸ hurl.2)
  · have hs := scheme_of_slash (parseUri_eq_ok.1 hu) hrooted.1
    have hno : ¬ u.NamesOrigin := by simp [NamesOrigin, hs, hrooted.2]
    rw [namedOrigin, if_neg hno] at habs
    exact .inl habs

include hsite hend hsent hu habs in
theorem readingsAgree_of_samePath (hhas : hasRequestUri (namedOrigin site u) = true)
    (hno : ¬ location.NamesOrigin) (hstored : location.QueryStored) (hnil : location.path = [])
    (h : SamePathAgrees site v u location) : ReadingsAgree c site v (currentUri site u) location := by
  have hform : IsUrl u ∨ IsRooted v.path u := h.imp And.left And.left
  obtain ⟨hpath, hquery, haddress⟩ := contacted_of_asked hsite hend hsent hu hform
  have hpre := prefixPath_nil_cases (valid_of_parseUri hsite)
    (scheme_or_host habs hform haddress hu)
  have hcur : (currentUri site u).path = u.path ∧
      location.query.or v.hop.contacted.query = location.query.or (currentUri site u).query ∧
      (u.path = [] ∧ prefixPath site v.hop.connection [] = [] ∨ u.path.head? = some slash) := by
    rcases h with ⟨hurl, hfree⟩ | ⟨hrooted, hdots, hsame⟩
    · rw [currentUri, if_pos hurl.1, hquery, if_pos hurl]
      refine ⟨rfl, rfl, ?_⟩
      by_cases hpnil : u.path = []
      · exact .inl ⟨hpnil, prefixPath_of_noPrefix (hfree.resolve_right fun hne => hne hpnil) []⟩
      · obtain ⟨k, hk⟩ := Option.isSome_iff_exists.1 hurl.2
        have hstart := (valid_of_parseUri hu).2.2.2.2.2.1
        rw [validPathStart, hk] at hstart
        exact .inr ((by simpa using hstart : u.path = [] ∨ _).resolve_left hpnil)
    · obtain ⟨hcpath, hcquery, hslash⟩ := path_currentUri hu site hrooted
      have hurl : ¬ IsUrl u := fun hurl => by simp [IsUrl, hrooted.2] at hurl
      rw [hcpath, hdots, hcquery, hquery, if_neg hurl]
      refine ⟨rfl, ?_, .inr hslash⟩
      cases hq : location.query with
      | none => exact (hsame hq).symm
      | some q => rfl
  obtain ⟨hcpath, hcquery, hrooted⟩ := hcur
  refine readingsAgree_of_paths habs hhas hno hstored ?_ ?_ ?_ ?_
  · rw [resolve_of_not_namesOrigin _ hno, resolve_of_not_namesOrigin _ hno]
    simp only [resolvePath, if_pos hnil, hpath, hcpath]
  · rw [resolve_of_not_namesOrigin _ hno, resolve_of_not_namesOrigin _ hno]
    simp only [if_pos hnil, hcquery]
  · rw [resolve_of_not_namesOrigin _ hno]
    simp only [resolvePath, if_pos hnil, hcpath]
    exact hrooted
  · refine hpre.imp And.left fun h => ?_
    rw [h.1]
    exact h.2

include habs in
theorem readingsAgree_of_rooted (hhas : hasRequestUri (namedOrigin site u) = true)
    (hno : ¬ location.NamesOrigin) (hstored : location.QueryStored)
    (hslash : location.path.head? = some slash) (hfree : NoPrefix site v.hop.connection.address) :
    ReadingsAgree c site v (currentUri site u) location := by
  have hne : location.path ≠ [] := by
    rintro hnil
    simp [hnil] at hslash
  have hnone := prefixPath_of_noPrefix hfree []
  refine readingsAgree_of_paths habs hhas hno hstored ?_ ?_ (.inr ?_) (.inl hnone)
  · rw [resolve_of_not_namesOrigin _ hno, resolve_of_not_namesOrigin _ hno, hnone]
    simp only [resolvePath, if_neg hne, if_pos hslash, List.nil_append]
  · rw [resolve_of_not_namesOrigin _ hno, resolve_of_not_namesOrigin _ hno]
    simp only [if_neg hne]
  · rw [resolve_of_not_namesOrigin _ hno]
    simp only [resolvePath, if_neg hne, if_pos hslash]
    exact head?_removeDots hslash

include hu in
/-- The current URI resolves a relative path as the path asked for does. -/
theorem mergePath_currentUri (site : Uri) (hform : IsUrl u ∨
      IsRooted v.path u ∧ directory (removeDots u.path) = removeDots (directory u.path))
    (hslash : u.path.head? = some slash) (p : Bytes) :
    removeDots (mergePath (currentUri site u) p) = removeDots (directory u.path ++ p) ∧
      (mergePath (currentUri site u) p).head? = some slash := by
  have hmerge : ∀ w : Uri, w.path.head? = some slash →
      mergePath w p = directory w.path ++ p ∧ (mergePath w p).head? = some slash := by
    intro w hw
    have hne : ¬ (w.host.isSome = true ∧ w.path = []) := by
      rintro ⟨-, hnil⟩
      simp [hnil] at hw
    rw [mergePath, if_neg hne]
    exact ⟨rfl, head?_append_of_head? (head?_directory hw) p⟩
  rcases hform with hurl | ⟨hrooted, hdots⟩
  · rw [currentUri, if_pos hurl.1]
    obtain ⟨heq, hhead⟩ := hmerge u hslash
    exact ⟨by rw [heq], hhead⟩
  · have hpath := (path_currentUri hu site hrooted).1
    obtain ⟨heq, hhead⟩ := hmerge (currentUri site u) (by rw [hpath]; exact head?_removeDots hslash)
    refine ⟨?_, hhead⟩
    rw [heq, hpath, removeDots_directory_append hslash hdots]

include hu in
/-- Both sides merge a relative path with the path asked for. -/
theorem mergePath_alike {p : Bytes}
    (hform : IsUrl u ∨ IsRooted v.path u ∧ directory (removeDots u.path) = removeDots (directory u.path))
    (haddress : IsUrl u → v.hop.connection.address = u.host)
    (hpath : v.hop.contacted.path = prefixPath site v.hop.connection [] ++ u.path)
    (hpre : prefixPath site v.hop.connection [] = [] ∧ NoPrefix site v.hop.connection.address ∨
      prefixPath site v.hop.connection [] = site.path ∧ site.path.head? = some slash)
    (hunder : NoPrefix site v.hop.connection.address ∨
      u.path ≠ [] ∧ DotFree site.path ∧ NeverClimbs (directory u.path ++ p)) :
    removeDots (mergePath v.hop.contacted p)
        = prefixPath site v.hop.connection [] ++ removeDots (mergePath (currentUri site u) p) ∧
      (mergePath (currentUri site u) p).head? = some slash := by
  by_cases hnil : u.path = []
  · -- a URL without a path
    have hnone := prefixPath_of_noPrefix (hunder.resolve_right fun h => h.1 hnil) []
    have hurl : IsUrl u := by
      refine hform.resolve_right fun h => ?_
      have hslash := (path_currentUri hu site h.1).2.2
      simp [hnil] at hslash
    have hhost : v.hop.connection.address.isSome = true := haddress hurl ▸ hurl.2
    rw [hnone, hnil] at hpath
    rw [hnone, currentUri, if_pos hurl.1, mergePath, mergePath, if_pos ⟨hhost, hpath⟩,
      if_pos ⟨hurl.2, hnil⟩]
    exact ⟨rfl, rfl⟩
  · have hslash : u.path.head? = some slash := by
      rcases hform with hurl | ⟨hrooted, -⟩
      · obtain ⟨k, hk⟩ := Option.isSome_iff_exists.1 hurl.2
        have hstart := (valid_of_parseUri hu).2.2.2.2.2.1
        rw [validPathStart, hk] at hstart
        exact (by simpa using hstart : u.path = [] ∨ _).resolve_left hnil
      · exact (path_currentUri hu site hrooted).2.2
    have hmem : slash ∈ u.path := by
      obtain ⟨rest, hrest⟩ := exists_eq_slash_cons hslash
      rw [hrest]
      exact List.mem_cons_self
    have hcontacted : mergePath v.hop.contacted p
        = prefixPath site v.hop.connection [] ++ (directory u.path ++ p) := by
      have hne : ¬ (v.hop.contacted.host.isSome = true ∧ v.hop.contacted.path = []) := by
        rintro ⟨-, hcnil⟩
        rw [hpath, List.append_eq_nil_iff] at hcnil
        exact hnil hcnil.2
      rw [mergePath, if_neg hne, hpath, directory_append _ hmem, List.append_assoc]
    have hcurrent := mergePath_currentUri hu site hform hslash p
    have hhead := head?_append_of_head? (head?_directory hslash) p
    refine ⟨?_, hcurrent.2⟩
    rw [hcontacted, hcurrent.1]
    rcases hpre with ⟨hnone, -⟩ | ⟨heq, hsite⟩
    · rw [hnone, List.nil_append, List.nil_append]
    · rcases hunder with hfree | ⟨-, hdots, hclimb⟩
      · rw [prefixPath_of_noPrefix hfree, List.nil_append, List.nil_append]
      · rw [heq]
        exact removeDots_append hsite hdots hhead hclimb

include hsite hend hsent hu habs in
theorem readingsAgree_of_relative (hhas : hasRequestUri (namedOrigin site u) = true)
    (hno : ¬ location.NamesOrigin) (hstored : location.QueryStored) (hne : location.path ≠ [])
    (hslash : location.path.head? ≠ some slash) (h : RelativeAgrees site v u location) :
    ReadingsAgree c site v (currentUri site u) location := by
  obtain ⟨hform, hunder⟩ := h
  have hform' : IsUrl u ∨ IsRooted v.path u := hform.imp_right And.left
  obtain ⟨hpath, hquery, haddress⟩ := contacted_of_asked hsite hend hsent hu hform'
  have hpre := prefixPath_nil_cases (valid_of_parseUri hsite)
    (scheme_or_host habs hform' haddress hu)
  have hmerge := mergePath_alike hu hform haddress hpath hpre hunder
  have hfront : prefixPath site v.hop.connection [] = [] ∨
      (prefixPath site v.hop.connection []).head? = some slash := by
    refine hpre.imp And.left fun h => ?_
    rw [h.1]
    exact h.2
  refine readingsAgree_of_paths habs hhas hno hstored ?_ ?_ (.inr ?_) hfront
  · rw [resolve_of_not_namesOrigin _ hno, resolve_of_not_namesOrigin _ hno]
    simp only [resolvePath, if_neg hne, if_neg hslash]
    exact hmerge.1
  · rw [resolve_of_not_namesOrigin _ hno, resolve_of_not_namesOrigin _ hno]
    simp only [if_neg hne]
  · rw [resolve_of_not_namesOrigin _ hno]
    simp only [resolvePath, if_neg hne, if_neg hslash]
    exact head?_removeDots hmerge.2

include hsite hend hsent in
/-- **On a redirect that meets the condition the readings agree.** -/
theorem readingsAgree_of_redirectAgrees (h : v.RedirectAgrees c site) : v.ReadingsAgree c site := by
  intro hlimit location hloc
  obtain ⟨u, hu, habs, hcond⟩ := h hlimit location hloc
  have hu : parseUri v.path = .ok u := by
    cases hparse : parseUri v.path with
    | error e => simp [hparse, Except.toOption] at hu
    | ok w =>
        rw [hparse, Except.toOption, Option.mem_def, Option.some.injEq] at hu
        rw [hu]
  refine ⟨currentUri site u, tokenRequestUri_eq hsite hu habs, ?_⟩
  have hvalid : location.Valid := by
    cases hans : v.answer with
    | error e => simp [Visit.location, hans, Except.toOption] at hloc
    | ok rsp =>
        rw [location_of_answer hans] at hloc
        exact valid_of_redirectLocation hloc
  split at hcond
  · next hnames => exact readingsAgree_of_origin hvalid habs hnames hcond
  · next hno =>
      obtain ⟨hhas, hstored, hcond⟩ := hcond
      split at hcond
      · next hnil => exact readingsAgree_of_samePath hsite hend hsent hu habs hhas hno hstored hnil hcond
      · next hne =>
          split at hcond
          · next hslash => exact readingsAgree_of_rooted habs hhas hno hstored hslash hcond
          · next hslash =>
              exact readingsAgree_of_relative hsite hend hsent hu habs hhas hno hstored hne hslash hcond

end Path

/-! ## Every chain of redirects -/

theorem sentBy_of_mem_tokenVisits {xs : List Exchange} :
    ∀ {args : RequestArgs} {st : ConsumerState} {path : Option Bytes} {o : CallOptions},
      v ∈ tokenVisits rt c args xs st path o → v.SentBy rt c := by
  induction xs with
  | nil =>
      intro args st path o h
      simp [tokenVisits] at h
  | cons x xs ih =>
      intro args st path o h
      cases path with
      | none => simp [tokenVisits] at h
      | some p =>
          rcases request_cases rt c st args (some p) (tokenRequestOptions o) x with
            ⟨st', e, hr⟩ | ⟨st', hop, r, hr, -⟩
          · simp [tokenVisits, hr] at h
          · have hhop : hop ∈ (c.request rt st args (some p) (tokenRequestOptions o) x).hops := by
              rw [hr]
              exact List.mem_singleton.2 rfl
            cases r with
            | error e =>
                simp only [tokenVisits, hr, List.mem_singleton] at h
                subst h
                exact ⟨st, args, _, x, hhop⟩
            | ok rsp =>
                simp only [tokenVisits, hr, List.mem_cons] at h
                rcases h with rfl | h
                · exact ⟨st, args, _, x, hhop⟩
                · cases hstep : tokenStep c o p rsp with
                  | finish result => simp [hstep] at h
                  | follow next o' =>
                      rw [hstep] at h
                      exact ih h

end RubyOAuth
