import RubyOAuth.Proofs.RedirectSafety
import RubyOAuth.Proofs.SignedUrl

set_option autoImplicit false

/-! # Where a followed redirect leads

The redirect code recomputes the current URI from the path it was given and the site, and hands a path
or a URL down; the connection and the site's path decide what that contacts. The visits of a token
request carry both sides, so that the target of a redirect can be compared with the next request. -/

namespace RubyOAuth

open Bytes Uri

/-! ## The visits of a token request -/

/-- The URL a request contacts. -/
def Hop.contacted (hop : Hop) : Uri := contactedUri hop.connection hop.target

/-- One request of a token request: the path and options it was made with, and its result. -/
structure Visit where
  path : Bytes
  options : CallOptions
  hop : Hop
  answer : Except RubyError Response

/-- The requests that `token_request` sends, with the path and the options of each. -/
def tokenVisits (rt : Runtime) (c : Consumer) (args : RequestArgs) :
    List Exchange → ConsumerState → Option Bytes → CallOptions → List Visit
  | x :: xs, st, some p, o =>
    let out := c.request rt st args (some p) (tokenRequestOptions o) x
    match out.hops, out.result with
    | hop :: _, .done (.ok rsp) =>
      ⟨p, o, hop, .ok rsp⟩ ::
        match tokenStep c o p rsp with
        | .follow next o' => tokenVisits rt c (args.afterSending out.hops) xs out.state next o'
        | .finish _ => []
    | hop :: _, .done (.error e) => [⟨p, o, hop, .error e⟩]
    | _, _ => []
  | _, _, _, _ => []

/-- The `Location` of a redirect, as it is written. -/
def redirectLocation (rsp : Response) : Option Uri :=
  if 300 ≤ rsp.code ∧ rsp.code ≤ 399 then
    rsp.location.bind (fun location => if location = [] then none else Uri.reference location)
  else none

namespace Visit

def location (v : Visit) : Option Uri := v.answer.toOption.bind redirectLocation

/-- `Location` resolved against the URL that answered with it. -/
def redirected (v : Visit) : Option Uri := v.location.map v.hop.contacted.resolve

/-- The redirect stays at the origin that answered. -/
def StaysAtOrigin (v : Visit) : Prop := ∀ u ∈ v.redirected, v.hop.contacted.SameOrigin u

/-- The next request contacts what the redirect leads to: scheme, host, port, path and query. -/
def LeadsTo (v next : Visit) : Prop :=
  ∀ u ∈ v.redirected,
    next.hop.contacted.SameOrigin u ∧ next.hop.target = u.requestTarget

instance (v next : Visit) : Decidable (v.LeadsTo next) := by unfold LeadsTo; infer_instance

end Visit

/-! ## Two readings of a redirect -/

/-- The site has no path that `create_http_request` puts in front of paths for this host. -/
def NoPrefix (site : Uri) (host : Option Bytes) : Prop :=
  site.isOpaque = true ∨ site.path = [] ∨ site.path = [slash] ∨ site.host ≠ host

instance (site : Uri) (host : Option Bytes) : Decidable (NoPrefix site host) := by
  unfold NoPrefix; infer_instance

/-- The redirect code reads `Location` against `current`, the server means it against the URL
    contacted. -/
structure ReadingsAgree (c : Consumer) (site : Uri) (v : Visit) (current location : Uri) : Prop where
  absolute : current.scheme.isSome = true
  /-- Taken for the same origin: it is, and with the site's path in front it is the path meant. -/
  same : tokenRequestCrossOrigin current (current.resolve location.store) = false →
    v.hop.contacted.SameOrigin (v.hop.contacted.resolve location) ∧
      hasRequestUri (current.resolve location.store) = true ∧
      (current.resolve location.store).isOpaque = false ∧
      prefixPath site v.hop.connection (current.resolve location.store).requestTarget
        = (v.hop.contacted.resolve location).requestTarget
  /-- Taken for another origin and refused: it is another one. -/
  refused : tokenRequestCrossOrigin current (current.resolve location.store) = true →
    tokenRequestCrossOriginRedirects c v.options = false →
      ¬ v.hop.contacted.SameOrigin (v.hop.contacted.resolve location)
  /-- Taken for another origin and followed: an HTTP URL with a path and no path of the site in front. -/
  followed : tokenRequestCrossOrigin current (current.resolve location.store) = true →
    tokenRequestCrossOriginRedirects c v.options = true →
      (current.resolve location).scheme = (v.hop.contacted.resolve location).scheme ∧
        AbsoluteHttp (current.resolve location) ∧ location.path ≠ [] ∧ location.QueryStored ∧
        NoPrefix site location.host

namespace Visit

/-- One more redirect is allowed. -/
def WithinLimit (c : Consumer) (v : Visit) : Prop :=
  ∃ m ∈ tokenRequestMaxRedirects c v.options, v.options.tokenRequestRedirectCount.getD 0 + 1 ≤ m

instance (c : Consumer) (v : Visit) : Decidable (v.WithinLimit c) := by
  unfold WithinLimit; infer_instance

/-- A redirect within the limit, to the same origin or with cross-origin redirects enabled, is
    followed. -/
def Followed (c : Consumer) (v : Visit) : Prop :=
  ∀ rsp, v.answer = .ok rsp → v.location.isSome = true → v.WithinLimit c →
    (v.StaysAtOrigin ∨ tokenRequestCrossOriginRedirects c v.options = true) →
    ∃ next o, tokenStep c v.options v.path rsp = .follow (some next) o

/-- Where the visit is answered with one more redirect, the readings agree. -/
def ReadingsAgree (c : Consumer) (site : Uri) (v : Visit) : Prop :=
  v.WithinLimit c → ∀ location ∈ v.location, ∃ current, tokenRequestUri c v.path = .ok current ∧
    RubyOAuth.ReadingsAgree c site v current location

end Visit

variable {rt : Runtime} {c : Consumer} {site : Uri} {v : Visit} {rsp : Response}

/-! ## One redirect -/

theorem sameOrigin_contactedUri (conn : Connection) (line line' : Bytes) :
    (contactedUri conn line).SameOrigin (contactedUri conn line') := ⟨rfl, rfl, rfl⟩

/-- A location that names no origin is never taken for another one. -/
theorem namesOrigin_of_crossOrigin {current location : Uri}
    (h : tokenRequestCrossOrigin current (current.resolve location.store) = true) :
    location.NamesOrigin := by
  by_contra hnamed
  have hno : ¬ location.store.NamesOrigin := hnamed
  obtain ⟨hscheme, hhost, hport⟩ := sameOrigin_resolve current hno
  have hdown : ∀ x : Option Bytes, downcase (x.getD []) = (x.map downcase).getD [] := by
    intro x
    cases x <;> rfl
  rw [tokenRequestCrossOrigin, ← hscheme, hdown current.host,
    hdown (current.resolve location.store).host,
    ← hhost, ← hport] at h
  simp at h

theorem location_of_answer (hans : v.answer = .ok rsp) : v.location = redirectLocation rsp := by
  rw [Visit.location, hans]
  rfl

/-- What the redirect code reads from a response with a location. -/
theorem redirectUri_of_location {current location : Uri} (hloc : redirectLocation rsp = some location)
    (habs : current.scheme.isSome = true) :
    (300 ≤ rsp.code ∧ rsp.code ≤ 399) ∧
      tokenRequestRedirectUri current rsp = .ok (current.resolve location.store) := by
  rw [redirectLocation] at hloc
  split_ifs at hloc with hcode
  refine ⟨hcode, ?_⟩
  rw [Option.bind_eq_some_iff] at hloc
  obtain ⟨text, htext, hloc⟩ := hloc
  split_ifs at hloc with hnil
  have hparse : parseUri text = .ok location.store := by
    rw [parseUri_eq_ok, Uri.parse, hloc, Option.map_some]
  rw [tokenRequestRedirectUri, htext]
  simp only [hnil, if_false, mergeUri, hparse, Except.ok_bind]
  rw [if_neg]
  rintro ⟨-, hc⟩
  rw [Option.isNone_iff_eq_none] at hc
  simp [hc] at habs

theorem tokenStep_of_redirect {o o' : CallOptions} {p : Bytes} {next : Option Bytes}
    (hcode : 300 ≤ rsp.code ∧ rsp.code ≤ 399) (h : followRedirect c o p rsp = .ok (next, o')) :
    tokenStep c o p rsp = .follow next o' := by
  rw [tokenStep, if_neg (by omega), if_pos hcode, h]

/-- A redirect on which the readings agree is followed within the limit. -/
theorem followed_of_agrees (h : v.ReadingsAgree c site) : v.Followed c := by
  intro rsp hans hsome hlimit hallow
  obtain ⟨location, hloc⟩ := Option.isSome_iff_exists.1 hsome
  obtain ⟨current, hcurrent, hagree⟩ := h hlimit location hloc
  obtain ⟨m, hmax, hcount⟩ := hlimit
  have hredirected : v.redirected = some (v.hop.contacted.resolve location) := by
    rw [Visit.redirected, hloc, Option.map_some]
  obtain ⟨hcode, hred⟩ := redirectUri_of_location (location_of_answer hans ▸ hloc) hagree.absolute
  cases hcross : tokenRequestCrossOrigin current (current.resolve location.store) with
  | false =>
      obtain ⟨-, hhas, hop, -⟩ := hagree.same hcross
      have hpath : tokenRequestRedirectPath current (current.resolve location.store)
          = .ok (some (current.resolve location.store).requestTarget) := by
        rw [tokenRequestRedirectPath, hcross, hhas, hop]
        rfl
      exact ⟨_, _, tokenStep_of_redirect hcode (followRedirect_eq_ok.2
        ⟨current, _, m, hcurrent, hred, hmax, hcount, by simp [hcross], hpath, rfl⟩)⟩
  | true =>
      have henabled : tokenRequestCrossOriginRedirects c v.options = true := by
        by_contra hno
        rw [Bool.not_eq_true] at hno
        rcases hallow with hstays | henabled
        · exact hagree.refused hcross hno (hstays _ hredirected)
        · simp [hno] at henabled
      have hpath : tokenRequestRedirectPath current (current.resolve location.store)
          = .ok (some (parsedToS (current.resolve location.store))) := by
        rw [tokenRequestRedirectPath, if_pos hcross]
      exact ⟨_, _, tokenStep_of_redirect hcode (followRedirect_eq_ok.2
        ⟨current, _, m, hcurrent, hred, hmax, hcount, fun _ => henabled, hpath, rfl⟩)⟩

theorem prefixPath_of_noPrefix {conn : Connection} (h : NoPrefix site conn.address) (p : Bytes) :
    prefixPath site conn p = p := by
  rw [prefixPath]
  split
  · next hpre =>
      rcases h with hop | hnil | hslash | hhost
      · simp [hop] at hpre
      · rw [hnil, List.nil_append]
      · exact absurd hslash hpre.2.1
      · exact absurd hpre.2.2 hhost
  · rfl

/-- A URL that is asked for by its text: a connection of its own, and its request target. -/
theorem contacted_of_url {u : Uri} (hu : u.Valid) (hstore : u.QueryStored) (habs : AbsoluteHttp u)
    (hslash : u.path.head? = some slash) (hsite : parseUri c.site = .ok site)
    (hend : c.options.requestEndpoint = none) (hfree : NoPrefix site u.host)
    {st : ConsumerState} {args : RequestArgs} {o : CallOptions} {x : Exchange} {hop : Hop}
    (hhop : hop ∈ (c.request rt st args (some (parsedToS u)) o x).hops) :
    hop.contacted.SameOrigin u ∧ hop.target = u.requestTarget := by
  -- the URI as it is read back
  let w : Uri := { u with port := u.port.filter (fun p => some p != u.scheme.bind defaultPort) }
  have hw : w.Valid := by
    obtain ⟨h1, h2, h3, -, h5, h6, h7, h8⟩ := hu
    exact ⟨h1, h2, h3, fun _ => habs.2, h5, h6, h7, h8⟩
  have hparse : parseUri (parsedToS u) = .ok w := by
    have hto : parsedToS u = w.print := uriToS_of_validPathStart hw.2.2.2.2.2.1
    rw [hto, parseUri_eq_ok, parse_print_of_store hw (QueryStored.store_eq hstore)]
  obtain ⟨ha, hport, hssl, htarget⟩ := hop_of_url hparse habs.scheme_isSome habs.2 hsite hend hhop
  constructor
  · refine ⟨?_, by rw [Hop.contacted, contactedUri, ha], ?_⟩
    · have hne : ascii "http" ≠ ascii "https" := by decide
      simp only [Hop.contacted, contactedUri, hssl]
      rcases habs.1 with hs | hs
      · simp [w, hs, hne]
      · simp [w, hs]
    · have heff : w.effectivePort = u.effectivePort := effectivePort_filter u
      obtain ⟨s, d, hs, hd, -⟩ := defaultPort_of_absoluteHttp habs
      rw [heff, effectivePort_of_defaultPort hs hd] at hport
      rw [effectivePort_of_defaultPort hs hd]
      simp [Hop.contacted, contactedUri, effectivePort, hport]
  · rw [htarget, prefixPath_of_noPrefix (by rw [ha]; exact hfree), requestTarget, if_pos hslash]
    rfl

/-- What `Location` parses to. -/
theorem valid_of_redirectLocation {location : Uri} (h : redirectLocation rsp = some location) :
    location.Valid := by
  rw [redirectLocation] at h
  split_ifs at h
  obtain ⟨text, -, h⟩ := Option.bind_eq_some_iff.1 h
  split_ifs at h
  exact valid_of_reference h

/-- **One redirect on which the readings agree leads the next request to its target.** -/
theorem leadsTo_of_agrees (hsite : parseUri c.site = .ok site)
    (hend : c.options.requestEndpoint = none) {v' : Visit} {q : Bytes} {o' : CallOptions}
    (hans : v.answer = .ok rsp) (hstep : tokenStep c v.options v.path rsp = .follow (some q) o')
    (hagree : v.ReadingsAgree c site) {st : ConsumerState} (hst : st.http = some v.hop.connection)
    {args : RequestArgs} {opts : CallOptions} {x : Exchange}
    (hnext : v'.hop ∈ (c.request rt st args (some q) opts x).hops) : v.LeadsTo v' := by
  intro u hu
  obtain ⟨location, hloc, rfl⟩ := Option.map_eq_some_iff.1 hu
  obtain ⟨cur, red, m, hcur, hred', hmax, hcount, hallow, hpath, -⟩ :=
    followRedirect_eq_ok.1 (tokenStep_eq_follow hstep)
  obtain ⟨current, hcurrent, hagree⟩ := hagree ⟨m, hmax, hcount⟩ location hloc
  rw [location_of_answer hans] at hloc
  obtain ⟨-, hred⟩ := redirectUri_of_location hloc hagree.absolute
  rw [hcurrent, Except.ok.injEq] at hcur
  subst hcur
  rw [hred, Except.ok.injEq] at hred'
  subst hred'
  rw [tokenRequestRedirectPath] at hpath
  cases hcross : tokenRequestCrossOrigin current (current.resolve location.store) with
  | false =>
      -- a path: the connection is the one that answered
      obtain ⟨horigin, hhas, hop, htarget⟩ := hagree.same hcross
      simp only [hcross, Bool.false_eq_true, if_false, hhas, Bool.not_true, hop, Except.ok.injEq,
        Option.some.injEq] at hpath
      subst hpath
      have hline := hasSlashLine_of_head? (head?_requestTarget (current.resolve location.store))
      obtain ⟨p, hp, hconn, hcreate, -⟩ := hop_of_request hnext
      rw [requestedPath, if_pos hline, Except.ok.injEq] at hp
      subst hp
      rw [chosenConnection, if_pos hline, http_of_some hst, Except.ok.injEq] at hconn
      rw [← hconn] at hcreate
      constructor
      · have hsame : v'.hop.contacted.SameOrigin v.hop.contacted := by
          rw [Hop.contacted, Hop.contacted, ← hconn]
          exact sameOrigin_contactedUri _ _ _
        exact hsame.trans horigin
      · rw [Hop.target, path_of_createHttpRequest hsite hcreate, htarget]
  | true =>
      -- a URL: the connection is to the target of the redirect
      obtain ⟨hscheme, habs, hne, hstore, hfree⟩ := hagree.followed hcross (hallow hcross)
      simp only [hcross, if_true, Except.ok.injEq, Option.some.injEq] at hpath
      subst hpath
      have hnames := namesOrigin_of_crossOrigin hcross
      rw [hstore.store_eq] at hnext
      have hu : v.hop.contacted.resolve location = current.resolve location := by
        rw [resolve_of_namesOrigin _ hnames, resolve_of_namesOrigin _ hnames] at hscheme ⊢
        rw [Uri.mk.injEq]
        exact ⟨hscheme.symm, rfl, rfl, rfl, rfl, rfl, rfl⟩
      have hlv := valid_of_redirectLocation hloc
      have hhost : (current.resolve location).host = location.host := by
        rw [resolve_of_namesOrigin _ hnames]
      have hlhost : location.host.isSome = true := hhost ▸ habs.2
      have hslash : (current.resolve location).path.head? = some slash := by
        obtain ⟨k, hk⟩ := Option.isSome_iff_exists.1 hlhost
        have hstart := hlv.2.2.2.2.2.1
        rw [validPathStart, hk] at hstart
        rw [resolve_of_namesOrigin _ hnames]
        exact head?_removeDots ((by simpa using hstart : location.path = [] ∨ _).resolve_left hne)
      have hvalid : (current.resolve location).Valid := by
        refine resolve_valid_of_host hlv hlhost fun s hs => ?_
        rcases habs.1 with h | h
        · rw [h, Option.mem_def, Option.some.injEq] at hs
          exact hs ▸ by decide
        · rw [h, Option.mem_def, Option.some.injEq] at hs
          exact hs ▸ by decide
      have hstored : (current.resolve location).QueryStored := by
        rw [resolve_of_namesOrigin _ hnames]
        exact hstore
      rw [hu]
      exact contacted_of_url hvalid hstored habs hslash hsite hend (hhost ▸ hfree) hnext

/-! ## A whole token request -/

/-- The first visit is the first request. -/
theorem head?_tokenVisits {args : RequestArgs} {xs : List Exchange} {st : ConsumerState}
    {path : Option Bytes} {o : CallOptions}
    (h : v ∈ (tokenVisits rt c args xs st path o).head?) :
    ∃ x p, path = some p ∧
      v.hop ∈ (c.request rt st args (some p) (tokenRequestOptions o) x).hops := by
  cases xs with
  | nil => simp [tokenVisits] at h
  | cons x xs =>
      cases path with
      | none => simp [tokenVisits] at h
      | some p =>
          refine ⟨x, p, rfl, ?_⟩
          rcases request_cases rt c st args (some p) (tokenRequestOptions o) x with
            ⟨st', e, hr⟩ | ⟨st', hop, r, hr, -⟩
          · simp [tokenVisits, hr] at h
          · cases r with
            | error e =>
                simp only [tokenVisits, hr, List.head?_cons, Option.mem_def,
                  Option.some.injEq] at h
                simp [hr, ← h]
            | ok rsp =>
                simp only [tokenVisits, hr, List.head?_cons, Option.mem_def,
                  Option.some.injEq] at h
                simp [hr, ← h]

/-- The visits are the requests that are sent. -/
theorem map_hop_tokenVisits (rt : Runtime) (c : Consumer) (xs : List Exchange) :
    ∀ (args : RequestArgs) (st : ConsumerState) (path : Option Bytes) (o : CallOptions),
      (tokenVisits rt c args xs st path o).map Visit.hop
        = (c.tokenRequest rt args xs st path o).hops := by
  induction xs with
  | nil =>
      intro args st path o
      simp [tokenVisits, Consumer.tokenRequest]
  | cons x xs ih =>
      intro args st path o
      cases path with
      | none =>
          obtain ⟨st', e, hr⟩ := request_none rt c st args (tokenRequestOptions o) x
          simp [tokenVisits, Consumer.tokenRequest, hr]
      | some p =>
          rcases request_cases rt c st args (some p) (tokenRequestOptions o) x with
            ⟨st', e, hr⟩ | ⟨st', hop, r, hr, -⟩
          · simp [tokenVisits, Consumer.tokenRequest, hr]
          · cases r with
            | error e => simp [tokenVisits, Consumer.tokenRequest, hr]
            | ok rsp =>
                cases hstep : tokenStep c o p rsp with
                | finish result => simp [tokenVisits, Consumer.tokenRequest, hr, hstep]
                | follow next o' => simp [tokenVisits, Consumer.tokenRequest, hr, hstep, ih]

theorem isChain_tokenVisits (hsite : parseUri c.site = .ok site)
    (hend : c.options.requestEndpoint = none) (xs : List Exchange) :
    ∀ (args : RequestArgs) (st : ConsumerState) (path : Option Bytes) (o : CallOptions),
      (∀ v ∈ tokenVisits rt c args xs st path o, v.ReadingsAgree c site) →
      (tokenVisits rt c args xs st path o).IsChain Visit.LeadsTo := by
  induction xs with
  | nil =>
      intro args st path o _
      simp [tokenVisits]
  | cons x xs ih =>
      intro args st path o hgood
      cases path with
      | none => simp [tokenVisits]
      | some p =>
          rcases request_cases rt c st args (some p) (tokenRequestOptions o) x with
            ⟨st', e, hr⟩ | ⟨st', hop, r, hr, hconn⟩
          · simp [tokenVisits, hr]
          · cases r with
            | error e => simp [tokenVisits, hr]
            | ok rsp =>
                cases hstep : tokenStep c o p rsp with
                | finish result => simp [tokenVisits, hr, hstep]
                | follow next o' =>
                    -- the rest of the chain starts from the connection of this request
                    have heq : tokenVisits rt c args (x :: xs) st (some p) o
                        = ⟨p, o, hop, .ok rsp⟩ ::
                          tokenVisits rt c (args.afterSending [hop]) xs st' next o' := by
                      simp only [tokenVisits, hr, hstep]
                    rw [heq] at hgood ⊢
                    rw [List.isChain_cons]
                    refine ⟨fun v' hv' => ?_,
                      ih _ st' next o' fun v hv => hgood v (List.mem_cons_of_mem _ hv)⟩
                    obtain ⟨x', q, rfl, hnext⟩ := head?_tokenVisits hv'
                    exact leadsTo_of_agrees hsite hend rfl hstep (hgood _ List.mem_cons_self) hconn
                      hnext

end RubyOAuth
