import RubyOAuth.Proofs.RedirectSafety

set_option autoImplicit false

/-! # Where requests with a relative path go

A path with a leading slash goes over whatever connection the consumer has. That is the site as long as
no operation before it has opened a connection elsewhere: an absolute path given to `request`, a token
endpoint or a followed redirect may do so, and only `AccessToken#request` goes back. -/

namespace RubyOAuth

open Bytes Uri

/-! ## The site's endpoint -/

/-- The connection goes to host, port and TLS setting of the site. -/
def AtSite (site : Uri) (conn : Connection) : Prop :=
  conn.address.map downcase = site.host.map downcase ∧
    conn.port = site.effectivePort.getD 80 ∧ conn.useSsl = (site.scheme == some (ascii "https"))

instance (site : Uri) (conn : Connection) : Decidable (AtSite site conn) := by
  unfold AtSite; infer_instance

/-- A path that opens no connection, or one to the site. -/
def StaysAtSite (c : Consumer) (site : Uri) (path : Bytes) : Prop :=
  hasSlashLine path = true ∨ ∀ conn, createHttp c (some path) = .ok conn → AtSite site conn

/-- The path does, and so does the path of every redirect that is followed. -/
def RedirectsStayAtSite (c : Consumer) (site : Uri) : List Exchange → Bytes → CallOptions → Prop
  | [], path, _ => StaysAtSite c site path
  | x :: xs, path, o =>
    StaysAtSite c site path ∧
      ∀ rsp next o', x.reply = .ok rsp → tokenStep c o path rsp = .follow (some next) o' →
        RedirectsStayAtSite c site xs next o'

/-- The condition on an operation; `AccessToken#request` is under none. -/
def Operation.StaysAtSite (c : Consumer) (site : Uri) : Operation → Prop
  | .request _ path _ _ => RubyOAuth.StaysAtSite c site path
  | .getRequestToken _ _ o xs =>
    RedirectsStayAtSite c site xs c.requestTokenEndpoint (callbackOptions o)
  | .getAccessToken _ _ _ o xs => RedirectsStayAtSite c site xs c.accessTokenEndpoint o
  | .accessToken .. => True

/-! ## The invariant -/

/-- The connection, if any, is to the site, and `uri`, if set, is the site. -/
def HomeState (site : Uri) (st : ConsumerState) : Prop :=
  (∀ conn, st.http = some conn → AtSite site conn) ∧ (∀ u, st.uri = some u → u = site)

variable {c : Consumer} {site : Uri} {st : ConsumerState}

theorem HomeState.setHttp (h : HomeState site st) {conn : Connection} (hconn : AtSite site conn) :
    HomeState site { st with http := some conn } := by
  refine ⟨fun conn' hc => ?_, h.2⟩
  rw [Option.some.injEq] at hc
  exact hc ▸ hconn

theorem HomeState.setUri (h : HomeState site st) : HomeState site { st with uri := some site } :=
  ⟨h.1, fun _ hu => (Option.some.inj hu).symm⟩

/-! ## Connections to the site -/

section

variable (hsite : parseUri c.site = .ok site) (hend : c.options.requestEndpoint = none)

include hsite hend

/-- Without a URL the connection is to the site. -/
theorem atSite_createHttp_none {conn : Connection} (h : createHttp c none = .ok conn) :
    AtSite site conn := by
  obtain ⟨u, hu, ha, hp, hs⟩ := createHttp_eq_ok h
  rw [connectionUri_none hsite hend, Except.ok.injEq] at hu
  subst hu
  exact ⟨by rw [ha], hp, hs⟩

/-- A URL whose host is the site's, or that names none, stays there. -/
theorem staysAtSite_of_parseUri {p : Bytes} {u : Uri} (hu : parseUri p = .ok u)
    (h : u.host.isSome = true → u.host.map downcase = site.host.map downcase ∧
      u.effectivePort = site.effectivePort ∧ u.scheme = site.scheme) : StaysAtSite c site p := by
  refine .inr fun conn hconn => ?_
  obtain ⟨v, hv, ha, hp, hs⟩ := createHttp_eq_ok hconn
  rw [connectionUri, Consumer.requestEndpoint, hend, Option.none_or] at hv
  simp only [hsite, hu, Except.ok_bind] at hv
  split_ifs at hv with hslash hhost
  · rw [Except.ok.injEq] at hv
    subst hv
    exact ⟨by rw [ha], hp, hs⟩
  · rw [Except.ok.injEq] at hv
    subst hv
    exact ⟨by rw [ha], hp, hs⟩
  · rw [Except.ok.injEq] at hv
    subst hv
    obtain ⟨hh, hport, hscheme⟩ := h (Option.isSome_iff_ne_none.2 (by simpa using hhost))
    exact ⟨by rw [ha, hh], by rw [hp, hport], by rw [hs, hscheme]⟩

/-! ## One request -/

theorem http_home (h : HomeState site st) :
    HomeState site (c.http st).1 ∧
      ∀ st' conn, c.http st = (st', .ok conn) → AtSite site conn := by
  rcases http_cases c st with ⟨d, hs, hc⟩ | ⟨d, -, hd, hc⟩ | ⟨e, -, -, hc⟩
  · rw [hc]
    refine ⟨h, fun st' conn heq => ?_⟩
    rw [Prod.mk.injEq, Except.ok.injEq] at heq
    exact heq.2 ▸ h.1 d hs
  · have hd := atSite_createHttp_none hsite hend hd
    rw [hc]
    refine ⟨h.setHttp hd, fun st' conn heq => ?_⟩
    rw [Prod.mk.injEq, Except.ok.injEq] at heq
    exact heq.2 ▸ hd
  · rw [hc]
    exact ⟨h, by simp⟩

theorem openConnection_home (h : HomeState site st) {path : Option Bytes}
    (hpath : ∀ p, path = some p → StaysAtSite c site p) :
    HomeState site (openConnection c st path).1 := by
  unfold openConnection
  cases path with
  | none =>
      cases hc : createHttp c none with
      | error e => exact h
      | ok conn => exact h.setHttp (atSite_createHttp_none hsite hend hc)
  | some p =>
      by_cases hp : hasSlashLine p = true
      · simp only [hp, if_true]
        exact h
      · simp only [hp, Bool.false_eq_true, if_false]
        cases hc : createHttp c (some p) with
        | error e => exact h
        | ok conn => exact h.setHttp (((hpath p rfl).resolve_left hp) conn hc)

/-- From a state at home a path that stays at the site is asked for there. -/
theorem request_home (rt : Runtime) (h : HomeState site st) (args : RequestArgs)
    {path : Option Bytes} (hpath : ∀ p, path = some p → StaysAtSite c site p) (o : CallOptions)
    (x : Exchange) :
    HomeState site (c.request rt st args path o x).state ∧
      ∀ hop ∈ (c.request rt st args path o x).hops, AtSite site hop.connection := by
  have hopen := openConnection_home hsite hend h hpath
  unfold Consumer.request
  cases ho : openConnection c st path with
  | mk st₁ r =>
      rw [ho] at hopen
      cases r with
      | error e => exact ⟨hopen, by simp⟩
      | ok p =>
          obtain ⟨hhttp, hconn⟩ := http_home hsite hend hopen
          rcases sendRequest_cases rt c st₁ args p o x with ⟨e, hr⟩ | ⟨conn, u, q, hh, -, -, hr⟩
          · simp only [hr]
            exact ⟨hhttp, by simp⟩
          · simp only [hr]
            refine ⟨hhttp, fun hop hmem => ?_⟩
            rw [List.mem_singleton.1 hmem]
            exact hconn _ _ hh

/-! ## Token requests -/

/-- A token request whose redirects stay at the site. -/
theorem tokenRequest_home (rt : Runtime) (args : RequestArgs) (xs : List Exchange) :
    ∀ (st : ConsumerState) (path : Option Bytes) (o : CallOptions), HomeState site st →
    (∀ p, path = some p → RedirectsStayAtSite c site xs p o) →
    HomeState site (c.tokenRequest rt args xs st path o).state ∧
      ∀ hop ∈ (c.tokenRequest rt args xs st path o).hops, AtSite site hop.connection := by
  induction xs generalizing args with
  | nil =>
      intro st path o h hpath
      exact ⟨openConnection_home hsite hend h hpath, by simp [Consumer.tokenRequest]⟩
  | cons x xs ih =>
      intro st path o h hpath
      obtain ⟨hstate, hhops⟩ := request_home hsite hend rt h args (fun p hp => (hpath p hp).1)
        (tokenRequestOptions o) x
      rcases tokenRequest_cons_cases rt c args x xs st path o with
        ⟨result, heq⟩ | ⟨p, rsp, next, o', args', hp, hok, hstep, -, heq⟩
      · rw [heq]
        exact ⟨hstate, hhops⟩
      · -- the rest of the chain starts in the state the first request left
        have hnext : ∀ q, next = some q → RedirectsStayAtSite c site xs q o' := by
          rintro q rfl
          exact (hpath p hp).2 rsp q o' (reply_of_request hok) hstep
        obtain ⟨hstate', hhops'⟩ := ih args' _ next o' hstate hnext
        rw [heq]
        refine ⟨hstate', fun hop hmem => ?_⟩
        rcases List.mem_append.1 hmem with hmem | hmem
        · exact hhops hop hmem
        · exact hhops' hop hmem

/-! ## `AccessToken#request` -/

omit hend in
theorem uri_home (h : HomeState site st) :
    ∃ st', c.uri st = (st', .ok site) ∧ HomeState site st' := by
  unfold Consumer.uri
  cases hu : st.uri with
  | some u => exact ⟨st, by simp only [h.2 u hu], h⟩
  | none => exact ⟨{ st with uri := some site }, by simp only [hsite], h.setUri⟩

/-- The paths for which `AccessToken#request` leaves `uri` alone stay at the site. -/
theorem staysAtSite_of_accessToken {p : Bytes} {u : Uri} (hu : parseUri p = .ok u)
    (hsame : ¬(u.scheme.isSome && !sameUri u site) = true) : StaysAtSite c site p := by
  by_cases hscheme : u.scheme.isSome = true
  · -- the same URI: the parsed schemes are in lower case already
    refine staysAtSite_of_parseUri hsite hend hu fun _ => ?_
    have heq : sameUri u site = true := by simpa [hscheme] using hsame
    simp only [sameUri, beq_iff_eq, Prod.mk.injEq] at heq
    obtain ⟨hs, -, hh, hport, -⟩ := heq
    refine ⟨hh, hport, ?_⟩
    have hlow : ∀ w : Uri, w.Valid → w.scheme.map downcase = w.scheme := by
      intro w hw
      cases hws : w.scheme with
      | none => rfl
      | some s => rw [Option.map_some, downcase_of_validScheme (hw.1 s hws)]
    rw [← hlow u (valid_of_parseUri hu), hs, hlow site (valid_of_parseUri hsite)]
  · by_cases hhost : u.host.isSome = true
    · have hslash := slash_of_host (parseUri_eq_ok.1 hu) (by simpa using hscheme) hhost
      exact .inl (hasSlashLine_of_head? hslash)
    · exact staysAtSite_of_parseUri hsite hend hu fun h => absurd h hhost

/-- `AccessToken#request` leaves a state at home, and a path with a leading slash goes to the site. -/
theorem accessTokenRequest_home (rt : Runtime) (h : HomeState site st) (args : RequestArgs)
    (path : Bytes) (x : Exchange) :
    HomeState site (accessTokenRequest rt c st args path x).state ∧
      (path.head? = some slash →
        ∀ hop ∈ (accessTokenRequest rt c st args path x).hops, AtSite site hop.connection) := by
  rcases accessTokenRequest_cases rt c st args path x with
    ⟨e, -, heq⟩ | ⟨u, st', uri, hu, huri, hcase⟩
  · rw [heq]
    exact ⟨h, by simp⟩
  · obtain ⟨st'', huri', h'⟩ := uri_home hsite h
    obtain ⟨rfl, hsame⟩ := Prod.mk.inj (huri.symm.trans huri')
    obtain rfl := Except.ok.inj hsame
    rcases hcase with ⟨hsame, heq⟩ | ⟨-, e, -, heq⟩ | ⟨hother, conn, hconn, heq⟩
    · have hstays : ∀ p, some path = some p → StaysAtSite c uri p := by
        intro p hp
        rw [Option.some.injEq] at hp
        exact hp ▸ staysAtSite_of_accessToken hsite hend hu (by simp [hsame])
      obtain ⟨hstate, hhops⟩ := request_home hsite hend rt h' args hstays {} x
      rw [heq]
      exact ⟨hstate, fun _ => hhops⟩
    · rw [heq]
      exact ⟨h'.setUri, by simp⟩
    · -- `ensure` makes a connection to the site again
      have hback : HomeState uri ⟨some conn, some uri⟩ := by
        refine ⟨fun conn' hc => ?_, fun v hv => (Option.some.inj hv).symm⟩
        rw [Option.some.injEq] at hc
        exact hc ▸ atSite_createHttp_none hsite hend hconn
      rw [heq]
      refine ⟨hback, fun hslash => ?_⟩
      have hnone := scheme_of_slash (parseUri_eq_ok.1 hu) hslash
      simp [hnone] at hother

/-! ## Runs -/

/-- What one operation does to a state at home. -/
theorem perform_home (rt : Runtime) (h : HomeState site st) {op : Operation}
    (hop : op.StaysAtSite c site) :
    HomeState site (op.perform rt c st).1 ∧
      ((op.path c).head? = some slash →
        ∀ hop ∈ (op.perform rt c st).2, AtSite site hop.connection) := by
  have hall : ∀ {p : Bytes} {P : Bytes → Prop}, P p → ∀ q, some p = some q → P q :=
    fun hp q hq => Option.some.inj hq ▸ hp
  cases op with
  | request args path o x =>
      obtain ⟨hstate, hhops⟩ := request_home hsite hend rt h args (hall hop) o x
      exact ⟨hstate, fun _ => hhops⟩
  | getRequestToken data headers o xs =>
      obtain ⟨hstate, hhops⟩ := tokenRequest_home hsite hend rt
        ⟨c.options.httpMethod, none, data, headers⟩ xs st _ _ h (hall hop)
      exact ⟨hstate, fun _ => hhops⟩
  | getAccessToken token data headers o xs =>
      obtain ⟨hstate, hhops⟩ := tokenRequest_home hsite hend rt
        ⟨c.options.httpMethod, some token, data, headers⟩ xs st _ _ h (hall hop)
      exact ⟨hstate, fun _ => hhops⟩
  | accessToken args path x => exact accessTokenRequest_home hsite hend rt h args path x

end

/-- A request whose path begins with a slash goes to the site; the hops after the first are
    redirects. -/
def SlashAtSite (c : Consumer) (site : Uri) (sent : Operation × List Hop) : Prop :=
  (sent.1.path c).head? = some slash → ∀ first ∈ sent.2.head?, AtSite site first.connection

instance (c : Consumer) (site : Uri) (sent : Operation × List Hop) :
    Decidable (SlashAtSite c site sent) := by
  unfold SlashAtSite; infer_instance

/-- **While every operation stays at the site, paths with a leading slash go there.** -/
theorem slashAtSite_of_staysAtSite (rt : Runtime) (c : Consumer) (site : Uri)
    (hsite : parseUri c.site = .ok site) (hend : c.options.requestEndpoint = none)
    (ops : List Operation) (hops : ∀ op ∈ ops, op.StaysAtSite c site) :
    ∀ sent ∈ (Machine.run (consumerStep rt c) {} ops).2, SlashAtSite c site sent := by
  have hstep : ∀ (st : ConsumerState) (op : Operation), HomeState site st →
      op.StaysAtSite c site → HomeState site (consumerStep rt c st op).1 ∧
        ∀ sent ∈ (consumerStep rt c st op).2, SlashAtSite c site sent := by
    intro st op h hop
    obtain ⟨hstate, hhops⟩ := perform_home hsite hend rt h hop
    refine ⟨hstate, fun sent hsent hslash first hfirst => ?_⟩
    rw [consumerStep, List.mem_singleton] at hsent
    subst hsent
    exact hhops hslash first (List.mem_of_mem_head? hfirst)
  have hstart : HomeState site {} := ⟨by simp, by simp⟩
  exact (Machine.run_safe hstep hstart (Machine.along_of_forall (fun _ => hops) _)).2

/-- `AccessToken#request` goes elsewhere and comes back. -/
theorem exampleConsumer_slashAtSite :
    parseUri exampleConsumer.site = .ok exampleSite ∧
      ∀ sent ∈ (Machine.run (consumerStep echoRuntime exampleConsumer) {}
          [.accessToken postArgs (ascii "http://other.test/x") (answer ""),
            .request postArgs (ascii "/people") {} (answer "")]).2,
        SlashAtSite exampleConsumer exampleSite sent := by
  have hsite : parseUri exampleConsumer.site = .ok exampleSite := by decide +kernel
  refine ⟨hsite, slashAtSite_of_staysAtSite echoRuntime exampleConsumer exampleSite hsite rfl
    _ fun op hop => ?_⟩
  have hpeople : hasSlashLine (ascii "/people") = true := by decide
  rcases List.mem_pair.1 hop with rfl | rfl
  · trivial
  · exact .inl hpeople

/-- `Consumer#request` goes elsewhere and does not. -/
theorem exampleConsumer_not_slashAtSite :
    parseUri exampleConsumer.site = .ok exampleSite ∧
      exampleConsumer.options.requestEndpoint = none ∧
      ¬ ∀ sent ∈ (Machine.run (consumerStep echoRuntime exampleConsumer) {}
          [.request postArgs (ascii "http://other.test/x") {} (answer ""),
            .request postArgs (ascii "/people") {} (answer "")]).2,
        SlashAtSite exampleConsumer exampleSite sent := by
  decide +kernel

end RubyOAuth
