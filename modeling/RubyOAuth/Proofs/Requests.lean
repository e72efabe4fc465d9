import RubyOAuth.Model.Tokens

set_option autoImplicit false

/-! # What one request does

The outcomes of `request`, said once: it raises before anything is sent, or it sends exactly one
request over the connection it leaves in `@http`. A path with a leading slash goes over the connection
that is there. -/

namespace RubyOAuth

open Bytes

variable {c : Consumer} {st : ConsumerState}

/-! ## The connection -/

theorem createHttp_eq_ok {url : Option Bytes} {conn : Connection}
    (h : createHttp c url = .ok conn) :
    ∃ u, connectionUri c url = .ok u ∧ conn.address = u.host ∧
      conn.port = u.effectivePort.getD 80 ∧ conn.useSsl = (u.scheme == some (ascii "https")) := by
  rw [createHttp] at h
  split at h
  · simp at h
  · next u hu =>
      rw [Except.ok.injEq] at h
      subst h
      exact ⟨u, hu, rfl, rfl, rfl⟩

/-- Without a URL the connection is to the site. -/
theorem connectionUri_none {site : Uri} (hsite : parseUri c.site = .ok site)
    (hend : c.options.requestEndpoint = none) : connectionUri c none = .ok site := by
  rw [connectionUri, Consumer.requestEndpoint, hend]
  exact hsite

/-- `http` keeps a connection that is there, and otherwise makes the one to the site. -/
theorem http_cases (c : Consumer) (st : ConsumerState) :
    (∃ conn, st.http = some conn ∧ c.http st = (st, .ok conn)) ∨
      (∃ conn, st.http = none ∧ createHttp c none = .ok conn ∧
        c.http st = ({ st with http := some conn }, .ok conn)) ∨
      (∃ e, st.http = none ∧ createHttp c none = .error e ∧ c.http st = (st, .error e)) := by
  rw [Consumer.http]
  cases hh : st.http with
  | some conn => exact .inl ⟨conn, rfl, rfl⟩
  | none =>
      cases hc : createHttp c none with
      | ok conn => exact .inr (.inl ⟨conn, rfl, rfl, rfl⟩)
      | error e => exact .inr (.inr ⟨e, rfl, rfl, rfl⟩)

theorem http_of_some {conn : Connection} (h : st.http = some conn) : c.http st = (st, .ok conn) := by
  rw [Consumer.http, h]

/-- What `http` answers is what it leaves. -/
theorem http_eq_ok {st' : ConsumerState} {conn : Connection} (h : c.http st = (st', .ok conn)) :
    st'.http = some conn := by
  rcases http_cases c st with ⟨d, hs, hc⟩ | ⟨d, hs, -, hc⟩ | ⟨e, hs, -, hc⟩
  · rw [hc, Prod.mk.injEq, Except.ok.injEq] at h
    obtain ⟨rfl, rfl⟩ := h
    exact hs
  · rw [hc, Prod.mk.injEq, Except.ok.injEq] at h
    obtain ⟨rfl, rfl⟩ := h
    rfl
  · simp [hc] at h

/-! ## The beginning of `request` -/

theorem openConnection_slash {p : Bytes} (h : hasSlashLine p = true) :
    openConnection c st (some p) = (st, .ok p) := by
  rw [openConnection, if_pos h]

/-- Any other path makes a connection of its own. -/
theorem openConnection_of_not_slash {p : Bytes} (h : hasSlashLine p = false) {conn : Connection}
    (hc : createHttp c (some p) = .ok conn) :
    openConnection c st (some p) = ({ st with http := some conn }, (parseUri p).map pathOfUri) := by
  simp [openConnection, h, hc]

theorem openConnection_none (c : Consumer) (st : ConsumerState) :
    ∃ st' e, openConnection c st none = (st', .error e) := by
  rw [openConnection]
  cases createHttp c none with
  | ok conn => exact ⟨_, _, rfl⟩
  | error e => exact ⟨_, _, rfl⟩

theorem hasSlashLine_of_head? {p : Bytes} (h : p.head? = some slash) : hasSlashLine p = true := by
  cases p with
  | nil => simp at h
  | cons b rest =>
      simp only [List.head?_cons, Option.some.injEq] at h
      subst h
      rw [hasSlashLine, List.splitOn, List.splitOnP_cons_eq_if_modifyHead, if_neg (by decide)]
      obtain ⟨l, ls, hl⟩ := List.exists_cons_of_ne_nil (List.splitOnP_ne_nil (· == newline) rest)
      rw [hl]
      rfl

/-! ## The whole request -/

/-- The check for a reported problem raises or hands the response on. -/
theorem checkProblem_eq_ok {rsp rsp' : Response} (h : checkProblem rsp = .ok rsp') : rsp' = rsp := by
  rw [checkProblem] at h
  split at h
  · exact (Except.ok.inj h).symm
  · split at h
    · obtain ⟨params, -, h⟩ := Except.bind_eq_ok.1 h
      simp at h
    · exact (Except.ok.inj h).symm

/-- A request raises with nothing sent, or sends one request and gives its reply. -/
theorem sendRequest_cases (rt : Runtime) (c : Consumer) (st : ConsumerState) (args : RequestArgs)
    (p : Bytes) (o : CallOptions) (x : Exchange) :
    (∃ e, sendRequest rt c st args p o x = ⟨(c.http st).1, [], .done (.error e)⟩) ∨
      ∃ conn unsigned request, c.http st = ((c.http st).1, .ok conn) ∧
        createHttpRequest rt c conn args.method p args.data args.headers = .ok unsigned ∧
        oauth rt conn unsigned c args.token (c.mergeOptions o) x.generated = .ok request ∧
        sendRequest rt c st args p o x
          = ⟨(c.http st).1, [⟨conn, unsigned, request⟩], .done (x.reply >>= checkProblem)⟩ := by
  rw [sendRequest]
  cases hh : c.http st with
  | mk st' r =>
      cases r with
      | error e => exact .inl ⟨e, rfl⟩
      | ok conn =>
          cases hc : createHttpRequest rt c conn args.method p args.data args.headers with
          | error e => exact .inl ⟨e, by simp only [hc]⟩
          | ok unsigned =>
              cases hs : oauth rt conn unsigned c args.token (c.mergeOptions o) x.generated with
              | error e => exact .inl ⟨e, by simp only [hc, hs]⟩
              | ok request =>
                  exact .inr ⟨conn, unsigned, request, rfl, hc, hs, by simp only [hc, hs]⟩

/-- Every call of `request` ends; it sent nothing and raised, or sent one request over the connection
    it leaves. -/
theorem request_cases (rt : Runtime) (c : Consumer) (st : ConsumerState) (args : RequestArgs)
    (path : Option Bytes) (o : CallOptions) (x : Exchange) :
    (∃ st' e, c.request rt st args path o x = ⟨st', [], .done (.error e)⟩) ∨
      ∃ st' hop result, c.request rt st args path o x = ⟨st', [hop], .done result⟩ ∧
        st'.http = some hop.connection := by
  rw [Consumer.request]
  cases ho : openConnection c st path with
  | mk st₁ r =>
      cases r with
      | error e => exact .inl ⟨st₁, e, rfl⟩
      | ok p =>
          rcases sendRequest_cases rt c st₁ args p o x with ⟨e, h⟩ | ⟨conn, u, r, hh, -, -, h⟩
          · exact .inl ⟨_, e, h⟩
          · exact .inr ⟨_, _, _, h, http_eq_ok hh⟩

/-- The response of a request is the reply of the server. -/
theorem reply_of_request {rt : Runtime} {args : RequestArgs} {path : Option Bytes} {o : CallOptions}
    {x : Exchange} {rsp : Response}
    (h : (c.request rt st args path o x).result = .done (.ok rsp)) : x.reply = .ok rsp := by
  rw [Consumer.request] at h
  cases ho : openConnection c st path with
  | mk st₁ r =>
      cases r with
      | error e => simp [ho] at h
      | ok p =>
          rw [ho] at h
          rcases sendRequest_cases rt c st₁ args p o x with ⟨e, hr⟩ | ⟨conn, u, q, -, -, -, hr⟩
          · simp [hr] at h
          · simp only [hr, Result.done.injEq] at h
            obtain ⟨rsp', hreply, hcheck⟩ := Except.bind_eq_ok.1 h
            rw [hreply, checkProblem_eq_ok hcheck]

/-- A path with a leading slash stays on the connection that is there. -/
theorem request_slash (rt : Runtime) (c : Consumer) (args : RequestArgs) (o : CallOptions)
    (x : Exchange) {conn : Connection} (hconn : st.http = some conn) {p : Bytes}
    (hp : hasSlashLine p = true) :
    (∃ e, c.request rt st args (some p) o x = ⟨st, [], .done (.error e)⟩) ∨
      ∃ hop result, c.request rt st args (some p) o x = ⟨st, [hop], .done result⟩ ∧
        hop.connection = conn := by
  rw [Consumer.request, openConnection_slash hp]
  have hhttp : c.http st = (st, .ok conn) := http_of_some hconn
  rcases sendRequest_cases rt c st args p o x with ⟨e, h⟩ | ⟨conn', u, r, hh, -, -, h⟩
  · rw [hhttp] at h
    exact .inl ⟨e, h⟩
  · rw [hhttp] at hh h
    simp only [Prod.mk.injEq, Except.ok.injEq, true_and] at hh
    exact .inr ⟨_, _, h, hh.symm⟩

/-- A `nil` path sends nothing. -/
theorem request_none (rt : Runtime) (c : Consumer) (st : ConsumerState) (args : RequestArgs)
    (o : CallOptions) (x : Exchange) :
    ∃ st' e, c.request rt st args none o x = ⟨st', [], .done (.error e)⟩ := by
  obtain ⟨st', e, h⟩ := openConnection_none c st
  exact ⟨st', e, by rw [Consumer.request, h]⟩

/-! ## The request that is sent -/

/-- The path that is asked for: the one given, or what is left of it. -/
def requestedPath (path : Bytes) : Except RubyError Bytes :=
  if hasSlashLine path then .ok path else (parseUri path).map pathOfUri

/-- The connection it is asked for over. -/
def chosenConnection (c : Consumer) (st : ConsumerState) (path : Bytes) :
    Except RubyError Connection :=
  if hasSlashLine path then (c.http st).2 else createHttp c (some path)

/-- Where a sent request comes from. -/
theorem hop_of_request {rt : Runtime} {args : RequestArgs} {path : Bytes} {o : CallOptions}
    {x : Exchange} {hop : Hop} (h : hop ∈ (c.request rt st args (some path) o x).hops) :
    ∃ p, requestedPath path = .ok p ∧ chosenConnection c st path = .ok hop.connection ∧
      createHttpRequest rt c hop.connection args.method p args.data args.headers
        = .ok hop.unsigned ∧
      oauth rt hop.connection hop.unsigned c args.token (c.mergeOptions o) x.generated
        = .ok hop.request := by
  -- what is sent for a path once the connection is chosen
  have hsend : ∀ st₁ p, hop ∈ (sendRequest rt c st₁ args p o x).hops →
      (c.http st₁).2 = .ok hop.connection ∧
      createHttpRequest rt c hop.connection args.method p args.data args.headers
        = .ok hop.unsigned ∧
      oauth rt hop.connection hop.unsigned c args.token (c.mergeOptions o) x.generated
        = .ok hop.request := by
    intro st₁ p h
    rcases sendRequest_cases rt c st₁ args p o x with ⟨e, hr⟩ | ⟨conn, u, q, hh, hu, hq, hr⟩
    · simp [hr] at h
    · rw [hr] at h
      rw [List.mem_singleton.1 h]
      exact ⟨by rw [hh], hu, hq⟩
  rw [Consumer.request] at h
  by_cases hp : hasSlashLine path = true
  · rw [openConnection_slash hp] at h
    obtain ⟨hconn, hrest⟩ := hsend st path h
    exact ⟨path, by rw [requestedPath, if_pos hp], by rw [chosenConnection, if_pos hp, hconn], hrest⟩
  · rw [Bool.not_eq_true] at hp
    cases hc : createHttp c (some path) with
    | error e => simp [openConnection, hp, hc] at h
    | ok conn =>
        rw [openConnection_of_not_slash hp hc] at h
        cases hu : (parseUri path).map pathOfUri with
        | error e => simp [hu] at h
        | ok p =>
            rw [hu] at h
            obtain ⟨hconn, hrest⟩ := hsend { st with http := some conn } p h
            rw [http_of_some rfl, Except.ok.injEq] at hconn
            refine ⟨p, by simp [requestedPath, hp, hu], ?_, hrest⟩
            simp [chosenConnection, hp, hc, hconn]

/-! ## `AccessToken#request` -/

/-- Everything `AccessToken#request` can do: it raises before it touches the consumer, it is a plain
    request, or `uri` is set before and after. -/
theorem accessTokenRequest_cases (rt : Runtime) (c : Consumer) (st : ConsumerState)
    (args : RequestArgs) (path : Bytes) (x : Exchange) :
    (∃ e, (parseUri path = .error e ∨ (c.uri st).2 = .error e) ∧
        accessTokenRequest rt c st args path x = ⟨st, [], .done (.error e)⟩) ∨
      ∃ u st' site, parseUri path = .ok u ∧ c.uri st = (st', .ok site) ∧
        (((u.scheme.isSome && !sameUri u site) = false ∧
            accessTokenRequest rt c st args path x = c.request rt st' args (some path) {} x) ∨
          ((u.scheme.isSome && !sameUri u site) = true ∧ ∃ e, createHttp c none = .error e ∧
            accessTokenRequest rt c st args path x
              = ⟨{ st' with uri := some site }, [], .done (.error e)⟩) ∨
          ((u.scheme.isSome && !sameUri u site) = true ∧ ∃ conn, createHttp c none = .ok conn ∧
            accessTokenRequest rt c st args path x
              = ⟨⟨some conn, some site⟩,
                  (c.request rt ⟨some conn, some u⟩ args (some path) {} x).hops,
                  (c.request rt ⟨some conn, some u⟩ args (some path) {} x).result⟩)) := by
  rw [accessTokenRequest]
  cases hu : parseUri path with
  | error e => exact .inl ⟨e, .inl rfl, rfl⟩
  | ok u =>
      cases hs : c.uri st with
      | mk st' r =>
          cases r with
          | error e =>
              -- the site does not parse, and nothing is kept
              have hst : st' = st := by
                rw [Consumer.uri] at hs
                split at hs
                · simp at hs
                · split at hs
                  · simp at hs
                  · exact (Prod.mk.inj hs).1.symm
              exact .inl ⟨e, .inr rfl, by rw [hst]⟩
          | ok site =>
              refine .inr ⟨u, st', site, rfl, rfl, ?_⟩
              by_cases hother : (u.scheme.isSome && !sameUri u site) = true
              · cases hc : createHttp c none with
                | error e =>
                    refine .inr (.inl ⟨hother, e, rfl, ?_⟩)
                    simp only [hother, if_true, Consumer.setUri, hc]
                | ok conn =>
                    refine .inr (.inr ⟨hother, conn, rfl, ?_⟩)
                    simp only [hother, if_true, Consumer.setUri, hc]
              · rw [Bool.not_eq_true] at hother
                refine .inl ⟨hother, ?_⟩
                simp only [hother, Bool.false_eq_true, if_false]

/-! ## A consumer to run -/

def exampleConsumer : Consumer where
  key := ascii "key"
  secret := .str (ascii "secret")
  options := { site := some (ascii "http://example.com") }

/-- The same over TLS. -/
def secureConsumer : Consumer :=
  { exampleConsumer with options := { site := some (ascii "https://example.com") } }

/-- A site with a path. -/
def apiConsumer : Consumer :=
  { exampleConsumer with options := { site := some (ascii "http://example.com/api") } }

def exampleSite : Uri where
  scheme := some (ascii "http")
  userinfo := none
  host := some (ascii "example.com")
  port := none
  path := []
  query := none
  fragment := none

def exampleConnection : Connection := ⟨some (ascii "example.com"), 80, false, none, by decide⟩

def postArgs : RequestArgs := ⟨.post, none, .none, []⟩

/-- The server answers with a redirect. -/
def redirectTo (location : String) : Exchange where
  generated := ⟨ascii "n0nce", ascii "1700000000"⟩
  reply := .ok ⟨302, [], some (ascii location), []⟩

/-- The server answers with a body. -/
def answer (body : String) : Exchange where
  generated := ⟨ascii "n0nce", ascii "1700000000"⟩
  reply := .ok ⟨200, [], none, ascii body⟩

end RubyOAuth
