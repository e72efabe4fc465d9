import RubyOAuth.Proofs.Requests

set_option autoImplicit false

/-! # Redirects of token requests

Where cross-origin redirects are off, a redirect that is followed is asked for as a path with a leading
slash, so it goes over the connection of the first request; the redirect count bounds the number of
requests. -/

namespace RubyOAuth

open Bytes

variable {c : Consumer}

/-! ## One redirect -/

theorem tokenStep_eq_follow {o o' : CallOptions} {p : Bytes} {rsp : Response} {next : Option Bytes}
    (h : tokenStep c o p rsp = .follow next o') : followRedirect c o p rsp = .ok (next, o') := by
  rw [tokenStep] at h
  split_ifs at h
  cases hf : followRedirect c o p rsp with
  | error e => simp [hf] at h
  | ok r =>
      rw [hf] at h
      simp only [TokenStep.follow.injEq] at h
      rw [← h.1, ← h.2]

/-- What following a redirect requires, and what it gives. -/
theorem followRedirect_eq_ok {o o' : CallOptions} {p : Bytes} {rsp : Response}
    {next : Option Bytes} :
    followRedirect c o p rsp = .ok (next, o') ↔
      ∃ cur red m, tokenRequestUri c p = .ok cur ∧ tokenRequestRedirectUri cur rsp = .ok red ∧
        tokenRequestMaxRedirects c o = some m ∧ o.tokenRequestRedirectCount.getD 0 + 1 ≤ m ∧
        (tokenRequestCrossOrigin cur red = true → tokenRequestCrossOriginRedirects c o = true) ∧
        tokenRequestRedirectPath cur red = .ok next ∧
        o' = { o with tokenRequestRedirectCount := some (o.tokenRequestRedirectCount.getD 0 + 1) } := by
  rw [followRedirect, Except.bind_eq_ok]
  constructor
  · rintro ⟨cur, hcur, h⟩
    obtain ⟨red, hred, h⟩ := Except.bind_eq_ok.1 h
    cases hm : tokenRequestMaxRedirects c o with
    | none => simp [hm] at h
    | some m =>
        simp only [hm] at h
        split_ifs at h with hcount hcross
        obtain ⟨next', hnext, h⟩ := Except.bind_eq_ok.1 h
        rw [Except.ok.injEq, Prod.mk.injEq] at h
        refine ⟨cur, red, m, hcur, hred, rfl, by omega, ?_, h.1 ▸ hnext, h.2.symm⟩
        intro hc
        by_contra hn
        simp [hc, hn] at hcross
  · rintro ⟨cur, red, m, hcur, hred, hm, hcount, hcross, hnext, rfl⟩
    refine ⟨cur, hcur, Except.bind_eq_ok.2 ⟨red, hred, ?_⟩⟩
    have hno : ¬ (tokenRequestCrossOrigin cur red && !tokenRequestCrossOriginRedirects c o) = true := by
      intro hb
      rw [Bool.and_eq_true] at hb
      simp [hcross hb.1] at hb
    simp only [hm]
    rw [if_neg (by omega), if_neg hno, hnext]
    rfl

/-- A followed redirect counts one up within the maximum and changes no other option. -/
theorem followRedirect_options {o o' : CallOptions} {p : Bytes} {rsp : Response}
    {next : Option Bytes} (h : followRedirect c o p rsp = .ok (next, o')) :
    tokenRequestMaxRedirects c o' = tokenRequestMaxRedirects c o ∧
      tokenRequestCrossOriginRedirects c o' = tokenRequestCrossOriginRedirects c o ∧
      o'.tokenRequestRedirectCount.getD 0 = o.tokenRequestRedirectCount.getD 0 + 1 ∧
      ∀ m, tokenRequestMaxRedirects c o = some m → o.tokenRequestRedirectCount.getD 0 + 1 ≤ m := by
  obtain ⟨cur, red, m, -, -, hm, hcount, -, -, rfl⟩ := followRedirect_eq_ok.1 h
  refine ⟨rfl, rfl, rfl, fun m' hm' => ?_⟩
  rw [hm, Option.some.injEq] at hm'
  exact hm' ▸ hcount

/-- With cross-origin redirects off, what is asked for next begins with a slash. -/
theorem followRedirect_slash {o o' : CallOptions} {p : Bytes} {rsp : Response}
    {next : Option Bytes} (hcross : tokenRequestCrossOriginRedirects c o = false)
    (h : followRedirect c o p rsp = .ok (next, o')) {q : Bytes} (hq : next = some q) :
    hasSlashLine q = true := by
  obtain ⟨cur, red, m, -, -, -, -, hallow, hnext, -⟩ := followRedirect_eq_ok.1 h
  have hsame : tokenRequestCrossOrigin cur red = false := by
    by_contra hc
    rw [Bool.not_eq_false] at hc
    simp [hallow hc] at hcross
  rw [tokenRequestRedirectPath, hsame] at hnext
  simp only [Bool.false_eq_true, if_false] at hnext
  split_ifs at hnext
  · rw [Except.ok.injEq] at hnext
    simp [← hnext] at hq
  · rw [Except.ok.injEq] at hnext
    rw [← hnext, Option.some.injEq] at hq
    exact hasSlashLine_of_head? (hq ▸ Uri.head?_requestTarget red)

/-! ## One hop of a token request -/

/-- A token request ends with its first request, or follows a redirect with what sending left of the
    arguments. -/
theorem tokenRequest_cons_cases (rt : Runtime) (c : Consumer) (args : RequestArgs) (x : Exchange)
    (xs : List Exchange) (st : ConsumerState) (path : Option Bytes) (o : CallOptions) :
    (∃ result, c.tokenRequest rt args (x :: xs) st path o
        = ⟨(c.request rt st args path (tokenRequestOptions o) x).state,
            (c.request rt st args path (tokenRequestOptions o) x).hops, .done result⟩) ∨
      ∃ p rsp next o' args', path = some p ∧
        (c.request rt st args path (tokenRequestOptions o) x).result = .done (.ok rsp) ∧
        tokenStep c o p rsp = .follow next o' ∧
        args' = args.afterSending (c.request rt st args path (tokenRequestOptions o) x).hops ∧
        c.tokenRequest rt args (x :: xs) st path o =
          ⟨(c.tokenRequest rt args' xs
              (c.request rt st args path (tokenRequestOptions o) x).state next o').state,
            (c.request rt st args path (tokenRequestOptions o) x).hops ++
              (c.tokenRequest rt args' xs
                (c.request rt st args path (tokenRequestOptions o) x).state next o').hops,
            (c.tokenRequest rt args' xs
              (c.request rt st args path (tokenRequestOptions o) x).state next o').result⟩ := by
  cases path with
  | none =>
      obtain ⟨st', e, h⟩ := request_none rt c st args (tokenRequestOptions o) x
      exact .inl ⟨.error e, by simp only [Consumer.tokenRequest, h]⟩
  | some p =>
      rcases request_cases rt c st args (some p) (tokenRequestOptions o) x with
        ⟨st', e, h⟩ | ⟨st', hop, r, h, -⟩
      · exact .inl ⟨.error e, by simp only [Consumer.tokenRequest, h]⟩
      · cases r with
        | error e => exact .inl ⟨.error e, by simp only [Consumer.tokenRequest, h]⟩
        | ok rsp =>
            cases hstep : tokenStep c o p rsp with
            | finish result =>
                exact .inl ⟨result, by simp only [Consumer.tokenRequest, h, Option.getD_some, hstep]⟩
            | follow next o' =>
                refine .inr ⟨p, rsp, next, o', _, rfl, by rw [h], hstep, rfl, ?_⟩
                simp only [Consumer.tokenRequest, h, Option.getD_some, hstep]

/-! ## A whole token request -/

/-- After the first request: over the connection that is there, no more requests than the count
    leaves, and an end. -/
theorem tokenRequest_redirected (rt : Runtime) (args : RequestArgs) {conn : Connection} {m : Nat}
    (xs : List Exchange) :
    ∀ (st : ConsumerState) (path : Option Bytes) (o : CallOptions), st.http = some conn →
    (∀ p, path = some p → hasSlashLine p = true) → tokenRequestMaxRedirects c o = some m →
    tokenRequestCrossOriginRedirects c o = false → o.tokenRequestRedirectCount.getD 0 ≤ m →
    (c.tokenRequest rt args xs st path o).hops.length
        + o.tokenRequestRedirectCount.getD 0 ≤ m + 1 ∧
      (∀ hop ∈ (c.tokenRequest rt args xs st path o).hops, hop.connection = conn) ∧
      (m + 1 ≤ xs.length + o.tokenRequestRedirectCount.getD 0 →
        (c.tokenRequest rt args xs st path o).result ≠ .waiting) := by
  induction xs generalizing args with
  | nil =>
      intro st path o _ _ _ _ hk
      refine ⟨by simp [Consumer.tokenRequest]; omega, by simp [Consumer.tokenRequest], ?_⟩
      intro hlen
      simp only [List.length_nil] at hlen
      omega
  | cons x xs ih =>
      intro st path o hconn hpath hm hcross hk
      -- the one request of this hop
      have hfirst : (c.request rt st args path (tokenRequestOptions o) x).hops.length ≤ 1 ∧
          (∀ hop ∈ (c.request rt st args path (tokenRequestOptions o) x).hops,
            hop.connection = conn) ∧
          (∀ p, path = some p →
            (c.request rt st args path (tokenRequestOptions o) x).state.http = some conn) := by
        cases path with
        | none =>
            obtain ⟨st', e, h⟩ := request_none rt c st args (tokenRequestOptions o) x
            simp [h]
        | some p =>
            rcases request_slash rt c args (tokenRequestOptions o) x hconn (hpath p rfl) with
              ⟨e, h⟩ | ⟨hop, r, h, hc⟩
            · simp [h, hconn]
            · simp [h, hconn, hc]
      obtain ⟨hlen₁, hconn₁, hstate₁⟩ := hfirst
      rcases tokenRequest_cons_cases rt c args x xs st path o with
        ⟨result, h⟩ | ⟨p, rsp, next, o', args', hp, -, hstep, -, h⟩
      · rw [h]
        exact ⟨by simp only; omega, hconn₁, by simp⟩
      · have hfollow := tokenStep_eq_follow hstep
        obtain ⟨hm', hcross', hk', hcount⟩ := followRedirect_options hfollow
        obtain ⟨hlen, hall, hend⟩ := ih args' _ next o' (hstate₁ p hp)
          (fun q hq => followRedirect_slash hcross hfollow hq) (hm'.trans hm) (hcross'.trans hcross)
          (hk' ▸ hcount m hm)
        rw [hk'] at hlen hend
        rw [h]
        refine ⟨?_, ?_, ?_⟩
        · simp only [List.length_append]
          omega
        · intro hop hmem
          rcases List.mem_append.1 hmem with hmem | hmem
          · exact hconn₁ hop hmem
          · exact hall hop hmem
        · intro hxs
          simp only [List.length_cons] at hxs
          exact hend (by omega)

/-- **Token requests stay on their origin and end**: with cross-origin redirects off and a maximum of
    `m`, at most `m + 1` requests are sent, all to the host, port and TLS setting of the first, and
    with that many replies the call returns or raises. -/
theorem tokenRequest_safe (rt : Runtime) (c : Consumer) (args : RequestArgs) (st : ConsumerState)
    (path : Bytes) (o : CallOptions) (xs : List Exchange) (m : Nat)
    (hcount : o.tokenRequestRedirectCount = none) (hm : tokenRequestMaxRedirects c o = some m)
    (hcross : tokenRequestCrossOriginRedirects c o = false) :
    (c.tokenRequest rt args xs st (some path) o).hops.length ≤ m + 1 ∧
      (∀ first ∈ (c.tokenRequest rt args xs st (some path) o).hops.head?,
        ∀ hop ∈ (c.tokenRequest rt args xs st (some path) o).hops,
          hop.connection.address = first.connection.address ∧
            hop.connection.port = first.connection.port ∧
            hop.connection.useSsl = first.connection.useSsl) ∧
      (m + 1 ≤ xs.length →
        ∃ result, (c.tokenRequest rt args xs st (some path) o).result = .done result) := by
  cases xs with
  | nil => exact ⟨by simp [Consumer.tokenRequest], by simp [Consumer.tokenRequest], by simp⟩
  | cons x xs =>
      rcases tokenRequest_cons_cases rt c args x xs st (some path) o with
        ⟨result, h⟩ | ⟨p, rsp, next, o', args', -, hok, hstep, -, h⟩
      · -- no redirect is followed
        rw [h]
        rcases request_cases rt c st args (some path) (tokenRequestOptions o) x with
          ⟨st', e, hr⟩ | ⟨st', hop, r, hr, -⟩
        · simp [hr]
        · simp [hr]
      · -- the first request leaves its connection to the redirected ones
        rcases request_cases rt c st args (some path) (tokenRequestOptions o) x with
          ⟨st', e, hr⟩ | ⟨st', first, r, hr, hconn⟩
        · simp [hr] at hok
        · have hfollow := tokenStep_eq_follow hstep
          obtain ⟨hm', hcross', hk', hle⟩ := followRedirect_options hfollow
          have hle := hle m hm
          rw [hcount, Option.getD_none] at hk' hle
          obtain ⟨hlen, hall, hend⟩ := tokenRequest_redirected rt args' xs st' next o' hconn
            (fun q hq => followRedirect_slash hcross hfollow hq) (hm'.trans hm)
            (hcross'.trans hcross) (by omega)
          rw [hk'] at hlen hend
          rw [h, hr]
          refine ⟨?_, ?_, ?_⟩
          · simp only [List.length_append, List.length_singleton]
            omega
          · intro f hf hop hmem
            simp only [List.singleton_append, List.head?_cons, Option.mem_def,
              Option.some.injEq] at hf
            subst hf
            rcases List.mem_append.1 hmem with hmem | hmem
            · rw [List.mem_singleton.1 hmem]
              exact ⟨rfl, rfl, rfl⟩
            · rw [hall hop hmem]
              exact ⟨rfl, rfl, rfl⟩
          · intro hxs
            simp only [List.length_cons] at hxs
            cases hres : (c.tokenRequest rt args' xs st' next o').result with
            | done result => exact ⟨result, rfl⟩
            | waiting => exact absurd hres (hend (by omega))

theorem exampleConsumer_tokenRequest_safe :
    (exampleConsumer.tokenRequest echoRuntime postArgs [redirectTo "/b", redirectTo "http://evil.test/"]
        {} (some (ascii "/a")) {}).hops.length ≤ 10 + 1 ∧
      (∀ first ∈ (exampleConsumer.tokenRequest echoRuntime postArgs
          [redirectTo "/b", redirectTo "http://evil.test/"] {} (some (ascii "/a")) {}).hops.head?,
        ∀ hop ∈ (exampleConsumer.tokenRequest echoRuntime postArgs
            [redirectTo "/b", redirectTo "http://evil.test/"] {} (some (ascii "/a")) {}).hops,
          hop.connection.address = first.connection.address ∧
            hop.connection.port = first.connection.port ∧
            hop.connection.useSsl = first.connection.useSsl) ∧
      (10 + 1 ≤ [redirectTo "/b", redirectTo "http://evil.test/"].length →
        ∃ result, (exampleConsumer.tokenRequest echoRuntime postArgs
          [redirectTo "/b", redirectTo "http://evil.test/"] {} (some (ascii "/a")) {}).result
            = .done result) :=
  tokenRequest_safe echoRuntime exampleConsumer postArgs {} (ascii "/a") {}
    [redirectTo "/b", redirectTo "http://evil.test/"] 10 rfl rfl rfl

/-- The second redirect leaves the origin and is refused. -/
example : (exampleConsumer.tokenRequest echoRuntime postArgs
    [redirectTo "/b", redirectTo "http://evil.test/", answer ""] {} (some (ascii "/a"))
    {}).hops.map Hop.target = [ascii "/a", ascii "/b"] := by
  decide +kernel

end RubyOAuth
