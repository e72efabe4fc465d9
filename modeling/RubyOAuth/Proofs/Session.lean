import RubyOAuth.Model.Session
import RubyOAuth.Proofs.SentHops

set_option autoImplicit false

/-! # Sessions are delegated access

The session simulates the flow of delegated access: it presents and uses tokens that it holds, and what
it holds was given to it. Each token it is given stands in the answer to the last request of the call
that gave it, and every request of a call is signed with the call's own token. -/

namespace RubyOAuth

open Bytes

variable {rt : Runtime} {c : Consumer}

/-! ## Where a token comes from -/

/-- The last of the requests was answered with these values: its own exchange has a 2xx answer with them
    in its body. -/
def AnsweredWith (hops : List Hop) (xs : List Exchange) (values : OrderedHash Bytes (Option Bytes)) :
    Prop :=
  ∃ (n : Nat) (x : Exchange) (rsp : Response), hops.length = n + 1 ∧ xs[n]? = some x ∧
    x.reply = .ok rsp ∧ 200 ≤ rsp.code ∧ rsp.code ≤ 299 ∧ values = parseTokenResponse rsp.body

theorem tokenStep_eq_finish_ok {o : CallOptions} {p : Bytes} {rsp : Response}
    {values : OrderedHash Bytes (Option Bytes)} (h : tokenStep c o p rsp = .finish (.ok values)) :
    200 ≤ rsp.code ∧ rsp.code ≤ 299 ∧ values = parseTokenResponse rsp.body := by
  rw [tokenStep] at h
  split at h
  · next hcode =>
      simp only [TokenStep.finish.injEq, Except.ok.injEq] at h
      exact ⟨hcode.1, hcode.2, h.symm⟩
  · split at h
    · split at h <;> simp at h
    · split at h <;> simp at h

theorem tokenRequest_answeredWith (args : RequestArgs) (xs : List Exchange) :
    ∀ (st : ConsumerState) (path : Option Bytes) (o : CallOptions)
      {values : OrderedHash Bytes (Option Bytes)},
      (c.tokenRequest rt args xs st path o).result = .done (.ok values) →
      AnsweredWith (c.tokenRequest rt args xs st path o).hops xs values := by
  induction xs generalizing args with
  | nil =>
      intro st path o values h
      simp [Consumer.tokenRequest] at h
  | cons x xs ih =>
      intro st path o values h
      cases path with
      | none =>
          obtain ⟨st', e, hr⟩ := request_none rt c st args (tokenRequestOptions o) x
          simp [Consumer.tokenRequest, hr] at h
      | some p =>
          rcases request_cases rt c st args (some p) (tokenRequestOptions o) x with
            ⟨st', e, hr⟩ | ⟨st', hop, result, hr, -⟩
          · simp [Consumer.tokenRequest, hr] at h
          · cases result with
            | error e => simp [Consumer.tokenRequest, hr] at h
            | ok rsp =>
                have hreply : x.reply = .ok rsp := reply_of_request (by rw [hr])
                rw [Consumer.tokenRequest] at h ⊢
                simp only [hr, Option.getD_some] at h ⊢
                cases hstep : tokenStep c o p rsp with
                | finish r =>
                    rw [hstep] at h
                    simp only [Result.done.injEq] at h
                    subst h
                    obtain ⟨hlow, hhigh, hvalues⟩ := tokenStep_eq_finish_ok hstep
                    exact ⟨0, x, rsp, rfl, rfl, hreply, hlow, hhigh, hvalues⟩
                | follow next o' =>
                    rw [hstep] at h
                    -- the answer is the last of those after the redirect
                    obtain ⟨n, y, rsp', hlength, hy, hrest⟩ := ih _ st' next o' h
                    refine ⟨n + 1, y, rsp', ?_, hy, hrest⟩
                    simp only [List.singleton_append, List.length_cons, hlength]

/-! ## What a call sends -/

namespace SessionCall

/-- Every request is signed with the token, for the exchange at its place. -/
def SignedWith (rt : Runtime) (c : Consumer) (call : SessionCall) (token : Option Token) : Prop :=
  ∀ (i : Nat) (hop : Hop), call.hops[i]? = some hop → ∃ x args path, call.exchanges[i]? = some x ∧
    args.token = token ∧ hop.SentFor rt c args path call.options x

/-- Where the requests have their OAuth parameters. -/
def scheme (c : Consumer) (call : SessionCall) : Scheme := (c.mergeOptions call.options).scheme

/-- Every request shows the token. -/
def Shows (c : Consumer) (call : SessionCall) (token : Token) : Prop :=
  ∀ hop ∈ call.hops, token.token ≠ [] →
    hop.unsigned.LeavesRoom (call.scheme c) (ascii "oauth_token") →
      hop.request.Shows (call.scheme c) (ascii "oauth_token") token.token

/-- The token stands in the answer to the last request. -/
def Gives (c : Consumer) (call : SessionCall) (given : ConsumerToken) : Prop :=
  ∃ values, AnsweredWith call.hops call.exchanges values ∧
    given = ConsumerToken.fromHash c (responseHash values)

variable {call : SessionCall} {args : RequestArgs} {path : Option Bytes}

theorem signedWith_of_sentInOrder {token : Option Token} (htoken : args.token = token)
    (h : SentInOrder rt c args path call.options call.hops call.exchanges) :
    call.SignedWith rt c token := by
  intro i hop hi
  obtain ⟨x, p, hx, -, hsent⟩ := h i hop hi
  exact ⟨x, _, p, hx, (RequestArgs.afterSending_token _ _).trans htoken, hsent⟩

/-- A request that is signed with a token shows it. -/
theorem SignedWith.shows {token : Token} (h : call.SignedWith rt c (some token)) :
    call.Shows c token := by
  intro hop hmem hne hroom
  obtain ⟨i, hi⟩ := List.mem_iff_getElem?.1 hmem
  obtain ⟨x, args, path, -, htoken, hsent⟩ := h i hop hi
  refine hsent.shows (fun helper hmade => ?_) hne hroom
  have hhelper : helper.token = some token := hmade.token.trans htoken
  simp [ClientHelper.candidateParameters, hhelper]

theorem gives_of_answered {result : Result (OrderedHash Bytes (Option Bytes))}
    (h : ∀ values, result = .done (.ok values) → AnsweredWith call.hops call.exchanges values) :
    ∀ t ∈ givenToken c result, call.Gives c t := by
  intro t ht
  cases hresult : result with
  | waiting => simp [hresult, givenToken] at ht
  | done outcome =>
      cases outcome with
      | error e => simp [hresult, givenToken] at ht
      | ok values =>
          rw [hresult, givenToken, Option.mem_some_iff] at ht
          exact ⟨values, h values hresult, ht.symm⟩

end SessionCall

/-- A request token is asked for without a token, an access token with a request token, a resource with
    an access token. -/
def SessionEvent.Accounted (rt : Runtime) (c : Consumer) : SessionEvent → Prop
  | .requested call given => call.SignedWith rt c none ∧ ∀ t ∈ given, call.Gives c t
  | .exchanged token call given =>
    call.SignedWith rt c (some token.credentials) ∧ ∀ t ∈ given, call.Gives c t
  | .accessed token call => call.SignedWith rt c (some token.credentials)

/-! ## One call -/

/-- **Every call is accounted for**: its requests are signed with its token, each for its exchange, and
    the token it gives is in the answer to the last of them. -/
theorem sessionStep_accounted (s : SessionState) (op : SessionOperation) :
    ∀ e ∈ (sessionStep rt c s op).2, e.Accounted rt c := by
  intro e he
  cases op with
  | getRequestToken data headers o xs =>
      rw [sessionStep, List.mem_singleton] at he
      subst he
      have hsent := tokenRequest_sentFor rt (c := c) ⟨c.options.httpMethod, none, data, headers⟩ xs
        s.consumer (some c.requestTokenEndpoint) (callbackOptions o)
      exact ⟨SessionCall.signedWith_of_sentInOrder rfl hsent,
        SessionCall.gives_of_answered fun values h => tokenRequest_answeredWith _ xs _ _ _ h⟩
  | getAccessToken index data headers o xs =>
      rw [sessionStep] at he
      split at he
      · simp at he
      · next token _ =>
          rw [List.mem_singleton] at he
          subst he
          have hsent := tokenRequest_sentFor rt (c := c)
            ⟨c.options.httpMethod, some token.credentials, data, headers⟩ xs s.consumer
            (some c.accessTokenEndpoint) o
          exact ⟨SessionCall.signedWith_of_sentInOrder rfl hsent,
            SessionCall.gives_of_answered fun values h => tokenRequest_answeredWith _ xs _ _ _ h⟩
  | access index call path x =>
      rw [sessionStep] at he
      split at he
      · simp at he
      · next token _ =>
          rw [List.mem_singleton] at he
          subst he
          have htoken : (call.args token.credentials).token = some token.credentials := by
            cases call <;> rfl
          exact SessionCall.signedWith_of_sentInOrder htoken
            (accessTokenRequest_sentFor rt c s.consumer (call.args token.credentials) path x)

theorem setOf_mem_append_singleton (ts : List ConsumerToken) (t : ConsumerToken) :
    {t' | t' ∈ ts ++ [t]} = insert t {t' | t' ∈ ts} := by
  ext t'
  simp [or_comm]

theorem run_issue (ts : List ConsumerToken) (granted : Set ConsumerToken)
    (given : Option ConsumerToken) :
    Delegation.Run ⟨{t | t ∈ ts}, granted⟩ (given.toList.map .issue)
      ⟨{t | t ∈ ts ++ given.toList}, granted⟩ := by
  cases given with
  | none =>
      rw [Option.toList_none, List.append_nil]
      exact .nil _
  | some t =>
      rw [Option.toList_some, setOf_mem_append_singleton]
      exact .single (.issue _ t)

theorem run_grant {temporary : Set ConsumerToken} {r : ConsumerToken} (hr : r ∈ temporary)
    (ts : List ConsumerToken) (given : Option ConsumerToken) :
    Delegation.Run ⟨temporary, {t | t ∈ ts}⟩ (given.toList.map (.grant r))
      ⟨temporary, {t | t ∈ ts ++ given.toList}⟩ := by
  cases given with
  | none =>
      rw [Option.toList_none, List.append_nil]
      exact .nil _
  | some t =>
      rw [Option.toList_some, setOf_mem_append_singleton]
      exact .single (.grant hr t)

/-- **A call is a few steps of the flow.** -/
theorem sessionStep_flow (s : SessionState) (op : SessionOperation) :
    Delegation.Run s.holdings ((sessionStep rt c s op).2.flatMap SessionEvent.steps)
      (sessionStep rt c s op).1.holdings := by
  cases op with
  | getRequestToken data headers o xs =>
      rw [sessionStep, List.flatMap_singleton]
      exact run_issue s.requestTokens _ _
  | getAccessToken index data headers o xs =>
      rw [sessionStep]
      split
      · exact .nil _
      · next token htoken =>
          have hheld : token ∈ s.holdings.temporary := List.mem_of_getElem? htoken
          rw [List.flatMap_singleton]
          exact .cons (.present hheld) (run_grant hheld s.accessTokens _)
  | access index call path x =>
      rw [sessionStep]
      split
      · exact .nil _
      · next token htoken =>
          rw [List.flatMap_singleton]
          exact .single (.use (List.mem_of_getElem? htoken))

/-! ## Sessions -/

theorem session_flow (s : SessionState) (ops : List SessionOperation) :
    Delegation.Run s.holdings
      ((Machine.run (sessionStep rt c) s ops).2.flatMap SessionEvent.steps)
      (Machine.run (sessionStep rt c) s ops).1.holdings := by
  induction ops generalizing s with
  | nil => exact .nil _
  | cons op rest ih =>
      rw [Machine.run, List.flatMap_append]
      exact (sessionStep_flow s op).append (ih _)

theorem SessionEvent.eq_of_issue {e : SessionEvent} {r : ConsumerToken}
    (h : Delegation.Event.issue r ∈ e.steps) : ∃ call, e = .requested call (some r) := by
  cases e with
  | requested call given =>
      simp only [steps, List.mem_map, Option.mem_toList, Delegation.Event.issue.injEq,
        exists_eq_right] at h
      exact ⟨call, by rw [h]⟩
  | exchanged token call given => simp [steps] at h
  | accessed token call => simp [steps] at h

theorem SessionEvent.eq_of_grant {e : SessionEvent} {r t : ConsumerToken}
    (h : Delegation.Event.grant r t ∈ e.steps) : ∃ call, e = .exchanged r call (some t) := by
  cases e with
  | requested call given => simp [steps] at h
  | exchanged token call given =>
      simp only [steps, List.mem_cons, reduceCtorEq, false_or, List.mem_map, Option.mem_toList,
        Delegation.Event.grant.injEq] at h
      obtain ⟨t', hgiven, rfl, rfl⟩ := h
      exact ⟨call, by rw [hgiven]⟩
  | accessed token call => simp [steps] at h

section History

variable {start : ConsumerState} {ops : List SessionOperation} {before after : List SessionEvent}
  {r t : ConsumerToken} {call : SessionCall} {given : Option ConsumerToken}

/-- The events of a session that begins without tokens. -/
def sessionEvents (rt : Runtime) (c : Consumer) (start : ConsumerState) (ops : List SessionOperation) :
    List SessionEvent :=
  (Machine.run (sessionStep rt c) { consumer := start } ops).2

theorem sessionEvents_flow (rt : Runtime) (c : Consumer) (start : ConsumerState)
    (ops : List SessionOperation) :
    ∃ held, Delegation.Run Delegation.nothing ((sessionEvents rt c start ops).flatMap SessionEvent.steps)
      held := by
  have hnothing : SessionState.holdings { consumer := start } = Delegation.nothing := by
    simp [SessionState.holdings, Delegation.nothing]
  exact ⟨_, hnothing ▸ session_flow { consumer := start } ops⟩

/-- An exchange presents a token that was requested before. -/
theorem requested_before_exchanged
    (h : sessionEvents rt c start ops = before ++ .exchanged r call given :: after) :
    ∃ earlier, .requested earlier (some r) ∈ before := by
  obtain ⟨held, hrun⟩ := sessionEvents_flow rt c start ops
  rw [h, List.flatMap_append, List.flatMap_cons, SessionEvent.steps, List.cons_append] at hrun
  obtain ⟨e, he, hissue⟩ := List.mem_flatMap.1 hrun.issued_before_present
  obtain ⟨earlier, rfl⟩ := SessionEvent.eq_of_issue hissue
  exact ⟨earlier, he⟩

/-- A resource is asked for with a token that was given in exchange before. -/
theorem exchanged_before_accessed
    (h : sessionEvents rt c start ops = before ++ .accessed t call :: after) :
    ∃ r earlier, .exchanged r earlier (some t) ∈ before := by
  obtain ⟨held, hrun⟩ := sessionEvents_flow rt c start ops
  rw [h, List.flatMap_append, List.flatMap_cons, SessionEvent.steps, List.cons_append] at hrun
  obtain ⟨r, hgrant⟩ := hrun.granted_before_use
  obtain ⟨e, he, hgrant⟩ := List.mem_flatMap.1 hgrant
  obtain ⟨earlier, rfl⟩ := SessionEvent.eq_of_grant hgrant
  exact ⟨r, earlier, he⟩

end History

/-- **No access without its history.** In every session each request is signed with the token of its
    call, for its own exchange, and each token stands in the answer to the last request of the call that
    gave it. Before a resource is asked for, its token was read from the answer to an exchange, whose
    requests show a token that was read from an earlier answer; the requests for the resource show what
    was read. -/
theorem session_history (rt : Runtime) (c : Consumer) (start : ConsumerState)
    (ops : List SessionOperation) :
    (∀ e ∈ sessionEvents rt c start ops, e.Accounted rt c) ∧
      ∀ before t call after,
        sessionEvents rt c start ops = before ++ .accessed t call :: after →
        ∃ r asked exchanged a b d,
          before = a ++ .requested asked (some r) :: (b ++ .exchanged r exchanged (some t) :: d) ∧
          asked.Gives c r ∧ exchanged.Shows c r.credentials ∧ exchanged.Gives c t ∧
          call.Shows c t.credentials := by
  have haccounted : ∀ e ∈ sessionEvents rt c start ops, e.Accounted rt c :=
    Machine.run_allowed (fun s op _ => sessionStep_accounted s op) _
  refine ⟨haccounted, ?_⟩
  intro before t call after h
  obtain ⟨r, exchanged, hexchanged⟩ := exchanged_before_accessed h
  obtain ⟨early, d, rfl⟩ := List.append_of_mem hexchanged
  have hsplit := h
  rw [List.append_assoc, List.cons_append] at hsplit
  obtain ⟨asked, hasked⟩ := requested_before_exchanged hsplit
  obtain ⟨a, b, rfl⟩ := List.append_of_mem hasked
  -- each of the three events is accounted for
  have hrequested := haccounted (.requested asked (some r)) (by rw [h]; simp)
  have hpresented := haccounted (.exchanged r exchanged (some t)) (by rw [h]; simp)
  have haccessed := haccounted (.accessed t call) (by rw [h]; simp)
  exact ⟨r, asked, exchanged, a, b, d, by simp, hrequested.2 r rfl, hpresented.1.shows,
    hpresented.2 t rfl, SessionCall.SignedWith.shows haccessed⟩

end RubyOAuth
