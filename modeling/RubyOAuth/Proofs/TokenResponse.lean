import RubyOAuth.Proofs.ClientParameters
import RubyOAuth.Proofs.RedirectSafety

set_option autoImplicit false

/-! # Token responses

A provider writes token and secret with `Token#to_query`; `token_request` reads the body as a form and
gives each name twice, as a symbol and as a string. The answer to the last request of a redirect chain
is what the call returns. -/

namespace RubyOAuth

open Bytes

/-! ## The body -/

theorem toQuery_eq (t : Token) :
    t.toQuery = segment (ascii "oauth_token") t.token ++
      ampersand :: segment (ascii "oauth_token_secret") t.secret.toS := by
  have htoken : escapeBytes (ascii "oauth_token") = ascii "oauth_token" := by decide
  have hsecret : escapeBytes (ascii "oauth_token_secret") = ascii "oauth_token_secret" := by decide
  rw [segment, segment, htoken, hsecret, Token.toQuery, List.append_assoc, List.append_assoc]
  rfl

/-- The form reader gets the two fields back. -/
theorem cgiFields_toQuery (t : Token) :
    cgiFields t.toQuery = [(ascii "oauth_token", some t.token),
      (ascii "oauth_token_secret", some t.secret.toS)] := by
  rw [toQuery_eq, cgiFields_append_sep (by decide), cgiFields_segment, cgiFields_segment]
  rfl

theorem parseTokenResponse_toQuery (t : Token) :
    parseTokenResponse t.toQuery = OrderedHash.ofList [(ascii "oauth_token", some t.token),
      (ascii "oauth_token_secret", some t.secret.toS)] := by
  have hparse : (cgiParse t.toQuery).entries = [(ascii "oauth_token", [t.token]),
      (ascii "oauth_token_secret", [t.secret.toS])] := by
    rw [cgiParse, cgiFields_toQuery]
    rfl
  rw [parseTokenResponse, hparse]
  rfl

/-! ## The hash -/

/-- Both keys of a name hold its value. -/
theorem lookup_responseHash (values : OrderedHash Bytes (Option Bytes)) (k : Bytes) :
    (responseHash values).lookup (.sym k) = values.lookup k ∧
      (responseHash values).lookup (.str k) = values.lookup k := by
  have hfold : ∀ (es : List (Bytes × Option Bytes)) (h : OrderedHash Key (Option Bytes)),
      let h' := es.foldl (fun h e => (h.set (.sym e.1) e.2).set (.str e.1) e.2) h
      h'.lookup (.sym k) = (OrderedHash.findEntry k es.reverse).or (h.lookup (.sym k)) ∧
        h'.lookup (.str k) = (OrderedHash.findEntry k es.reverse).or (h.lookup (.str k)) := by
    intro es
    induction es using List.reverseRecOn with
    | nil => intro h; exact ⟨rfl, rfl⟩
    | append_singleton rest e ih =>
        intro h
        obtain ⟨n, v⟩ := e
        obtain ⟨hsym, hstr⟩ := ih h
        simp only [List.foldl_append, List.foldl_cons, List.foldl_nil, List.reverse_append,
          List.reverse_singleton, List.singleton_append, OrderedHash.findEntry]
        by_cases hn : n = k
        · subst hn
          simp
        · have hkn : k ≠ n := fun h => hn h.symm
          simp [hn, hkn, hsym, hstr]
  obtain ⟨hsym, hstr⟩ := hfold values.entries OrderedHash.empty
  rw [OrderedHash.findEntry_reverse values.nodup, OrderedHash.lookup_empty, Option.or_none]
    at hsym hstr
  exact ⟨hsym, hstr⟩

/-! ## The answer that a call returns -/

variable {c : Consumer} {st : ConsumerState}

/-- Some `WWW-Authenticate` header for OAuth names a problem; the first of them decides. -/
def ReportsProblem (rsp : Response) : Prop :=
  ∃ h ∈ (rsp.wwwAuthenticate.filter isOauthChallenge).head?, contains (ascii "oauth_problem") h = true

theorem checkProblem_of_not_reports {rsp : Response} (h : ¬ ReportsProblem rsp) :
    checkProblem rsp = .ok rsp := by
  rw [checkProblem]
  cases hc : rsp.wwwAuthenticate.filter isOauthChallenge with
  | nil => rfl
  | cons challenge rest =>
      have hno : contains (ascii "oauth_problem") challenge = false := by
        rw [← Bool.not_eq_true]
        exact fun hyes => h ⟨challenge, by rw [hc]; rfl, hyes⟩
      simp only [hno, Bool.false_eq_true, if_false]

/-- A request that was sent gives the reply, unless that reports a problem. -/
theorem result_of_hops {rt : Runtime} {args : RequestArgs} {path : Option Bytes} {o : CallOptions}
    {x : Exchange} (h : (c.request rt st args path o x).hops ≠ []) :
    (c.request rt st args path o x).result = .done (x.reply >>= checkProblem) := by
  rw [Consumer.request] at h ⊢
  cases ho : openConnection c st path with
  | mk st₁ r =>
      rw [ho] at h
      cases r with
      | error e => exact absurd rfl h
      | ok p =>
          rcases sendRequest_cases rt c st₁ args p o x with ⟨e, hr⟩ | ⟨conn, u, q, -, -, -, hr⟩
          · simp [hr] at h
          · simp only [hr]

/-- One request at most is sent before an answer is read. -/
theorem length_hops_request (rt : Runtime) (c : Consumer) (st : ConsumerState) (args : RequestArgs)
    (path : Option Bytes) (o : CallOptions) (x : Exchange) :
    (c.request rt st args path o x).hops.length ≤ 1 := by
  rcases request_cases rt c st args path o x with ⟨st', e, h⟩ | ⟨st', hop, r, h, -⟩
  · rw [h]
    exact Nat.zero_le 1
  · rw [h]
    exact Nat.le_refl 1

theorem tokenStep_of_success {o : CallOptions} {p : Bytes} {rsp : Response}
    (hcode : 200 ≤ rsp.code ∧ rsp.code ≤ 299) :
    tokenStep c o p rsp = .finish (.ok (parseTokenResponse rsp.body)) := by
  rw [tokenStep, if_pos hcode]

/-- The last request of a token request answers for the call: where that answer is a success without a
    reported problem, its body is returned. -/
theorem tokenRequest_of_answer (rt : Runtime) (args : RequestArgs) {x : Exchange} {rsp : Response}
    (hreply : x.reply = .ok rsp) (hcode : 200 ≤ rsp.code ∧ rsp.code ≤ 299)
    (hproblem : ¬ ReportsProblem rsp) (xs : List Exchange) :
    ∀ (st : ConsumerState) (path : Option Bytes) (o : CallOptions) (n : Nat),
      (c.tokenRequest rt args xs st path o).hops.length = n + 1 → xs[n]? = some x →
      (c.tokenRequest rt args xs st path o).result
        = .done (.ok (parseTokenResponse rsp.body)) := by
  induction xs generalizing args with
  | nil =>
      intro st path o n hlen _
      simp [Consumer.tokenRequest] at hlen
  | cons y ys ih =>
      intro st path o n hlen hx
      -- what the first request gives if its answer is the one at hand
      have hfirst : y = x → (c.request rt st args path (tokenRequestOptions o) y).hops ≠ [] →
          (c.request rt st args path (tokenRequestOptions o) y).result = .done (.ok rsp) := by
        intro hy hne
        rw [result_of_hops hne, hy, hreply, Except.ok_bind, checkProblem_of_not_reports hproblem]
      rcases tokenRequest_cons_cases rt c args y ys st path o with
        ⟨result, heq⟩ | ⟨p, rsp', next, o', args', -, hok, hstep, -, heq⟩
      · rw [heq] at hlen
        have hone := length_hops_request rt c st args path (tokenRequestOptions o) y
        obtain rfl : n = 0 := by
          simp only at hlen
          omega
        have hy : y = x := by simpa using hx
        have hne : (c.request rt st args path (tokenRequestOptions o) y).hops ≠ [] := by
          intro hnil
          simp [hnil] at hlen
        simp only [Consumer.tokenRequest, hfirst hy hne, tokenStep_of_success hcode]
      · rw [heq] at hlen ⊢
        have hne : (c.request rt st args path (tokenRequestOptions o) y).hops ≠ [] := by
          intro hnil
          rcases request_cases rt c st args path (tokenRequestOptions o) y with
            ⟨st', e, h⟩ | ⟨st', hop, r, h, -⟩
          · rw [h] at hok
            simp at hok
          · rw [h] at hnil
            simp at hnil
        have hlen₁ : (c.request rt st args path (tokenRequestOptions o) y).hops.length = 1 := by
          have hone := length_hops_request rt c st args path (tokenRequestOptions o) y
          have hpos := List.length_pos_iff.2 hne
          omega
        cases n with
        | zero =>
            -- an answer that ends the call is not followed
            have hy : y = x := by simpa using hx
            have hsame : rsp = rsp' := by simpa using (hfirst hy hne).symm.trans hok
            rw [← hsame, tokenStep_of_success hcode] at hstep
            simp at hstep
        | succ m =>
            refine ih args' _ next o' m ?_ (by simpa using hx)
            simp only [List.length_append, hlen₁] at hlen
            omega

/-- **A token response comes back**: where the provider answers with a success and the body that
    `to_query` gives, and reports no problem, the call returns the hash with the two values under their
    symbols and their strings, and the token made from it has them. -/
theorem tokenRequest_roundTrip (rt : Runtime) (c : Consumer) (args : RequestArgs)
    (xs : List Exchange) (st : ConsumerState) (path : Option Bytes) (o : CallOptions) (n : Nat)
    (x : Exchange) (rsp : Response) (t s : Bytes)
    (hsent : (c.tokenRequest rt args xs st path o).hops.length = n + 1) (hx : xs[n]? = some x)
    (hreply : x.reply = .ok rsp) (hcode : 200 ≤ rsp.code ∧ rsp.code ≤ 299)
    (hbody : rsp.body = (⟨t, .str s⟩ : Token).toQuery) (hproblem : ¬ ReportsProblem rsp) :
    ∃ values, (c.tokenRequest rt args xs st path o).result = .done (.ok values) ∧
      (responseHash values).lookup (.sym (ascii "oauth_token")) = some (some t) ∧
      (responseHash values).lookup (.str (ascii "oauth_token")) = some (some t) ∧
      (responseHash values).lookup (.sym (ascii "oauth_token_secret")) = some (some s) ∧
      (responseHash values).lookup (.str (ascii "oauth_token_secret")) = some (some s) ∧
      (ConsumerToken.fromHash c (responseHash values)).token = some t ∧
      (ConsumerToken.fromHash c (responseHash values)).secret = some s := by
  have hparse : parseTokenResponse rsp.body = OrderedHash.ofList [(ascii "oauth_token", some t),
      (ascii "oauth_token_secret", some s)] := by
    rw [hbody, parseTokenResponse_toQuery]
    rfl
  have htoken : (parseTokenResponse rsp.body).lookup (ascii "oauth_token") = some (some t) := by
    rw [hparse]
    rfl
  have hsecret : (parseTokenResponse rsp.body).lookup (ascii "oauth_token_secret")
      = some (some s) := by
    rw [hparse]
    rfl
  have hkeys := lookup_responseHash (parseTokenResponse rsp.body)
  refine ⟨_, tokenRequest_of_answer rt args hreply hcode hproblem xs st path o n hsent hx,
    (hkeys _).1.trans htoken, (hkeys _).2.trans htoken, (hkeys _).1.trans hsecret,
    (hkeys _).2.trans hsecret, ?_, ?_⟩
  · simp only [ConsumerToken.fromHash, (hkeys _).1, htoken, Option.join_some]
  · simp only [ConsumerToken.fromHash, (hkeys _).1, hsecret, Option.join_some]

/-- The token `a&b` behind one redirect. -/
theorem exampleConsumer_roundTrip :
    ∃ values, (exampleConsumer.tokenRequest echoRuntime postArgs
        [redirectTo "/moved", answer "oauth_token=a%26b&oauth_token_secret="] {}
        (some (ascii "/oauth/request_token")) {}).result = .done (.ok values) ∧
      (responseHash values).lookup (.sym (ascii "oauth_token")) = some (some (ascii "a&b")) ∧
      (responseHash values).lookup (.str (ascii "oauth_token")) = some (some (ascii "a&b")) ∧
      (responseHash values).lookup (.sym (ascii "oauth_token_secret")) = some (some []) ∧
      (responseHash values).lookup (.str (ascii "oauth_token_secret")) = some (some []) ∧
      (ConsumerToken.fromHash exampleConsumer (responseHash values)).token = some (ascii "a&b") ∧
      (ConsumerToken.fromHash exampleConsumer (responseHash values)).secret = some [] :=
  tokenRequest_roundTrip echoRuntime exampleConsumer postArgs _ {} _ {} 1
    (answer "oauth_token=a%26b&oauth_token_secret=") _ (ascii "a&b") [] (by decide +kernel) rfl rfl
    (by decide) (by decide) (by rintro ⟨h, hh, -⟩; simp at hh)

/-- What a call raised, if it did. -/
def Result.raised {α : Type} : Result α → Option RubyError
  | .done (.error e) => some e
  | _ => none

/-- The token comes with a report of a problem. -/
def problemAnswer : Exchange where
  generated := ⟨ascii "n0nce", ascii "1700000000"⟩
  reply := .ok ⟨200, [ascii "OAuth oauth_problem=\"token_rejected\""], none,
    (⟨ascii "a", .str (ascii "b")⟩ : Token).toQuery⟩

/-- A success that reports a problem is raised as one. -/
theorem reportedProblem_not_returned :
    (exampleConsumer.tokenRequest echoRuntime postArgs [problemAnswer] {}
        (some (ascii "/oauth/request_token")) {}).hops.length = 1 ∧
      (exampleConsumer.tokenRequest echoRuntime postArgs [problemAnswer] {}
        (some (ascii "/oauth/request_token")) {}).result.raised
        = some (.reportedProblem (some (ascii "token_rejected"))) := by
  decide +kernel

end RubyOAuth
