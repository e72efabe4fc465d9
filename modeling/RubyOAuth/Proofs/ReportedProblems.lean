import RubyOAuth.Model.Session
import RubyOAuth.Proofs.HeaderRoundTrip
import RubyOAuth.Proofs.TokenResponse

set_option autoImplicit false

/-! # Reported problems

A server reports a problem in an OAuth challenge, whatever the code of its answer. The report is looked
for in the answer to every request, before redirects are followed and tokens are read, so the first one
ends a token request and is what it raises. -/

namespace RubyOAuth

open Bytes

variable {rt : Runtime} {c : Consumer}

/-! ## The challenge -/

theorem contains_append (a pattern b : Bytes) : contains pattern (a ++ (pattern ++ b)) = true := by
  rw [contains, List.any_eq_true]
  refine ⟨pattern ++ b, (List.mem_tails _ _).2 (List.suffix_append a _), ?_⟩
  exact startsWith_iff.2 (List.prefix_append pattern b)

theorem exists_intercalate_eq {s : Bytes} {ls : List Bytes} (hs : s ∈ ls) (sep : Bytes) :
    ∃ a b, sep.intercalate ls = a ++ (s ++ b) := by
  induction ls with
  | nil => simp at hs
  | cons l rest ih =>
      rcases List.mem_cons.1 hs with rfl | hs
      · cases rest with
        | nil => exact ⟨[], [], by simp [List.intercalate]⟩
        | cons m rest =>
            exact ⟨[], sep ++ sep.intercalate (m :: rest), by simp [List.intercalate]⟩
      · obtain ⟨a, b, hab⟩ := ih hs
        obtain ⟨m, rest, rfl⟩ := List.exists_cons_of_ne_nil (List.ne_nil_of_mem hs)
        refine ⟨l ++ (sep ++ a), b, ?_⟩
        have hcons : sep.intercalate (l :: m :: rest) = l ++ (sep ++ sep.intercalate (m :: rest)) := by
          simp [List.intercalate]
        rw [hcons, hab]
        simp

/-- What a server puts into an OAuth challenge: plain names, and values that stay on their line. -/
structure ChallengeFields (es : List (Bytes × Bytes)) : Prop where
  plain : ∀ e ∈ es, PlainName e.1
  line : ∀ e ∈ es, newline ∉ e.2

/-- The challenge as it is written. -/
def challengeText (rt : Runtime) (es : List (Bytes × Bytes)) : Bytes :=
  ascii "OAuth " ++ ClientHelper.separator.intercalate
    (es.map (fun e => ClientHelper.headerField rt (e.1, .str e.2)))

/-- The first OAuth challenge of the response is the one of the fields. -/
def Response.Challenges (rt : Runtime) (rsp : Response) (es : List (Bytes × Bytes)) : Prop :=
  (rsp.wwwAuthenticate.filter isOauthChallenge).head? = some (challengeText rt es)

theorem parseHeader_challengeText (rt : Runtime) {es : List (Bytes × Bytes)} (h : ChallengeFields es) :
    parseHeader (challengeText rt es) = .ok (OrderedHash.ofList es) := by
  have hplain : ∀ e ∈ es.map (fun e => (e.1, Value.str e.2)), PlainName e.1 := by
    intro e he
    obtain ⟨e', he', rfl⟩ := List.mem_map.1 he
    exact h.plain e' he'
  have hfields := parseHeader_fields rt hplain
  have hread : (es.map (fun e => (e.1, Value.str e.2))).map
      (fun e => (e.1, stripQuotes (quoted (e.2.toS rt)))) = es := by
    rw [List.map_map]
    refine (List.map_congr_left fun e he => ?_).trans (List.map_id es)
    have hvalue := (stripQuotes_quoted_iff e.2).2 (h.line e he)
    exact Prod.ext rfl hvalue
  rw [hread, List.map_map] at hfields
  exact hfields

/-- **A reported problem is raised**, as the last field of the name says. -/
theorem checkProblem_of_challenge {rsp : Response} {es : List (Bytes × Bytes)} (h : ChallengeFields es)
    (hrsp : rsp.Challenges rt es) (hproblem : ascii "oauth_problem" ∈ es.map Prod.fst) :
    checkProblem rsp
      = .error (.reportedProblem (OrderedHash.findEntry (ascii "oauth_problem") es.reverse)) := by
  have hmention : contains (ascii "oauth_problem") (challengeText rt es) = true := by
    obtain ⟨e, he, hname⟩ := List.mem_map.1 hproblem
    obtain ⟨a, b, hab⟩ := exists_intercalate_eq
      (List.mem_map.2 ⟨e, he, rfl⟩ :
        ClientHelper.headerField rt (e.1, .str e.2)
          ∈ es.map (fun e => ClientHelper.headerField rt (e.1, .str e.2))) ClientHelper.separator
    rw [challengeText, hab, ClientHelper.headerField, hname]
    have hassoc : ∀ v w : Bytes, ascii "OAuth " ++ (a ++ (ascii "oauth_problem" ++ v ++ w ++ b))
        = (ascii "OAuth " ++ a) ++ (ascii "oauth_problem" ++ (v ++ (w ++ b))) := by
      intro v w
      simp only [List.append_assoc]
    rw [hassoc]
    exact contains_append _ _ _
  rw [Response.Challenges] at hrsp
  rw [checkProblem]
  split
  · next hnone => simp [hnone] at hrsp
  · next text rest hsome =>
      rw [hsome, List.head?_cons, Option.some.injEq] at hrsp
      subst hrsp
      rw [if_pos hmention, parseHeader_challengeText rt h, Except.ok_bind, OrderedHash.lookup_ofList]

/-! ## Token requests -/

/-- What was sent is answered by its exchange, and the answer is checked. -/
theorem result_of_request {st : ConsumerState} {args : RequestArgs} {p : Bytes} {o : CallOptions}
    {x : Exchange} (h : (c.request rt st args (some p) o x).hops ≠ []) :
    (c.request rt st args (some p) o x).result = .done (x.reply >>= checkProblem) := by
  rw [Consumer.request] at h ⊢
  cases ho : openConnection c st (some p) with
  | mk st₁ r =>
      cases r with
      | error e => simp [ho] at h
      | ok q =>
          rw [ho] at h
          rcases sendRequest_cases rt c st₁ args q o x with ⟨e, hr⟩ | ⟨conn, u, r, -, -, -, hr⟩
          · simp [hr] at h
          · simp only [hr]

/-- An answer that does not pass the check ends a token request. -/
theorem tokenRequest_of_checkProblem (args : RequestArgs) (xs : List Exchange) {e : RubyError} :
    ∀ (st : ConsumerState) (path : Option Bytes) (o : CallOptions) (i : Nat) {x : Exchange}
      {rsp : Response}, i < (c.tokenRequest rt args xs st path o).hops.length → xs[i]? = some x →
      x.reply = .ok rsp → checkProblem rsp = .error e →
      (c.tokenRequest rt args xs st path o).hops.length = i + 1 ∧
        (c.tokenRequest rt args xs st path o).result = .done (.error e) := by
  induction xs generalizing args with
  | nil =>
      intro st path o i x rsp hi hx
      simp at hx
  | cons y ys ih =>
      intro st path o i x rsp hi hx hreply hcheck
      have hone : (c.request rt st args path (tokenRequestOptions o) y).hops.length ≤ 1 :=
        length_hops_request rt c st args path (tokenRequestOptions o) y
      cases i with
      | zero =>
          -- the first request is the one that is answered so
          obtain rfl := Option.some.inj hx
          cases path with
          | none =>
              obtain ⟨st', e', hr⟩ := request_none rt c st args (tokenRequestOptions o) y
              simp [Consumer.tokenRequest, hr] at hi
          | some p =>
              rcases request_cases rt c st args (some p) (tokenRequestOptions o) y with
                ⟨st', e', hr⟩ | ⟨st', hop, result, hr, -⟩
              · simp [Consumer.tokenRequest, hr] at hi
              · have hresult : (c.request rt st args (some p) (tokenRequestOptions o) y).result
                    = .done (y.reply >>= checkProblem) := result_of_request (by simp [hr])
                rw [hreply, Except.ok_bind, hcheck, hr] at hresult
                obtain rfl := Result.done.inj hresult
                simp [Consumer.tokenRequest, hr]
      | succ j =>
          rcases tokenRequest_cons_cases rt c args y ys st path o with
            ⟨result, h⟩ | ⟨p, rsp', next, o', args', rfl, hok, -, -, h⟩
          · rw [h] at hi
            simp only at hi
            omega
          · have hfirst : (c.request rt st args (some p) (tokenRequestOptions o) y).hops.length = 1 := by
              rcases request_cases rt c st args (some p) (tokenRequestOptions o) y with
                ⟨st', e', hr⟩ | ⟨st', hop, result, hr, -⟩
              · simp [hr] at hok
              · simp [hr]
            rw [h] at hi ⊢
            simp only [List.length_append, hfirst] at hi ⊢
            rw [List.getElem?_cons_succ] at hx
            have hlater := Nat.lt_of_add_lt_add_left (Nat.add_comm j 1 ▸ hi)
            obtain ⟨hlength, hend⟩ := ih args' _ next o' j hlater hx hreply hcheck
            exact ⟨by omega, hend⟩

/-- **A reported problem ends a token request**: whichever of its requests a server answers with a
    problem in an OAuth challenge, no other follows, the problem is what is raised, and no token is
    given. -/
theorem tokenRequest_reportedProblem (rt : Runtime) (c : Consumer) (args : RequestArgs)
    (xs : List Exchange) (st : ConsumerState) (path : Option Bytes) (o : CallOptions)
    {i : Nat} {x : Exchange} {rsp : Response} {es : List (Bytes × Bytes)}
    (hsent : i < (c.tokenRequest rt args xs st path o).hops.length) (hx : xs[i]? = some x)
    (hreply : x.reply = .ok rsp) (hfields : ChallengeFields es) (hrsp : rsp.Challenges rt es)
    (hproblem : ascii "oauth_problem" ∈ es.map Prod.fst) :
    (c.tokenRequest rt args xs st path o).hops.length = i + 1 ∧
      (c.tokenRequest rt args xs st path o).result
        = .done (.error (.reportedProblem
            (OrderedHash.findEntry (ascii "oauth_problem") es.reverse))) ∧
      givenToken c (c.tokenRequest rt args xs st path o).result = none := by
  obtain ⟨hlength, hend⟩ := tokenRequest_of_checkProblem args xs st path o i hsent hx hreply
    (checkProblem_of_challenge hfields hrsp hproblem)
  exact ⟨hlength, hend, by rw [hend]; rfl⟩

/-- After a redirect a server turns the consumer away, with more than one field. -/
def rejectionFields : List (Bytes × Bytes) :=
  [(ascii "oauth_problem", ascii "consumer_key_rejected"), (ascii "realm", ascii "http://example.com/")]

def rejectedAnswer : Exchange where
  generated := ⟨ascii "n0nce", ascii "1700000000"⟩
  reply := .ok ⟨200, [ascii "Basic", challengeText echoRuntime rejectionFields], none, []⟩

theorem rejectedAnswer_raised :
    (exampleConsumer.tokenRequest echoRuntime postArgs [redirectTo "/moved", rejectedAnswer, answer ""] {}
        (some (ascii "/oauth/request_token")) {}).hops.length = 1 + 1 ∧
      (exampleConsumer.tokenRequest echoRuntime postArgs [redirectTo "/moved", rejectedAnswer, answer ""]
          {} (some (ascii "/oauth/request_token")) {}).result
        = .done (.error (.reportedProblem (some (ascii "consumer_key_rejected")))) ∧
      givenToken exampleConsumer (exampleConsumer.tokenRequest echoRuntime postArgs
        [redirectTo "/moved", rejectedAnswer, answer ""] {} (some (ascii "/oauth/request_token"))
        {}).result = none :=
  tokenRequest_reportedProblem echoRuntime exampleConsumer postArgs _ {} _ {} (by decide +kernel) rfl
    rfl (show ChallengeFields rejectionFields from ⟨by decide, by decide⟩)
    (by rw [Response.Challenges]; decide +kernel) (by decide)

end RubyOAuth
