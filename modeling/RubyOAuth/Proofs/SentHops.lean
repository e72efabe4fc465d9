import RubyOAuth.Proofs.FormScheme
import RubyOAuth.Proofs.HeaderSigning
import RubyOAuth.Proofs.QueryString
import RubyOAuth.Proofs.RedirectSafety

set_option autoImplicit false

/-! # What the requests of a run show

Every request that an operation sends is made from the operation's own arguments and signed for an
exchange of its own: the first request for the first exchange, the request after a redirect for the
next. So the nonce and the timestamp that a request shows were generated for it, over any run. -/

namespace RubyOAuth

open Bytes

variable {rt : Runtime} {c : Consumer} {st : ConsumerState}

/-! ## Where a request comes from -/

/-- The path that a request of a call asks for, by its place: the call's own, and then where the answer
    to the request before it redirects. -/
inductive AsksFor (c : Consumer) (path : Option Bytes) (xs : List Exchange) : Nat → Bytes → Prop
  | first {p : Bytes} : path = some p → AsksFor c path xs 0 p
  | redirected {i : Nat} {p next : Bytes} {x : Exchange} {rsp : Response} {o o' : CallOptions} :
      AsksFor c path xs i p → xs[i]? = some x → x.reply = .ok rsp →
      tokenStep c o p rsp = .follow (some next) o' → AsksFor c path xs (i + 1) next

/-- The request is made from the arguments for a path, and signed with them and the options for the
    exchange. -/
structure Hop.SentFor (rt : Runtime) (c : Consumer) (args : RequestArgs) (path : Bytes)
    (o : CallOptions) (hop : Hop) (x : Exchange) : Prop where
  created : ∃ p, requestedPath path = .ok p ∧
    createHttpRequest rt c hop.connection args.method p args.data args.headers = .ok hop.unsigned
  signed : oauth rt hop.connection hop.unsigned c args.token (c.mergeOptions o) x.generated
    = .ok hop.request

/-- Each request of a call is sent for the exchange at its place, for the path that is asked for there,
    with the arguments as the requests before it leave them. -/
def SentInOrder (rt : Runtime) (c : Consumer) (args : RequestArgs) (path : Option Bytes)
    (o : CallOptions) (hops : List Hop) (xs : List Exchange) : Prop :=
  ∀ i hop, hops[i]? = some hop → ∃ x p, xs[i]? = some x ∧ AsksFor c path xs i p ∧
    hop.SentFor rt c (args.afterSending (hops.take i)) p o x

theorem RequestArgs.afterSending_cons (args : RequestArgs) (hop : Hop) (hops : List Hop) :
    args.afterSending (hop :: hops) = (args.afterSending [hop]).afterSending hops := by
  have hdrained : args.data.drained.drained = args.data.drained := by cases args.data <;> rfl
  unfold afterSending
  by_cases hfirst : hop.request.bodyStream.isSome = true
  · by_cases hlater : hops.any (fun h => h.request.bodyStream.isSome) = true
    · simp [hfirst, hlater, hdrained]
    · simp [hfirst, hlater]
  · simp [hfirst]

/-- Sending reads a stream and changes nothing else. -/
theorem RequestArgs.afterSending_eq (args : RequestArgs) (hops : List Hop) :
    args.afterSending hops = args ∨
      args.afterSending hops = { args with data := args.data.drained } := by
  rw [afterSending]
  split
  · exact .inr rfl
  · exact .inl rfl

@[simp] theorem RequestArgs.afterSending_token (args : RequestArgs) (hops : List Hop) :
    (args.afterSending hops).token = args.token := by
  rcases args.afterSending_eq hops with h | h
  · rw [h]
  · rw [h]

theorem sentInOrder_nil (rt : Runtime) (c : Consumer) (args : RequestArgs) (path : Option Bytes)
    (o : CallOptions) (xs : List Exchange) : SentInOrder rt c args path o [] xs := by
  intro i hop h
  simp at h

/-- What is asked for after a redirect is asked for one place later. -/
theorem AsksFor.cons {p : Bytes} {next : Option Bytes} {x : Exchange} {rsp : Response}
    {o o' : CallOptions} {xs : List Exchange} (hreply : x.reply = .ok rsp)
    (hstep : tokenStep c o p rsp = .follow next o') {i : Nat} {q : Bytes}
    (h : AsksFor c next xs i q) : AsksFor c (some p) (x :: xs) (i + 1) q := by
  induction h with
  | first hq => exact .redirected (.first rfl) rfl hreply (hq ▸ hstep)
  | redirected _ hx hr hs ih => exact .redirected ih hx hr hs

theorem request_sentFor (rt : Runtime) (c : Consumer) (st : ConsumerState) (args : RequestArgs)
    (path : Option Bytes) (o : CallOptions) (x : Exchange) (xs : List Exchange) :
    SentInOrder rt c args path o (c.request rt st args path o x).hops (x :: xs) := by
  intro i hop h
  cases path with
  | none =>
      obtain ⟨st', e, hr⟩ := request_none rt c st args o x
      simp [hr] at h
  | some p =>
      obtain ⟨p', hp, -, hcreated, hsigned⟩ := hop_of_request (List.mem_of_getElem? h)
      rcases request_cases rt c st args (some p) o x with ⟨st', e, hr⟩ | ⟨st', hop', result, hr, -⟩
      · simp [hr] at h
      · cases i with
        | zero => exact ⟨x, p, rfl, .first rfl, ⟨p', hp, hcreated⟩, hsigned⟩
        | succ i => simp [hr] at h

/-- A redirect changes no option that a request is signed with. -/
theorem mergeOptions_of_follow {o o' : CallOptions} {p : Bytes} {rsp : Response} {next : Option Bytes}
    (h : tokenStep c o p rsp = .follow next o') :
    c.mergeOptions (tokenRequestOptions o') = c.mergeOptions (tokenRequestOptions o) := by
  obtain ⟨cur, red, m, -, -, -, -, -, -, rfl⟩ := followRedirect_eq_ok.1 (tokenStep_eq_follow h)
  rfl

theorem tokenRequest_sentFor (rt : Runtime) (args : RequestArgs) (xs : List Exchange) :
    ∀ (st : ConsumerState) (path : Option Bytes) (o : CallOptions),
      SentInOrder rt c args path (tokenRequestOptions o) (c.tokenRequest rt args xs st path o).hops
        xs := by
  induction xs generalizing args with
  | nil => exact fun st path o => sentInOrder_nil rt c args path _ []
  | cons x xs ih =>
      intro st path o
      rcases tokenRequest_cons_cases rt c args x xs st path o with
        ⟨result, h⟩ | ⟨p, rsp, next, o', args', rfl, hok, hstep, hargs, h⟩
      · rw [h]
        exact request_sentFor rt c st args path _ x xs
      · rw [h]
        -- the first request was answered, so it was sent
        rcases request_cases rt c st args (some p) (tokenRequestOptions o) x with
          ⟨st', e, hr⟩ | ⟨st', first, result, hr, -⟩
        · simp [hr] at hok
        · have hfirst := request_sentFor rt c st args (some p) (tokenRequestOptions o) x xs
          have hlater := ih args' (c.request rt st args (some p) (tokenRequestOptions o) x).state next o'
          have hreply := reply_of_request hok
          rw [hr] at hfirst hargs hlater ⊢
          intro i hop hi
          cases i with
          | zero => exact hfirst 0 hop hi
          | succ i =>
              obtain ⟨y, q, hy, hasks, hcreated, hsigned⟩ := hlater i hop hi
              refine ⟨y, q, hy, hasks.cons hreply hstep, ?_, ?_⟩
              · rw [List.singleton_append, List.take_succ_cons, RequestArgs.afterSending_cons, ← hargs]
                exact hcreated
              · rw [hargs, RequestArgs.afterSending_token, RequestArgs.afterSending_token,
                  mergeOptions_of_follow hstep] at hsigned
                rw [RequestArgs.afterSending_token]
                exact hsigned

theorem accessTokenRequest_sentFor (rt : Runtime) (c : Consumer) (st : ConsumerState)
    (args : RequestArgs) (path : Bytes) (x : Exchange) :
    SentInOrder rt c args (some path) {} (accessTokenRequest rt c st args path x).hops [x] := by
  rcases accessTokenRequest_cases rt c st args path x with
    ⟨e, -, h⟩ | ⟨u, st', site, -, -, ⟨-, h⟩ | ⟨-, e, -, h⟩ | ⟨-, conn, -, h⟩⟩
  · rw [h]
    exact sentInOrder_nil rt c args _ _ _
  · rw [h]
    exact request_sentFor rt c st' args (some path) {} x []
  · rw [h]
    exact sentInOrder_nil rt c args _ _ _
  · rw [h]
    exact request_sentFor rt c ⟨some conn, some u⟩ args (some path) {} x []

namespace Operation

/-- The exchanges an operation may use. -/
def exchanges : Operation → List Exchange
  | .request _ _ _ x => [x]
  | .getRequestToken _ _ _ xs => xs
  | .getAccessToken _ _ _ _ xs => xs
  | .accessToken _ _ x => [x]

/-- The options its requests are signed with. -/
def signingOptions : Operation → CallOptions
  | .request _ _ o _ => o
  | .getRequestToken _ _ o _ => tokenRequestOptions (callbackOptions o)
  | .getAccessToken _ _ _ o _ => tokenRequestOptions o
  | .accessToken .. => {}

/-- The arguments its requests are made from. -/
def args (c : Consumer) : Operation → RequestArgs
  | .request args _ _ _ => args
  | .getRequestToken data headers _ _ => ⟨c.options.httpMethod, none, data, headers⟩
  | .getAccessToken token data headers _ _ => ⟨c.options.httpMethod, some token, data, headers⟩
  | .accessToken args _ _ => args

/-- **Every request of an operation is made and signed for the exchange at its place.** -/
theorem perform_sentFor (rt : Runtime) (c : Consumer) (st : ConsumerState) (op : Operation) :
    SentInOrder rt c (op.args c) (some (op.path c)) op.signingOptions (op.perform rt c st).2
      op.exchanges := by
  cases op with
  | request args path o x => exact request_sentFor rt c st args (some path) o x []
  | getRequestToken data headers o xs => exact tokenRequest_sentFor rt _ xs st _ (callbackOptions o)
  | getAccessToken token data headers o xs => exact tokenRequest_sentFor rt _ xs st _ o
  | accessToken args path x => exact accessTokenRequest_sentFor rt c st args path x

end Operation

/-! ## What a signed request shows -/

/-- The request has an OAuth parameter where its scheme puts it: a field of the header, of the query to
    which the signature is added, or of the body. -/
def HttpRequest.Shows (r : HttpRequest) (scheme : Scheme) (name value : Bytes) : Prop :=
  match scheme with
  | .header => ∃ start fields, r.header (ascii "Authorization")
        = some (ascii "OAuth " ++ start ++ ClientHelper.separator.intercalate fields) ∧
      name ++ equal :: quote :: escapeBytes value ++ [quote] ∈ fields
  | .queryString => ∃ path signature query,
      r.path = path ++ ampersand :: segment (ascii "oauth_signature") signature ∧
      ({ r with path := path } : HttpRequest).queryParams = .ok (some query) ∧
      (name, some value) ∈ cgiFields query
  | .body => ∃ body, r.body = some body ∧ (name, some value) ∈ cgiFields body

/-- In a body only a `POST` or a `PUT` keeps the parameter, and one of its own under the name would take
    its place. -/
def HttpRequest.LeavesRoom (r : HttpRequest) (scheme : Scheme) (name : Bytes) : Prop :=
  scheme = .body → r.isPostOrPut = true ∧
    ∀ q, r.queryString = .ok q → name ∉ (cgiFields q).map Prod.fst

theorem mem_of_valuesOf {α β : Type} [DecidableEq α] {k : α} {v : β} {ps : List (α × β)}
    (h : v ∈ valuesOf k ps) : (k, v) ∈ ps := by
  obtain ⟨e, he, rfl⟩ := List.mem_map.1 h
  rw [List.mem_filter, decide_eq_true_eq] at he
  rw [← he.2]
  exact he.1

variable {conn : Connection} {r signed : HttpRequest} {token : Option Token} {o : RequestOptions}
  {g : Generated} {helper : ClientHelper} {name value : Bytes}

theorem shows_header (hscheme : o.scheme = .header)
    (hhelper : signingHelper rt conn r c token o g = .ok helper)
    (hvalue : helper.oauthParameters.lookup name = some (.str value))
    (h : oauth rt conn r c token o g = .ok signed) : signed.Shows .header name value := by
  obtain ⟨s, -, rfl⟩ := oauth_header_eq_ok hscheme hhelper h
  have hset : (helper.oauthParameters.set (ascii "oauth_signature") (.str s)).lookup name
      = some (.str value) := by
    rw [OrderedHash.lookup_set, if_neg (ClientHelper.name_of_lookup hvalue).2.2, hvalue]
  have hmem : (name, Value.str value) ∈
      (helper.oauthParameters.set (ascii "oauth_signature") (.str s)).sortedEntries :=
    OrderedHash.mem_sortedEntries.2 hset
  obtain ⟨start, htext⟩ : ∃ start, helper.headerWith rt s = ascii "OAuth " ++ start ++
      ClientHelper.separator.intercalate
        ((helper.oauthParameters.set (ascii "oauth_signature") (.str s)).sortedEntries.map
          (ClientHelper.headerField rt)) := ⟨_, rfl⟩
  have hfield : name ++ equal :: quote :: escapeBytes value ++ [quote] ∈
      (helper.oauthParameters.set (ascii "oauth_signature") (.str s)).sortedEntries.map
        (ClientHelper.headerField rt) := List.mem_map.2 ⟨_, hmem, rfl⟩
  refine ⟨start, _, ?_, hfield⟩
  rw [header_withHeader, if_pos rfl, htext]

theorem shows_queryString (hscheme : o.scheme = .queryString)
    (hhelper : signingHelper rt conn r c token o g = .ok helper)
    (hvalue : helper.oauthParameters.lookup name = some (.str value))
    (h : oauth rt conn r c token o g = .ok signed) : signed.Shows .queryString name value := by
  rw [oauth, hhelper, Except.ok_bind, hscheme] at h
  obtain ⟨first, s, hfirst, -, rfl⟩ := setOauthQueryString_eq_ok.1 h
  obtain ⟨old, query, -, -, -, -, -, hquery, hfields⟩ := ClientHelper.queryRequest_eq_ok hfirst
  refine ⟨first.path, s, query, rfl, hquery, ?_⟩
  rw [hfields]
  exact List.mem_append_right _
    (List.mem_map.2 ⟨(name, .str value), OrderedHash.mem_entries.2 hvalue, rfl⟩)

theorem shows_body (hscheme : o.scheme = .body)
    (hhelper : signingHelper rt conn r c token o g = .ok helper)
    (hvalue : helper.oauthParameters.lookup name = some (.str value))
    (hroom : r.LeavesRoom .body name) (h : oauth rt conn r c token o g = .ok signed) :
    signed.Shows .body name value := by
  obtain ⟨hpost, hown⟩ := hroom rfl
  obtain ⟨query, q₀, q₁, first, s, hquery, -, -, -, -, -, rfl, hfields₀, hfields₁⟩ :=
    oauth_body_eq_ok hscheme hhelper h
  -- the request's own fields do not have the name
  have hnot : name ∉ (cgiFields q₀).map Prod.fst := by
    obtain ⟨q, hq, hfields⟩ := queryString_of_query hquery
    rw [hfields₀, ← List.flatMap_append, ← List.flatMap_append]
    have hsame : cgiFields q
        = (query.toList ++ r.authHeaderParams.toList ++ r.postParams.toList).flatMap cgiFields := by
      rw [hfields, List.flatMap_append, List.flatMap_append]
    exact hsame ▸ hown q hq
  rw [hfields₀, List.map_append, List.mem_append, not_or] at hnot
  have hfirst : valuesOf name (cgiFields (encodeForm rt
      (helper.oauthParameters.merge (collected q₀ OrderedHash.empty)))) = [some value] := by
    rw [valuesOf_firstBody rt (textParameters_oauthParameters helper) helper.lookup_nil,
      firstBodyValues, if_neg, hvalue]
    rw [hfields₀, List.map_append, List.mem_append, not_or]
    exact hnot
  have hvalues : fieldValues name (cgiFields q₁) = [value] := by
    rw [hfields₁, if_pos hpost, fieldValues_append, fieldValues_of_not_mem hnot.1, fieldValues, hfirst]
    rfl
  have hmem : name ∈ (cgiFields q₁).map Prod.fst := by
    by_contra hn
    rw [fieldValues_of_not_mem hn] at hvalues
    simp at hvalues
  refine ⟨_, rfl, mem_of_valuesOf ?_⟩
  rw [valuesOf_signedBody, if_neg (ClientHelper.name_of_lookup hvalue).2.2, if_pos hmem, hvalues]
  exact List.mem_singleton_self _

/-- **A signed request shows its OAuth parameters where its scheme puts them.** -/
theorem oauth_shows (hhelper : signingHelper rt conn r c token o g = .ok helper)
    (hvalue : helper.oauthParameters.lookup name = some (.str value))
    (hroom : r.LeavesRoom o.scheme name) (h : oauth rt conn r c token o g = .ok signed) :
    signed.Shows o.scheme name value := by
  cases hscheme : o.scheme with
  | header => exact shows_header hscheme hhelper hvalue h
  | queryString => exact shows_queryString hscheme hhelper hvalue h
  | body => exact shows_body hscheme hhelper hvalue (hscheme ▸ hroom) h

/-- The helper that signs a request of the call. -/
structure ClientHelper.MadeFor (h : ClientHelper) (c : Consumer) (token : Option Token)
    (o : RequestOptions) (g : Generated) : Prop where
  consumer : h.consumer = c
  token : h.token = token
  options : ∃ hash, h.options = { o with bodyHash := hash }
  generated : h.generated = g

theorem Hop.SentFor.shows {args : RequestArgs} {path : Bytes} {o : CallOptions} {hop : Hop}
    {x : Exchange} (h : hop.SentFor rt c args path o x)
    (hmem : ∀ helper : ClientHelper, helper.MadeFor c args.token (c.mergeOptions o) x.generated →
      (name, some value) ∈ helper.candidateParameters)
    (hne : value ≠ []) (hroom : hop.unsigned.LeavesRoom (c.mergeOptions o).scheme name) :
    hop.request.Shows (c.mergeOptions o).scheme name value := by
  obtain ⟨helper, hhelper, -⟩ := Except.bind_eq_ok.1 h.signed
  obtain ⟨full, hash, -, hspec⟩ := signingHelper_eq_ok hhelper
  have hmade : helper.MadeFor c args.token (c.mergeOptions o) x.generated := by
    rw [hspec]
    exact ⟨rfl, rfl, ⟨hash, rfl⟩, rfl⟩
  have hkeeps : helper.keeps (name, some value) = true := by
    rw [ClientHelper.keeps, Bool.or_eq_true, bne_iff_ne]
    exact .inl hne
  exact oauth_shows hhelper
    (ClientHelper.lookup_oauthParameters.2 ⟨_, hmem helper hmade, hkeeps, rfl, rfl⟩) hroom h.signed

/-! ## Nonces and timestamps over a run -/

/-- The calls of a run, each with the requests it sent. -/
def sentCalls (rt : Runtime) (c : Consumer) (st : ConsumerState) (ops : List Operation) :
    List (Operation × List Hop) :=
  (Machine.run (consumerStep rt c) st ops).2

/-- The requests of a run, each with the operation that sent it. -/
def sentHops (rt : Runtime) (c : Consumer) (st : ConsumerState) (ops : List Operation) :
    List (Operation × Hop) :=
  (sentCalls rt c st ops).flatMap (fun sent => sent.2.map (Prod.mk sent.1))

/-- **Every request of a run is sent for the exchange at its place in the call that sent it.** -/
theorem sentCalls_inOrder (rt : Runtime) (c : Consumer) (st : ConsumerState) (ops : List Operation) :
    ∀ call ∈ sentCalls rt c st ops, call.1 ∈ ops ∧
      SentInOrder rt c (call.1.args c) (some (call.1.path c)) call.1.signingOptions call.2
        call.1.exchanges := by
  refine Machine.run_allowed (fun s op hop w hw => ?_) st
  obtain rfl := List.mem_singleton.1 hw
  exact ⟨hop, op.perform_sentFor rt c s⟩

/-- A request of a run has an exchange of its own. -/
theorem exists_sentFor {ops : List Operation} {sent : Operation × Hop}
    (h : sent ∈ sentHops rt c st ops) : sent.1 ∈ ops ∧ ∃ x args path, args.token = (sent.1.args c).token ∧
      x ∈ sent.1.exchanges ∧ sent.2.SentFor rt c args path sent.1.signingOptions x := by
  obtain ⟨call, hcall, hmem⟩ := List.mem_flatMap.1 h
  obtain ⟨hop, hhop, rfl⟩ := List.mem_map.1 hmem
  obtain ⟨hop', horder⟩ := sentCalls_inOrder rt c st ops call hcall
  obtain ⟨i, hi⟩ := List.mem_iff_getElem?.1 hhop
  obtain ⟨x, p, hx, -, hsent⟩ := horder i hop hi
  exact ⟨hop', x, _, p, RequestArgs.afterSending_token _ _, List.mem_of_getElem? hx, hsent⟩

/-- Where an operation has its OAuth parameters sent. -/
def Operation.scheme (c : Consumer) (op : Operation) : Scheme :=
  (c.mergeOptions op.signingOptions).scheme

/-- The request shows what was generated for the exchange. -/
def ShowsGenerated (c : Consumer) (sent : Operation × Hop) (x : Exchange) : Prop :=
  ∀ e ∈ [(ascii "oauth_nonce", x.generated.nonce), (ascii "oauth_timestamp", x.generated.timestamp)],
    sent.2.unsigned.LeavesRoom (sent.1.scheme c) e.1 →
      sent.2.request.Shows (sent.1.scheme c) e.1 e.2

/-- An operation that fixes neither, for exchanges that have both. -/
structure Operation.Generates (op : Operation) : Prop where
  nonce : op.signingOptions.nonce = none
  timestamp : op.signingOptions.timestamp = none
  generated : ∀ x ∈ op.exchanges, x.generated.nonce ≠ [] ∧ x.generated.timestamp ≠ []

theorem showsGenerated_of_sentFor {op : Operation} (hgen : op.Generates) {hop : Hop} {x : Exchange}
    (hx : x ∈ op.exchanges) {args : RequestArgs} {path : Bytes}
    (h : hop.SentFor rt c args path op.signingOptions x) : ShowsGenerated c (op, hop) x := by
  obtain ⟨hnonce, htimestamp⟩ := hgen.generated x hx
  intro e he hroom
  rcases List.mem_pair.1 he with rfl | rfl
  · refine h.shows (fun helper hmade => ?_) hnonce hroom
    obtain ⟨hash, ho⟩ := hmade.options
    have hvalue : helper.nonce = x.generated.nonce := by
      rw [ClientHelper.nonce, ho, hmade.generated]
      show op.signingOptions.nonce.getD _ = _
      rw [hgen.nonce, Option.getD_none]
    simp [ClientHelper.candidateParameters, hvalue]
  · refine h.shows (fun helper hmade => ?_) htimestamp hroom
    obtain ⟨hash, ho⟩ := hmade.options
    have hvalue : helper.timestamp = x.generated.timestamp := by
      rw [ClientHelper.timestamp, ho, hmade.generated]
      show op.signingOptions.timestamp.getD _ = _
      rw [hgen.timestamp, Option.getD_none]
    simp [ClientHelper.candidateParameters, hvalue]

/-- What holds of each request and the exchange at its place holds of the requests and the exchanges that
    were used. -/
theorem SentInOrder.sublistForall₂ {args : RequestArgs} {path : Option Bytes} {o : CallOptions}
    {hops : List Hop} {xs : List Exchange} (h : SentInOrder rt c args path o hops xs)
    {R : Hop → Exchange → Prop}
    (hR : ∀ hop, ∀ x ∈ xs, ∀ args p, hop.SentFor rt c args p o x → R hop x) :
    List.SublistForall₂ R hops xs := by
  refine List.sublistForall₂_iff.2 ⟨xs.take hops.length, ?_, List.take_sublist _ _⟩
  have hall : ∀ (i : Nat) (hop : Hop), hops[i]? = some hop → ∃ x, xs[i]? = some x ∧ R hop x := by
    intro i hop hi
    obtain ⟨x, p, hx, -, hsent⟩ := h i hop hi
    exact ⟨x, hx, hR hop x (List.mem_of_getElem? hx) _ p hsent⟩
  clear h hR
  induction hops generalizing xs with
  | nil => exact .nil
  | cons hop rest ih =>
      obtain ⟨x, hx, hr⟩ := hall 0 hop rfl
      cases xs with
      | nil => simp at hx
      | cons y ys =>
          obtain rfl : y = x := Option.some.inj hx
          exact .cons hr (ih fun i hop' hi => hall (i + 1) hop' hi)

/-- **No nonce is sent twice**: the requests of a run show, in order, what was generated for exchanges of
    their own, and no two of them share one. -/
theorem sentHops_nonces (rt : Runtime) (c : Consumer) (st : ConsumerState) (ops : List Operation)
    (hgen : ∀ op ∈ ops, op.Generates)
    (hnew : ((ops.flatMap Operation.exchanges).map (·.generated.nonce)).Nodup) :
    ∃ used : List Exchange, used.Sublist (ops.flatMap Operation.exchanges) ∧
      (used.map (·.generated.nonce)).Nodup ∧
      List.Forall₂ (ShowsGenerated c) (sentHops rt c st ops) used := by
  have hstep : ∀ s, ∀ op ∈ ops, List.SublistForall₂ (ShowsGenerated c)
      ((consumerStep rt c s op).2.flatMap (fun sent => sent.2.map (Prod.mk sent.1)))
      op.exchanges := by
    intro s op hop
    rw [consumerStep, List.flatMap_singleton]
    have hsub := (op.perform_sentFor rt c s).sublistForall₂ (R := fun h x => ShowsGenerated c (op, h) x)
      fun hop' x hx args p hsent => showsGenerated_of_sentFor (hgen op hop) hx hsent
    obtain ⟨used, hused, hsub⟩ := List.sublistForall₂_iff.1 hsub
    exact List.sublistForall₂_iff.2 ⟨used, List.forall₂_map_left_iff.2 hused, hsub⟩
  obtain ⟨used, hused, hsub⟩ := List.sublistForall₂_iff.1 (Machine.run_sublistForall₂ hstep st)
  exact ⟨used, hsub, (hsub.map _).nodup hnew, hused⟩

/-- The exchange with a nonce of its own. -/
def Exchange.withNonce (x : Exchange) (nonce : String) : Exchange :=
  { x with generated := ⟨ascii nonce, ascii "1700000000"⟩ }

/-- A token request that is redirected once, then a request. -/
def exampleOperations : List Operation :=
  [.getRequestToken .none [] {} [(redirectTo "/moved").withNonce "a1", (answer "").withNonce "b2"],
    .request postArgs (ascii "/people") {} ((answer "").withNonce "c3")]

theorem exampleOperations_nonces :
    ∃ used : List Exchange, used.Sublist (exampleOperations.flatMap Operation.exchanges) ∧
      (used.map (·.generated.nonce)).Nodup ∧
      List.Forall₂ (ShowsGenerated exampleConsumer)
        (sentHops echoRuntime exampleConsumer {} exampleOperations) used := by
  refine sentHops_nonces echoRuntime exampleConsumer {} exampleOperations (fun op hop => ?_)
    (by decide)
  rcases List.mem_pair.1 hop with rfl | rfl
  · exact ⟨rfl, rfl, by decide⟩
  · exact ⟨rfl, rfl, by decide⟩

/-! ## What the call itself gives -/

/-- The callback of an operation: `get_request_token` gives the out-of-band one where it is given none. -/
def Operation.callback : Operation → Option Bytes
  | .getRequestToken _ _ o _ =>
    if o.excludeCallback then o.oauthCallback else some (o.oauthCallback.getD (ascii "oob"))
  | op => op.signingOptions.oauthCallback

/-- The OAuth parameters that say on whose behalf a request is made, and for what. -/
def Operation.parameters (c : Consumer) (op : Operation) : List (Bytes × Option Bytes) :=
  [(ascii "oauth_consumer_key", some c.key),
    (ascii "oauth_token", (op.args c).token.map Token.token),
    (ascii "oauth_callback", op.callback),
    (ascii "oauth_verifier", op.signingOptions.oauthVerifier),
    (ascii "oauth_session_handle", op.signingOptions.oauthSessionHandle)]

/-- The request shows every parameter of its operation that is not empty. -/
def ShowsParameters (c : Consumer) (sent : Operation × Hop) : Prop :=
  ∀ e ∈ sent.1.parameters c, ∀ value ∈ e.2, value ≠ [] →
    sent.2.unsigned.LeavesRoom (sent.1.scheme c) e.1 →
      sent.2.request.Shows (sent.1.scheme c) e.1 value

theorem Operation.signingOptions_oauthCallback (op : Operation) :
    op.signingOptions.oauthCallback = op.callback := by
  cases op with
  | getRequestToken data headers o xs =>
      show (callbackOptions o).oauthCallback = _
      rw [callbackOptions, callback]
      split
      · rfl
      · cases o.oauthCallback <;> rfl
  | request args path o x => rfl
  | getAccessToken token data headers o xs => rfl
  | accessToken args path x => rfl

theorem Operation.mem_candidateParameters {op : Operation} {e : Bytes × Option Bytes}
    (he : e ∈ op.parameters c) (hvalue : some value = e.2) {g : Generated} {helper : ClientHelper}
    (hmade : helper.MadeFor c (op.args c).token (c.mergeOptions op.signingOptions) g) :
    (e.1, some value) ∈ helper.candidateParameters := by
  obtain ⟨hash, ho⟩ := hmade.options
  have hcallback : helper.options.oauthCallback = op.callback := by
    rw [ho]
    exact op.signingOptions_oauthCallback
  have hverifier : helper.options.oauthVerifier = op.signingOptions.oauthVerifier := by
    rw [ho]
    rfl
  have hhandle : helper.options.oauthSessionHandle = op.signingOptions.oauthSessionHandle := by
    rw [ho]
    rfl
  simp only [parameters, List.mem_cons, List.not_mem_nil, or_false] at he
  rw [ClientHelper.candidateParameters, hcallback, hverifier, hhandle, hmade.consumer, hmade.token]
  rcases he with rfl | rfl | rfl | rfl | rfl
  · simp [hvalue]
  · cases htoken : (op.args c).token with
    | none => simp [htoken] at hvalue
    | some t =>
        rw [htoken, Option.map_some, Option.some.injEq] at hvalue
        simp [hvalue]
  · simp [hvalue]
  · simp [hvalue]
  · simp [hvalue]

/-- **Every request of a run shows whose it is**: after a redirect as before it, a request shows the
    consumer's key and the token, the callback and the verifier of the call that sent it. -/
theorem sentHops_parameters (rt : Runtime) (c : Consumer) (st : ConsumerState) (ops : List Operation) :
    ∀ sent ∈ sentHops rt c st ops, ShowsParameters c sent := by
  intro sent hmem
  obtain ⟨-, x, args, path, htoken, -, hsent⟩ := exists_sentFor hmem
  intro e he v hv hne hroom
  exact hsent.shows
    (fun helper hmade => sent.1.mem_candidateParameters he (Eq.symm hv) (htoken ▸ hmade)) hne hroom

theorem exampleOperations_parameters :
    (sentHops echoRuntime exampleConsumer {} exampleOperations).length = 3 ∧
      ∀ sent ∈ sentHops echoRuntime exampleConsumer {} exampleOperations,
        ShowsParameters exampleConsumer sent :=
  ⟨by decide +kernel, sentHops_parameters echoRuntime exampleConsumer {} exampleOperations⟩

end RubyOAuth
