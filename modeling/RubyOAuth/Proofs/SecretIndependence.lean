import RubyOAuth.Proofs.SentHops

set_option autoImplicit false

/-! # Secrets show in signatures only

Two runs of a consumer that differ in its secret and in the secrets of the tokens are compared step by
step. They go through the same states, send the same number of requests over the same connections and return
the same, and the requests are the same up to the text of the signature: what is around it is made by a
helper that holds no secret. -/

namespace RubyOAuth

open Bytes Except

/-! ## Other secrets -/

def Consumer.withSecret (c : Consumer) (secret : Secret) : Consumer := { c with secret := secret }

/-- The token with the secret that is chosen for it. -/
def Token.withSecret (choose : Token → Secret) (t : Token) : Token := { t with secret := choose t }

def RequestArgs.withSecret (choose : Token → Secret) (args : RequestArgs) : RequestArgs :=
  { args with token := args.token.map (Token.withSecret choose) }

def Operation.withSecret (choose : Token → Secret) : Operation → Operation
  | .request args path o x => .request (args.withSecret choose) path o x
  | .getRequestToken data headers o xs => .getRequestToken data headers o xs
  | .getAccessToken token data headers o xs =>
    .getAccessToken (token.withSecret choose) data headers o xs
  | .accessToken args path x => .accessToken (args.withSecret choose) path x

namespace ClientHelper

def withSecrets (h : ClientHelper) (secret : Secret) (choose : Token → Secret) : ClientHelper :=
  { h with consumer := h.consumer.withSecret secret, token := h.token.map (Token.withSecret choose) }

/-- Neither consumer nor token has a secret. -/
def HoldsNoSecret (h : ClientHelper) : Prop :=
  h.consumer.secret = .nil ∧ ∀ t ∈ h.token, t.secret = .nil

/-! ## A request around its signature -/

/-- The request that is sent with a signature. -/
def place (rt : Runtime) (h : ClientHelper) (signature : Bytes) : Scheme → Except RubyError HttpRequest
  | .header => .ok (h.request.withHeader (ascii "Authorization") (h.headerWith rt signature))
  | .body => do
    let first ← h.formRequest rt
    let params ← first.parameters {}
    .ok (setFormData rt first (params.set (ascii "oauth_signature") (.str signature)))
  | .queryString => do
    let first ← h.queryRequest rt
    .ok { first with path := first.path ++ ampersand :: segment (ascii "oauth_signature") signature }

variable {rt : Runtime}

/-- What is around the signature is made without the secrets. -/
theorem place_withSecrets (h : ClientHelper) (secret : Secret) (choose : Token → Secret)
    (signature : Bytes) (scheme : Scheme) :
    (h.withSecrets secret choose).place rt signature scheme = h.place rt signature scheme := by
  obtain ⟨request, uri, c, token, o, g⟩ := h
  cases token <;> cases scheme <;> rfl

theorem holdsNoSecret_withSecrets (h : ClientHelper) :
    (h.withSecrets .nil (fun _ => .nil)).HoldsNoSecret := by
  refine ⟨rfl, fun t ht => ?_⟩
  obtain ⟨t', -, rfl⟩ := Option.map_eq_some_iff.1 ht
  rfl

end ClientHelper

/-! ## Signing -/

variable {rt : Runtime}

/-- RSA takes both secrets for keys, or fails on both in the same way. -/
def RsaAlike (rt : Runtime) (a b : Secret) : Prop :=
  ∀ text, Agree (fun _ _ => True) (rt.rsaSign a.toS text) (rt.rsaSign b.toS text)

/-- Whether signing succeeds, and what it raises, is no matter of the secrets. -/
theorem sign_agree {p q : Proxy} {o o' : SignatureOptions} (hname : methodName p = methodName q)
    (hmethod : p.oauthSignatureMethod = q.oauthSignatureMethod)
    (hbase : p.signatureBaseString rt = q.signatureBaseString rt)
    (hfile : o.privateKeyFile = o'.privateKeyFile) (hkey : o.privateKey = o'.privateKey)
    (hrsa : RsaAlike rt o.givenConsumerSecret o'.givenConsumerSecret) :
    Agree (fun _ _ => True) (sign rt p o) (sign rt q o') := by
  have hsignature : ∀ m, Agree (fun _ _ => True)
      (Signature.signature rt ⟨m, p, o, o.givenConsumerSecret, o.givenTokenSecret⟩)
      (Signature.signature rt ⟨m, q, o', o'.givenConsumerSecret, o'.givenTokenSecret⟩) := by
    have hmac : ∀ mac mac' : Bytes → Bytes, Agree (fun _ _ : Bytes => True)
        (p.signatureBaseString rt >>= fun base => .ok (mac base))
        (q.signatureBaseString rt >>= fun base => .ok (mac' base)) := by
      intro mac mac'
      rw [hbase]
      exact (Agree.refl (R := fun _ _ => True) (fun _ => trivial) _).bind fun _ _ _ => .ok trivial
    intro m
    cases m with
    | plaintext => exact .ok trivial
    | hmacSha1 => exact (hmac _ _).bind fun _ _ _ => .ok trivial
    | hmacSha256 => exact (hmac _ _).bind fun _ _ _ => .ok trivial
    | rsaSha1 =>
        refine Agree.bind (R := fun _ _ => True) ?_ fun _ _ _ => .ok trivial
        simp only [Signature.digest, Signature.privateKey, Signature.signatureBaseString, ← hfile,
          ← hkey, ← hbase]
        -- a key of the options is the same on both sides
        have hsame : ∀ key : Except RubyError Bytes, Agree (fun _ _ => True)
            (key >>= fun k => p.signatureBaseString rt >>= fun base => rt.rsaSign k base)
            (key >>= fun k => p.signatureBaseString rt >>= fun base => rt.rsaSign k base) :=
          fun key => Agree.refl (fun _ => trivial) _
        cases hf : o.privateKeyFile with
        | some file => exact hsame (rt.readFile file)
        | none =>
            cases hk : o.privateKey with
            | some key => exact hsame (.ok key)
            | none =>
                simp only [ok_bind]
                refine Agree.bind (R := Eq) (Agree.refl (fun _ => rfl) _) ?_
                rintro base _ rfl
                exact hrsa base
  rw [sign, sign, build, build, ← hname, ← hmethod]
  cases methodName p with
  | error e => exact .error e
  | ok name =>
      simp only [ok_bind]
      cases availableMethod name with
      | some m => exact hsignature m
      | none =>
          cases p.oauthSignatureMethod with
          | error e => exact .error e
          | ok v => cases v <;> exact .error _

variable {secret : Secret} {choose : Token → Secret}

namespace ClientHelper

theorem signature_agree (h : ClientHelper) (hrsa : RsaAlike rt h.consumer.secret secret)
    (params : Params) : Agree (fun _ _ => True) (h.signature rt params)
      ((h.withSecrets secret choose).signature rt params) :=
  sign_agree rfl rfl rfl rfl rfl hrsa

theorem plainSignature_agree (h : ClientHelper) (hrsa : RsaAlike rt h.consumer.secret secret)
    (r : HttpRequest) : Agree (fun _ _ => True) (h.plainSignature rt r)
      ((h.withSecrets secret choose).plainSignature rt r) :=
  sign_agree rfl rfl rfl rfl rfl hrsa

end ClientHelper

/-- The helper of the other secrets is the helper with other secrets. -/
theorem signingHelper_withSecret (conn : Connection) (r : HttpRequest) (c : Consumer)
    (token : Option Token) (o : RequestOptions) (g : Generated) :
    signingHelper rt conn r (c.withSecret secret) (token.map (Token.withSecret choose)) o g
      = signingHelper rt conn r c token o g >>= fun h => .ok (h.withSecrets secret choose) := by
  rw [signingHelper, signingHelper, oauthHelper, oauthHelper]
  cases oauthFullRequestUri conn r.path o with
  | error e => rfl
  | ok full =>
      simp only [ok_bind]
      by_cases hhash : oauthBodyHashRequired r o = true
      · simp only [hhash, if_true, ClientHelper.hashBody, bind_assoc]
        cases token <;> rfl
      · simp only [hhash, Bool.false_eq_true, if_false]
        rfl

/-! ## The schemes -/

namespace ClientHelper

/-- The requests that a helper makes around two signatures. -/
def Places (rt : Runtime) (h : ClientHelper) (scheme : Scheme) (r r' : HttpRequest) : Prop :=
  ∃ s s', h.place rt s scheme = .ok r ∧ h.place rt s' scheme = .ok r'

/-- Only a realm can keep the header out of a request, whatever the signature. -/
theorem setHeader_agree (h : ClientHelper) (s s' : Bytes) :
    Agree (h.Places rt .header) (h.request.setHeader (ascii "Authorization") (h.headerWith rt s))
      (h.request.setHeader (ascii "Authorization") (h.headerWith rt s')) := by
  rw [HttpRequest.setHeader, HttpRequest.setHeader, any_isLineEnd_headerWith,
    any_isLineEnd_headerWith]
  split
  · exact .error _
  · exact .ok ⟨s, s', rfl, rfl⟩

theorem setOauthHeader_agree (h : ClientHelper) (hrsa : RsaAlike rt h.consumer.secret secret) :
    Agree (h.Places rt .header) (setOauthHeader rt h)
      (setOauthHeader rt (h.withSecrets secret choose)) := by
  have hheader : ∀ h' : ClientHelper, setOauthHeader rt h' = h'.signature rt h'.oauthParameters >>=
      fun s => h'.request.setHeader (ascii "Authorization") (h'.headerWith rt s) := by
    intro h'
    rw [setOauthHeader, ClientHelper.header, bind_assoc]
    rfl
  have hparams : (h.withSecrets secret choose).oauthParameters = h.oauthParameters := by
    obtain ⟨request, uri, c, token, o, g⟩ := h
    cases token <;> rfl
  have htext : ∀ s, (h.withSecrets secret choose).headerWith rt s = h.headerWith rt s := by
    obtain ⟨request, uri, c, token, o, g⟩ := h
    cases token <;> exact fun _ => rfl
  rw [hheader, hheader, hparams]
  refine (h.signature_agree hrsa h.oauthParameters).bind fun s s' _ => ?_
  rw [htext]
  exact h.setHeader_agree s s'

theorem setOauthBody_agree (h : ClientHelper) (hrsa : RsaAlike rt h.consumer.secret secret) :
    Agree (h.Places rt .body) (setOauthBody rt h) (setOauthBody rt (h.withSecrets secret choose)) := by
  have hbody : ∀ h' : ClientHelper, setOauthBody rt h' = h'.formRequest rt >>= fun first =>
      first.parameters {} >>= fun params => h'.plainSignature rt first >>= fun s =>
      .ok (setFormData rt first (params.set (ascii "oauth_signature") (.str s))) := by
    intro h'
    rw [setOauthBody, ClientHelper.formRequest, bind_assoc]
    rfl
  have hform : (h.withSecrets secret choose).formRequest rt = h.formRequest rt := by
    obtain ⟨request, uri, c, token, o, g⟩ := h
    cases token <;> rfl
  rw [hbody, hbody, hform]
  cases hfirst : h.formRequest rt with
  | error e => exact .error e
  | ok first =>
      cases hparams : first.parameters {} with
      | error e =>
          simp only [ok_bind, hparams]
          exact .error e
      | ok params =>
          simp only [ok_bind, hparams]
          have hplace : ∀ s, h.place rt s .body
              = .ok (setFormData rt first (params.set (ascii "oauth_signature") (.str s))) := by
            intro s
            rw [ClientHelper.place, hfirst, ok_bind, hparams, ok_bind]
          exact (h.plainSignature_agree hrsa first).bind fun s s' _ =>
            .ok ⟨s, s', hplace s, hplace s'⟩

theorem setOauthQueryString_agree (h : ClientHelper)
    (hrsa : RsaAlike rt h.consumer.secret secret) :
    Agree (h.Places rt .queryString) (setOauthQueryString rt h)
      (setOauthQueryString rt (h.withSecrets secret choose)) := by
  have hquery : ∀ h' : ClientHelper, setOauthQueryString rt h' = h'.queryRequest rt >>=
      fun first => h'.plainSignature rt first >>= fun s => .ok { first with
        path := first.path ++ ampersand :: segment (ascii "oauth_signature") s } := by
    have hname : ascii "&oauth_signature="
        = ampersand :: (escapeBytes (ascii "oauth_signature") ++ [equal]) := by decide
    have hsuffix : ∀ s path, path ++ ascii "&oauth_signature=" ++ escapeBytes s
        = path ++ ampersand :: segment (ascii "oauth_signature") s := by
      intro s path
      rw [hname, segment]
      simp
    intro h'
    rw [setOauthQueryString, ClientHelper.queryRequest]
    simp only [hsuffix, bind_assoc]
    rfl
  have hrequest : (h.withSecrets secret choose).queryRequest rt = h.queryRequest rt := by
    obtain ⟨request, uri, c, token, o, g⟩ := h
    cases token <;> rfl
  rw [hquery, hquery, hrequest]
  cases hfirst : h.queryRequest rt with
  | error e => exact .error e
  | ok first =>
      simp only [ok_bind]
      have hplace : ∀ s, h.place rt s .queryString = .ok { first with
          path := first.path ++ ampersand :: segment (ascii "oauth_signature") s } := by
        intro s
        rw [ClientHelper.place, hfirst, ok_bind]
      exact (h.plainSignature_agree hrsa first).bind fun s s' _ => .ok ⟨s, s', hplace s, hplace s'⟩

end ClientHelper

variable (choose)

/-- One helper without secrets makes both requests, each around a signature of its own. -/
def SamePlace (rt : Runtime) (scheme : Scheme) (r r' : HttpRequest) : Prop :=
  ∃ h : ClientHelper, h.HoldsNoSecret ∧ h.Places rt scheme r r'

/-- **`oauth!` with other secrets**: it fails in the same way, or gives the same request around another
    signature. -/
theorem oauth_agree (conn : Connection) (r : HttpRequest) (c : Consumer) (token : Option Token)
    (o : RequestOptions) (g : Generated) (hrsa : RsaAlike rt c.secret secret) :
    Agree (SamePlace rt o.scheme) (oauth rt conn r c token o g)
      (oauth rt conn r (c.withSecret secret) (token.map (Token.withSecret choose)) o g) := by
  rw [oauth, oauth, signingHelper_withSecret]
  cases hhelper : signingHelper rt conn r c token o g with
  | error e => exact .error e
  | ok h =>
      simp only [ok_bind]
      obtain ⟨full, hash, -, hspec⟩ := signingHelper_eq_ok hhelper
      have hrsa' : RsaAlike rt h.consumer.secret secret := by
        rw [hspec]
        exact hrsa
      have hsame : ∀ scheme {a b : HttpRequest}, h.Places rt scheme a b → SamePlace rt scheme a b := by
        rintro scheme a b ⟨s, s', ha, hb⟩
        exact ⟨_, h.holdsNoSecret_withSecrets, s, s', (h.place_withSecrets _ _ _ _).trans ha,
          (h.place_withSecrets _ _ _ _).trans hb⟩
      cases hscheme : o.scheme with
      | header => exact (h.setOauthHeader_agree hrsa').imp fun _ _ => hsame .header
      | body => exact (h.setOauthBody_agree hrsa').imp fun _ _ => hsame .body
      | queryString => exact (h.setOauthQueryString_agree hrsa').imp fun _ _ => hsame .queryString

/-! ## One request -/

/-- Two requests sent over the same connection, the same up to the signature. -/
structure Hop.SameButSignature (rt : Runtime) (scheme : Scheme) (hop hop' : Hop) : Prop where
  connection : hop.connection = hop'.connection
  unsigned : hop.unsigned = hop'.unsigned
  placed : SamePlace rt scheme hop.request hop'.request

/-- The same state and result, and requests that are related. -/
structure Outcome.Same {α : Type} (R : Hop → Hop → Prop) (out out' : Outcome α) : Prop where
  state : out.state = out'.state
  hops : List.Forall₂ R out.hops out'.hops
  result : out.result = out'.result

theorem Outcome.Same.refl {α : Type} {R : Hop → Hop → Prop} {st : ConsumerState} {r : Result α} :
    Outcome.Same R ⟨st, [], r⟩ ⟨st, [], r⟩ := ⟨rfl, .nil, rfl⟩

variable {c : Consumer}

theorem sendRequest_same (hrsa : RsaAlike rt c.secret secret) (st : ConsumerState)
    (args : RequestArgs) (path : Bytes) (o : CallOptions) (x : Exchange) :
    (sendRequest rt c st args path o x).Same (Hop.SameButSignature rt (c.mergeOptions o).scheme)
      (sendRequest rt (c.withSecret secret) st (args.withSecret choose) path o x) := by
  have hhttp : (c.withSecret secret).http st = c.http st := rfl
  have hcreate : ∀ conn, createHttpRequest rt (c.withSecret secret) conn
      (args.withSecret choose).method path (args.withSecret choose).data
      (args.withSecret choose).headers
        = createHttpRequest rt c conn args.method path args.data args.headers := fun _ => rfl
  have hoptions : (c.withSecret secret).mergeOptions o = c.mergeOptions o := rfl
  have htoken : (args.withSecret choose).token = args.token.map (Token.withSecret choose) := rfl
  unfold sendRequest
  simp only [hhttp, hcreate, hoptions, htoken]
  cases c.http st with
  | mk st' r =>
      cases r with
      | error e => exact .refl
      | ok conn =>
          simp only
          cases createHttpRequest rt c conn args.method path args.data args.headers with
          | error e => exact .refl
          | ok unsigned =>
              simp only
              have hagree := oauth_agree choose conn unsigned c args.token
                (c.mergeOptions o) x.generated hrsa
              generalize oauth rt conn unsigned c args.token (c.mergeOptions o) x.generated = a at hagree ⊢
              generalize oauth rt conn unsigned (c.withSecret secret)
                (args.token.map (Token.withSecret choose)) (c.mergeOptions o) x.generated = b at hagree ⊢
              cases hagree with
              | error e => exact .refl
              | ok hplaced => exact ⟨rfl, .cons ⟨rfl, rfl, hplaced⟩ .nil, rfl⟩

theorem request_same (hrsa : RsaAlike rt c.secret secret) (st : ConsumerState) (args : RequestArgs)
    (path : Option Bytes) (o : CallOptions) (x : Exchange) :
    (c.request rt st args path o x).Same (Hop.SameButSignature rt (c.mergeOptions o).scheme)
      ((c.withSecret secret).request rt st (args.withSecret choose) path o x) := by
  have hopen : openConnection (c.withSecret secret) st path = openConnection c st path := rfl
  unfold Consumer.request
  simp only [hopen]
  cases openConnection c st path with
  | mk st' r =>
      cases r with
      | error e => exact .refl
      | ok p => exact sendRequest_same choose hrsa st' args p o x

/-! ## Token requests and access tokens -/

/-- Whether a stream is sent is no matter of the signature. -/
theorem ClientHelper.Places.bodyStream {h : ClientHelper} {scheme : Scheme} {r r' : HttpRequest}
    (hplaces : h.Places rt scheme r r') : r.bodyStream = r'.bodyStream := by
  obtain ⟨s, s', hr, hr'⟩ := hplaces
  cases scheme with
  | header =>
      cases hr
      cases hr'
      rfl
  | body =>
      obtain ⟨first, hfirst, hr⟩ := bind_eq_ok.1 hr
      obtain ⟨params, -, hr⟩ := bind_eq_ok.1 hr
      obtain ⟨first', hfirst', hr'⟩ := bind_eq_ok.1 hr'
      obtain ⟨params', -, hr'⟩ := bind_eq_ok.1 hr'
      cases hr
      cases hr'
      rfl
  | queryString =>
      obtain ⟨first, hfirst, hr⟩ := bind_eq_ok.1 hr
      obtain ⟨first', hfirst', hr'⟩ := bind_eq_ok.1 hr'
      rw [hfirst] at hfirst'
      cases hfirst'
      cases hr
      cases hr'
      rfl

/-- The same streams have been read after both. -/
theorem afterSending_withSecret {args : RequestArgs} {scheme : Scheme} {hops hops' : List Hop}
    (h : List.Forall₂ (Hop.SameButSignature rt scheme) hops hops') :
    (args.withSecret choose).afterSending hops' = (args.afterSending hops).withSecret choose := by
  have hany : hops.any (fun hop => hop.request.bodyStream.isSome)
      = hops'.any (fun hop => hop.request.bodyStream.isSome) := by
    induction h with
    | nil => rfl
    | cons hhop _ ih =>
        obtain ⟨helper, -, hplaces⟩ := hhop.placed
        rw [List.any_cons, List.any_cons, hplaces.bodyStream, ih]
  rw [RequestArgs.afterSending, RequestArgs.afterSending, hany]
  split <;> rfl

theorem tokenRequest_same (hrsa : RsaAlike rt c.secret secret) (args : RequestArgs)
    (xs : List Exchange) : ∀ (st : ConsumerState) (path : Option Bytes) (o : CallOptions),
    (c.tokenRequest rt args xs st path o).Same
      (Hop.SameButSignature rt (c.mergeOptions (tokenRequestOptions o)).scheme)
      ((c.withSecret secret).tokenRequest rt (args.withSecret choose) xs st path o) := by
  induction xs generalizing args with
  | nil => exact fun st path o => ⟨rfl, .nil, rfl⟩
  | cons x xs ih =>
      intro st path o
      have hfirst := request_same choose hrsa st args path (tokenRequestOptions o) x
      have hsite : ∀ o p rsp, tokenStep (c.withSecret secret) o p rsp = tokenStep c o p rsp :=
        fun _ _ _ => rfl
      rw [Consumer.tokenRequest, Consumer.tokenRequest]
      simp only [hsite]
      generalize c.request rt st args path (tokenRequestOptions o) x = out at hfirst ⊢
      generalize (c.withSecret secret).request rt st (args.withSecret choose) path
        (tokenRequestOptions o) x = out' at hfirst ⊢
      obtain ⟨st₁, hops, result⟩ := out
      obtain ⟨st₁', hops', result'⟩ := out'
      obtain ⟨rfl, hhops, rfl⟩ := hfirst
      cases result with
      | waiting => exact ⟨rfl, hhops, rfl⟩
      | done r =>
          cases r with
          | error e => exact ⟨rfl, hhops, rfl⟩
          | ok rsp =>
              simp only
              cases hstep : tokenStep c o (path.getD []) rsp with
              | finish r => exact ⟨rfl, hhops, rfl⟩
              | follow next o' =>
                  simp only [afterSending_withSecret choose hhops]
                  obtain ⟨hstate, hrest, hresult⟩ := ih (args.afterSending hops) st₁ next o'
                  rw [mergeOptions_of_follow hstep] at hrest
                  exact ⟨hstate, List.rel_append hhops hrest, hresult⟩

theorem accessTokenRequest_same (hrsa : RsaAlike rt c.secret secret) (st : ConsumerState)
    (args : RequestArgs) (path : Bytes) (x : Exchange) :
    (accessTokenRequest rt c st args path x).Same (Hop.SameButSignature rt (c.mergeOptions {}).scheme)
      (accessTokenRequest rt (c.withSecret secret) st (args.withSecret choose) path x) := by
  have huri : ∀ st, (c.withSecret secret).uri st = c.uri st := fun _ => rfl
  have hset : ∀ st u, (c.withSecret secret).setUri st u = c.setUri st u := fun _ _ => rfl
  unfold accessTokenRequest
  simp only [huri, hset]
  cases parseUri path with
  | error e => exact .refl
  | ok u =>
      simp only
      cases c.uri st with
      | mk st₁ r =>
          cases r with
          | error e => exact .refl
          | ok site =>
              simp only
              split
              · cases c.setUri st₁ u with
                | mk st₂ r =>
                    cases r with
                    | error e =>
                        simp only
                        cases c.setUri st₂ site with
                        | mk st₃ r => cases r <;> exact .refl
                    | ok _ =>
                        simp only
                        obtain ⟨hstate, hhops, hresult⟩ :=
                          request_same choose hrsa st₂ args (some path) {} x
                        rw [hstate, hresult]
                        cases c.setUri ((c.withSecret secret).request rt st₂
                            (args.withSecret choose) (some path) {} x).state site with
                        | mk st₃ r =>
                            cases r with
                            | error e => exact ⟨rfl, hhops, rfl⟩
                            | ok _ => exact ⟨rfl, hhops, rfl⟩
              · exact request_same choose hrsa st₁ args (some path) {} x

/-! ## Runs -/

/-- The same operation, with any secrets in its tokens. -/
def Operation.SameButSecrets (op op' : Operation) : Prop :=
  ∃ choose : Token → Secret, op' = op.withSecret choose

theorem perform_same (hrsa : RsaAlike rt c.secret secret) (st : ConsumerState) (op : Operation)
    (choose : Token → Secret) :
    (op.perform rt c st).1 = ((op.withSecret choose).perform rt (c.withSecret secret) st).1 ∧
      List.Forall₂ (Hop.SameButSignature rt (op.scheme c)) (op.perform rt c st).2
        ((op.withSecret choose).perform rt (c.withSecret secret) st).2 ∧
      op.returned rt c st = (op.withSecret choose).returned rt (c.withSecret secret) st := by
  cases op with
  | request args path o x =>
      obtain ⟨hstate, hhops, hresult⟩ := request_same choose hrsa st args (some path) o x
      exact ⟨hstate, hhops, congrArg Returned.response hresult⟩
  | getRequestToken data headers o xs =>
      obtain ⟨hstate, hhops, hresult⟩ := tokenRequest_same choose hrsa
        ⟨c.options.httpMethod, none, data, headers⟩ xs st (some c.requestTokenEndpoint)
        (callbackOptions o)
      exact ⟨hstate, hhops, congrArg Returned.values hresult⟩
  | getAccessToken token data headers o xs =>
      obtain ⟨hstate, hhops, hresult⟩ := tokenRequest_same choose hrsa
        ⟨c.options.httpMethod, some token, data, headers⟩ xs st (some c.accessTokenEndpoint) o
      exact ⟨hstate, hhops, congrArg Returned.values hresult⟩
  | accessToken args path x =>
      obtain ⟨hstate, hhops, hresult⟩ := accessTokenRequest_same choose hrsa st args path x
      exact ⟨hstate, hhops, congrArg Returned.response hresult⟩

/-- What the operations of a run return or raise, in order. -/
def returnedBy (rt : Runtime) (c : Consumer) (st : ConsumerState) (ops : List Operation) :
    List Returned :=
  (Machine.run (fun st op => ((op.perform rt c st).1, [op.returned rt c st])) st ops).2

theorem returnedBy_same (hrsa : RsaAlike rt c.secret secret) (st : ConsumerState)
    {ops ops' : List Operation} (hops : List.Forall₂ Operation.SameButSecrets ops ops') :
    returnedBy rt c st ops = returnedBy rt (c.withSecret secret) st ops' := by
  rw [← List.forall₂_eq_eq_eq]
  refine (Machine.run_forall₂ (S := Eq) (I := Operation.SameButSecrets) (R := Eq) ?_ rfl hops).2
  rintro st₁ _ op _ rfl ⟨choose, rfl⟩
  obtain ⟨hstate, -, hreturned⟩ := perform_same hrsa st₁ op choose
  exact ⟨hstate, .cons hreturned .nil⟩

/-- **Secrets show in signatures only**: a run with another consumer secret and other token secrets goes
    through the same states, what it sends is the same up to the signatures, and its operations return the
    same and raise the same. -/
theorem run_sameButSignature (rt : Runtime) (c : Consumer) (secret : Secret)
    (hrsa : RsaAlike rt c.secret secret) (st : ConsumerState) (ops ops' : List Operation)
    (hops : List.Forall₂ Operation.SameButSecrets ops ops') :
    (Machine.run (consumerStep rt c) st ops).1
        = (Machine.run (consumerStep rt (c.withSecret secret)) st ops').1 ∧
      List.Forall₂ (fun sent sent' => Operation.SameButSecrets sent.1 sent'.1 ∧
          List.Forall₂ (Hop.SameButSignature rt (sent.1.scheme c)) sent.2 sent'.2)
        (Machine.run (consumerStep rt c) st ops).2
        (Machine.run (consumerStep rt (c.withSecret secret)) st ops').2 ∧
      returnedBy rt c st ops = returnedBy rt (c.withSecret secret) st ops' := by
  rw [← and_assoc]
  refine ⟨Machine.run_forall₂ (S := Eq) (I := Operation.SameButSecrets) ?_ rfl hops,
    returnedBy_same hrsa st hops⟩
  rintro st₁ _ op _ rfl ⟨choose, rfl⟩
  obtain ⟨hstate, hhops, -⟩ := perform_same hrsa st₁ op choose
  exact ⟨hstate, .cons ⟨⟨choose, rfl⟩, hhops⟩ .nil⟩

/-- An access token with one of two secrets. -/
def accessWith (secret : String) : Operation :=
  .accessToken { postArgs with token := some ⟨ascii "t", .str (ascii secret)⟩ } (ascii "/people")
    (answer "")

/-- A request token through a redirect, then a request with an access token. -/
def accessRun (secret : String) : List Operation :=
  [.getRequestToken .none [] {} [redirectTo "/moved", answer ""], accessWith secret]

theorem exampleConsumer_sameButSignature :
    (Machine.run (consumerStep echoRuntime exampleConsumer) {} (accessRun "s1")).1
        = (Machine.run (consumerStep echoRuntime (exampleConsumer.withSecret (.str (ascii "x")))) {}
            (accessRun "s2")).1 ∧
      List.Forall₂ (fun sent sent' => Operation.SameButSecrets sent.1 sent'.1 ∧
          List.Forall₂ (Hop.SameButSignature echoRuntime (sent.1.scheme exampleConsumer)) sent.2
            sent'.2)
        (Machine.run (consumerStep echoRuntime exampleConsumer) {} (accessRun "s1")).2
        (Machine.run (consumerStep echoRuntime (exampleConsumer.withSecret (.str (ascii "x")))) {}
          (accessRun "s2")).2 ∧
      returnedBy echoRuntime exampleConsumer {} (accessRun "s1")
        = returnedBy echoRuntime (exampleConsumer.withSecret (.str (ascii "x"))) {} (accessRun "s2") :=
  run_sameButSignature echoRuntime exampleConsumer (.str (ascii "x")) (fun _ => .error _) {} _ _
    (.cons ⟨Token.secret, rfl⟩ (.cons ⟨fun _ => .str (ascii "s2"), rfl⟩ .nil))

end RubyOAuth
