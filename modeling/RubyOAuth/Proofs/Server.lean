import RubyOAuth.Lib.UriAppend
import RubyOAuth.Model.Server
import RubyOAuth.Proofs.AbsoluteUrls
import RubyOAuth.Proofs.SentHops

set_option autoImplicit false

/-! # Generated credentials and a server's consumers

A key is made of letters and digits, so no encoding on the way changes it, and the sizes the library
draws leave an incomplete group of bytes, so it is never empty. A consumer that a server creates asks
for tokens where the server says, unless the server's base URL ends in a slash. -/

namespace RubyOAuth

open Bytes Uri

variable {size : Nat} {rt : Runtime} {c : Consumer} {st : ConsumerState}

/-! ## Keys -/

theorem isAlnum_of_mem_generateKey {random : RandomBytes size} {b : UInt8}
    (h : b ∈ generateKey random) : isAlnum b = true := by
  obtain ⟨hmem, hword⟩ := List.mem_filter.1 h
  rcases Base64.mem_encodeLines hmem with halnum | rfl | rfl | rfl | rfl
  · exact halnum
  · exact absurd hword (by decide)
  · exact absurd hword (by decide)
  · exact absurd hword (by decide)
  · exact absurd hword (by decide)

/-- Whole groups of bytes may all be written with `+` and `/`; an incomplete one may not. -/
theorem generateKey_ne_nil (hsize : size % 3 ≠ 0) (random : RandomBytes size) :
    generateKey random ≠ [] := by
  have hlength : random.1.length % 3 ≠ 0 := by
    rw [random.2]
    exact hsize
  obtain ⟨b, hb, halnum⟩ : ∃ b ∈ Base64.encode64 random.1, isAlnum b = true :=
    Base64.exists_isAlnum_encodeLines hlength
  refine List.ne_nil_of_mem (a := b) (List.mem_filter.2 ⟨hb, ?_⟩)
  rw [isWordChar, halnum, Bool.true_or]

example : generateKey (⟨[0xfb, 0xef, 0xbe], rfl⟩ : RandomBytes 3) = [] := by decide

theorem escapeBytes_of_alnum {s : Bytes} (h : ∀ b ∈ s, isAlnum b = true) : escapeBytes s = s := by
  refine PercentCode.encode_of_forall_safe fun b hb => ?_
  simp [reservedCharacter, h b hb]

/-! ## Nonces over a run -/

/-- The operation fixes neither nonce nor timestamp: both are drawn for each request. -/
structure Operation.Draws (op : Operation) : Prop where
  nonce : op.signingOptions.nonce = none
  timestamp : op.signingOptions.timestamp = none
  drawn : ∀ x ∈ op.exchanges, ∃ random seconds, x.generated = .draw random seconds

theorem Operation.Draws.generates {op : Operation} (h : op.Draws) : op.Generates := by
  refine ⟨h.nonce, h.timestamp, fun x hx => ?_⟩
  obtain ⟨random, seconds, hdraw⟩ := h.drawn x hx
  rw [hdraw]
  exact ⟨generateKey_ne_nil (by decide) random, decimal_ne_nil seconds⟩

/-- The request shows the nonce and the timestamp that were drawn: neither is empty, and no encoding
    changes one. -/
def ShowsDrawn (c : Consumer) (op : Operation) (hop : Hop) (random : RandomBytes 32) (seconds : Nat) :
    Prop :=
  ∀ e ∈ [(ascii "oauth_nonce", generateKey random),
      (ascii "oauth_timestamp", generateTimestamp seconds)],
    e.2 ≠ [] ∧ escapeBytes e.2 = e.2 ∧
      (hop.unsigned.LeavesRoom (op.scheme c) e.1 → hop.request.Shows (op.scheme c) e.1 e.2)

/-- **Every request of a run shows the nonce and the timestamp drawn for it**, whatever bytes were drawn
    at whatever time: those of the exchange at its own place in the call. They are not empty, and stand
    on the wire as they were made. -/
theorem sentCalls_drawn (rt : Runtime) (c : Consumer) (st : ConsumerState) (ops : List Operation)
    (hdraws : ∀ op ∈ ops, op.Draws) :
    ∀ call ∈ sentCalls rt c st ops, ∀ (i : Nat) (hop : Hop), call.2[i]? = some hop →
      ∃ x random seconds, call.1.exchanges[i]? = some x ∧ x.generated = .draw random seconds ∧
        ShowsDrawn c call.1 hop random seconds := by
  intro call hcall i hop hi
  obtain ⟨hop', horder⟩ := sentCalls_inOrder rt c st ops call hcall
  obtain ⟨x, p, hx, -, hsent⟩ := horder i hop hi
  have hmem := List.mem_of_getElem? hx
  obtain ⟨random, seconds, hdraw⟩ := (hdraws call.1 hop').drawn x hmem
  obtain ⟨hnonce, htimestamp⟩ := (hdraws call.1 hop').generates.generated x hmem
  have hshows := showsGenerated_of_sentFor (hdraws call.1 hop').generates hmem hsent
  rw [hdraw] at hnonce htimestamp
  rw [ShowsGenerated, hdraw] at hshows
  refine ⟨x, random, seconds, hx, hdraw, fun e he => ⟨?_, ?_, hshows e he⟩⟩
  · rcases List.mem_pair.1 he with rfl | rfl
    · exact hnonce
    · exact htimestamp
  · rcases List.mem_pair.1 he with rfl | rfl
    · exact escapeBytes_of_alnum fun b hb => isAlnum_of_mem_generateKey hb
    · refine escapeBytes_of_alnum fun b hb => ?_
      rw [isAlnum, isDigit_decimal hb, Bool.or_true]

/-- A token request that is redirected once, each request with a nonce drawn for it. -/
def drawnOperations : List Operation :=
  [.getRequestToken .none [] {}
    [{ redirectTo "/moved" with generated := .draw ⟨List.replicate 32 7, rfl⟩ 1700000000 },
      { answer "" with generated := .draw ⟨List.replicate 32 8, rfl⟩ 1700000001 }]]

theorem drawnOperations_shown :
    (sentCalls echoRuntime exampleConsumer {} drawnOperations).map (·.2.length) = [2] ∧
      ∀ call ∈ sentCalls echoRuntime exampleConsumer {} drawnOperations, ∀ (i : Nat) (hop : Hop),
        call.2[i]? = some hop → ∃ x random seconds, call.1.exchanges[i]? = some x ∧
          x.generated = .draw random seconds ∧
          ShowsDrawn exampleConsumer call.1 hop random seconds := by
  refine ⟨by decide +kernel,
    sentCalls_drawn echoRuntime exampleConsumer {} drawnOperations fun op hop => ?_⟩
  obtain rfl := List.mem_singleton.1 hop
  refine ⟨rfl, rfl, fun x hx => ?_⟩
  rcases List.mem_pair.1 hx with rfl | rfl
  · exact ⟨_, _, rfl⟩
  · exact ⟨_, _, rfl⟩

/-! ## A server's consumers -/

/-- The first request of a token request asks for its path. -/
theorem mem_of_head_tokenRequest {args : RequestArgs} {xs : List Exchange} {path : Bytes}
    {o : CallOptions} {hop : Hop}
    (h : (c.tokenRequest rt args xs st (some path) o).hops.head? = some hop) :
    ∃ x, hop ∈ (c.request rt st args (some path) (tokenRequestOptions o) x).hops := by
  cases xs with
  | nil => simp [Consumer.tokenRequest] at h
  | cons x xs =>
      refine ⟨x, ?_⟩
      rcases tokenRequest_cons_cases rt c args x xs st (some path) o with
        ⟨result, heq⟩ | ⟨p, rsp, next, o', args', -, hok, -, -, heq⟩
      · rw [heq] at h
        exact List.mem_of_head? h
      · rw [heq] at h
        rcases request_cases rt c st args (some path) (tokenRequestOptions o) x with
          ⟨st', e, hr⟩ | ⟨st', sent, r, hr, -⟩
        · simp [hr] at hok
        · simp only [hr, List.cons_append, List.head?_cons, Option.some.injEq] at h
          simp [hr, h]

/-- The request contacts the URL: its origin, its path, and its query as `URI.parse` stores one. -/
def Hop.Contacts (hop : Hop) (u : Uri) : Prop :=
  hop.contacted.SameOrigin u ∧ hop.contacted.path = u.path ∧
    hop.contacted.query.map storeQuery = u.query

section Base

variable {base w : Uri} {path : Bytes} (hsite : parseUri c.site = .ok base) (habs : AbsoluteHttp base)
  (hquery : base.query = none) (hfragment : base.fragment = none)
  (hend : c.options.requestEndpoint = none) (hrooted : path.head? = some slash)
  (hw : parseUri (c.site ++ path) = .ok w)

include hsite habs hquery hfragment hend hrooted hw

/-- A path asked for on the connection to the site reaches the URL of site and path, unless the site's
    own path is a slash, which is left out. -/
theorem contacts_iff {args : RequestArgs} {o : CallOptions} {x : Exchange} {hop : Hop}
    (hhop : hop ∈ (c.request rt {} args (some path) o x).hops) :
    hop.Contacts w ↔ base.path ≠ [slash] := by
  have hline := hasSlashLine_of_head? hrooted
  have hvalid := valid_of_parseUri hsite
  obtain ⟨p, hp, hconn, hcreated, -⟩ := hop_of_request hhop
  rw [requestedPath, if_pos hline, Except.ok.injEq] at hp
  subst hp
  have hconnection : createHttp c none = .ok hop.connection := by
    rw [chosenConnection, if_pos hline] at hconn
    rcases http_cases c {} with ⟨conn, hno, -⟩ | ⟨conn, -, hmade, hh⟩ | ⟨e, -, -, hh⟩
    · simp at hno
    · rw [hh, Except.ok.injEq] at hconn
      exact hconn ▸ hmade
    · simp [hh] at hconn
  obtain ⟨u, hu, haddress, hport, hssl⟩ := createHttp_eq_ok hconnection
  obtain rfl : base = u := Except.ok.inj ((connectionUri_none hsite hend).symm.trans hu)
  have htarget : hop.target = prefixPath base hop.connection path :=
    path_of_createHttpRequest hsite hcreated
  obtain ⟨scheme, d, hscheme, hd, -⟩ := defaultPort_of_absoluteHttp habs
  have hmeant := parse_append (parseUri_eq_ok.1 hsite) (by simp [hscheme]) habs.2 hquery hfragment
    hrooted (parseUri_eq_ok.1 hw)
  have horigin : hop.contacted.SameOrigin w := by
    have hports : hop.contacted.effectivePort = base.effectivePort := by
      rw [effectivePort_of_defaultPort hscheme hd, Option.getD_some] at hport
      rw [effectivePort_of_defaultPort hscheme hd, ← hport]
      rfl
    rw [hmeant]
    exact ⟨(useSsl_iff habs _ _).2 hssl, by rw [← haddress]; rfl, hports⟩
  rw [Hop.Contacts, and_iff_right horigin, Hop.contacted, hmeant, htarget, prefixPath]
  by_cases hslash : base.path = [slash]
  · rw [if_neg (fun h => h.2.1 hslash)]
    refine iff_of_false (fun h => ?_) (fun h => h hslash)
    have hlength := congrArg List.length h.1
    simp [contactedUri, hslash] at hlength
  · rw [if_pos ⟨isOpaque_of_host hvalid habs.2, hslash, haddress.symm⟩]
    obtain ⟨hfront, hpart⟩ := front_append_path hvalid path
    exact iff_of_true ⟨hfront, congrArg (Option.map storeQuery) hpart⟩ hslash

end Base

/-- A server below a path of its host. -/
def exampleServer : Server where
  baseUrl := ascii "http://example.com/api"

theorem exampleServer_base :
    parseUri exampleServer.baseUrl = .ok { exampleSite with path := ascii "/api" } := by
  decide +kernel

theorem exampleServer_requestTokenUrl : parseUri exampleServer.requestTokenUrl
    = .ok { exampleSite with path := ascii "/api/oauth/request_token" } := by
  decide +kernel

theorem exampleServer_accessTokenUrl : parseUri exampleServer.accessTokenUrl
    = .ok { exampleSite with path := ascii "/api/oauth/access_token" } := by
  decide +kernel

end RubyOAuth
