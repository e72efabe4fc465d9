import RubyOAuth.Lib.UriAppend
import RubyOAuth.Proofs.RedirectTarget

set_option autoImplicit false

/-! # Absolute URLs

A URL opens a connection of its own, and what is left of it passes `create_http_request`, which knows a
URL only by its host: on the host of a site with a path, that path is put in front of the URL's own. The
query that is asked for is the one `URI.parse` stores, where quotes and brackets are percent-encoded. -/

namespace RubyOAuth

open Bytes Uri

variable {rt : Runtime} {c : Consumer} {st : ConsumerState}

/-- The request goes to host and port of the URL, over TLS where it is `https`, and asks for its path
    and query as they are written. -/
def SentTo (u : Uri) (hop : Hop) : Prop :=
  hop.connection.address = u.host ∧ some hop.connection.port = u.effectivePort ∧
    hop.connection.useSsl = (u.scheme == some (ascii "https")) ∧ hop.target = u.pathQuery

instance (u : Uri) (hop : Hop) : Decidable (SentTo u hop) := by unfold SentTo; infer_instance

/-- The first request of an operation asks for the operation's path. -/
theorem first_of_perform {op : Operation} {hop : Hop} (h : (op.perform rt c st).2.head? = some hop) :
    ∃ st' args o x, hop ∈ (c.request rt st' args (some (op.path c)) o x).hops := by
  -- a token request begins with one request for its path
  have htoken : ∀ (args : RequestArgs) (xs : List Exchange) (path : Bytes) (o : CallOptions),
      (c.tokenRequest rt args xs st (some path) o).hops.head? = some hop →
      ∃ st' args o x, hop ∈ (c.request rt st' args (some path) o x).hops := by
    intro args xs path o h
    cases xs with
    | nil => simp [Consumer.tokenRequest] at h
    | cons x xs =>
        refine ⟨st, args, tokenRequestOptions o, x, ?_⟩
        rcases tokenRequest_cons_cases rt c args x xs st (some path) o with
          ⟨result, heq⟩ | ⟨p, rsp, next, o', args', -, hok, -, -, heq⟩
        · rw [heq] at h
          exact List.mem_of_head? h
        · rw [heq] at h
          rcases request_cases rt c st args (some path) (tokenRequestOptions o) x with
            ⟨st', e, hr⟩ | ⟨st', sent, r, hr, -⟩
          · simp [hr] at hok
          · simp only [hr, List.cons_append, List.head?_cons, Option.some.injEq] at h
            simp [hr, h]
  cases op with
  | request args path o x => exact ⟨st, args, o, x, List.mem_of_head? h⟩
  | getRequestToken data headers o xs => exact htoken _ _ _ _ h
  | getAccessToken token data headers o xs => exact htoken _ _ _ _ h
  | accessToken args path x =>
      rw [Operation.perform] at h
      rcases accessTokenRequest_cases rt c st args path x with
        ⟨e, -, heq⟩ | ⟨u, st', site, -, -, ⟨-, heq⟩ | ⟨-, e, -, heq⟩ | ⟨-, conn, -, heq⟩⟩
      · simp [heq] at h
      · rw [heq] at h
        exact ⟨st', args, {}, x, List.mem_of_head? h⟩
      · simp [heq] at h
      · rw [heq] at h
        exact ⟨⟨some conn, some u⟩, args, {}, x, List.mem_of_head? h⟩

/-- The target is the path and query as they are written where nothing is put in front of them, and the
    query is written as it is stored. -/
theorem prefixPath_store_eq_iff {u : Uri} (hu : u.Valid) (hhost : u.host.isSome = true) {site : Uri}
    (hsite : site.Valid) {conn : Connection} (haddress : conn.address = u.host) :
    prefixPath site conn u.store.pathQuery = u.pathQuery ↔ NoPrefix site u.host ∧ u.QueryStored := by
  by_cases hfree : NoPrefix site u.host
  · rw [prefixPath_of_noPrefix (by rw [haddress]; exact hfree), and_iff_right hfree]
    refine ⟨fun h => ?_, fun h => by rw [h.store_eq]⟩
    -- the query stands behind the question mark in both texts
    have hquery : u.store.query = u.query := by
      rw [← (components_of_pathQuery (valid_store hu)).2, h, (components_of_pathQuery hu).2]
    have hstore : u.store = u := by
      cases u
      simpa [store] using hquery
    exact (store_eq_iff.1 hstore).resolve_left (by simp [isOpaque_of_host hu hhost])
  · refine iff_of_false (fun h => ?_) (fun h => hfree h.1)
    simp only [NoPrefix, not_or, ne_eq, not_not] at hfree
    obtain ⟨hplain, hnil, hslash, hsame⟩ := hfree
    rw [prefixPath, if_pos ⟨by simpa using hplain, hslash, by rw [hsame, haddress]⟩] at h
    have hpath : site.path ++ u.path = u.path := by
      have hfront := congrArg front h
      rwa [(front_append_path hsite _).1, (components_of_pathQuery (valid_store hu)).1,
        (components_of_pathQuery hu).1] at hfront
    exact hnil (List.append_left_eq_self.1 hpath)

end RubyOAuth
