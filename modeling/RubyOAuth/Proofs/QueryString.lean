import RubyOAuth.Proofs.HeaderRoundTrip
import RubyOAuth.Proofs.Normalize
import RubyOAuth.Proofs.SignedUrl

set_option autoImplicit false

/-! # The query-string scheme

The OAuth parameters go to the end of the query, and the signature after them. Assigning a query
encodes what the URI class takes for unsafe, which `CGI.parse` undoes; so the request that is signed and
the one that is sent have the same fields but for the signature. -/

namespace RubyOAuth

open Bytes Uri

variable {rt : Runtime}

/-! ## Queries that are assigned -/

theorem cgiUnescape_encode {s : Bytes} (h : space ∉ s) :
    cgiUnescape (PercentCode.encode isAssignedQueryChar s) = cgiUnescape s := by
  -- a `+` is turned into a space on both sides of the encoding
  have hmap : (PercentCode.encode isAssignedQueryChar s).map (fun b => if b = plus then space else b)
      = PercentCode.encode (fun b => isAssignedQueryChar b || b == space)
          (s.map (fun b => if b = plus then space else b)) := by
    induction s with
    | nil => rfl
    | cons b t ih =>
        rw [List.mem_cons, not_or] at h
        have hbyte : ∀ c : UInt8, space ≠ c →
            (PercentCode.encodeByte isAssignedQueryChar c).map (fun b => if b = plus then space else b)
              = PercentCode.encodeByte (fun b => isAssignedQueryChar b || b == space)
                  (if c = plus then space else c) := by
          decide +kernel
        rw [PercentCode.encode_cons, List.map_append, ih h.2, hbyte b h.1, List.map_cons,
          PercentCode.encode_cons]
  rw [cgiUnescape, hmap, PercentCode.decode_encode_of_safe (by decide) (by decide +kernel), cgiUnescape]

theorem not_sep_of_mem_encode {s : Bytes} (h : ∀ b ∈ s, (b == ampersand || b == semicolon) = false) :
    ∀ b ∈ PercentCode.encode isAssignedQueryChar s, (b == ampersand || b == semicolon) = false := by
  intro b hb
  obtain ⟨c, hc, hbc⟩ := List.mem_flatMap.1 hb
  have hdigit : ∀ d, PercentCode.isUpperHex d = true → (d == ampersand || d == semicolon) = false := by
    grind [PercentCode.isUpperHex, isDigit]
  rw [PercentCode.encodeByte] at hbc
  split at hbc
  · rw [List.mem_singleton] at hbc
    rw [hbc]
    exact h c hc
  · obtain ⟨h1, h2⟩ := PercentCode.isUpperHex_hexDigit c
    simp only [PercentCode.escapeByte, List.mem_cons, List.not_mem_nil, or_false] at hbc
    rcases hbc with rfl | rfl | rfl
    · decide
    · exact hdigit _ h1
    · exact hdigit _ h2

/-- **Assigning a query keeps its fields.** -/
theorem cgiFields_encode {s : Bytes} (h : space ∉ s) :
    cgiFields (PercentCode.encode isAssignedQueryChar s) = cgiFields s := by
  induction hn : s.length using Nat.strong_induction_on generalizing s with
  | _ n ih =>
      cases hfind : s.find? (fun b => b == ampersand || b == semicolon) with
      | none =>
          have hs : ∀ b ∈ s, (b == ampersand || b == semicolon) = false := by
            intro b hb
            simpa using List.find?_eq_none.1 hfind b hb
          by_cases hne : s = []
          · subst hne
            rfl
          · have hne' : PercentCode.encode isAssignedQueryChar s ≠ [] := by
              obtain ⟨b, t, rfl⟩ := List.exists_cons_of_ne_nil hne
              rw [PercentCode.encode_cons, PercentCode.encodeByte]
              split <;> simp [PercentCode.escapeByte]
            have hname : space ∉ (cut equal s).1 := fun hm => h (mem_of_mem_cut_fst hm)
            rw [cgiFields_of_not_sep hs hne, cgiFields_of_not_sep (not_sep_of_mem_encode hs) hne',
              cgiField, cgiField, PercentCode.cut_encode (by decide) (by decide) (by decide),
              cgiUnescape_encode hname]
            cases hvalue : (cut equal s).2 with
            | none => rfl
            | some v =>
                have hv : space ∉ v := fun hm => h (mem_of_mem_cut_snd hvalue hm)
                rw [Option.map_some, Option.map_some, Option.map_some, cgiUnescape_encode hv]
      | some b =>
          -- the first separator is kept
          obtain ⟨hb, x, y, rfl, -⟩ := List.find?_eq_some_iff_append.1 hfind
          have hsafe : isAssignedQueryChar b = true := by
            rw [Bool.or_eq_true, beq_iff_eq, beq_iff_eq] at hb
            rcases hb with rfl | rfl
            · decide
            · decide
          rw [List.mem_append, List.mem_cons, not_or, not_or] at h
          have hlen := hn
          rw [List.length_append, List.length_cons] at hlen
          rw [PercentCode.encode_append, PercentCode.encode_of_safe hsafe, cgiFields_append_sep hb,
            cgiFields_append_sep hb, ih x.length (by omega) h.1 rfl, ih y.length (by omega) h.2.2 rfl]

theorem cgiFields_storeQuery {s : Bytes} (h : space ∉ s) : cgiFields (storeQuery s) = cgiFields s :=
  cgiFields_encode h

/-- A query of query characters is assigned in full. -/
theorem setQuery_of_isQueryChar {u : Uri} (hu : u.isOpaque = false) {q : Bytes}
    (hq : ∀ b ∈ q, isQueryChar b = true) :
    setQuery u q = .ok { u with query := some (storeQuery q) } := by
  have hkept : q.filter (fun b => b != 9 && b != newline && b != 13) = q := by
    have hall : ∀ b, isQueryChar b = true → (b != 9 && b != newline && b != 13) = true := by
      intro b hb
      simp only [Bool.and_eq_true, bne_iff_ne]
      refine ⟨⟨?_, ?_⟩, ?_⟩ <;> rintro rfl <;> exact absurd hb (by decide)
    exact List.filter_eq_self.2 fun b hb => hall b (hq b hb)
  rw [setQuery, hu, if_neg Bool.false_ne_true]
  simp only [hkept]

/-! ## The parameters in the query -/

/-- `oauth_params_str`. -/
def oauthQuery (rt : Runtime) (params : Params) : Bytes :=
  joinWith ampersand (params.entries.map (fun e => escapeBytes e.1 ++ equal :: escape rt e.2))

/-- The query with the parameters at its end. -/
def extendedQuery (rt : Runtime) (query : Bytes) (params : Params) : Bytes :=
  if query = [] then oauthQuery rt params else query ++ ampersand :: oauthQuery rt params

theorem cgiFields_oauthQuery (rt : Runtime) (params : Params) :
    cgiFields (oauthQuery rt params) = params.entries.map (fun e => (e.1, some (e.2.toS rt))) := by
  rw [oauthQuery, cgiFields_joinWith, List.flatMap_map]
  induction params.entries with
  | nil => rfl
  | cons e rest ih =>
      have hone : cgiFields (escapeBytes e.1 ++ equal :: escape rt e.2) = [(e.1, some (e.2.toS rt))] :=
        cgiFields_segment e.1 (e.2.toS rt)
      rw [List.flatMap_cons, List.map_cons, ih, hone]
      rfl

theorem cgiFields_extendedQuery (rt : Runtime) (query : Bytes) (params : Params) :
    cgiFields (extendedQuery rt query params)
      = cgiFields query ++ params.entries.map (fun e => (e.1, some (e.2.toS rt))) := by
  rw [extendedQuery]
  split
  · next h =>
      subst h
      rw [cgiFields_oauthQuery]
      rfl
  · rw [cgiFields_append_sep (by decide), cgiFields_oauthQuery]

theorem isAssignedQueryChar_of_mem_segment {n w : Bytes} :
    ∀ b ∈ segment n w, isAssignedQueryChar b = true := by
  have hescaped : ∀ b, (reservedCharacter b = false ∨ b = percent) → isAssignedQueryChar b = true := by
    decide +kernel
  intro b hb
  rw [segment, List.mem_append, List.mem_cons] at hb
  rcases hb with hb | rfl | hb
  · exact hescaped b (mem_escapeBytes hb)
  · decide
  · exact hescaped b (mem_escapeBytes hb)

theorem isQueryChar_of_mem_extendedQuery {query : Bytes} (hq : ∀ b ∈ query, isQueryChar b = true)
    (params : Params) : ∀ b ∈ extendedQuery rt query params, isQueryChar b = true := by
  have hparams : ∀ b ∈ oauthQuery rt params, isQueryChar b = true := by
    intro b hb
    rcases mem_joinWith hb with rfl | ⟨t, ht, hb⟩
    · decide
    · obtain ⟨e, -, rfl⟩ := List.mem_map.1 ht
      exact isQueryChar_of_assigned (isAssignedQueryChar_of_mem_segment b hb)
  rw [extendedQuery]
  intro b hb
  split at hb
  · exact hparams b hb
  · rw [List.mem_append, List.mem_cons] at hb
    rcases hb with hb | rfl | hb
    · exact hq b hb
    · decide
    · exact hparams b hb

/-! ## The request line -/

theorem print_append {u : Uri} (hf : u.fragment = none) (q t : Bytes) :
    ({ u with query := some q } : Uri).print ++ t = ({ u with query := some (q ++ t) } : Uri).print := by
  simp [print, uncut, hf, printHierarchy, printAuthority]

/-- A printed URI reads back with the query that was assigned. -/
theorem parseUri_parsedToS {u : Uri} (hu : u.Valid) {q : Bytes}
    (hq : ∀ b ∈ q, isAssignedQueryChar b = true) :
    parseUri (parsedToS { u with query := some q })
      = .ok { withoutDefaultPort u with query := some q } ∧
    parsedToS { u with query := some q } = ({ withoutDefaultPort u with query := some q } : Uri).print := by
  have hv := valid_withoutDefaultPort hu
  have hprint : parsedToS { u with query := some q }
      = ({ withoutDefaultPort u with query := some q } : Uri).print := by
    have hstart : ({ withoutDefaultPort u with query := some q } : Uri).validPathStart = true :=
      hv.2.2.2.2.2.1
    exact uriToS_of_validPathStart hstart
  have hvalid : ({ withoutDefaultPort u with query := some q } : Uri).Valid := by
    obtain ⟨h1, h2, h3, h4, h5, h6, -, h8⟩ := hv
    refine ⟨h1, h2, h3, h4, h5, h6, fun x hx => ?_, h8⟩
    rw [← Option.some.inj hx, List.all_eq_true]
    exact fun b hb => isQueryChar_of_assigned (hq b hb)
  have hstored : ({ withoutDefaultPort u with query := some q } : Uri).store
      = { withoutDefaultPort u with query := some q } := by
    refine store_eq_iff.2 (.inr fun x hx => ?_)
    rw [← Option.some.inj hx]
    exact storeQuery_of_assigned hq
  refine ⟨?_, hprint⟩
  rw [hprint, parseUri_eq_ok]
  exact parse_print_of_store hvalid hstored

/-- Without a fragment, text that is put after the URI is put after its query. -/
theorem parsedToS_append {u : Uri} (hu : u.Valid) (hf : u.fragment = none) {q t : Bytes}
    (hq : ∀ b ∈ q ++ t, isAssignedQueryChar b = true) :
    parsedToS { u with query := some q } ++ t = parsedToS { u with query := some (q ++ t) } := by
  have hq' : ∀ b ∈ q, isAssignedQueryChar b = true := fun b hb => hq b (List.mem_append_left t hb)
  rw [(parseUri_parsedToS hu hq').2, (parseUri_parsedToS hu hq).2]
  exact print_append (u := withoutDefaultPort u) hf q t

/-- The query of a request whose path is a printed URI. -/
theorem queryParams_parsedToS {u : Uri} (hu : u.Valid) (hnot : u.isOpaque = false) {q : Bytes}
    (hq : ∀ b ∈ q, isAssignedQueryChar b = true) (r : HttpRequest) :
    ({ r with path := parsedToS { u with query := some q } } : HttpRequest).queryParams
      = .ok (some q) := by
  have hhierarchy : ({ withoutDefaultPort u with query := some q } : Uri).isOpaque = false := hnot
  rw [HttpRequest.queryParams, (parseUri_parsedToS hu hq).1, Except.ok_bind, hhierarchy,
    if_neg Bool.false_ne_true]

/-! ## The request that is signed and the request that is sent -/

/-- The request that `set_oauth_query_string` signs: the parameters at the end of the query. -/
def ClientHelper.queryRequest (rt : Runtime) (h : ClientHelper) : Except RubyError HttpRequest := do
  let uri ← parseUri h.request.path
  let uri ← setQuery uri (extendedQuery rt (uri.query.getD []) h.oauthParameters)
  .ok { h.request with path := parsedToS uri }

/-- What is signed has the fields of the request in its query, then the parameters. -/
theorem ClientHelper.queryRequest_eq_ok {h : ClientHelper} {first : HttpRequest}
    (hfirst : h.queryRequest rt = .ok first) :
    ∃ old query, parseUri h.request.path = .ok old ∧ h.request.queryParams = .ok old.query ∧
      old.isOpaque = false ∧ (∀ b ∈ query, isAssignedQueryChar b = true) ∧
      first = { h.request with path := parsedToS { old with query := some query } } ∧
      first.queryParams = .ok (some query) ∧
      cgiFields query = old.query.toList.flatMap cgiFields ++
        h.oauthParameters.entries.map (fun e => (e.1, some (e.2.toS rt))) := by
  rw [ClientHelper.queryRequest, Except.bind_eq_ok] at hfirst
  obtain ⟨old, hold, hfirst⟩ := hfirst
  obtain ⟨new, hnew, hfirst⟩ := Except.bind_eq_ok.1 hfirst
  have hplain : old.isOpaque = false := by
    by_contra hc
    rw [setQuery, if_pos (Bool.not_eq_false _ ▸ hc)] at hnew
    simp at hnew
  have hvalid := valid_of_parseUri hold
  have hown : h.request.queryParams = .ok old.query := by
    rw [HttpRequest.queryParams, hold, Except.ok_bind, hplain, if_neg Bool.false_ne_true]
  have hold' : ∀ b ∈ old.query.getD [], isQueryChar b = true := by
    intro b hb
    cases hq : old.query with
    | none => simp [hq] at hb
    | some q =>
        rw [hq, Option.getD_some] at hb
        exact List.all_eq_true.1 (hvalid.2.2.2.2.2.2.1 q hq) b hb
  have hoptional := flatMap_cgiFields_toList old.query
  have hchars : ∀ b ∈ extendedQuery rt (old.query.getD []) h.oauthParameters,
      isQueryChar b = true := isQueryChar_of_mem_extendedQuery hold' h.oauthParameters
  have hspace : space ∉ extendedQuery rt (old.query.getD []) h.oauthParameters :=
    fun hm => absurd (hchars space hm) (by decide)
  rw [setQuery_of_isQueryChar hplain hchars, Except.ok.injEq] at hnew
  subst hnew
  refine ⟨old, _, hold, hown, hplain, isAssignedQueryChar_of_mem_storeQuery,
    (Except.ok.inj hfirst).symm, ?_, ?_⟩
  · rw [← Except.ok.inj hfirst]
    exact queryParams_parsedToS hvalid hplain isAssignedQueryChar_of_mem_storeQuery h.request
  · rw [cgiFields_storeQuery hspace, cgiFields_extendedQuery, hoptional]

/-- The scheme signs that request, then puts the signature at the end of the path. -/
theorem setOauthQueryString_eq_ok {helper : ClientHelper} {signed : HttpRequest} :
    setOauthQueryString rt helper = .ok signed ↔ ∃ first s, helper.queryRequest rt = .ok first ∧
      helper.plainSignature rt first = .ok s ∧
      signed = { first with
        path := first.path ++ ampersand :: segment (ascii "oauth_signature") s } := by
  have hsuffix : ∀ s path, path ++ ascii "&oauth_signature=" ++ escapeBytes s
      = path ++ ampersand :: segment (ascii "oauth_signature") s := by
    intro s path
    have hname : ascii "&oauth_signature=" = ampersand :: (escapeBytes (ascii "oauth_signature") ++
        [equal]) := by decide
    rw [hname, segment]
    simp
  rw [setOauthQueryString]
  simp only [hsuffix]
  constructor
  · intro h
    obtain ⟨old, hold, h⟩ := Except.bind_eq_ok.1 h
    obtain ⟨new, hnew, h⟩ := Except.bind_eq_ok.1 h
    obtain ⟨s, hs, h⟩ := Except.bind_eq_ok.1 h
    exact ⟨_, s, Except.bind_eq_ok.2 ⟨old, hold, Except.bind_eq_ok.2 ⟨new, hnew, rfl⟩⟩, hs,
      (Except.ok.inj h).symm⟩
  · rintro ⟨first, s, hfirst, hs, rfl⟩
    obtain ⟨old, hold, hfirst⟩ := Except.bind_eq_ok.1 hfirst
    obtain ⟨new, hnew, hfirst⟩ := Except.bind_eq_ok.1 hfirst
    rw [← Except.ok.inj hfirst] at hs ⊢
    exact Except.bind_eq_ok.2 ⟨old, hold, Except.bind_eq_ok.2 ⟨new, hnew,
      Except.bind_eq_ok.2 ⟨s, hs, rfl⟩⟩⟩

/-! ## Verifying what is sent -/

/-- One more field leaves what is collected under other names. -/
theorem lookup_collected_concat {pre post : List (Bytes × Option Bytes)} {q q' n : Bytes}
    {v : Option Bytes} (hq : cgiFields q = pre ++ post) (hq' : cgiFields q' = pre ++ [(n, v)] ++ post)
    {k : Bytes} (hk : k ≠ n) :
    fieldValues k (cgiFields q) = fieldValues k (cgiFields q') ∧
      (k ∈ (cgiFields q).map Prod.fst ↔ k ∈ (cgiFields q').map Prod.fst) := by
  have hone : k ∉ [(n, v)].map Prod.fst := by
    simpa using hk
  rw [hq, hq']
  constructor
  · rw [fieldValues_append, fieldValues_append, fieldValues_append, fieldValues_of_not_mem hone,
      List.append_nil]
  · simp only [List.map_append, List.mem_append, hone, or_false]

/-- Fields made from a hash have its values. -/
theorem fieldValues_entries (rt : Runtime) (params : Params) (k : Bytes) :
    fieldValues k (params.entries.map (fun e => (e.1, some (e.2.toS rt))))
      = ((params.lookup k).map (fun v => v.toS rt)).toList := by
  have hname : ∀ e : Bytes × Value, ∀ x ∈ [(e.1, some (e.2.toS rt))], x.1 = e.1 := by
    intro e x hx
    rw [List.mem_singleton.1 hx]
  rw [fieldValues, List.map_eq_flatMap, OrderedHash.valuesOf_flatMap hname params.nodup,
    OrderedHash.lookup]
  cases OrderedHash.findEntry k params.entries <;> rfl

/-- An accessor gives the first value of the fields under its name. -/
theorem oauthParameter_of_fieldValues {r : HttpRequest} {o : SignatureOptions} {q : Bytes}
    (hq : r.queryString = .ok q) (hc : o.clobberRequest = false) (hp : o.parameters = none)
    {name : String} {s : Bytes} {rest : List Bytes}
    (h : fieldValues (ascii name) (cgiFields q) = s :: rest) :
    (r.proxy o).oauthParameter name = .ok (.str s) := by
  have hmem : ascii name ∈ (cgiFields q).map Prod.fst := by
    by_contra hn
    rw [fieldValues_of_not_mem hn] at h
    exact absurd h (List.cons_ne_nil s rest).symm
  rw [Proxy.oauthParameter, parameters_of_queryString hq hc, Except.ok_bind, hp, Option.getD_none,
    lookup_collected_empty, if_pos hmem, h]
  rfl

/-- The base string reads no more of the fields than those under signed names. -/
theorem signatureBaseString_congr {r r' : HttpRequest} {o : SignatureOptions} {q q' : Bytes}
    (hmethod : r.method = r'.method) (hq : r.queryString = .ok q) (hq' : r'.queryString = .ok q')
    (hc : o.clobberRequest = false)
    (h : ∀ k, (r.proxy o).isSigned k = true → fieldValues k (cgiFields q) = fieldValues k (cgiFields q') ∧
      (k ∈ (cgiFields q).map Prod.fst ↔ k ∈ (cgiFields q').map Prod.fst)) :
    (r.proxy o).signatureBaseString rt = (r'.proxy o).signatureBaseString rt := by
  have hnormal : (r.proxy o).normalizedParameters rt = (r'.proxy o).normalizedParameters rt := by
    rw [Proxy.normalizedParameters, Proxy.normalizedParameters, Proxy.parametersForSignature,
      Proxy.parametersForSignature, parameters_of_queryString hq hc, parameters_of_queryString hq' hc]
    refine normalize_congr rt fun k => ?_
    have hsigned : (r'.proxy o).isSigned = (r.proxy o).isSigned := rfl
    rw [OrderedHash.lookup_select, OrderedHash.lookup_select, hsigned]
    by_cases hk : (r.proxy o).isSigned k = true
    · obtain ⟨hvalues, hnames⟩ := h k hk
      rw [if_pos hk, if_pos hk, lookup_collected, lookup_collected, lookup_cgiParse, lookup_cgiParse,
        hvalues]
      simp only [hnames]
    · rw [if_neg hk, if_neg hk]
  have hhead : (r.proxy o).method = (r'.proxy o).method := hmethod
  have huri : (r.proxy o).normalizedUri = (r'.proxy o).normalizedUri := rfl
  rw [Proxy.signatureBaseString, Proxy.signatureBaseString, hnormal, hhead, huri]

/-- No field of the request has an OAuth name. -/
theorem NoOauthParameters.not_mem {r : HttpRequest} {query : Option Bytes} (h : NoOauthParameters r)
    (hquery : r.queryParams = .ok query) {k : Bytes} (hk : startsWith (ascii "oauth_") k = true) :
    k ∉ (query.toList.flatMap cgiFields).map Prod.fst ∧
      k ∉ (r.postParams.toList.flatMap cgiFields).map Prod.fst := by
  have hown : k ∉ (ownFields r query).map Prod.fst := by
    intro hm
    obtain ⟨f, hf, rfl⟩ := List.mem_map.1 hm
    rw [h query hquery f hf] at hk
    exact absurd hk Bool.false_ne_true
  rwa [ownFields, List.map_append, List.mem_append, not_or] at hown

namespace ClientHelper

/-- The parameters before signing have no signature. -/
theorem lookup_oauthSignature (h : ClientHelper) :
    h.oauthParameters.lookup (ascii "oauth_signature") = none := by
  cases hl : h.oauthParameters.lookup (ascii "oauth_signature") with
  | none => rfl
  | some v => exact absurd rfl (name_of_lookup hl).2.2

/-- A signature method that is not empty is sent. -/
theorem lookup_oauthSignatureMethod {h : ClientHelper} (hne : h.signatureMethod ≠ []) :
    h.oauthParameters.lookup (ascii "oauth_signature_method") = some (.str h.signatureMethod) := by
  refine lookup_oauthParameters.2
    ⟨(ascii "oauth_signature_method", some h.signatureMethod), ?_, ?_, rfl, rfl⟩
  · simp [candidateParameters]
  · rw [keeps, Bool.or_eq_true, bne_iff_ne]
    exact .inl hne

end ClientHelper

/-- The method that is named first: by query, header or form body, else by the OAuth parameters. -/
def firstMethod (q : Bytes) (o : RequestOptions) : Bytes :=
  (fieldValues (ascii "oauth_signature_method") (cgiFields q)).headD
    (o.signatureMethod.getD (ascii "HMAC-SHA1"))

/-- With the OAuth parameters added, the proxy reads the method that is named first. -/
theorem oauthSignatureMethod_proxy {h : ClientHelper} (hne : h.signatureMethod ≠ []) {r : HttpRequest}
    {so : SignatureOptions} (hso : so.parameters = some h.oauthParameters)
    (hc : so.clobberRequest = false) {q : Bytes} (hq : r.queryString = .ok q) :
    (r.proxy so).oauthSignatureMethod = .ok (.str (firstMethod q h.options)) := by
  have hsent := ClientHelper.lookup_oauthSignatureMethod hne
  rw [Proxy.oauthSignatureMethod, oauthParameter_collected hso hc hq (fun v hv => ?_), hsent, firstMethod]
  · cases fieldValues (ascii "oauth_signature_method") (cgiFields q) <;> rfl
  · exact ⟨_, Option.some.inj (hv.symm.trans hsent)⟩

/-- The method is no RSA one: HMAC, or plaintext. -/
def ClientHelper.SignsShared (h : ClientHelper) : Prop :=
  downcase h.signatureMethod = ascii "hmac-sha1" ∨
    downcase h.signatureMethod = ascii "hmac-sha256" ∨
    downcase h.signatureMethod = ascii "plaintext"

section

variable {helper : ClientHelper} {first : HttpRequest} {old : Uri} {query : Bytes}
  {pre post : List (Bytes × Option Bytes)} {q₁ q₂ s path : Bytes}

/-- The signature stands behind the query that was assigned. -/
theorem queryParams_signed (hold : old.Valid) (hplain : old.isOpaque = false)
    (hfrag : old.fragment = none) (hchars : ∀ b ∈ query, isAssignedQueryChar b = true) (s : Bytes)
    (r : HttpRequest) :
    ({ r with path := parsedToS { old with query := some query } ++
        ampersand :: segment (ascii "oauth_signature") s } : HttpRequest).queryParams
        = .ok (some (query ++ ampersand :: segment (ascii "oauth_signature") s)) ∧
      cgiFields (query ++ ampersand :: segment (ascii "oauth_signature") s)
        = cgiFields query ++ [(ascii "oauth_signature", some s)] := by
  have hall : ∀ b ∈ query ++ ampersand :: segment (ascii "oauth_signature") s,
      isAssignedQueryChar b = true := by
    intro b hb
    rw [List.mem_append, List.mem_cons] at hb
    rcases hb with hb | rfl | hb
    · exact hchars b hb
    · decide
    · exact isAssignedQueryChar_of_mem_segment b hb
  constructor
  · have hsent := queryParams_parsedToS hold hplain hall r
    rwa [← parsedToS_append hold hfrag hall] at hsent
  · rw [cgiFields_append_sep (by decide), cgiFields_segment]

/-- The method that is sent is read back where nothing else names one. -/
theorem fieldValues_sentMethod (hmethod : helper.SignsShared)
    (hpre : ascii "oauth_signature_method" ∉ pre.map Prod.fst)
    (hpost : ascii "oauth_signature_method" ∉ post.map Prod.fst) :
    fieldValues (ascii "oauth_signature_method") (pre ++
        helper.oauthParameters.entries.map (fun e => (e.1, some (e.2.toS rt))) ++ post)
      = [helper.signatureMethod] := by
  have hne : helper.signatureMethod ≠ [] := by
    intro hnil
    rw [ClientHelper.SignsShared, hnil] at hmethod
    exact absurd hmethod (by decide)
  rw [fieldValues_append, fieldValues_append, fieldValues_of_not_mem hpre, fieldValues_of_not_mem hpost,
    fieldValues_entries, ClientHelper.lookup_oauthSignatureMethod hne]
  rfl

/-- **A signature that is added to the fields verifies**: the base string leaves it out, and reads no
    other field otherwise than before. -/
theorem verify_signature_added (hmethod : helper.SignsShared) (hq₁ : first.queryString = .ok q₁)
    (hq₂ : ({ first with path := path } : HttpRequest).queryString = .ok q₂)
    (hfields₁ : cgiFields q₁ = pre ++ post)
    (hfields₂ : cgiFields q₂ = pre ++ [(ascii "oauth_signature", some s)] ++ post)
    (hpre : ascii "oauth_signature" ∉ pre.map Prod.fst)
    (hpost : ascii "oauth_signature" ∉ post.map Prod.fst)
    (hmethods : fieldValues (ascii "oauth_signature_method") (cgiFields q₁) = [helper.signatureMethod])
    (hs : helper.plainSignature rt first = .ok s) :
    verify rt (({ first with path := path } : HttpRequest).proxy helper.plainOptions)
      helper.plainOptions = .ok true := by
  have hread : ∀ k, k ≠ ascii "oauth_signature" → fieldValues k (cgiFields q₁)
      = fieldValues k (cgiFields q₂) ∧
        (k ∈ (cgiFields q₁).map Prod.fst ↔ k ∈ (cgiFields q₂).map Prod.fst) :=
    fun k hk => lookup_collected_concat hfields₁ hfields₂ hk
  -- the request that is sent has the one signature, and both have the one method
  have hone : fieldValues (ascii "oauth_signature") (cgiFields q₂) = [s] := by
    rw [hfields₂, fieldValues_append, fieldValues_append, fieldValues_of_not_mem hpre,
      fieldValues_of_not_mem hpost, fieldValues_cons, if_pos rfl]
    rfl
  have hvalue := oauthParameter_of_fieldValues (o := helper.plainOptions) hq₂ rfl rfl hone
  have hmethod₁ := oauthParameter_of_fieldValues (o := helper.plainOptions) hq₁ rfl rfl hmethods
  rw [(hread _ (by decide)).1] at hmethods
  have hmethod₂ := oauthParameter_of_fieldValues (o := helper.plainOptions) hq₂ rfl rfl hmethods
  have hsignature : (HttpRequest.proxy { first with path := path } helper.plainOptions).oauthSignature
      = .ok (.str s) := by
    rw [Proxy.oauthSignature, hvalue]
    rfl
  refine (verify_eq_sign hsignature ?_).2 ?_
  · intro name hn hrsa
    have hn := eq_downcase_of_methodName hmethod₂ hn
    rw [ClientHelper.SignsShared, ← hn, availableMethod_eq_rsaSha1.1 hrsa] at hmethod
    exact absurd hmethod (by decide)
  · rw [← hs, ClientHelper.plainSignature]
    refine sign_congr (hmethod₂.trans hmethod₁.symm) rfl rfl rfl ?_
    refine signatureBaseString_congr rfl hq₂ hq₁ rfl fun k hk => ?_
    have hne : k ≠ ascii "oauth_signature" := by
      rintro rfl
      simp [Proxy.isSigned, Proxy.signatureAndUnsignedParameters] at hk
    exact ⟨(hread k hne).1.symm, (hread k hne).2.symm⟩

end

/-- **A request signed in its query carries its own parameters, then those of OAuth and one signature,
    and verifies.** -/
theorem oauth_queryString_verifies (rt : Runtime) (http : Connection) (r signed : HttpRequest)
    (c : Consumer) (token : Option Token) (o : RequestOptions) (g : Generated) (helper : ClientHelper)
    (hscheme : o.scheme = .queryString)
    (hmethod : downcase (o.signatureMethod.getD (ascii "HMAC-SHA1")) = ascii "hmac-sha1" ∨
      downcase (o.signatureMethod.getD (ascii "HMAC-SHA1")) = ascii "hmac-sha256" ∨
      downcase (o.signatureMethod.getD (ascii "HMAC-SHA1")) = ascii "plaintext")
    (hauth : r.authHeaderParams = none) (hfields : NoOauthParameters r)
    (hfrag : ∀ u, parseUri r.path = .ok u → u.fragment = none)
    (hhelper : signingHelper rt http r c token o g = .ok helper)
    (h : oauth rt http r c token o g = .ok signed) :
    ∃ old query s, r.queryParams = .ok old ∧ signed.queryParams = .ok (some query) ∧
      cgiFields query = cgiFields (old.getD []) ++
        helper.oauthParameters.entries.map (fun e => (e.1, some (e.2.toS rt))) ++
        [(ascii "oauth_signature", some s)] ∧
      valuesOf (ascii "oauth_signature") (cgiFields query) = [some s] ∧
      verify rt (signed.proxy helper.plainOptions) helper.plainOptions = .ok true := by
  rw [oauth, hhelper, Except.ok_bind, hscheme] at h
  obtain ⟨full, hash, -, hspec⟩ := signingHelper_eq_ok hhelper
  have hreq : helper.request = amendUserAgent r := by rw [hspec]
  have hshared : helper.SignsShared := by
    rw [hspec]
    exact hmethod
  obtain ⟨first, s, hfirst, hs, rfl⟩ := setOauthQueryString_eq_ok.1 h
  obtain ⟨old, query, hold, hown, hplain, hchars, rfl, hfirstQuery, hquery⟩ :=
    ClientHelper.queryRequest_eq_ok hfirst
  obtain ⟨hsameQuery, hsamePost, hsameAuth⟩ := amendUserAgent_fields r
  rw [hreq, amendUserAgent_path] at hold
  rw [hreq, hsameQuery] at hown
  have hoptional := flatMap_cgiFields_toList old.query
  rw [hoptional] at hquery
  obtain ⟨hsent, hfieldsSent⟩ := queryParams_signed (valid_of_parseUri hold) hplain (hfrag old hold)
    hchars s helper.request
  -- no source of fields has a signature or a method of its own
  obtain ⟨hold', hpost'⟩ := hfields.not_mem hown (k := ascii "oauth_signature") (by decide)
  obtain ⟨hnone, hnone'⟩ := hfields.not_mem hown (k := ascii "oauth_signature_method") (by decide)
  rw [hoptional] at hold' hnone
  have hparams : ascii "oauth_signature" ∉ (helper.oauthParameters.entries.map
      (fun e => (e.1, some (e.2.toS rt)))).map Prod.fst := by
    rw [List.map_map]
    exact OrderedHash.findEntry_eq_none.1 helper.lookup_oauthSignature
  have hpre : ascii "oauth_signature" ∉ (cgiFields query).map Prod.fst := by
    rw [hquery, List.map_append, List.mem_append, not_or]
    exact ⟨hold', hparams⟩
  refine ⟨old.query, _, s, hown, hsent, by rw [hfieldsSent, hquery], ?_, ?_⟩
  · rw [hfieldsSent, valuesOf_append, valuesOf_eq_nil.2 hpre, valuesOf_cons, if_pos rfl]
    rfl
  -- the other sources of fields are those of the request
  have hother : ∀ path, ({ helper.request with path := path } : HttpRequest).authHeaderParams = none ∧
      ({ helper.request with path := path } : HttpRequest).postParams = r.postParams := by
    intro path
    rw [hreq]
    exact ⟨hsameAuth.trans hauth, hsamePost⟩
  obtain ⟨q₁, hq₁, hfields₁⟩ := queryString_of_query hfirstQuery
  obtain ⟨q₂, hq₂, hfields₂⟩ := queryString_of_query hsent
  rw [(hother _).1, (hother _).2, Option.toList_none, List.flatMap_nil, List.append_nil,
    Option.toList_some, List.flatMap_singleton] at hfields₁ hfields₂
  rw [hfieldsSent] at hfields₂
  refine verify_signature_added hshared hq₁ hq₂ hfields₁ hfields₂ hpre hpost' ?_ hs
  rw [hfields₁, hquery]
  exact fieldValues_sentMethod hshared hnone hnone'

/-- Sign a request in its query. -/
def queryOptions : RequestOptions := { scheme := .queryString }

/-- A `GET` with a parameter of its own. -/
def searchRequest : HttpRequest := { rootRequest with path := ascii "/?a=1" }

theorem searchRequest_queryString_verifies :
    ∃ helper signed, signingHelper printingRuntime exampleConnection searchRequest exampleConsumer none
        queryOptions exampleGenerated = .ok helper ∧
      oauth printingRuntime exampleConnection searchRequest exampleConsumer none queryOptions
        exampleGenerated = .ok signed ∧
      ∃ old query s, searchRequest.queryParams = .ok old ∧ signed.queryParams = .ok (some query) ∧
        cgiFields query = cgiFields (old.getD []) ++
          helper.oauthParameters.entries.map (fun e => (e.1, some (e.2.toS printingRuntime))) ++
          [(ascii "oauth_signature", some s)] ∧
        valuesOf (ascii "oauth_signature") (cgiFields query) = [some s] ∧
        verify printingRuntime (signed.proxy helper.plainOptions) helper.plainOptions = .ok true := by
  have hquery : searchRequest.queryParams = .ok (some (ascii "a=1")) := by decide
  have hfields : NoOauthParameters searchRequest := by
    intro query hq f hf
    obtain rfl : some (ascii "a=1") = query := Except.ok.inj (hquery.symm.trans hq)
    have hall : ∀ f ∈ ownFields searchRequest (some (ascii "a=1")),
        startsWith (ascii "oauth_") f.1 = false := by decide
    exact hall f hf
  have hfrag : ∀ u, parseUri searchRequest.path = .ok u → u.fragment = none := by
    have hparse : (parseUri searchRequest.path).map Uri.fragment = .ok none := by decide
    intro u hu
    rw [hu] at hparse
    exact Except.ok.inj hparse
  have hok : (oauth printingRuntime exampleConnection searchRequest exampleConsumer none queryOptions
      exampleGenerated).isOk = true := by decide +kernel
  cases h : oauth printingRuntime exampleConnection searchRequest exampleConsumer none queryOptions
      exampleGenerated with
  | error e =>
      rw [h] at hok
      exact absurd hok Bool.false_ne_true
  | ok signed =>
      obtain ⟨helper, hhelper, -⟩ := Except.bind_eq_ok.1 h
      exact ⟨helper, signed, hhelper, rfl, oauth_queryString_verifies printingRuntime
        exampleConnection searchRequest signed exampleConsumer none queryOptions exampleGenerated
        helper rfl (by decide) rfl hfields hfrag hhelper h⟩

end RubyOAuth
