import RubyOAuth.Proofs.FormScheme
import RubyOAuth.Proofs.QueryString
import RubyOAuth.Proofs.Resigning

set_option autoImplicit false

/-! # The base string that is previewed and the one that is signed

`signature_base_string` takes the request as it is and adds the OAuth parameters. `oauth!` signs the
request as its scheme has rewritten it, and leaves the unsigned parameters out. Name by name, this
says where the two come to the same. -/

namespace RubyOAuth

open Bytes

variable {rt : Runtime}

/-! ## One name -/

/-- Clobbered parameters are as those collected where the request has nothing to add. -/
def ClobberKeeps (fields : List (Bytes × Option Bytes)) (oauthParams : Params) (k : Bytes) : Prop :=
  match oauthParams.lookup k with
  | none => k ∉ fields.map Prod.fst
  | some .nil => True
  | some _ => fieldValues k fields = []

/-- A `nil` that is added stands alone; in a query it is one more empty value. -/
def QueryKeeps (fields : List (Bytes × Option Bytes)) (oauthParams : Params) (k : Bytes) : Prop :=
  oauthParams.lookup k = some .nil → fieldValues k fields = []

/-- A form body holds what the request has under a name in the place of the OAuth parameter; what
    stands outside of the body counts twice, and a bare name of the body is gone. -/
def FormKeeps (outer fields : List (Bytes × Option Bytes)) (oauthParams : Params) (k : Bytes) : Prop :=
  k ∈ fields.map Prod.fst →
    match oauthParams.lookup k with
    | none =>
      if fieldValues k fields = [] then k ∈ outer.map Prod.fst else fieldValues k outer = []
    | some (.str s) =>
      if fieldValues k fields = [] then k ∈ outer.map Prod.fst ∧ s = [] else fieldValues k outer = [s]
    | some _ =>
      if fieldValues k fields = [] then k ∈ outer.map Prod.fst
      else fieldValues k outer = [] ∧ fieldValues k fields = [[]]

/-- Where the body is not read, an OAuth parameter is not signed: it counts as nothing only where it is
    empty and the request has its bare name. -/
def UnsentKeeps (fields : List (Bytes × Option Bytes)) (oauthParams : Params) (k : Bytes) : Prop :=
  match oauthParams.lookup k with
  | none => True
  | some (.str s) => k ∈ fields.map Prod.fst ∧ fieldValues k fields = [] ∧ s = []
  | some _ => k ∈ fields.map Prod.fst ∧ (fieldValues k fields = [] ∨ fieldValues k fields = [[]])

theorem collectedValues_empty (fields : List (Bytes × Option Bytes)) (k : Bytes) :
    collectedValues fields OrderedHash.empty k
      = if k ∈ fields.map Prod.fst then
          if fieldValues k fields = [] then [[]] else fieldValues k fields
        else [] := rfl

theorem perm_clobbered_iff {fields : List (Bytes × Option Bytes)} {oauthParams : Params}
    (ht : TextParameters oauthParams) (k : Bytes) :
    (collectedValues fields oauthParams k).Perm (valuesOf k (flatPairs oauthParams.entries)) ↔
      ClobberKeeps fields oauthParams k := by
  have hvalues : valuesOf k (flatPairs oauthParams.entries)
      = ((oauthParams.lookup k).bind flatValues).getD [] := valuesOf_flatPairs oauthParams.nodup k
  rw [hvalues, collectedValues, ClobberKeeps]
  cases hp : oauthParams.lookup k with
  | none =>
      by_cases hk : k ∈ fields.map Prod.fst
      · by_cases hnil : fieldValues k fields = []
        · simp [hk, hnil]
        · simp [hk, hnil]
      · simp [hk]
  | some v =>
      rcases ht k v hp with rfl | ⟨s, rfl⟩
      · exact iff_of_true (.refl _) trivial
      · simp [flatValues]

theorem perm_query_iff (rt : Runtime) (query rest : List (Bytes × Option Bytes))
    {oauthParams : Params} (ht : TextParameters oauthParams) (k : Bytes) :
    (collectedValues (query ++ rest) oauthParams k).Perm
        (collectedValues (query ++ oauthParams.entries.map (fun e => (e.1, some (e.2.toS rt))) ++ rest)
          OrderedHash.empty k) ↔
      QueryKeeps (query ++ rest) oauthParams k := by
  have hadded := fieldValues_entries rt oauthParams k
  have hname : k ∈ (oauthParams.entries.map (fun e => (e.1, some (e.2.toS rt)))).map Prod.fst ↔
      (oauthParams.lookup k).isSome = true := by
    rw [List.map_map]
    exact OrderedHash.mem_keys
  have hmem : k ∈ (query ++ oauthParams.entries.map (fun e => (e.1, some (e.2.toS rt))) ++
      rest).map Prod.fst ↔ k ∈ (query ++ rest).map Prod.fst ∨ (oauthParams.lookup k).isSome = true := by
    rw [List.map_append, List.map_append, List.mem_append, List.mem_append, hname, List.map_append,
      List.mem_append, or_right_comm]
  have hvalues : (fieldValues k (query ++ oauthParams.entries.map (fun e => (e.1, some (e.2.toS rt))) ++
      rest)).Perm (fieldValues k (query ++ rest) ++
        ((oauthParams.lookup k).map (fun v => v.toS rt)).toList) := by
    rw [fieldValues_append, fieldValues_append, hadded, fieldValues_append, List.append_assoc,
      List.append_assoc]
    exact List.perm_append_comm.append_left _
  rw [collectedValues_empty, QueryKeeps]
  cases hp : oauthParams.lookup k with
  | none =>
      rw [hp, Option.isSome_none, Bool.false_eq_true, or_false] at hmem
      rw [hp, Option.map_none, Option.toList_none, List.append_nil] at hvalues
      simp only [collectedValues, hp, hmem]
      refine iff_of_true ?_ (by simp)
      by_cases hk : k ∈ (query ++ rest).map Prod.fst
      · rw [if_pos hk, if_pos hk]
        by_cases hnil : fieldValues k (query ++ rest) = []
        · rw [hnil] at hvalues
          rw [if_pos hnil, if_pos hvalues.eq_nil]
        · rw [if_neg hnil, if_neg (fun h => hnil (h ▸ hvalues).symm.eq_nil)]
          exact hvalues.symm
      · rw [if_neg hk, if_neg hk]
  | some v =>
      rw [hp, Option.isSome_some] at hmem
      rw [hp, Option.map_some, Option.toList_some] at hvalues
      have hne : fieldValues k (query ++ oauthParams.entries.map (fun e => (e.1, some (e.2.toS rt))) ++
          rest) ≠ [] := by
        intro hnil
        rw [hnil] at hvalues
        simpa using hvalues.symm.eq_nil
      rw [if_pos (hmem.2 (.inr rfl)), if_neg hne]
      rcases ht k v hp with rfl | ⟨s, rfl⟩
      · simp only [collectedValues, hp, true_implies]
        constructor
        · intro h
          have hlen := (h.trans hvalues).length_eq
          rw [List.length_append] at hlen
          exact List.length_eq_zero_iff.1 (by simpa using hlen.symm)
        · intro h
          rw [h] at hvalues
          exact hvalues.symm
      · simp only [collectedValues, hp]
        exact iff_of_true hvalues.symm (by simp)

section

variable {outer fields first : List (Bytes × Option Bytes)} {oauthParams : Params} {k : Bytes}

/-- A name of the request without a value has none in query and header, and is not in the first body. -/
theorem perm_form_bare_iff (ht : TextParameters oauthParams) (hk : k ∈ fields.map Prod.fst)
    (hnil : fieldValues k fields = []) (houter : fieldValues k outer = [])
    (hfirst : valuesOf k first = []) :
    (collectedValues fields oauthParams k).Perm
        (collectedValues (outer ++ first) OrderedHash.empty k) ↔
      FormKeeps outer fields oauthParams k := by
  have hvalues : fieldValues k (outer ++ first) = [] := by
    rw [fieldValues_append, houter, fieldValues, hfirst]
    rfl
  have hmem : k ∈ (outer ++ first).map Prod.fst ↔ k ∈ outer.map Prod.fst := by
    rw [List.map_append, List.mem_append, or_iff_left (valuesOf_eq_nil.1 hfirst)]
  rw [collectedValues_empty]
  simp only [hmem, hvalues, if_true, collectedValues, FormKeeps, hk, true_implies, hnil]
  cases hp : oauthParams.lookup k with
  | none =>
      by_cases ho : k ∈ outer.map Prod.fst
      · simp [ho]
      · simp [ho]
  | some v =>
      rcases ht k v hp with rfl | ⟨s, rfl⟩
      · by_cases ho : k ∈ outer.map Prod.fst
        · simp [ho]
        · simp [ho]
      · by_cases ho : k ∈ outer.map Prod.fst
        · simp [ho]
        · simp [ho]

/-- The values of a name of the request stand in the first body, behind those of query and header. -/
theorem perm_form_valued_iff (ht : TextParameters oauthParams) (hk : k ∈ fields.map Prod.fst)
    (hnil : fieldValues k fields ≠ [])
    (hfirst : valuesOf k first = (fieldValues k fields).map some) :
    (collectedValues fields oauthParams k).Perm
        (collectedValues (outer ++ first) OrderedHash.empty k) ↔
      FormKeeps outer fields oauthParams k := by
  have hvalues : fieldValues k (outer ++ first) = fieldValues k outer ++ fieldValues k fields := by
    have hback : ((fieldValues k fields).map some).filterMap id = fieldValues k fields := by
      rw [List.filterMap_map]
      exact List.filterMap_some
    rw [fieldValues_append, ← hback, ← hfirst]
    rfl
  have hmem : k ∈ (outer ++ first).map Prod.fst := by
    rw [List.map_append, List.mem_append]
    refine .inr (name_mem_iff_valuesOf.2 ?_)
    simpa [hfirst] using hnil
  have hne : fieldValues k (outer ++ first) ≠ [] := by
    rw [hvalues]
    exact List.append_ne_nil_of_right_ne_nil _ hnil
  rw [collectedValues_empty, if_pos hmem, if_neg hne, hvalues]
  simp only [collectedValues, FormKeeps, hk, true_implies, hnil, if_true, if_false]
  cases hp : oauthParams.lookup k with
  | none =>
      simp only
      constructor
      · intro h
        have hlen := h.length_eq
        rw [List.length_append] at hlen
        exact List.length_eq_zero_iff.1 (by omega)
      · intro h
        rw [h, List.nil_append]
  | some v =>
      rcases ht k v hp with rfl | ⟨s, rfl⟩
      · -- one empty value in all
        simp only
        constructor
        · intro h
          have hlen := h.length_eq
          rw [List.length_append, List.length_singleton] at hlen
          have hpos := List.length_pos_of_ne_nil hnil
          have hzero : (fieldValues k outer).length = 0 := by omega
          have ho : fieldValues k outer = [] := List.length_eq_zero_iff.1 hzero
          rw [ho, List.nil_append] at h
          exact ⟨ho, List.perm_singleton.1 h.symm⟩
        · rintro ⟨ho, hone⟩
          rw [ho, hone, List.nil_append]
      · simp only
        rw [List.perm_comm, ← List.perm_singleton]
        constructor
        · intro h
          exact (List.perm_append_right_iff _).1 (h.trans List.perm_append_comm)
        · intro h
          exact (h.append_right _).trans List.perm_append_comm

theorem perm_form_iff (ht : TextParameters oauthParams)
    (houter : k ∈ outer.map Prod.fst → k ∈ fields.map Prod.fst)
    (houterNil : fieldValues k fields = [] → fieldValues k outer = [])
    (hfirst : valuesOf k first = firstBodyValues fields oauthParams k) :
    (collectedValues fields oauthParams k).Perm
        (collectedValues (outer ++ first) OrderedHash.empty k) ↔
      FormKeeps outer fields oauthParams k := by
  rw [firstBodyValues] at hfirst
  by_cases hk : k ∈ fields.map Prod.fst
  · rw [if_pos hk] at hfirst
    by_cases hnil : fieldValues k fields = []
    · rw [hnil, List.map_nil] at hfirst
      exact perm_form_bare_iff ht hk hnil (houterNil hnil) hfirst
    · exact perm_form_valued_iff ht hk hnil hfirst
  · -- the OAuth parameter stands in the first body as it is
    rw [if_neg hk] at hfirst
    have ho : k ∉ outer.map Prod.fst := fun h => hk (houter h)
    have hvalues : fieldValues k (outer ++ first) = (valuesOf k first).filterMap id := by
      rw [fieldValues_append, fieldValues_of_not_mem ho, List.nil_append]
      rfl
    have hmem : k ∈ (outer ++ first).map Prod.fst ↔ valuesOf k first ≠ [] := by
      rw [List.map_append, List.mem_append, or_iff_right ho, name_mem_iff_valuesOf]
    have hkeeps : FormKeeps outer fields oauthParams k := fun h => absurd h hk
    refine iff_of_true ?_ hkeeps
    rw [collectedValues_empty]
    simp only [hmem, hvalues, hfirst, collectedValues, fieldValues_of_not_mem hk]
    cases hp : oauthParams.lookup k with
    | none => simp [hk]
    | some v =>
        rcases ht k v hp with rfl | ⟨s, rfl⟩
        · simp
        · simp

end

theorem perm_unsent_iff {fields : List (Bytes × Option Bytes)} {oauthParams : Params}
    (ht : TextParameters oauthParams) (k : Bytes) :
    (collectedValues fields oauthParams k).Perm (collectedValues fields OrderedHash.empty k) ↔
      UnsentKeeps fields oauthParams k := by
  rw [collectedValues_empty]
  simp only [collectedValues, UnsentKeeps]
  cases hp : oauthParams.lookup k with
  | none => simp
  | some v =>
      by_cases hk : k ∈ fields.map Prod.fst
      · by_cases hnil : fieldValues k fields = []
        · rcases ht k v hp with rfl | ⟨s, rfl⟩
          · simp [hk, hnil]
          · simp [hk, hnil]
        · rcases ht k v hp with rfl | ⟨s, rfl⟩
          · simp [hk, hnil, eq_comm]
          · have hlong : ¬ (fieldValues k fields ++ [s]).Perm (fieldValues k fields) := by
              intro h
              have hlen := h.length_eq
              rw [List.length_append, List.length_singleton] at hlen
              omega
            simpa [hk, hnil] using hlong
      · rcases ht k v hp with rfl | ⟨s, rfl⟩
        · simp [hk]
        · simp [hk]

/-! ## The stages of `oauth!` -/

namespace ClientHelper

/-- What `oauth!` hands to `OAuth::Signature.sign`. -/
def signedRequest (rt : Runtime) (h : ClientHelper) :
    Except RubyError (HttpRequest × SignatureOptions) :=
  match h.options.scheme with
  | .header => .ok (h.request, h.signatureOptions h.oauthParameters)
  | .body => do
    let first ← h.formRequest rt
    .ok (first, h.plainOptions)
  | .queryString => do
    let first ← h.queryRequest rt
    .ok (first, h.plainOptions)

/-- The request with its signature, where the scheme puts it. -/
def placeSignature (rt : Runtime) (h : ClientHelper) (first : HttpRequest) (signature : Bytes) :
    Except RubyError HttpRequest :=
  match h.options.scheme with
  | .header => first.setHeader (ascii "Authorization") (h.headerWith rt signature)
  | .body => do
    let params ← first.parameters {}
    .ok (setFormData rt first (params.set (ascii "oauth_signature") (.str signature)))
  | .queryString =>
    .ok { first with path := first.path ++ ampersand :: segment (ascii "oauth_signature") signature }

/-- What `signature_base_string` hands to `OAuth::Signature`. -/
def previewOptions (h : ClientHelper) : SignatureOptions where
  consumer := some h.consumer
  token := h.token
  uri := some h.requestUri
  parameters := some h.oauthParameters

end ClientHelper

variable {http : Connection} {r : HttpRequest} {c : Consumer} {token : Option Token}
  {o : RequestOptions} {g : Generated} {helper : ClientHelper}

/-- **`oauth!` rewrites the request, signs it and puts the signature in its place.** -/
theorem oauth_eq_ok {signed : HttpRequest} (hhelper : signingHelper rt http r c token o g = .ok helper) :
    oauth rt http r c token o g = .ok signed ↔ ∃ first so s, helper.signedRequest rt = .ok (first, so) ∧
      sign rt (first.proxy so) so = .ok s ∧ helper.placeSignature rt first s = .ok signed := by
  obtain ⟨full, hash, -, hspec⟩ := signingHelper_eq_ok hhelper
  have hscheme : helper.options.scheme = o.scheme := by rw [hspec]
  rw [ClientHelper.signedRequest, hscheme]
  simp only [ClientHelper.placeSignature, hscheme]
  cases hs : o.scheme with
  | header =>
      have hline : ∀ s, (helper.headerWith rt s).any isLineEnd = (o.realm.getD []).any isLineEnd := by
        intro s
        rw [helper.any_isLineEnd_headerWith, hspec]
      rw [oauth_header_iff hs hhelper]
      simp only [Except.ok.injEq, Prod.mk.injEq, setHeader_eq_ok, hline]
      constructor
      · rintro ⟨hrealm, s, hsign, rfl⟩
        exact ⟨_, _, s, ⟨rfl, rfl⟩, hsign, hrealm, rfl⟩
      · rintro ⟨first, so, s, ⟨rfl, rfl⟩, hsign, hrealm, rfl⟩
        exact ⟨hrealm, s, hsign, rfl⟩
  | body =>
      have hbody : oauth rt http r c token o g = setOauthBody rt helper := by
        rw [oauth, hhelper, Except.ok_bind, hs]
      rw [hbody, setOauthBody_eq_ok]
      constructor
      · rintro ⟨first, params, s, hfirst, hparams, hsign, rfl⟩
        exact ⟨first, _, s, Except.bind_eq_ok.2 ⟨first, hfirst, rfl⟩, hsign,
          Except.bind_eq_ok.2 ⟨params, hparams, rfl⟩⟩
      · rintro ⟨first, so, s, hfirst, hsign, hplaced⟩
        obtain ⟨first', hform, heq⟩ := Except.bind_eq_ok.1 hfirst
        obtain ⟨rfl, rfl⟩ := Prod.mk.inj (Except.ok.inj heq)
        obtain ⟨params, hparams, hplaced⟩ := Except.bind_eq_ok.1 hplaced
        exact ⟨first', params, s, hform, hparams, hsign, (Except.ok.inj hplaced).symm⟩
  | queryString =>
      have hquery : oauth rt http r c token o g = setOauthQueryString rt helper := by
        rw [oauth, hhelper, Except.ok_bind, hs]
      rw [hquery, setOauthQueryString_eq_ok]
      constructor
      · rintro ⟨first, s, hfirst, hsign, rfl⟩
        exact ⟨first, _, s, Except.bind_eq_ok.2 ⟨first, hfirst, rfl⟩, hsign, rfl⟩
      · rintro ⟨first, so, s, hfirst, hsign, hplaced⟩
        obtain ⟨first', hform, heq⟩ := Except.bind_eq_ok.1 hfirst
        obtain ⟨rfl, rfl⟩ := Prod.mk.inj (Except.ok.inj heq)
        exact ⟨first', s, hform, hsign, (Except.ok.inj hplaced).symm⟩

/-! ## The preview -/

theorem parameters_amendUserAgent (r : HttpRequest) (so : SignatureOptions) :
    ((amendUserAgent r).proxy so).parameters = (r.proxy so).parameters := by
  obtain ⟨hquery, hpost, hauth⟩ := amendUserAgent_fields r
  have hstring : (amendUserAgent r).queryString = r.queryString := by
    rw [HttpRequest.queryString, HttpRequest.queryString, hquery, hpost, hauth]
  show (amendUserAgent r).parameters so = r.parameters so
  rw [HttpRequest.parameters, HttpRequest.parameters, allParameters_eq, allParameters_eq, hstring]

/-- The preview is that of the same helper, over the request as it is. -/
theorem signatureBaseString_eq_preview (hn : o.nonce.isSome = true) (ht : o.timestamp.isSome = true)
    (hhelper : signingHelper rt http r c token o g = .ok helper) (g' : Generated) :
    r.signatureBaseString rt http c token o g'
      = signatureBaseString rt (r.proxy helper.previewOptions) helper.previewOptions := by
  obtain ⟨full, -, hfull, -⟩ := signingHelper_eq_ok hhelper
  have hfirst : oauthHelper http r c token o g'
      = .ok ⟨r, o.requestUri.getD full, c, token, o, g'⟩ := by
    rw [oauthHelper, hfull]
    rfl
  -- with nonce and timestamp given, the parameters are those of the helper that signs
  have hlast : ∀ hash, helper = ⟨amendUserAgent r, o.requestUri.getD full, c, token,
      { o with bodyHash := hash }, g⟩ → ClientHelper.signatureBaseString rt
        ⟨r, o.requestUri.getD full, c, token, { o with bodyHash := hash }, g'⟩
        = signatureBaseString rt (r.proxy helper.previewOptions) helper.previewOptions := by
    rintro hash rfl
    have hparams := ClientHelper.oauthParameters_eq
      (h := ⟨amendUserAgent r, o.requestUri.getD full, c, token, { o with bodyHash := hash }, g⟩)
      hn ht r g'
    rw [ClientHelper.previewOptions, ← hparams]
    rfl
  rw [signingHelper_of_full hfull] at hhelper
  rw [HttpRequest.signatureBaseString, hfirst, Except.ok_bind]
  split at hhelper
  · next hreq =>
      rw [if_pos hreq]
      rw [ClientHelper.hashBody, Except.bind_eq_ok] at hhelper
      obtain ⟨hash, hhash, hhelper⟩ := hhelper
      have hparams := ClientHelper.oauthParameters_eq
        (h := ⟨amendUserAgent r, o.requestUri.getD full, c, token, o, g⟩) hn ht r g'
      simp only at hparams
      have hsame : ∀ so : SignatureOptions,
          bodyHash rt (r.proxy so) so = bodyHash rt ((amendUserAgent r).proxy so) so := by
        intro so
        refine bodyHash_congr ?_ rfl rfl ?_
        · rw [Proxy.oauthSignatureMethod, Proxy.oauthSignatureMethod, Proxy.oauthParameter,
            Proxy.oauthParameter, parameters_amendUserAgent]
        · obtain ⟨headers, hagent⟩ := amendUserAgent_eq r
          rw [hagent]
          rfl
      have hhash' := (hsame _).trans hhash
      rw [← hparams] at hhash'
      have hhashed : ClientHelper.hashBody rt ⟨r, o.requestUri.getD full, c, token, o, g'⟩
          = .ok ⟨r, o.requestUri.getD full, c, token, { o with bodyHash := hash }, g'⟩ := by
        rw [ClientHelper.hashBody]
        exact Except.bind_eq_ok.2 ⟨hash, hhash', rfl⟩
      rw [hhashed, Except.ok_bind]
      exact hlast hash (Except.ok.inj hhelper).symm
  · next hreq =>
      rw [if_neg hreq, Except.ok_bind]
      exact hlast o.bodyHash (Except.ok.inj hhelper).symm

/-- A base string of three parts is that of a request whose method computes one. -/
theorem signatureBaseString_eq_ok_iff {p : Proxy} {so : SignatureOptions} {x y z : Bytes} :
    signatureBaseString rt p so = .ok (joinWith ampersand ([x, y, z].map escapeBytes)) ↔
      (∃ name m, methodName p = .ok name ∧ availableMethod name = some m ∧ m ≠ .plaintext) ∧
        p.signatureBaseString rt = .ok (joinWith ampersand ([x, y, z].map escapeBytes)) := by
  have hsecret : ∀ a b : Bytes, escapeBytes a ++ ampersand :: escapeBytes b
      ≠ joinWith ampersand ([x, y, z].map escapeBytes) := by
    intro a b h
    have hpair : escapeBytes a ++ ampersand :: escapeBytes b
        = joinWith ampersand ([a, b].map escapeBytes) := by
      rw [List.map_cons, joinWith_cons ampersand _ (by simp), List.map_singleton, joinWith_singleton]
    have hno : ∀ l : List Bytes, ∀ t ∈ l.map escapeBytes, ampersand ∉ t := by
      intro l t ht
      obtain ⟨s, -, rfl⟩ := List.mem_map.1 ht
      exact not_mem_escapeBytes (by decide) (by decide) s
    rw [hpair] at h
    have hlists := (joinWith_inj_of_ne (hno [a, b]) (hno [x, y, z]) (by simp) (by simp)).1 h
    simp at hlists
  rw [signatureBaseString, Except.bind_eq_ok]
  constructor
  · rintro ⟨sig, hsig, h⟩
    obtain ⟨name, m, secrets, hname, hm, -, rfl⟩ := build_eq_ok.1 hsig
    have hne : m ≠ .plaintext := by
      rintro rfl
      exact hsecret _ _ (Except.ok.inj h)
    refine ⟨⟨name, m, hname, hm, hne⟩, ?_⟩
    cases m with
    | plaintext => exact absurd rfl hne
    | _ => exact h
  · rintro ⟨⟨name, m, hname, hm, hne⟩, h⟩
    refine ⟨_, build_eq_ok.2 ⟨name, m, _, hname, hm, rfl, rfl⟩, ?_⟩
    cases m with
    | plaintext => exact absurd rfl hne
    | _ => exact h

/-! ## What each scheme signs -/

/-- The fields of a request: those of the query, of an `Authorization` header and of a form body. -/
def requestFields (r : HttpRequest) (query : Option Bytes) : List (Bytes × Option Bytes) :=
  query.toList.flatMap cgiFields ++ r.authHeaderParams.toList.flatMap cgiFields ++
    r.postParams.toList.flatMap cgiFields

/-- The scheme signs under a name what the preview shows. -/
def SchemeKeeps (r : HttpRequest) (query : Option Bytes) (helper : ClientHelper) (k : Bytes) : Prop :=
  match helper.options.scheme with
  | .header =>
    helper.options.clobberRequest = true →
      ClobberKeeps (requestFields r query) helper.oauthParameters k
  | .queryString => QueryKeeps (requestFields r query) helper.oauthParameters k
  | .body =>
    if r.isPostOrPut then
      FormKeeps (query.toList.flatMap cgiFields ++ r.authHeaderParams.toList.flatMap cgiFields)
        (requestFields r query) helper.oauthParameters k
    else UnsentKeeps (requestFields r query) helper.oauthParameters k

/-- What is signed and what the preview shows are the same text but for the values under each name, and
    those are the same where they are kept. -/
structure ComparedWith (r : HttpRequest) (query : Option Bytes) (helper : ClientHelper)
    (keeps : Bytes → Prop) (first : HttpRequest) (so : SignatureOptions) : Prop where
  method : first.method = r.method
  uri : so.uri = some helper.requestUri
  unsigned : so.unsignedParameters = helper.options.unsignedParameters
  text : ∀ ps ∈ so.parameters, TextParameters ps
  values : ∃ params, (first.proxy so).parameters = .ok params ∧ ∀ k,
    ((collectedValues (requestFields r query) helper.oauthParameters k).Perm
      (valuesOf k (flatPairs params.entries)) ↔ keeps k)

/-- Without clobbering, what is signed is what is collected of the rewritten request. -/
theorem exists_parameters_collected (so : SignatureOptions) {first : HttpRequest} {q : Bytes}
    {params : Params} (hq : first.queryString = .ok q) (hc : so.clobberRequest = false)
    (ht : TextParameters params) (hp : so.parameters.getD OrderedHash.empty = params) :
    ∃ all, (first.proxy so).parameters = .ok all ∧
      ∀ k, valuesOf k (flatPairs all.entries) = collectedValues (cgiFields q) params k := by
  subst hp
  exact ⟨_, parameters_of_queryString hq hc, valuesOf_collected q ht⟩

section

variable {first : HttpRequest} {query : Option Bytes} (hreq : helper.request = amendUserAgent r)
  (hquery : r.queryParams = .ok query)

include hreq

theorem method_request : helper.request.method = r.method := by
  obtain ⟨headers, hagent⟩ := amendUserAgent_eq r
  rw [hreq, hagent]

theorem isPostOrPut_request : helper.request.isPostOrPut = r.isPostOrPut := by
  obtain ⟨headers, hagent⟩ := amendUserAgent_eq r
  rw [hreq, hagent]
  rfl

include hquery

/-- What is read of the request before it is rewritten. -/
theorem queryString_request :
    ∃ q, helper.request.queryString = .ok q ∧ cgiFields q = requestFields r query := by
  obtain ⟨hsameQuery, hsamePost, hsameAuth⟩ := amendUserAgent_fields r
  obtain ⟨q, hq, hfields⟩ := queryString_of_query (hsameQuery.trans hquery)
  rw [hsamePost, hsameAuth] at hfields
  exact ⟨q, hreq ▸ hq, hfields⟩

theorem comparedWith_header : ComparedWith r query helper
    (fun k => helper.options.clobberRequest = true →
      ClobberKeeps (requestFields r query) helper.oauthParameters k)
    helper.request (helper.signatureOptions helper.oauthParameters) := by
  have htext := textParameters_oauthParameters helper
  obtain ⟨q, hq, hfields⟩ := queryString_request hreq hquery
  refine ⟨method_request hreq, rfl, rfl, fun ps hps => Option.some.inj hps ▸ htext, ?_⟩
  by_cases hc : helper.options.clobberRequest = true
  · refine ⟨_, parameters_of_clobber _ hc, fun k => ?_⟩
    rw [perm_clobbered_iff htext]
    exact ⟨fun h _ => h, fun h => h hc⟩
  · obtain ⟨all, hall, hvalues⟩ := exists_parameters_collected
      (helper.signatureOptions helper.oauthParameters) hq (Bool.not_eq_true _ ▸ hc) htext rfl
    refine ⟨all, hall, fun k => ?_⟩
    rw [hvalues, hfields]
    exact iff_of_true (.refl _) (fun h => absurd h hc)

theorem comparedWith_body (hfirst : helper.formRequest rt = .ok first) : ComparedWith r query helper
    (fun k => if r.isPostOrPut then
        FormKeeps (query.toList.flatMap cgiFields ++ r.authHeaderParams.toList.flatMap cgiFields)
          (requestFields r query) helper.oauthParameters k
      else UnsentKeeps (requestFields r query) helper.oauthParameters k)
    first helper.plainOptions := by
  have htext := textParameters_oauthParameters helper
  obtain ⟨hsameQuery, -, hsameAuth⟩ := amendUserAgent_fields r
  obtain ⟨q, hq, hfields⟩ := queryString_request hreq hquery
  obtain ⟨q', hq', rfl⟩ := ClientHelper.formRequest_eq_ok.1 hfirst
  obtain rfl : q = q' := Except.ok.inj (hq.symm.trans hq')
  refine ⟨method_request hreq, rfl, rfl, by simp [ClientHelper.plainOptions], ?_⟩
  obtain ⟨q₁, hq₁, hfields₁⟩ := queryString_setFormData rt (r := helper.request)
    (hreq ▸ hsameQuery.trans hquery)
    (helper.oauthParameters.merge (collected q OrderedHash.empty))
  rw [isPostOrPut_request hreq, hreq, hsameAuth] at hfields₁
  obtain ⟨all, hall, hvalues⟩ := exists_parameters_collected helper.plainOptions hq₁ rfl
    textParameters_empty rfl
  refine ⟨all, hall, fun k => ?_⟩
  rw [hvalues, hfields₁]
  by_cases hpost : r.isPostOrPut = true
  · -- the first body is read with query and header
    rw [if_pos hpost, if_pos hpost]
    refine perm_form_iff htext ?_ ?_ ?_
    · intro hn
      rw [requestFields, List.map_append]
      exact List.mem_append_left _ hn
    · intro hnil
      rw [requestFields, fieldValues_append, List.append_eq_nil_iff] at hnil
      exact hnil.1
    · rw [valuesOf_firstBody rt htext helper.lookup_nil, hfields]
  · have hfieldsOuter : requestFields r query = query.toList.flatMap cgiFields ++
        r.authHeaderParams.toList.flatMap cgiFields ++ [] := by
      rw [requestFields, postParams_of_not_isPostOrPut (Bool.not_eq_true _ ▸ hpost)]
      rfl
    rw [if_neg hpost, if_neg hpost, ← hfieldsOuter]
    exact perm_unsent_iff htext k

theorem comparedWith_queryString (hfirst : helper.queryRequest rt = .ok first) :
    ComparedWith r query helper (QueryKeeps (requestFields r query) helper.oauthParameters) first
      helper.plainOptions := by
  have htext := textParameters_oauthParameters helper
  obtain ⟨hsameQuery, hsamePost, hsameAuth⟩ := amendUserAgent_fields r
  obtain ⟨old, query', -, hold, -, -, rfl, hfirstQuery, hquery'⟩ :=
    ClientHelper.queryRequest_eq_ok hfirst
  rw [hreq, hsameQuery, hquery, Except.ok.injEq] at hold
  rw [← hold] at hquery'
  refine ⟨method_request hreq, rfl, rfl, by simp [ClientHelper.plainOptions], ?_⟩
  obtain ⟨q₁, hq₁, hfields₁⟩ := queryString_of_query hfirstQuery
  obtain ⟨all, hall, hvalues⟩ := exists_parameters_collected helper.plainOptions hq₁ rfl
    textParameters_empty rfl
  refine ⟨all, hall, fun k => ?_⟩
  have hauth : ∀ path, ({ helper.request with path := path } : HttpRequest).authHeaderParams
      = r.authHeaderParams := fun _ => hreq ▸ hsameAuth
  have hpost : ∀ path, ({ helper.request with path := path } : HttpRequest).postParams
      = r.postParams := fun _ => hreq ▸ hsamePost
  rw [hauth, hpost, Option.toList_some, List.flatMap_singleton, hquery'] at hfields₁
  have hperm := perm_query_iff rt (query.toList.flatMap cgiFields)
    (r.authHeaderParams.toList.flatMap cgiFields ++ r.postParams.toList.flatMap cgiFields) htext k
  rw [← List.append_assoc, ← List.append_assoc] at hperm
  rw [hvalues, hfields₁, requestFields]
  exact hperm

end

theorem comparedWith_scheme {first : HttpRequest} {so : SignatureOptions} {query : Option Bytes}
    (hhelper : signingHelper rt http r c token o g = .ok helper)
    (hquery : r.queryParams = .ok query) (hfirst : helper.signedRequest rt = .ok (first, so)) :
    ComparedWith r query helper (SchemeKeeps r query helper) first so := by
  obtain ⟨full, hash, -, hspec⟩ := signingHelper_eq_ok hhelper
  have hreq : helper.request = amendUserAgent r := by rw [hspec]
  rw [ClientHelper.signedRequest] at hfirst
  unfold SchemeKeeps
  cases hs : helper.options.scheme with
  | header =>
      rw [hs] at hfirst
      obtain ⟨rfl, rfl⟩ := Prod.mk.inj (Except.ok.inj hfirst)
      exact comparedWith_header hreq hquery
  | body =>
      rw [hs] at hfirst
      obtain ⟨first', hform, heq⟩ := Except.bind_eq_ok.1 hfirst
      obtain ⟨rfl, rfl⟩ := Prod.mk.inj (Except.ok.inj heq)
      exact comparedWith_body hreq hquery hform
  | queryString =>
      rw [hs] at hfirst
      obtain ⟨first', hform, heq⟩ := Except.bind_eq_ok.1 hfirst
      obtain ⟨rfl, rfl⟩ := Prod.mk.inj (Except.ok.inj heq)
      exact comparedWith_queryString hreq hquery hform

/-! ## Where they agree -/

/-- When the preview is what is signed: it is computed by a digest method, no parameter is left
    unsigned, and the scheme signs under every other name what the preview shows. -/
structure PreviewMatches (r : HttpRequest) (query : Option Bytes) (helper : ClientHelper) : Prop where
  method : ∃ name m, methodName (r.proxy helper.previewOptions) = .ok name ∧
    availableMethod name = some m ∧ m ≠ .plaintext
  unsigned : ∀ k ∈ helper.options.unsignedParameters.getD [], k ≠ ascii "oauth_signature" →
    k ∉ (requestFields r query).map Prod.fst ∧ helper.oauthParameters.lookup k = none
  kept : ∀ k, k ∉ helper.options.unsignedParameters.getD [] → k ≠ ascii "oauth_signature" →
    SchemeKeeps r query helper k

theorem collectedValues_eq_nil {fields : List (Bytes × Option Bytes)} {oauthParams : Params}
    {k : Bytes} : collectedValues fields oauthParams k = [] ↔
      k ∉ fields.map Prod.fst ∧ oauthParams.lookup k = none := by
  rw [collectedValues]
  split
  · simp_all
  · next v hv hp => simp [hp]
  · next hp =>
      rw [and_iff_left hp]
      split
      · next hk => split <;> simp_all
      · next hk => simp [hk]

/-- **The preview is the string whose HMAC is sent exactly where no parameter is unsigned and the
    scheme adds nothing.** -/
theorem oauth_preview_iff (rt : Runtime) (http : Connection) (r signed : HttpRequest) (c : Consumer)
    (token : Option Token) (o : RequestOptions) (g g' : Generated) (helper : ClientHelper)
    (hn : o.nonce.isSome = true) (ht : o.timestamp.isSome = true)
    (hhelper : signingHelper rt http r c token o g = .ok helper)
    (hhmac : ∀ first so, helper.signedRequest rt = .ok (first, so) → ∃ name m,
      methodName (first.proxy so) = .ok name ∧ availableMethod name = some m ∧
        (m = .hmacSha1 ∨ m = .hmacSha256))
    (h : oauth rt http r c token o g = .ok signed) :
    ∃ first so query key base s, helper.signedRequest rt = .ok (first, so) ∧
      helper.placeSignature rt first s = .ok signed ∧
      (first.proxy so).signatureBaseString rt = .ok base ∧
      (s = encodeDigest rt (rt.hmacSha1 key base) ∨ s = encodeDigest rt (rt.hmacSha256 key base)) ∧
      r.queryParams = .ok query ∧
      (r.signatureBaseString rt http c token o g' = .ok base ↔ PreviewMatches r query helper) := by
  obtain ⟨first, so, s, hfirst, hsign, hplaced⟩ := (oauth_eq_ok hhelper).1 h
  obtain ⟨full, hash, hfull, hspec⟩ := signingHelper_eq_ok hhelper
  obtain ⟨query, hquery⟩ := exists_queryParams hfull
  -- the signature is the HMAC of the base string of what the scheme signs
  obtain ⟨key, base, hbase, hs⟩ : ∃ key base, (first.proxy so).signatureBaseString rt = .ok base ∧
      (s = encodeDigest rt (rt.hmacSha1 key base) ∨
        s = encodeDigest rt (rt.hmacSha256 key base)) := by
    obtain ⟨name, m, hname, hm, hkind⟩ := hhmac first so hfirst
    obtain ⟨name', m', hname', hm', hsig⟩ := sign_eq_ok.1 hsign
    obtain rfl : name = name' := Except.ok.inj (hname.symm.trans hname')
    obtain rfl : m = m' := Option.some.inj (hm.symm.trans hm')
    rcases hkind with rfl | rfl
    · obtain ⟨base, hbase, rfl⟩ := signature_hmacSha1.1 hsig
      exact ⟨_, base, hbase, .inl rfl⟩
    · obtain ⟨base, hbase, rfl⟩ := signature_hmacSha256.1 hsig
      exact ⟨_, base, hbase, .inr rfl⟩
  refine ⟨first, so, query, key, base, s, hfirst, hplaced, hbase, hs, hquery, ?_⟩
  obtain ⟨hmethod, huri, hunsigned, htext, all, hall, hkeeps⟩ :=
    comparedWith_scheme hhelper hquery hfirst
  obtain ⟨uri, params, hnormal, hparams, rfl⟩ := (signatureBaseString_proxy htext).1 hbase
  obtain rfl : all = params := Except.ok.inj (hall.symm.trans hparams)
  -- the preview of the same three parts
  obtain ⟨q, hq, hfields⟩ := queryString_of_query hquery
  have hfields : cgiFields q = requestFields r query := hfields
  have hpreviewText : ∀ ps ∈ helper.previewOptions.parameters, TextParameters ps :=
    fun ps hps => Option.some.inj hps ▸ textParameters_oauthParameters helper
  have hclobber : helper.previewOptions.clobberRequest = false := rfl
  have hpreview := parameters_of_queryString hq hclobber
  have hbases : (r.proxy helper.previewOptions).signatureBaseString rt
        = .ok (joinWith ampersand ([first.method, uri, normalForm (flatPairs
          (all.select (first.proxy so).isSigned).entries)].map escapeBytes)) ↔
      ∀ k, (if (r.proxy helper.previewOptions).isSigned k then
          collectedValues (requestFields r query) helper.oauthParameters k else []).Perm
        (if (first.proxy so).isSigned k then valuesOf k (flatPairs all.entries) else []) := by
    have hvalues : ∀ k, valuesOf k (flatPairs (collected q helper.oauthParameters).entries)
        = collectedValues (requestFields r query) helper.oauthParameters k := by
      intro k
      rw [valuesOf_collected q (textParameters_oauthParameters helper), hfields]
    have hsame : r.method = first.method := hmethod.symm
    rw [huri] at hnormal
    simp only [← hvalues]
    rw [← normalForm_select_inj]
    constructor
    · intro hbase'
      obtain ⟨uri', params', -, hparams', heq⟩ := (signatureBaseString_proxy hpreviewText).1 hbase'
      obtain rfl := Except.ok.inj (hpreview.symm.trans hparams')
      exact (baseString_inj.1 heq).2.2.symm
    · intro heq
      refine (signatureBaseString_proxy hpreviewText).2 ⟨uri, _, hnormal, hpreview, ?_⟩
      exact baseString_inj.2 ⟨hsame.symm, rfl, heq.symm⟩
  have hshown : ∀ k, (r.proxy helper.previewOptions).isSigned k = true ↔
      k ≠ ascii "oauth_signature" := by
    intro k
    simp [Proxy.isSigned, Proxy.signatureAndUnsignedParameters, HttpRequest.proxy,
      ClientHelper.previewOptions]
  have hsigned : ∀ k, (first.proxy so).isSigned k = true ↔
      k ∉ helper.options.unsignedParameters.getD [] ∧ k ≠ ascii "oauth_signature" := by
    intro k
    rw [← hunsigned]
    simp [Proxy.isSigned, Proxy.signatureAndUnsignedParameters, HttpRequest.proxy]
  rw [signatureBaseString_eq_preview hn ht hhelper, signatureBaseString_eq_ok_iff, hbases]
  simp only [hshown, hsigned]
  constructor
  · rintro ⟨hmethod, hperm⟩
    refine ⟨hmethod, ?_, ?_⟩
    · intro k hk hne
      have hk' := hperm k
      rw [if_pos hne, if_neg (fun h => h.1 hk)] at hk'
      exact collectedValues_eq_nil.1 hk'.eq_nil
    · intro k hk hne
      have hk' := hperm k
      rw [if_pos hne, if_pos ⟨hk, hne⟩] at hk'
      exact (hkeeps k).1 hk'
  · intro hmatches
    refine ⟨hmatches.method, fun k => ?_⟩
    by_cases hne : k ≠ ascii "oauth_signature"
    · rw [if_pos hne]
      by_cases hk : k ∈ helper.options.unsignedParameters.getD []
      · rw [if_neg (fun h => h.1 hk), collectedValues_eq_nil.2 (hmatches.unsigned k hk hne)]
      · rw [if_pos ⟨hk, hne⟩]
        exact (hkeeps k).2 (hmatches.kept k hk hne)
    · rw [if_neg hne, if_neg (fun h => hne h.2)]

theorem searchRequest_preview_iff :
    ∃ helper signed, signingHelper printingRuntime exampleConnection searchRequest exampleConsumer none
        fixedOptions exampleGenerated = .ok helper ∧
      oauth printingRuntime exampleConnection searchRequest exampleConsumer none fixedOptions
        exampleGenerated = .ok signed ∧
      ∃ first so query key base s, helper.signedRequest printingRuntime = .ok (first, so) ∧
        helper.placeSignature printingRuntime first s = .ok signed ∧
        (first.proxy so).signatureBaseString printingRuntime = .ok base ∧
        (s = encodeDigest printingRuntime (printingRuntime.hmacSha1 key base) ∨
          s = encodeDigest printingRuntime (printingRuntime.hmacSha256 key base)) ∧
        searchRequest.queryParams = .ok query ∧
        (searchRequest.signatureBaseString printingRuntime exampleConnection exampleConsumer none
            fixedOptions exampleGenerated = .ok base ↔
          PreviewMatches searchRequest query helper) := by
  have hok : (oauth printingRuntime exampleConnection searchRequest exampleConsumer none fixedOptions
      exampleGenerated).isOk = true := by decide +kernel
  have hmethod : (do
      let helper ← signingHelper printingRuntime exampleConnection searchRequest exampleConsumer none
        fixedOptions exampleGenerated
      let signing ← helper.signedRequest printingRuntime
      methodName (signing.1.proxy signing.2)) = .ok (ascii "hmac-sha1") := by decide +kernel
  cases h : oauth printingRuntime exampleConnection searchRequest exampleConsumer none fixedOptions
      exampleGenerated with
  | error e =>
      rw [h] at hok
      exact absurd hok Bool.false_ne_true
  | ok signed =>
      obtain ⟨helper, hhelper, -⟩ := Except.bind_eq_ok.1 h
      rw [hhelper, Except.ok_bind] at hmethod
      have hhmac : ∀ first so, helper.signedRequest printingRuntime = .ok (first, so) → ∃ name m,
          methodName (first.proxy so) = .ok name ∧ availableMethod name = some m ∧
            (m = .hmacSha1 ∨ m = .hmacSha256) := by
        intro first so hfirst
        rw [hfirst] at hmethod
        exact ⟨_, .hmacSha1, hmethod, by decide, .inl rfl⟩
      exact ⟨helper, signed, hhelper, rfl, oauth_preview_iff printingRuntime exampleConnection
        searchRequest signed exampleConsumer none fixedOptions exampleGenerated exampleGenerated
        helper (by decide) (by decide) hhelper hhmac h⟩

/-- Nonce and timestamp given, and a parameter that is not to be signed. -/
def unsignedOptions : RequestOptions := { fixedOptions with unsignedParameters := some [ascii "a"] }

/-- The preview has the unsigned parameter; its HMAC is not the signature. -/
theorem searchRequest_preview_differs :
    (do
      let helper ← signingHelper printingRuntime exampleConnection searchRequest exampleConsumer none
        unsignedOptions exampleGenerated
      let signing ← helper.signedRequest printingRuntime
      let s ← sign printingRuntime (signing.1.proxy signing.2) signing.2
      let placed ← helper.placeSignature printingRuntime signing.1 s
      let signed ← oauth printingRuntime exampleConnection searchRequest exampleConsumer none
        unsignedOptions exampleGenerated
      let preview ← searchRequest.signatureBaseString printingRuntime exampleConnection
        exampleConsumer none unsignedOptions exampleGenerated
      let key := escapeBytes exampleConsumer.secret.toS ++ ampersand :: escapeBytes []
      Except.ok (signed.header (ascii "Authorization") == placed.header (ascii "Authorization"),
        s == encodeDigest printingRuntime (printingRuntime.hmacSha1 key preview)))
      = .ok (true, false) := by
  decide +kernel

end RubyOAuth
