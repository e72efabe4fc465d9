import RubyOAuth.Proofs.HeaderRoundTrip
import RubyOAuth.Proofs.Signing

set_option autoImplicit false

/-! # The body scheme

All parameters of the request go into a form body, those of the query among them; the signature is
made over this body and the query, and then all parameters go into the body once more. What stands in
the query is therefore signed twice and sent three times. -/

namespace RubyOAuth

open Bytes

variable {rt : Runtime}

/-! ## Form bodies -/

/-- A form component reads back. -/
theorem cgiUnescape_encodeFormComponent (s : Bytes) : cgiUnescape (encodeFormComponent s) = s := by
  rw [cgiUnescape, encodeFormComponent, List.map_map]
  generalize hsafe : (fun b => isAlnum b || b == 42 || b == minus || b == dot || b == underscore ||
    b == space) = safe
  have hplus : plus ∉ PercentCode.encode safe s := by
    refine PercentCode.not_mem_encode ?_ (by decide) (by decide) s
    rw [← hsafe]
    decide
  have hback : (PercentCode.encode safe s).map ((fun b => if b = plus then space else b) ∘
      (fun b => if b = space then plus else b)) = PercentCode.encode safe s := by
    refine (List.map_congr_left fun b hb => ?_).trans (List.map_id _)
    have hne : b ≠ plus := fun he => hplus (he ▸ hb)
    by_cases hs : b = space
    · rw [Function.comp, if_pos hs, if_pos rfl, hs, id]
    · rw [Function.comp, if_neg hs, if_neg hne, id]
  rw [hback]
  refine PercentCode.decode_encode ?_ s
  rw [← hsafe]
  decide

/-- No `&`, `;` or `=` stands in a form component. -/
theorem mem_encodeFormComponent {s : Bytes} {b : UInt8} (h : b ∈ encodeFormComponent s) :
    (b == ampersand || b == semicolon) = false ∧ b ≠ equal := by
  have hsafe : ∀ c : UInt8, (isAlnum c || c == 42 || c == minus || c == dot || c == underscore ||
      c == space) = true → (c == ampersand || c == semicolon) = false ∧ c ≠ equal := by
    decide +kernel
  have hdigit : ∀ c, PercentCode.isUpperHex c = true →
      (c == ampersand || c == semicolon) = false ∧ c ≠ equal := by
    decide +kernel
  obtain ⟨c, hc, rfl⟩ := List.mem_map.1 h
  split
  · decide
  · rcases PercentCode.mem_encode hc with hc | rfl | hc
    · exact hsafe c hc
    · decide
    · exact hdigit c hc

theorem encodeFormComponent_ne_nil {s : Bytes} (h : s ≠ []) : encodeFormComponent s ≠ [] := by
  intro he
  exact h (PercentCode.encode_eq_nil.1 (List.map_eq_nil_iff.1 he))

/-- The field that one value of a form is. -/
def formField (rt : Runtime) (k : Bytes) : Value → Bytes × Option Bytes
  | .nil => (k, none)
  | v => (k, some (v.toS rt))

/-- The fields that one parameter of a form is written as. -/
def formFields (rt : Runtime) (e : Bytes × Value) : List (Bytes × Option Bytes) :=
  match e.2 with
  | .arr vs => vs.map (formField rt e.1)
  | v => [formField rt e.1 v]

/-- The text of a field. -/
def formText (f : Bytes × Option Bytes) : Bytes :=
  match f.2 with
  | none => encodeFormComponent f.1
  | some v => encodeFormComponent f.1 ++ equal :: encodeFormComponent v

theorem cgiFields_formText {f : Bytes × Option Bytes} (h : f ≠ ([], none)) :
    cgiFields (formText f) = [f] := by
  obtain ⟨k, v⟩ := f
  have hno : ∀ s, equal ∉ encodeFormComponent s := fun s hs => (mem_encodeFormComponent hs).2 rfl
  cases v with
  | none =>
      have hk : k ≠ [] := by
        rintro rfl
        exact h rfl
      have htext : formText (k, none) = encodeFormComponent k := rfl
      rw [htext, cgiFields_of_not_sep (fun b hb => (mem_encodeFormComponent hb).1)
        (encodeFormComponent_ne_nil hk), cgiField, cut_of_not_mem (hno k),
        cgiUnescape_encodeFormComponent]
      rfl
  | some v =>
      have htext : formText (k, some v) = encodeFormComponent k ++ equal :: encodeFormComponent v := rfl
      have hsep : ∀ b ∈ formText (k, some v), (b == ampersand || b == semicolon) = false := by
        intro b hb
        rw [htext, List.mem_append, List.mem_cons] at hb
        rcases hb with hb | rfl | hb
        · exact (mem_encodeFormComponent hb).1
        · decide
        · exact (mem_encodeFormComponent hb).1
      rw [cgiFields_of_not_sep hsep (by simp [htext]), htext, cgiField, cut_append (hno k),
        cgiUnescape_encodeFormComponent, Option.map_some, cgiUnescape_encodeFormComponent]

theorem encodeForm_eq (rt : Runtime) (params : Params) :
    encodeForm rt params
      = joinWith ampersand (params.entries.map (fun e =>
          joinWith ampersand ((formFields rt e).map formText))) := by
  have htext : ∀ k v, (match v with
      | .nil => encodeFormComponent k
      | v => encodeFormComponent k ++ equal :: encodeFormComponent (v.toS rt))
        = formText (formField rt k v) := by
    intro k v
    cases v <;> rfl
  rw [encodeForm]
  congr 1
  refine List.map_congr_left fun e _ => ?_
  obtain ⟨k, v⟩ := e
  have hone := (htext k v).trans (joinWith_singleton ampersand _).symm
  simp only [formFields]
  cases v with
  | arr vs =>
      simp only [List.map_map]
      congr 1
      exact List.map_congr_left fun v _ => htext k v
  | _ => exact hone

/-- **A form body reads back as the fields it was made of.** -/
theorem cgiFields_encodeForm (rt : Runtime) {params : Params}
    (h : ∀ e ∈ params.entries, ([], none) ∉ formFields rt e) :
    cgiFields (encodeForm rt params) = params.entries.flatMap (formFields rt) := by
  rw [encodeForm_eq, cgiFields_joinWith, List.flatMap_map]
  refine List.flatMap_congr fun e he => ?_
  rw [cgiFields_joinWith, List.flatMap_map]
  refine (List.flatMap_congr fun f hf => cgiFields_formText fun hn => h e he (hn ▸ hf)).trans ?_
  exact List.flatMap_singleton' _

theorem name_of_mem_formFields {e : Bytes × Value} : ∀ f ∈ formFields rt e, f.1 = e.1 := by
  have hfield : ∀ v, (formField rt e.1 v).1 = e.1 := by
    intro v
    cases v <;> rfl
  intro f hf
  rw [formFields] at hf
  split at hf
  · obtain ⟨v, -, rfl⟩ := List.mem_map.1 hf
    exact hfield v
  · rw [List.mem_singleton.1 hf]
    exact hfield e.2

/-- The values a form body has under one name. -/
theorem valuesOf_formFields (rt : Runtime) (params : Params) (k : Bytes) :
    valuesOf k (params.entries.flatMap (formFields rt))
      = ((params.lookup k).map (fun v => (formFields rt (k, v)).map Prod.snd)).getD [] :=
  OrderedHash.valuesOf_flatMap (fun _ => name_of_mem_formFields) params.nodup k

/-! ## The two bodies -/

/-- The request that `set_oauth_body` signs: the parameters of the request and those of OAuth in the
    body. -/
def ClientHelper.formRequest (rt : Runtime) (h : ClientHelper) : Except RubyError HttpRequest := do
  let params ← h.request.parameters {}
  .ok (setFormData rt h.request (h.oauthParameters.merge params))

theorem parameters_empty_eq_ok {r : HttpRequest} {params : Params} :
    r.parameters {} = .ok params ↔ ∃ q, r.queryString = .ok q ∧ params = collected q OrderedHash.empty := by
  constructor
  · intro h
    have hproxy : (r.proxy {}).parameters = .ok params := h
    exact parameters_eq_ok hproxy rfl rfl
  · rintro ⟨q, hq, rfl⟩
    have hplain : ({} : SignatureOptions).clobberRequest = false := rfl
    exact parameters_of_queryString hq hplain

theorem ClientHelper.formRequest_eq_ok {h : ClientHelper} {first : HttpRequest} :
    h.formRequest rt = .ok first ↔ ∃ q, h.request.queryString = .ok q ∧
      first = setFormData rt h.request (h.oauthParameters.merge (collected q OrderedHash.empty)) := by
  rw [ClientHelper.formRequest, Except.bind_eq_ok]
  constructor
  · rintro ⟨params, hparams, h⟩
    obtain ⟨q, hq, rfl⟩ := parameters_empty_eq_ok.1 hparams
    exact ⟨q, hq, (Except.ok.inj h).symm⟩
  · rintro ⟨q, hq, rfl⟩
    exact ⟨_, parameters_empty_eq_ok.2 ⟨q, hq, rfl⟩, rfl⟩

theorem setOauthBody_eq_ok {helper : ClientHelper} {signed : HttpRequest} :
    setOauthBody rt helper = .ok signed ↔ ∃ first params s, helper.formRequest rt = .ok first ∧
      first.parameters {} = .ok params ∧ helper.plainSignature rt first = .ok s ∧
      signed = setFormData rt first (params.set (ascii "oauth_signature") (.str s)) := by
  rw [setOauthBody, Except.bind_eq_ok]
  constructor
  · rintro ⟨params, hparams, h⟩
    obtain ⟨params', hparams', h⟩ := Except.bind_eq_ok.1 h
    obtain ⟨s, hs, h⟩ := Except.bind_eq_ok.1 h
    exact ⟨_, params', s, Except.bind_eq_ok.2 ⟨params, hparams, rfl⟩, hparams', hs,
      (Except.ok.inj h).symm⟩
  · rintro ⟨first, params', s, hfirst, hparams', hs, rfl⟩
    obtain ⟨params, hparams, hfirst⟩ := Except.bind_eq_ok.1 hfirst
    rw [← Except.ok.inj hfirst] at hparams' hs ⊢
    exact ⟨params, hparams, Except.bind_eq_ok.2 ⟨params', hparams', Except.bind_eq_ok.2 ⟨s, hs, rfl⟩⟩⟩

/-- Of a request with a new form body, query and header are what they were; the body is read where the
    method is `POST` or `PUT`. -/
theorem setFormData_fields (rt : Runtime) (r : HttpRequest) (params : Params) :
    (setFormData rt r params).queryParams = r.queryParams ∧
      (setFormData rt r params).authHeaderParams = r.authHeaderParams ∧
      (setFormData rt r params).postParams
        = if r.isPostOrPut then some (encodeForm rt params) else none := by
  have hform : (setFormData rt r params).formUrlEncoded = true := by
    rw [HttpRequest.formUrlEncoded, setFormData, header_withHeader, if_pos rfl]
    decide +kernel
  have hauth : (setFormData rt r params).authHeaderParams = r.authHeaderParams := by
    rw [HttpRequest.authHeaderParams, setFormData, header_withHeader, if_neg (by decide)]
    rfl
  have hmethod : (setFormData rt r params).isPostOrPut = r.isPostOrPut := rfl
  refine ⟨rfl, hauth, ?_⟩
  rw [HttpRequest.postParams, hmethod, hform, Bool.and_true]
  rfl

theorem postParams_of_not_isPostOrPut {r : HttpRequest} (h : r.isPostOrPut = false) :
    r.postParams = none := by
  rw [HttpRequest.postParams, h, Bool.false_and, if_neg Bool.false_ne_true]

theorem queryString_setFormData (rt : Runtime) {r : HttpRequest} {query : Option Bytes}
    (hquery : r.queryParams = .ok query) (params : Params) :
    ∃ q, (setFormData rt r params).queryString = .ok q ∧
      cgiFields q = query.toList.flatMap cgiFields ++ r.authHeaderParams.toList.flatMap cgiFields ++
        if r.isPostOrPut then cgiFields (encodeForm rt params) else [] := by
  obtain ⟨hsame, hauth, hpost⟩ := setFormData_fields rt r params
  obtain ⟨q, hq, hfields⟩ := queryString_of_query (hsame.trans hquery)
  refine ⟨q, hq, ?_⟩
  rw [hfields, hauth, hpost]
  split
  · rw [Option.toList_some, List.flatMap_singleton]
  · rfl

/-! ## What is signed and what is sent -/

/-- The values that the first body has under one name: those of the request, wherever they stand, and
    the OAuth parameter only where the request has no such name. -/
def firstBodyValues (fields : List (Bytes × Option Bytes)) (oauthParams : Params) (k : Bytes) :
    List (Option Bytes) :=
  if k ∈ fields.map Prod.fst then (fieldValues k fields).map some
  else match oauthParams.lookup k with
    | none => []
    | some (.str s) => [some s]
    | some _ => [none]

/-- When sending adds nothing to what was signed: a name of the query has no value anywhere and stands
    in the query once, a name of the `Authorization` header that has no value is one of the query, and
    no OAuth parameter goes without a value. -/
structure BodyKeepsPairs (query header body : List (Bytes × Option Bytes)) (oauthParams : Params)
    (signed : Bytes → Bool) : Prop where
  once : ∀ f ∈ query, signed f.1 = true →
    fieldValues f.1 (query ++ header ++ body) = [] ∧ (valuesOf f.1 query).length = 1
  valued : ∀ f ∈ header, signed f.1 = true →
    fieldValues f.1 (query ++ header ++ body) = [] → f.1 ∈ query.map Prod.fst
  given : ∀ k, signed k = true → oauthParams.lookup k = some .nil →
    k ∈ (query ++ header ++ body).map Prod.fst

theorem name_mem_iff_valuesOf {k : Bytes} {fs : List (Bytes × Option Bytes)} :
    k ∈ fs.map Prod.fst ↔ valuesOf k fs ≠ [] := by
  rw [ne_eq, valuesOf_eq_nil, not_not]

section

variable {query header body first : List (Bytes × Option Bytes)} {oauthParams : Params}
  {signed : Bytes → Bool} {k : Bytes}

theorem mem_names_of_mem_query (hk : k ∈ query.map Prod.fst) (fs : List (Bytes × Option Bytes)) :
    k ∈ (query ++ header ++ fs).map Prod.fst := by
  rw [List.map_append, List.map_append]
  exact List.mem_append_left _ (List.mem_append_left _ hk)

theorem mem_names_of_mem_header (hk : k ∈ header.map Prod.fst) (fs : List (Bytes × Option Bytes)) :
    k ∈ (query ++ header ++ fs).map Prod.fst := by
  rw [List.map_append, List.map_append]
  exact List.mem_append_left _ (List.mem_append_right _ hk)

/-- What the signed fields have under the name is kept: the name has values and is not one of the query,
    or has none and stands in the query once. -/
def KeepsName (query header first : List (Bytes × Option Bytes)) (k : Bytes) : Prop :=
  k ∈ (query ++ header ++ first).map Prod.fst →
    if fieldValues k (query ++ header ++ first) = [] then (valuesOf k query).length = 1
    else k ∉ query.map Prod.fst

/-- The first body has no values of its own. -/
theorem fieldValues_of_not_named (hk : k ∉ (query ++ header ++ body).map Prod.fst) :
    fieldValues k (query ++ header ++ first) = fieldValues k first := by
  rw [List.map_append, List.mem_append, not_or] at hk
  rw [fieldValues_append, fieldValues_of_not_mem hk.1, List.nil_append]

variable (hfirst : ∀ k, valuesOf k first = firstBodyValues (query ++ header ++ body) oauthParams k)

include hfirst

theorem valuesOf_first_of_named (hk : k ∈ (query ++ header ++ body).map Prod.fst) :
    valuesOf k first = (fieldValues k (query ++ header ++ body)).map some := by
  rw [hfirst, firstBodyValues, if_pos hk]

/-- A name of the request has a value where the first body is sent if it has one in the request. -/
theorem fieldValues_eq_nil_of_named (hk : k ∈ (query ++ header ++ body).map Prod.fst) :
    fieldValues k (query ++ header ++ first) = [] ↔ fieldValues k (query ++ header ++ body) = [] := by
  have hone : fieldValues k first = fieldValues k (query ++ header ++ body) := by
    rw [fieldValues, valuesOf_first_of_named hfirst hk, List.filterMap_map]
    exact List.filterMap_some
  rw [fieldValues_append, hone, List.append_eq_nil_iff]
  constructor
  · exact fun h => h.2
  · intro h
    refine ⟨?_, h⟩
    rw [fieldValues_append, List.append_eq_nil_iff] at h
    exact h.1

/-- A name of the request outside its query: without a value it stands in no first body. -/
theorem BodyKeepsPairs.value_of_named (h : BodyKeepsPairs query header body oauthParams signed)
    (hk : signed k = true) (hq : k ∉ query.map Prod.fst)
    (hin : k ∈ (query ++ header ++ body).map Prod.fst)
    (hmem : k ∈ (query ++ header ++ first).map Prod.fst) :
    fieldValues k (query ++ header ++ first) ≠ [] := by
  intro hnil
  have hnone := (fieldValues_eq_nil_of_named hfirst hin).1 hnil
  have hnot : k ∉ first.map Prod.fst := by
    rw [← valuesOf_eq_nil, valuesOf_first_of_named hfirst hin, hnone]
    rfl
  simp only [List.map_append, List.mem_append, hq, hnot, false_or, or_false] at hmem
  obtain ⟨f, hf, rfl⟩ := List.mem_map.1 hmem
  exact hq (h.valued f hf hk hnone)

/-- A name that only the OAuth parameters have: they are not `nil`. -/
theorem BodyKeepsPairs.value_of_given (ht : TextParameters oauthParams)
    (h : BodyKeepsPairs query header body oauthParams signed) (hk : signed k = true)
    (hin : k ∉ (query ++ header ++ body).map Prod.fst)
    (hmem : k ∈ (query ++ header ++ first).map Prod.fst) :
    fieldValues k (query ++ header ++ first) ≠ [] := by
  rw [fieldValues_of_not_named hin]
  intro hnil
  have hone := hfirst k
  rw [firstBodyValues, if_neg hin] at hone
  cases hp : oauthParams.lookup k with
  | none =>
      simp only [hp] at hone
      rw [List.map_append, List.mem_append] at hin hmem
      exact hmem.elim (fun h => hin (.inl h)) (valuesOf_eq_nil.1 hone)
  | some v =>
      rcases ht k v hp with rfl | ⟨s, rfl⟩
      · exact hin (h.given k hk hp)
      · simp only [hp] at hone
        rw [fieldValues, hone] at hnil
        simp at hnil

/-- An OAuth parameter that is `nil` would be sent without a value and without a place in the query. -/
theorem named_of_keepsName (hp : oauthParams.lookup k = some .nil)
    (h : KeepsName query header first k) : k ∈ (query ++ header ++ body).map Prod.fst := by
  by_contra hin
  have hone := hfirst k
  rw [firstBodyValues, if_neg hin] at hone
  simp only [hp] at hone
  have hmem : k ∈ first.map Prod.fst := by
    rw [name_mem_iff_valuesOf, hone]
    simp
  have hname := h (by
    rw [List.map_append, List.mem_append]
    exact .inr hmem)
  have hnil : fieldValues k (query ++ header ++ first) = [] := by
    rw [fieldValues_of_not_named hin, fieldValues, hone]
    rfl
  rw [if_pos hnil] at hname
  refine hin (mem_names_of_mem_query ?_ _)
  rw [name_mem_iff_valuesOf]
  intro hnone
  simp [hnone] at hname

/-- **The condition, name by name.** -/
theorem bodyKeepsPairs_iff (ht : TextParameters oauthParams) :
    BodyKeepsPairs query header body oauthParams signed ↔
      ∀ k, signed k = true → KeepsName query header first k := by
  constructor
  · intro h k hk hmem
    by_cases hq : k ∈ query.map Prod.fst
    · obtain ⟨f, hf, rfl⟩ := List.mem_map.1 hq
      obtain ⟨hnone, hone⟩ := h.once f hf hk
      rw [if_pos ((fieldValues_eq_nil_of_named hfirst (mem_names_of_mem_query hq _)).2 hnone)]
      exact hone
    · rw [if_neg]
      · exact hq
      by_cases hin : k ∈ (query ++ header ++ body).map Prod.fst
      · exact h.value_of_named hfirst hk hq hin hmem
      · exact h.value_of_given hfirst ht hk hin hmem
  · intro h
    refine ⟨?_, ?_, fun k hk hp => named_of_keepsName hfirst hp (h k hk)⟩
    · intro f hf hk
      have hin := List.mem_map_of_mem (f := Prod.fst) hf
      have hname := h f.1 hk (mem_names_of_mem_query hin _)
      split at hname
      · next hnil =>
          exact ⟨(fieldValues_eq_nil_of_named hfirst (mem_names_of_mem_query hin _)).1 hnil, hname⟩
      · exact absurd hin hname
    · intro f hf hk hnone
      have hin := List.mem_map_of_mem (f := Prod.fst) hf
      have hname := h f.1 hk (mem_names_of_mem_header hin _)
      rw [if_pos ((fieldValues_eq_nil_of_named hfirst (mem_names_of_mem_header hin _)).2 hnone)]
        at hname
      rw [name_mem_iff_valuesOf]
      intro hnil
      simp [hnil] at hname

end

theorem valuesOf_fieldPairs (k : Bytes) (fs : List (Bytes × Option Bytes)) :
    valuesOf k (fs.map (fun f => (f.1, f.2.getD []))) = (valuesOf k fs).map (fun v => v.getD []) := by
  induction fs with
  | nil => rfl
  | cons f rest ih =>
      rw [List.map_cons, valuesOf_cons, valuesOf_cons, ih]
      split
      · rfl
      · rfl

/-- The pairs of query and body under the signed names. -/
def sentPairs (signed : Bytes → Bool) (query : Option Bytes) (body : Bytes) : List (Bytes × Bytes) :=
  (query.toList.flatMap formPairs ++ formPairs body).filter (fun p => signed p.1)

theorem valuesOf_sentPairs (signed : Bytes → Bool) (query : Option Bytes) (body k : Bytes) :
    valuesOf k (sentPairs signed query body)
      = if signed k then
          (valuesOf k (query.toList.flatMap cgiFields)).map (fun v => v.getD []) ++
            (valuesOf k (cgiFields body)).map (fun v => v.getD [])
        else [] := by
  have hquery : query.toList.flatMap formPairs
      = (query.toList.flatMap cgiFields).map (fun f => (f.1, f.2.getD [])) := by
    rw [List.map_flatMap]
    rfl
  have hall : valuesOf k (query.toList.flatMap formPairs ++ formPairs body)
      = (valuesOf k (query.toList.flatMap cgiFields)).map (fun v => v.getD []) ++
        (valuesOf k (cgiFields body)).map (fun v => v.getD []) := by
    rw [hquery, formPairs, valuesOf_append, valuesOf_fieldPairs, valuesOf_fieldPairs]
  rw [← hall, sentPairs, valuesOf, List.filter_filter, valuesOf]
  by_cases hk : signed k = true
  · rw [if_pos hk]
    congr 1
    refine List.filter_congr fun p _ => ?_
    by_cases hp : p.1 = k
    · simp [hp, hk]
    · simp [hp]
  · rw [if_neg hk, List.filter_eq_nil_iff.2]
    · rfl
    · intro p _ hp
      rw [Bool.and_eq_true, decide_eq_true_eq] at hp
      exact hk (hp.1 ▸ hp.2)

/-- Under one name, adding the fields of the query to the values collected adds nothing exactly where
    the query has none, or one field that stood for the empty value. -/
theorem collectedValues_perm_sent_iff {query rest : List (Bytes × Option Bytes)} {k : Bytes} :
    (collectedValues (query ++ rest) OrderedHash.empty k).Perm
        ((valuesOf k query).map (fun v => v.getD []) ++
          if k ∈ (query ++ rest).map Prod.fst then fieldValues k (query ++ rest) else []) ↔
      (k ∈ (query ++ rest).map Prod.fst →
        if fieldValues k (query ++ rest) = [] then (valuesOf k query).length = 1
        else k ∉ query.map Prod.fst) := by
  have hcollected : collectedValues (query ++ rest) OrderedHash.empty k
      = if k ∈ (query ++ rest).map Prod.fst then
          if fieldValues k (query ++ rest) = [] then [[]] else fieldValues k (query ++ rest)
        else [] := rfl
  rw [hcollected]
  by_cases hmem : k ∈ (query ++ rest).map Prod.fst
  · rw [if_pos hmem, if_pos hmem]
    by_cases hnil : fieldValues k (query ++ rest) = []
    · rw [if_pos hnil, if_pos hnil, hnil, List.append_nil]
      constructor
      · intro h _
        have hlen := h.length_eq
        rw [List.length_map] at hlen
        exact hlen.symm
      · intro h
        obtain ⟨v, hv⟩ := List.length_eq_one_iff.1 (h hmem)
        rw [fieldValues_append, List.append_eq_nil_iff, fieldValues, hv] at hnil
        cases v with
        | none => rw [hv]; rfl
        | some x => simp at hnil
    · rw [if_neg hnil, if_neg hnil]
      constructor
      · intro h _
        have hlen := h.length_eq
        rw [List.length_append, List.length_map] at hlen
        rw [← valuesOf_eq_nil, ← List.length_eq_zero_iff]
        omega
      · intro h
        rw [valuesOf_eq_nil.2 (h hmem)]
        exact .refl _
  · rw [if_neg hmem, if_neg hmem]
    have hquery : k ∉ query.map Prod.fst := by
      intro hk
      rw [List.map_append] at hmem
      exact hmem (List.mem_append_left _ hk)
    rw [valuesOf_eq_nil.2 hquery]
    exact iff_of_true (.refl _) (fun h => absurd h hmem)

theorem formFields_strings (rt : Runtime) (k : Bytes) (ss : List Bytes) :
    formFields rt (k, .arr (ss.map Value.str)) = ss.map (fun s => (k, some s)) := by
  rw [formFields]
  exact List.map_map

/-- The values that a form body has under a name are those of the parameter, if the empty name has no
    `nil`. -/
theorem valuesOf_encodeForm (rt : Runtime) {params : Params}
    (h : ∀ v, params.lookup [] = some v → ∃ ss : List Bytes, v = .arr (ss.map Value.str)) (k : Bytes) :
    valuesOf k (cgiFields (encodeForm rt params))
      = ((params.lookup k).map (fun v => (formFields rt (k, v)).map Prod.snd)).getD [] := by
  have hnamed : ∀ e ∈ params.entries, ([], none) ∉ formFields rt e := by
    rintro ⟨n, v⟩ he hf
    obtain rfl : [] = n := name_of_mem_formFields _ hf
    obtain ⟨ss, rfl⟩ := h v (OrderedHash.mem_entries.1 he)
    rw [formFields_strings] at hf
    obtain ⟨s, -, hs⟩ := List.mem_map.1 hf
    simp at hs
  rw [cgiFields_encodeForm rt hnamed, valuesOf_formFields]

/-- The fields of the first body, name by name. -/
theorem valuesOf_firstBody (rt : Runtime) {q : Bytes} {oauthParams : Params}
    (ht : TextParameters oauthParams) (hempty : oauthParams.lookup [] = none) (k : Bytes) :
    valuesOf k (cgiFields (encodeForm rt (oauthParams.merge (collected q OrderedHash.empty))))
      = firstBodyValues (cgiFields q) oauthParams k := by
  have hlookup : ∀ n, (oauthParams.merge (collected q OrderedHash.empty)).lookup n
      = if n ∈ (cgiFields q).map Prod.fst then
          some (.arr ((fieldValues n (cgiFields q)).map Value.str)) else oauthParams.lookup n := by
    intro n
    rw [OrderedHash.lookup_merge, lookup_collected_empty]
    split
    · rfl
    · rfl
  have hnamed : ∀ v, (oauthParams.merge (collected q OrderedHash.empty)).lookup [] = some v →
      ∃ ss : List Bytes, v = .arr (ss.map Value.str) := by
    intro v hv
    rw [hlookup, hempty] at hv
    split at hv
    · exact ⟨_, (Option.some.inj hv).symm⟩
    · simp at hv
  rw [valuesOf_encodeForm rt hnamed, hlookup, firstBodyValues]
  split
  · rw [Option.map_some, Option.getD_some, formFields_strings, List.map_map]
    rfl
  · cases hp : oauthParams.lookup k with
    | none => rfl
    | some v => rcases ht k v hp with rfl | ⟨s, rfl⟩ <;> rfl

/-- The fields of the second body, name by name. -/
theorem valuesOf_signedBody (rt : Runtime) (q s k : Bytes) :
    valuesOf k (cgiFields (encodeForm rt ((collected q OrderedHash.empty).set
        (ascii "oauth_signature") (.str s))))
      = if k = ascii "oauth_signature" then [some s]
        else if k ∈ (cgiFields q).map Prod.fst then (fieldValues k (cgiFields q)).map some else [] := by
  have hnamed : ∀ v, ((collected q OrderedHash.empty).set (ascii "oauth_signature")
      (.str s)).lookup [] = some v → ∃ ss : List Bytes, v = .arr (ss.map Value.str) := by
    intro v hv
    rw [OrderedHash.lookup_set, if_neg (by decide), lookup_collected_empty] at hv
    split at hv
    · exact ⟨_, (Option.some.inj hv).symm⟩
    · simp at hv
  rw [valuesOf_encodeForm rt hnamed, OrderedHash.lookup_set, lookup_collected_empty]
  split
  · rfl
  · split
    · rw [Option.map_some, Option.getD_some, formFields_strings, List.map_map]
      rfl
    · rfl

/-- The fields of the two bodies: the first is made of those of the request and the OAuth parameters,
    the second of those outside the body and, where the body is read, of the first. -/
theorem oauth_body_eq_ok {http : Connection} {r signed : HttpRequest} {c : Consumer}
    {token : Option Token} {o : RequestOptions} {g : Generated} {helper : ClientHelper}
    (hscheme : o.scheme = .body) (hhelper : signingHelper rt http r c token o g = .ok helper)
    (h : oauth rt http r c token o g = .ok signed) :
    ∃ query q₀ q₁ first s, r.queryParams = .ok query ∧ helper.request.queryParams = .ok query ∧
      first = setFormData rt helper.request
        (helper.oauthParameters.merge (collected q₀ OrderedHash.empty)) ∧
      helper.formRequest rt = .ok first ∧
      first.parameters {} = .ok (collected q₁ OrderedHash.empty) ∧
      helper.plainSignature rt first = .ok s ∧
      signed = setFormData rt first
        ((collected q₁ OrderedHash.empty).set (ascii "oauth_signature") (.str s)) ∧
      cgiFields q₀ = query.toList.flatMap cgiFields ++ r.authHeaderParams.toList.flatMap cgiFields ++
        r.postParams.toList.flatMap cgiFields ∧
      cgiFields q₁ = query.toList.flatMap cgiFields ++ r.authHeaderParams.toList.flatMap cgiFields ++
        if r.isPostOrPut then cgiFields (encodeForm rt
          (helper.oauthParameters.merge (collected q₀ OrderedHash.empty))) else [] := by
  rw [oauth, hhelper, Except.ok_bind, hscheme] at h
  obtain ⟨first, params, s, hfirst, hparams, hs, hsigned⟩ := setOauthBody_eq_ok.1 h
  obtain ⟨full, hash, -, hspec⟩ := signingHelper_eq_ok hhelper
  have hreq : helper.request = amendUserAgent r := by rw [hspec]
  obtain ⟨headers, hagent⟩ := amendUserAgent_eq r
  have hpost : helper.request.isPostOrPut = r.isPostOrPut := by
    rw [hreq, hagent]
    rfl
  obtain ⟨q₀, hq₀, heq⟩ := ClientHelper.formRequest_eq_ok.1 hfirst
  obtain ⟨query, hquery, hfields₀⟩ := cgiFields_queryString hq₀
  obtain ⟨hsameQuery, hsamePost, hsameAuth⟩ := amendUserAgent_fields r
  rw [List.flatMap_append, List.flatMap_append, hreq, hsamePost, hsameAuth] at hfields₀
  obtain ⟨q₁, hq₁, hfields₁⟩ := queryString_setFormData rt hquery
    (helper.oauthParameters.merge (collected q₀ OrderedHash.empty))
  rw [← heq] at hq₁
  obtain ⟨q₁', hq₁', rfl⟩ := parameters_empty_eq_ok.1 hparams
  obtain rfl : q₁ = q₁' := Except.ok.inj (hq₁.symm.trans hq₁')
  rw [hpost, hreq, hsameAuth] at hfields₁
  have hown : r.queryParams = .ok query := by rw [← hquery, hreq, hsameQuery]
  exact ⟨query, q₀, q₁, first, s, hown, hquery, heq, hfirst, hparams, hs, hsigned, hfields₀, hfields₁⟩

theorem ClientHelper.lookup_nil (h : ClientHelper) : h.oauthParameters.lookup [] = none := by
  cases hl : h.oauthParameters.lookup [] with
  | none => rfl
  | some v => exact absurd (ClientHelper.name_of_lookup hl).2.1 (by decide)

/-- **The body scheme sends what it signs exactly when the query adds nothing.** -/
theorem oauth_body_pairs_iff (rt : Runtime) (http : Connection) (r signed : HttpRequest) (c : Consumer)
    (token : Option Token) (o : RequestOptions) (g : Generated) (helper : ClientHelper)
    (hscheme : o.scheme = .body) (hmethod : r.isPostOrPut = true)
    (hhelper : signingHelper rt http r c token o g = .ok helper)
    (h : oauth rt http r c token o g = .ok signed) :
    ∃ first params s query body, helper.formRequest rt = .ok first ∧
      (first.proxy helper.plainOptions).parameters = .ok params ∧
      helper.plainSignature rt first = .ok s ∧
      r.queryParams = .ok query ∧ signed.queryParams = .ok query ∧ signed.body = some body ∧
      valuesOf (ascii "oauth_signature") (cgiFields body) = [some s] ∧
      (↑(sentPairs (first.proxy helper.plainOptions).isSigned query body)
          = signedPairs (first.proxy helper.plainOptions) params ↔
        BodyKeepsPairs (query.toList.flatMap cgiFields) (r.authHeaderParams.toList.flatMap cgiFields)
          (r.postParams.toList.flatMap cgiFields) helper.oauthParameters
          (first.proxy helper.plainOptions).isSigned) := by
  obtain ⟨query, q₀, q₁, first, s, hown, hquery, rfl, hfirst, hparams, hs, rfl, hfields₀, hfields₁⟩ :=
    oauth_body_eq_ok hscheme hhelper h
  rw [if_pos hmethod] at hfields₁
  refine ⟨_, _, s, query, _, hfirst, hparams, hs, hown, hquery, rfl, ?_, ?_⟩
  · rw [valuesOf_signedBody, if_pos rfl]
  have hfirstBody : ∀ k, valuesOf k (cgiFields (encodeForm rt (helper.oauthParameters.merge
      (collected q₀ OrderedHash.empty)))) = firstBodyValues (query.toList.flatMap cgiFields ++
        r.authHeaderParams.toList.flatMap cgiFields ++ r.postParams.toList.flatMap cgiFields)
        helper.oauthParameters k := by
    intro k
    rw [valuesOf_firstBody rt (textParameters_oauthParameters helper) helper.lookup_nil, hfields₀]
  rw [bodyKeepsPairs_iff hfirstBody (textParameters_oauthParameters helper), signedPairs,
    Multiset.coe_eq_coe, List.perm_comm, perm_iff_valuesOf]
  refine forall_congr' fun k => ?_
  rw [valuesOf_select, valuesOf_collected q₁ textParameters_empty, valuesOf_sentPairs, valuesOf_signedBody]
  by_cases hk : (HttpRequest.proxy (setFormData rt helper.request (helper.oauthParameters.merge
      (collected q₀ OrderedHash.empty))) helper.plainOptions).isSigned k = true
  · have hne : k ≠ ascii "oauth_signature" := by
      rintro rfl
      simp [Proxy.isSigned, Proxy.signatureAndUnsignedParameters] at hk
    have hback : ∀ ss : List Bytes, (ss.map some).map (fun v => v.getD []) = ss := by
      intro ss
      rw [List.map_map]
      exact List.map_id ss
    have hbody : (if k ∈ (cgiFields q₁).map Prod.fst then (fieldValues k (cgiFields q₁)).map some
        else []).map (fun v => v.getD []) = if k ∈ (cgiFields q₁).map Prod.fst then
          fieldValues k (cgiFields q₁) else [] := by
      split
      · exact hback _
      · rfl
    rw [if_pos hk, if_pos hk, if_neg hne, hbody, hfields₁, KeepsName, List.append_assoc,
      collectedValues_perm_sent_iff]
    exact ⟨fun h _ => h, fun h => h hk⟩
  · rw [if_neg hk, if_neg hk]
    exact iff_of_true (.refl _) (fun h => absurd h hk)

/-- A `POST` with a parameter in its query. -/
def queryPost : HttpRequest where
  method := ascii "POST"
  path := ascii "/?a=1"
  headers := OrderedHash.empty
  body := none
  bodyStream := none
  requestBodyPermitted := true

def bodyOptions : RequestOptions := { scheme := .body }

theorem queryPost_body_pairs_iff :
    ∃ helper signed, signingHelper printingRuntime exampleConnection queryPost exampleConsumer none
        bodyOptions exampleGenerated = .ok helper ∧
      oauth printingRuntime exampleConnection queryPost exampleConsumer none bodyOptions
        exampleGenerated = .ok signed ∧
      ∃ first params s query body, helper.formRequest printingRuntime = .ok first ∧
        (first.proxy helper.plainOptions).parameters = .ok params ∧
        helper.plainSignature printingRuntime first = .ok s ∧
        queryPost.queryParams = .ok query ∧ signed.queryParams = .ok query ∧
        signed.body = some body ∧
        valuesOf (ascii "oauth_signature") (cgiFields body) = [some s] ∧
        (↑(sentPairs (first.proxy helper.plainOptions).isSigned query body)
            = signedPairs (first.proxy helper.plainOptions) params ↔
          BodyKeepsPairs (query.toList.flatMap cgiFields)
            (queryPost.authHeaderParams.toList.flatMap cgiFields)
            (queryPost.postParams.toList.flatMap cgiFields) helper.oauthParameters
            (first.proxy helper.plainOptions).isSigned) := by
  have hok : (oauth printingRuntime exampleConnection queryPost exampleConsumer none bodyOptions
      exampleGenerated).isOk = true := by decide +kernel
  cases h : oauth printingRuntime exampleConnection queryPost exampleConsumer none bodyOptions
      exampleGenerated with
  | error e =>
      rw [h] at hok
      exact absurd hok Bool.false_ne_true
  | ok signed =>
      obtain ⟨helper, hhelper, -⟩ := Except.bind_eq_ok.1 h
      exact ⟨helper, signed, hhelper, rfl, oauth_body_pairs_iff printingRuntime exampleConnection
        queryPost signed exampleConsumer none bodyOptions exampleGenerated helper rfl (by decide)
        hhelper h⟩

/-- The parameter of the query is signed twice and sent three times. -/
theorem queryPost_body_pairs_differ :
    (do
      let helper ← signingHelper printingRuntime exampleConnection queryPost exampleConsumer none
        bodyOptions exampleGenerated
      let first ← helper.formRequest printingRuntime
      let s ← helper.plainSignature printingRuntime first
      let params ← (first.proxy helper.plainOptions).parametersForSignature
      let signed ← oauth printingRuntime exampleConnection queryPost exampleConsumer none
        bodyOptions exampleGenerated
      let query ← signed.queryParams
      let body := signed.body.getD []
      Except.ok (valuesOf (ascii "oauth_signature") (cgiFields body) == [some s],
        decide ((sentPairs (first.proxy helper.plainOptions).isSigned query body).Perm
          (flatPairs params.entries)))) = .ok (true, false) := by
  decide +kernel

end RubyOAuth
