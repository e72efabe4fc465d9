import RubyOAuth.Proofs.FormScheme

set_option autoImplicit false

/-! # What the body scheme keeps of the body

`set_oauth_body` writes the body twice, each time from what the proxy reads of the request. It reads a
body where the method is `POST` or `PUT` only, and a field without `=` has no value to be written
again; what it has not read is not in the body that is sent. -/

namespace RubyOAuth

open Bytes

variable {rt : Runtime}

/-! ## Counting pairs -/

/-- The pairs that fields stand for; one without `=` has the empty value. -/
def fieldPairs (fs : List (Bytes × Option Bytes)) : List (Bytes × Bytes) :=
  fs.map (fun f => (f.1, f.2.getD []))

/-- The pairs of the parameters, as text. -/
def textPairs (rt : Runtime) (params : Params) : List (Bytes × Bytes) :=
  params.entries.map (fun e => (e.1, e.2.toS rt))

theorem count_fieldValues (fs : List (Bytes × Option Bytes)) (k w : Bytes) :
    (fieldValues k fs).count w = fs.count (k, some w) := by
  rw [← count_valuesOf, fieldValues]
  generalize valuesOf k fs = vs
  induction vs with
  | nil => rfl
  | cons v rest ih =>
      cases v with
      | none => simpa using ih
      | some x =>
          have hvalue : (some x :: rest).filterMap id = x :: rest.filterMap id := rfl
          rw [hvalue, List.count_cons, List.count_cons, ih]
          simp

/-- A pair comes from a field with this value, or from a bare name where the value is empty. -/
theorem count_fieldPairs (fs : List (Bytes × Option Bytes)) (k w : Bytes) :
    (fieldPairs fs).count (k, w) = (fieldPairs (fs.filter (·.2.isNone))).count (k, w)
      + fs.count (k, some w) := by
  induction fs with
  | nil => rfl
  | cons f rest ih =>
      obtain ⟨n, v⟩ := f
      cases v with
      | none =>
          simp only [fieldPairs, List.map_cons, List.filter_cons, Option.isNone_none, if_true,
            List.count_cons, Option.getD_none] at ih ⊢
          have hother : ((n, (none : Option Bytes)) == (k, some w)) = false := by simp
          rw [ih, hother]
          simp only [Bool.false_eq_true, if_false]
          omega
      | some x =>
          simp only [fieldPairs, List.map_cons, List.filter_cons, Option.isNone_some,
            Bool.false_eq_true, if_false, List.count_cons, Option.getD_some] at ih ⊢
          have hsame : ((n, some x) == (k, some w)) = ((n, x) == (k, w)) := by
            rw [Bool.eq_iff_iff, beq_iff_eq, beq_iff_eq, Prod.mk.injEq, Prod.mk.injEq,
              Option.some.injEq]
          rw [ih, hsame, Nat.add_assoc]

theorem count_fieldPairs_of_not_mem {fs : List (Bytes × Option Bytes)} {k : Bytes}
    (h : k ∉ fs.map Prod.fst) (w : Bytes) : (fieldPairs fs).count (k, w) = 0 := by
  refine List.count_eq_zero_of_not_mem fun hmem => h ?_
  obtain ⟨f, hf, he⟩ := List.mem_map.1 hmem
  exact List.mem_map.2 ⟨f, hf, congrArg Prod.fst he⟩

theorem count_of_not_mem {fs : List (Bytes × Option Bytes)} {k : Bytes}
    (h : k ∉ fs.map Prod.fst) (v : Option Bytes) : fs.count (k, v) = 0 :=
  List.count_eq_zero_of_not_mem fun hmem => h (List.mem_map_of_mem (f := Prod.fst) hmem)

/-- A hash has each of its pairs once. -/
theorem count_textPairs (rt : Runtime) (params : Params) (k w : Bytes) :
    (textPairs rt params).count (k, w)
      = if (params.lookup k).map (Value.toS rt) = some w then 1 else 0 := by
  have hflat : textPairs rt params = params.entries.flatMap (fun e => [(e.1, e.2.toS rt)]) :=
    (List.flatMap_pure_eq_map _ _).symm
  have hname : ∀ e : Bytes × Value, ∀ x ∈ [(e.1, e.2.toS rt)], x.1 = e.1 := by
    intro e x hx
    rw [List.mem_singleton.1 hx]
  rw [← count_valuesOf, hflat, OrderedHash.valuesOf_flatMap hname params.nodup k]
  show ((params.lookup k).map _ |>.getD []).count w = _
  cases params.lookup k with
  | none => rfl
  | some v => simp [List.count_singleton]

/-! ## What is sent -/

/-- A pair of the second body is a field that has been read of the first request. -/
theorem count_signedBody (rt : Runtime) (q s w : Bytes) {k : Bytes} (hk : k ≠ ascii "oauth_signature") :
    (formPairs (encodeForm rt ((collected q OrderedHash.empty).set (ascii "oauth_signature")
        (.str s)))).count (k, w) = (cgiFields q).count (k, some w) := by
  have hvalues : valuesOf k (cgiFields (encodeForm rt ((collected q OrderedHash.empty).set
      (ascii "oauth_signature") (.str s)))) = (fieldValues k (cgiFields q)).map some := by
    rw [valuesOf_signedBody, if_neg hk]
    split
    · rfl
    · next hnot => rw [fieldValues_of_not_mem hnot]; rfl
  rw [← count_valuesOf, formPairs, valuesOf_fieldPairs, hvalues, List.map_map]
  exact (congrArg (List.count w) (List.map_id _)).trans (count_fieldValues _ k w)

/-- What the first body has of a name that is no OAuth parameter is what the request has of it. -/
theorem count_firstBody_of_none {fields : List (Bytes × Option Bytes)} {oauthParams : Params}
    {k : Bytes} (hnone : oauthParams.lookup k = none) (w : Bytes) :
    (firstBodyValues fields oauthParams k).count (some w) = fields.count (k, some w) := by
  have hsome : ∀ vs : List Bytes, (vs.map some).count (some w) = vs.count w := fun vs =>
    List.count_map_of_injective vs some (Option.some_injective _) w
  rw [firstBodyValues]
  split
  · rw [hsome, count_fieldValues]
  · next hnot =>
      simp only [hnone, List.count_nil]
      exact (count_of_not_mem hnot _).symm

/-! ## What is kept -/

/-- The fields of the body that are not written again: those without `=` of a body that the proxy
    reads, all of one that it does not read. -/
def droppedFields (r : HttpRequest) : List (Bytes × Option Bytes) :=
  if r.postParams.isSome then (cgiFields r.entityBody).filter (·.2.isNone)
  else cgiFields r.entityBody

/-- The fields of query and `Authorization` header. -/
def outerFields (r : HttpRequest) (query : Option Bytes) : List (Bytes × Option Bytes) :=
  query.toList.flatMap cgiFields ++ r.authHeaderParams.toList.flatMap cgiFields

/-- When nothing of the body or the OAuth parameters is lost: what is not written again stands outside
    the body too, from where a body that is read takes it twice; and an OAuth parameter stands there
    with its value, or the body is read, the parameter is not `nil` and its name is not taken. -/
structure KeepsData (rt : Runtime) (r : HttpRequest) (query : Option Bytes) (oauthParams : Params) :
    Prop where
  own : ∀ k w, (fieldPairs (droppedFields r)).count (k, w)
    ≤ (if r.isPostOrPut then 2 else 1) * (outerFields r query).count (k, some w)
  given : ∀ k v, oauthParams.lookup k = some v → (k, some (v.toS rt)) ∈ outerFields r query ∨
    (r.isPostOrPut = true ∧ k ∉ (outerFields r query).map Prod.fst ∧ v ≠ .nil)

/-- The body sent has every pair of the body given, every OAuth parameter and one signature. -/
def CarriesData (rt : Runtime) (r : HttpRequest) (oauthParams : Params) (signed : HttpRequest) :
    Prop :=
  (↑(formPairs r.entityBody) + ↑(textPairs rt oauthParams) : Multiset (Bytes × Bytes))
      ≤ ↑(formPairs signed.entityBody) ∧
    (valuesOf (ascii "oauth_signature") (formPairs signed.entityBody)).length = 1

instance (rt : Runtime) (r : HttpRequest) (oauthParams : Params) (signed : HttpRequest) :
    Decidable (CarriesData rt r oauthParams signed) := by
  unfold CarriesData; infer_instance

theorem carried_iff {own given sent : List (Bytes × Bytes)} :
    (↑own + ↑given : Multiset (Bytes × Bytes)) ≤ ↑sent ↔
      ∀ k w, own.count (k, w) + given.count (k, w) ≤ sent.count (k, w) := by
  rw [Multiset.coe_add, Multiset.coe_le]
  constructor
  · intro h k w
    rw [← List.count_append]
    exact h.count_le (k, w)
  · intro h
    rw [List.subperm_ext_iff]
    rintro ⟨k, w⟩ -
    rw [List.count_append]
    exact h k w

/-- A body that is read is the one that is sent. -/
theorem entityBody_of_postParams {r : HttpRequest} {b : Bytes} (h : r.postParams = some b) :
    r.entityBody = b := by
  rw [HttpRequest.postParams] at h
  split_ifs at h
  rw [HttpRequest.entityBody, h]
  rfl

theorem mem_of_mem_postFields {r : HttpRequest} :
    ∀ f ∈ r.postParams.toList.flatMap cgiFields, f ∈ cgiFields r.entityBody := by
  cases hpost : r.postParams with
  | none => simp
  | some b =>
      rw [entityBody_of_postParams hpost, Option.toList_some, List.flatMap_singleton]
      exact fun f hf => hf

/-- The fields that are read of the body are those that are not dropped. -/
theorem count_formPairs_entityBody (r : HttpRequest) (k w : Bytes) :
    (formPairs r.entityBody).count (k, w) = (fieldPairs (droppedFields r)).count (k, w)
      + (r.postParams.toList.flatMap cgiFields).count (k, some w) := by
  cases hpost : r.postParams with
  | none =>
      rw [droppedFields, hpost]
      rfl
  | some b =>
      rw [droppedFields, hpost, Option.isSome_some, if_pos rfl, entityBody_of_postParams hpost,
        Option.toList_some, List.flatMap_singleton]
      exact count_fieldPairs _ k w

section

variable {r : HttpRequest} {query : Option Bytes} {helper : ClientHelper}
  {sent : List (Bytes × Bytes)} {k : Bytes} {v : Value}

theorem count_droppedFields_of_not_mem (hout : k ∉ (cgiFields r.entityBody).map Prod.fst) (w : Bytes) :
    (fieldPairs (droppedFields r)).count (k, w) = 0 := by
  have hcount := count_formPairs_entityBody r k w
  rw [formPairs, ← fieldPairs, count_fieldPairs_of_not_mem hout] at hcount
  omega

/-- What is sent of a pair: the fields outside the body, and where the body is read what the first body
    has of it. -/
def SentPairs (r : HttpRequest) (query : Option Bytes) (oauthParams : Params)
    (sent : List (Bytes × Bytes)) : Prop :=
  ∀ k w, k ≠ ascii "oauth_signature" → sent.count (k, w)
    = (outerFields r query).count (k, some w) + if r.isPostOrPut then
      (firstBodyValues (outerFields r query ++ r.postParams.toList.flatMap cgiFields)
        oauthParams k).count (some w) else 0

/-- The pairs of a name are all sent. -/
def Keeps (rt : Runtime) (r : HttpRequest) (oauthParams : Params) (sent : List (Bytes × Bytes))
    (k w : Bytes) : Prop :=
  (formPairs r.entityBody).count (k, w) + (textPairs rt oauthParams).count (k, w) ≤ sent.count (k, w)

/-- A name of the application. -/
theorem keeps_own_iff (hsent : SentPairs r query helper.oauthParameters sent)
    (hnone : helper.oauthParameters.lookup k = none) (hne : k ≠ ascii "oauth_signature") (w : Bytes) :
    Keeps rt r helper.oauthParameters sent k w ↔ (fieldPairs (droppedFields r)).count (k, w)
      ≤ (if r.isPostOrPut then 2 else 1) * (outerFields r query).count (k, some w) := by
  have htext : (textPairs rt helper.oauthParameters).count (k, w) = 0 := by
    rw [count_textPairs, hnone, Option.map_none, if_neg (by simp)]
  rw [Keeps, hsent k w hne, htext, count_formPairs_entityBody]
  cases hpost : r.isPostOrPut with
  | false =>
      rw [postParams_of_not_isPostOrPut hpost]
      simp
  | true =>
      simp only [if_true]
      rw [count_firstBody_of_none hnone, List.count_append]
      omega

/-- An OAuth parameter that the body does not name is kept where it is sent at all. -/
theorem keeps_given_iff_pos (hv : helper.oauthParameters.lookup k = some v)
    (hout : k ∉ (cgiFields r.entityBody).map Prod.fst) :
    (∀ w, Keeps rt r helper.oauthParameters sent k w) ↔ 0 < sent.count (k, v.toS rt) := by
  have hnone : ∀ w, (formPairs r.entityBody).count (k, w) = 0 := count_fieldPairs_of_not_mem hout
  simp only [Keeps, hnone, count_textPairs, hv, Option.map_some, Option.some.injEq, Nat.zero_add]
  constructor
  · intro h
    have hself := h (v.toS rt)
    rw [if_pos rfl] at hself
    exact hself
  · intro h w
    split
    · next heq => exact heq ▸ h
    · exact Nat.zero_le _

/-- The fields outside the body take the place of the parameter. -/
theorem count_firstBody_of_taken {oauthParams : Params}
    (hmem : k ∈ (outerFields r query).map Prod.fst)
    (hpost : k ∉ (r.postParams.toList.flatMap cgiFields).map Prod.fst) (w : Bytes) :
    (firstBodyValues (outerFields r query ++ r.postParams.toList.flatMap cgiFields)
      oauthParams k).count (some w) = (outerFields r query).count (k, some w) := by
  rw [firstBodyValues, if_pos (by rw [List.map_append]; exact List.mem_append_left _ hmem),
    List.count_map_of_injective _ some (Option.some_injective _), count_fieldValues,
    List.count_append, count_of_not_mem hpost, Nat.add_zero]

/-- Where no field has its name, the first body has the parameter, unless it is `nil`. -/
theorem count_firstBody_of_free (hv : helper.oauthParameters.lookup k = some v)
    (hmem : k ∉ (outerFields r query).map Prod.fst)
    (hpost : k ∉ (r.postParams.toList.flatMap cgiFields).map Prod.fst) :
    0 < (firstBodyValues (outerFields r query ++ r.postParams.toList.flatMap cgiFields)
      helper.oauthParameters k).count (some (v.toS rt)) ↔ v ≠ .nil := by
  have hnot : k ∉ (outerFields r query ++ r.postParams.toList.flatMap cgiFields).map Prod.fst := by
    rw [List.map_append, List.mem_append, not_or]
    exact ⟨hmem, hpost⟩
  rw [firstBodyValues, if_neg hnot]
  rcases textParameters_oauthParameters helper k v hv with rfl | ⟨x, rfl⟩
  · simp [hv]
  · have htoS : (Value.str x).toS rt = x := rfl
    simp [hv, htoS]

/-- A name of OAuth. -/
theorem keeps_given_iff (hsent : SentPairs r query helper.oauthParameters sent)
    (hv : helper.oauthParameters.lookup k = some v)
    (hout : k ∉ (cgiFields r.entityBody).map Prod.fst) :
    (∀ w, Keeps rt r helper.oauthParameters sent k w) ↔
      ((k, some (v.toS rt)) ∈ outerFields r query ∨
        (r.isPostOrPut = true ∧ k ∉ (outerFields r query).map Prod.fst ∧ v ≠ .nil)) := by
  obtain ⟨-, -, hne⟩ := ClientHelper.name_of_lookup hv
  have hpost : k ∉ (r.postParams.toList.flatMap cgiFields).map Prod.fst := by
    intro hmem
    obtain ⟨f, hf, rfl⟩ := List.mem_map.1 hmem
    exact hout (List.mem_map_of_mem (mem_of_mem_postFields f hf))
  rw [keeps_given_iff_pos hv hout, hsent k _ hne]
  by_cases hmem : k ∈ (outerFields r query).map Prod.fst
  · rw [count_firstBody_of_taken hmem hpost, ← List.count_pos_iff]
    constructor
    · intro h
      refine .inl ?_
      split at h <;> omega
    · rintro (h | ⟨-, hnot, -⟩)
      · omega
      · exact absurd hmem hnot
  · have houter : (k, some (v.toS rt)) ∉ outerFields r query := fun h =>
      hmem (List.mem_map_of_mem (f := Prod.fst) h)
    rw [count_of_not_mem hmem, Nat.zero_add, or_iff_right houter, and_iff_right_of_imp fun _ => hmem]
    cases hpp : r.isPostOrPut with
    | false => simp
    | true => simpa [hmem] using count_firstBody_of_free hv hmem hpost

/-- **Name by name, the condition says what the two bodies keep.** -/
theorem keepsData_iff
    (hbody : ∀ f ∈ cgiFields r.entityBody, startsWith (ascii "oauth_") f.1 = false)
    (hsent : SentPairs r query helper.oauthParameters sent) :
    (∀ k w, Keeps rt r helper.oauthParameters sent k w) ↔
      KeepsData rt r query helper.oauthParameters := by
  -- the names of the body and those of the OAuth parameters are apart
  have hapart : ∀ k, startsWith (ascii "oauth_") k = true →
      k ∉ (cgiFields r.entityBody).map Prod.fst := by
    intro k hstart hmem
    obtain ⟨f, hf, rfl⟩ := List.mem_map.1 hmem
    exact Bool.false_ne_true ((hbody f hf).symm.trans hstart)
  have hgiven : ∀ k v, helper.oauthParameters.lookup k = some v →
      k ∉ (cgiFields r.entityBody).map Prod.fst := fun k v hv =>
    hapart k (ClientHelper.name_of_lookup hv).2.1
  have hsignature := hapart (ascii "oauth_signature") (by decide)
  constructor
  · intro h
    refine ⟨fun k w => ?_, fun k v hv => (keeps_given_iff hsent hv (hgiven k v hv)).1 (h k)⟩
    cases hl : helper.oauthParameters.lookup k with
    | none =>
        by_cases hne : k = ascii "oauth_signature"
        · rw [count_droppedFields_of_not_mem (hne ▸ hsignature)]
          exact Nat.zero_le _
        · exact (keeps_own_iff hsent hl hne w).1 (h k w)
    | some v =>
        rw [count_droppedFields_of_not_mem (hgiven k v hl)]
        exact Nat.zero_le _
  · intro h k w
    cases hl : helper.oauthParameters.lookup k with
    | none =>
        by_cases hne : k = ascii "oauth_signature"
        · have hnone : (formPairs r.entityBody).count (k, w) = 0 :=
            count_fieldPairs_of_not_mem (hne ▸ hsignature) w
          rw [Keeps, hnone, count_textPairs, hl, Option.map_none, if_neg (by simp)]
          exact Nat.zero_le _
        · exact (keeps_own_iff hsent hl hne w).2 (h.own k w)
    | some v => exact (keeps_given_iff hsent hl (hgiven k v hl)).2 (h.given k v hl) w

end

/-- **The body scheme keeps the data of the application exactly when no field is dropped that does not
    stand outside the body, and no OAuth parameter is `nil` or has its name taken.** -/
theorem oauth_body_carries_iff (rt : Runtime) (http : Connection) (r signed : HttpRequest)
    (c : Consumer) (token : Option Token) (o : RequestOptions) (g : Generated) (helper : ClientHelper)
    (hscheme : o.scheme = .body)
    (hbody : ∀ f ∈ cgiFields r.entityBody, startsWith (ascii "oauth_") f.1 = false)
    (hhelper : signingHelper rt http r c token o g = .ok helper)
    (h : oauth rt http r c token o g = .ok signed) :
    ∃ query, r.queryParams = .ok query ∧ (CarriesData rt r helper.oauthParameters signed ↔
      KeepsData rt r query helper.oauthParameters) := by
  obtain ⟨query, q₀, q₁, first, s, hquery, -, -, -, -, -, rfl, hfields₀, hfields₁⟩ :=
    oauth_body_eq_ok hscheme hhelper h
  have hfirst : ∀ k, valuesOf k (cgiFields (encodeForm rt (helper.oauthParameters.merge
      (collected q₀ OrderedHash.empty)))) = firstBodyValues (outerFields r query ++
        r.postParams.toList.flatMap cgiFields) helper.oauthParameters k := by
    intro k
    rw [valuesOf_firstBody rt (textParameters_oauthParameters helper) helper.lookup_nil, hfields₀]
    rfl
  have hone : (valuesOf (ascii "oauth_signature") (formPairs (encodeForm rt ((collected q₁
      OrderedHash.empty).set (ascii "oauth_signature") (.str s))))).length = 1 := by
    rw [formPairs, valuesOf_fieldPairs, valuesOf_signedBody, if_pos rfl]
    rfl
  refine ⟨query, hquery, ?_⟩
  rw [← keepsData_iff hbody (fun k w hk => ?_), CarriesData, carried_iff]
  · exact and_iff_left hone
  · refine (count_signedBody rt q₁ s w hk).trans ?_
    rw [hfields₁, List.count_append]
    split
    · rw [← hfirst, count_valuesOf]
      rfl
    · rfl

/-- A request with a form body. -/
def formRequestOf (method body : Bytes) : HttpRequest where
  method := method
  path := ascii "/"
  headers := OrderedHash.ofList [(ascii "content-type", formMediaType)]
  body := some body
  bodyStream := none
  requestBodyPermitted := true

def formPost : HttpRequest := formRequestOf (ascii "POST") (ascii "a=1&b=&a=2")

def formPatch : HttpRequest := formRequestOf (ascii "PATCH") (ascii "a=1")

theorem formPost_carries_iff :
    ∃ helper signed, signingHelper printingRuntime exampleConnection formPost exampleConsumer none
        bodyOptions exampleGenerated = .ok helper ∧
      oauth printingRuntime exampleConnection formPost exampleConsumer none bodyOptions
        exampleGenerated = .ok signed ∧
      ∃ query, formPost.queryParams = .ok query ∧
        (CarriesData printingRuntime formPost helper.oauthParameters signed ↔
          KeepsData printingRuntime formPost query helper.oauthParameters) := by
  have hok : (oauth printingRuntime exampleConnection formPost exampleConsumer none bodyOptions
      exampleGenerated).isOk = true := by decide +kernel
  cases h : oauth printingRuntime exampleConnection formPost exampleConsumer none bodyOptions
      exampleGenerated with
  | error e =>
      rw [h] at hok
      exact absurd hok Bool.false_ne_true
  | ok signed =>
      obtain ⟨helper, hhelper, -⟩ := Except.bind_eq_ok.1 h
      exact ⟨helper, signed, hhelper, rfl, oauth_body_carries_iff printingRuntime exampleConnection
        formPost signed exampleConsumer none bodyOptions exampleGenerated helper rfl
        (by decide) hhelper h⟩

/-- The body of a `PATCH` is gone when the request is signed. -/
theorem formPatch_not_carried :
    (do
      let helper ← signingHelper printingRuntime exampleConnection formPatch exampleConsumer none
        bodyOptions exampleGenerated
      let signed ← oauth printingRuntime exampleConnection formPatch exampleConsumer none bodyOptions
        exampleGenerated
      Except.ok (decide (CarriesData printingRuntime formPatch helper.oauthParameters signed)))
      = .ok false := by
  decide +kernel

end RubyOAuth
