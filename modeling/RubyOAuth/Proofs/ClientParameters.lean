import RubyOAuth.Model.ClientHelper
import RubyOAuth.Proofs.BaseString

set_option autoImplicit false

/-! # What the Net::HTTP proxy collects

`CGI.parse` groups the fields of query, header and body by name, and the OAuth parameters are added to
the groups. Everything the collected parameters sign is known by the values under each name. -/

namespace RubyOAuth

open Bytes

/-! ## `CGI.parse` -/

/-- The values that fields have under one name. -/
def fieldValues (k : Bytes) (fields : List (Bytes × Option Bytes)) : List Bytes :=
  (valuesOf k fields).filterMap id

theorem fieldValues_cons (k n : Bytes) (v : Option Bytes) (fs : List (Bytes × Option Bytes)) :
    fieldValues k ((n, v) :: fs) = if n = k then v.toList ++ fieldValues k fs else fieldValues k fs := by
  rw [fieldValues, valuesOf_cons]
  split
  · cases v <;> rfl
  · rfl

theorem fieldValues_append (k : Bytes) (fs gs : List (Bytes × Option Bytes)) :
    fieldValues k (fs ++ gs) = fieldValues k fs ++ fieldValues k gs := by
  rw [fieldValues, valuesOf_append, List.filterMap_append]
  rfl

theorem fieldValues_of_not_mem {k : Bytes} {fs : List (Bytes × Option Bytes)}
    (h : k ∉ fs.map Prod.fst) : fieldValues k fs = [] := by
  rw [fieldValues, valuesOf_eq_nil.2 h]
  rfl

theorem lookup_foldl_cgiPush (fields : List (Bytes × Option Bytes))
    (params : OrderedHash Bytes (List Bytes)) (k : Bytes) :
    (fields.foldl cgiPush params).lookup k
      = if k ∈ fields.map Prod.fst then some ((params.lookup k).getD [] ++ fieldValues k fields)
        else params.lookup k := by
  induction fields generalizing params with
  | nil => simp
  | cons f rest ih =>
      obtain ⟨n, v⟩ := f
      rw [List.foldl_cons, ih, cgiPush, OrderedHash.lookup_set, fieldValues_cons]
      by_cases hn : n = k
      · subst hn
        by_cases hm : n ∈ rest.map Prod.fst
        · simp [hm]
        · simp [hm, fieldValues_of_not_mem hm]
      · have hkn : k ≠ n := fun h => hn h.symm
        simp only [hn, hkn, if_false, List.map_cons, List.mem_cons, false_or]

/-- The groups that `CGI.parse` makes. -/
theorem lookup_cgiParse (query k : Bytes) :
    (cgiParse query).lookup k
      = if k ∈ (cgiFields query).map Prod.fst then some (fieldValues k (cgiFields query))
        else none := by
  rw [cgiParse, lookup_foldl_cgiPush]
  simp

/-- Joining with `&` puts the fields one after the other. -/
theorem cgiFields_joinWith (parts : List Bytes) :
    cgiFields (joinWith ampersand parts) = parts.flatMap cgiFields := by
  induction parts with
  | nil => rfl
  | cons s rest ih =>
      by_cases hr : rest = []
      · subst hr
        simp
      · rw [joinWith_cons ampersand s hr, List.flatMap_cons, ← ih, cgiFields,
          List.splitOnP_append_cons _ _ (by decide), List.filter_append, List.map_append]
        rfl

/-- A query that is not there has the fields of the empty one. -/
theorem flatMap_cgiFields_toList (query : Option Bytes) :
    query.toList.flatMap cgiFields = cgiFields (query.getD []) := by
  cases query with
  | none => rfl
  | some q => exact List.flatMap_singleton _ q

theorem cgiFields_append_sep {b : UInt8} (hb : (b == ampersand || b == semicolon) = true)
    (s t : Bytes) : cgiFields (s ++ b :: t) = cgiFields s ++ cgiFields t := by
  rw [cgiFields, List.splitOnP_append_cons s t hb, List.filter_append, List.map_append]
  rfl

/-- Text without a separator is one field. -/
theorem cgiFields_of_not_sep {s : Bytes} (h : ∀ b ∈ s, (b == ampersand || b == semicolon) = false)
    (hne : s ≠ []) : cgiFields s = [cgiField s] := by
  have hempty : (!s.isEmpty) = true := by simpa using hne
  rw [cgiFields, List.splitOnP_eq_singleton h, List.filter_singleton, hempty, cond_true,
    List.map_singleton]

/-! ## Segments as fields -/

theorem cgiUnescape_escapeBytes (s : Bytes) : cgiUnescape (escapeBytes s) = s := by
  have hplus : (escapeBytes s).map (fun b => if b = plus then space else b) = escapeBytes s := by
    refine (List.map_congr_left fun b hb => ?_).trans (List.map_id _)
    have hne : b ≠ plus := by
      rintro rfl
      exact not_mem_escapeBytes (by decide) (by decide) s hb
    exact if_neg hne
  rw [cgiUnescape, hplus, escapeBytes, PercentCode.decode_encode (by decide)]

/-- A segment is read back as its name and its value. -/
theorem cgiFields_segment (n w : Bytes) : cgiFields (segment n w) = [(n, some w)] := by
  have hsep : ∀ b ∈ segment n w, (b == ampersand || b == semicolon) = false := by
    intro b hb
    by_contra hc
    rw [Bool.not_eq_false, Bool.or_eq_true, beq_iff_eq, beq_iff_eq] at hc
    have hno : ∀ t, semicolon ∉ escapeBytes t := not_mem_escapeBytes (by decide) (by decide)
    have hsemi : semicolon ∉ segment n w := by
      simp [segment, hno, show semicolon ≠ equal by decide]
    rcases hc with rfl | rfl
    · exact ampersand_not_mem_segment n w hb
    · exact hsemi hb
  have hcut : cut equal (segment n w) = (escapeBytes n, some (escapeBytes w)) :=
    cut_append (not_mem_escapeBytes (by decide) (by decide) n) _
  rw [cgiFields_of_not_sep hsep (segment_ne_nil n w), cgiField, hcut, Option.map_some,
    cgiUnescape_escapeBytes, cgiUnescape_escapeBytes]

/-- The pairs a form body decodes to; a field without `=` has the empty value. -/
def formPairs (body : Bytes) : List (Bytes × Bytes) :=
  (cgiFields body).map (fun f => (f.1, f.2.getD []))

/-! ## The OAuth parameters -/

theorem lookup_addParameter (params : OrderedHash Bytes (List Value)) (e : Bytes × Value) (k : Bytes) :
    (addParameter params e).lookup k
      = if k = e.1 then
          some (if truthy e.2 then (params.lookup k).getD [] ++ [e.2] else [e.2])
        else params.lookup k := by
  rw [addParameter]
  by_cases hk : k = e.1
  · subst hk
    cases params.lookup e.1 with
    | none => simp
    | some vs => by_cases hv : truthy e.2 = true <;> simp [hv]
  · cases params.lookup e.1 with
    | none => simp [hk]
    | some vs => by_cases hv : truthy e.2 = true <;> simp [hv, hk]

theorem lookup_foldl_addParameter {es : List (Bytes × Value)} (hn : (es.map Prod.fst).Nodup)
    (params : OrderedHash Bytes (List Value)) (k : Bytes) :
    (es.foldl addParameter params).lookup k
      = match OrderedHash.findEntry k es with
        | none => params.lookup k
        | some v =>
          some (if truthy v then (params.lookup k).getD [] ++ [v] else [v]) := by
  rw [OrderedHash.lookup_foldl_update (fun found v => if truthy v then found.getD [] ++ [v] else [v])
    lookup_addParameter hn]
  cases OrderedHash.findEntry k es <;> rfl

/-! ## All parameters -/

/-- The parameters of a request: those of a query string with OAuth parameters added. -/
def collected (query : Bytes) (oauthParams : Params) : Params :=
  (oauthParams.entries.foldl addParameter
    ((cgiParse query).mapValues (fun vs => vs.map Value.str))).mapValues Value.arr

theorem allParameters_eq (r : HttpRequest) (o : SignatureOptions) :
    r.allParameters o
      = (r.queryString).map (fun q => collected q (o.parameters.getD OrderedHash.empty)) := by
  rw [HttpRequest.allParameters]
  cases r.queryString <;> rfl

/-- The parameters `oauth_parameters` gives are strings or `nil`. -/
def TextParameters (params : Params) : Prop :=
  ∀ k v, params.lookup k = some v → v = .nil ∨ ∃ s, v = .str s

theorem textParameters_empty : TextParameters OrderedHash.empty := by
  intro k v hv
  simp at hv

/-- The values that count for the signature under one name. -/
def collectedValues (fields : List (Bytes × Option Bytes)) (oauthParams : Params) (k : Bytes) :
    List Bytes :=
  match oauthParams.lookup k with
  | some (.str s) => fieldValues k fields ++ [s]
  | some _ => [[]]
  | none =>
    if k ∈ fields.map Prod.fst then
      if fieldValues k fields = [] then [[]] else fieldValues k fields
    else []

theorem lookup_collected (query : Bytes) (oauthParams : Params) (k : Bytes) :
    (collected query oauthParams).lookup k
      = match oauthParams.lookup k with
        | none => (cgiParse query).lookup k |>.map (fun vs => .arr (vs.map Value.str))
        | some v =>
          some (.arr (if truthy v then (fieldValues k (cgiFields query)).map Value.str ++ [v]
            else [v])) := by
  rw [collected, OrderedHash.lookup_mapValues,
    lookup_foldl_addParameter oauthParams.nodup, OrderedHash.lookup_mapValues]
  show Option.map _ (match oauthParams.lookup k with | none => _ | some v => _) = _
  cases oauthParams.lookup k with
  | none => rw [Option.map_map]; rfl
  | some v =>
      have hvalues : ((cgiParse query).lookup k).getD [] = fieldValues k (cgiFields query) := by
        rw [lookup_cgiParse]
        split
        · rfl
        · next h => rw [fieldValues_of_not_mem h]; rfl
      rw [← hvalues]
      cases (cgiParse query).lookup k <;> rfl

theorem flatValues_collected {query : Bytes} {oauthParams : Params} (hp : TextParameters oauthParams)
    {k : Bytes} {v : Value} (h : (collected query oauthParams).lookup k = some v) :
    flatValues v = some (collectedValues (cgiFields query) oauthParams k) := by
  rw [lookup_collected] at h
  cases hk : oauthParams.lookup k with
  | none =>
      simp only [collectedValues, hk, lookup_cgiParse] at h ⊢
      split at h
      · next hm =>
          simp only [Option.map_some, Option.some.injEq] at h
          rw [← h, if_pos hm]
          split
          · next hnil => rw [hnil]; rfl
          · next hne => exact flatValues_arr_map hne
      · simp at h
  | some w =>
      simp only [collectedValues, hk, Option.some.injEq] at h ⊢
      rcases hp k w hk with rfl | ⟨s, rfl⟩
      · rw [← h]
        rfl
      · rw [← h]
        have hmap : (fieldValues k (cgiFields query)).map Value.str ++ [Value.str s]
            = (fieldValues k (cgiFields query) ++ [s]).map Value.str := by simp
        simp only [truthy, if_true, hmap]
        exact flatValues_arr_map (by simp)

theorem flat_collected (query : Bytes) {oauthParams : Params} (hp : TextParameters oauthParams) :
    Flat (collected query oauthParams) := by
  rintro ⟨k, v⟩ he
  rw [flatValues_collected hp (OrderedHash.mem_entries.1 he)]
  rfl

/-- The values that the collected parameters have under one name. -/
theorem valuesOf_collected (query : Bytes) {oauthParams : Params} (hp : TextParameters oauthParams)
    (k : Bytes) :
    valuesOf k (flatPairs (collected query oauthParams).entries)
      = collectedValues (cgiFields query) oauthParams k := by
  rw [valuesOf_flatPairs (collected query oauthParams).nodup]
  show (((collected query oauthParams).lookup k).bind flatValues).getD [] = _
  cases h : (collected query oauthParams).lookup k with
  | some v => rw [Option.bind_some, flatValues_collected hp h, Option.getD_some]
  | none =>
      rw [lookup_collected] at h
      cases hk : oauthParams.lookup k with
      | some w => simp [hk] at h
      | none =>
          simp only [collectedValues, hk, Option.map_eq_none_iff, lookup_cgiParse] at h ⊢
          split at h
          · simp at h
          · next hm => simp [hm]

/-! ## What is signed -/

/-- The signed part of a hash keeps the values under the signed names. -/
theorem valuesOf_select (signed : Bytes → Bool) (params : Params) (k : Bytes) :
    valuesOf k (flatPairs (params.select signed).entries)
      = if signed k then valuesOf k (flatPairs params.entries) else [] := by
  rw [valuesOf_flatPairs (params.select signed).nodup, valuesOf_flatPairs params.nodup]
  have hl := OrderedHash.lookup_select signed params k
  unfold OrderedHash.lookup at hl
  rw [hl]
  split <;> rfl

/-- The signed parts of two flat hashes have one normal form exactly when the values that are signed
    agree, name by name and up to order. -/
theorem normalForm_select_inj {params params' : Params} (signed signed' : Bytes → Bool) :
    normalForm (flatPairs (params.select signed).entries)
        = normalForm (flatPairs (params'.select signed').entries) ↔
      ∀ k, (if signed k then valuesOf k (flatPairs params.entries) else []).Perm
        (if signed' k then valuesOf k (flatPairs params'.entries) else []) := by
  rw [normalForm_inj, perm_iff_valuesOf]
  refine forall_congr' fun k => ?_
  rw [valuesOf_select, valuesOf_select]

theorem normalForm_select_eq_iff {params params' : Params} (signed : Bytes → Bool) :
    normalForm (flatPairs (params.select signed).entries)
        = normalForm (flatPairs (params'.select signed).entries) ↔
      ∀ k, signed k = true →
        (valuesOf k (flatPairs params.entries)).Perm (valuesOf k (flatPairs params'.entries)) := by
  rw [normalForm_select_inj]
  refine forall_congr' fun k => ?_
  by_cases hk : signed k = true
  · simp [hk]
  · simp [hk]

theorem textParameters_oauthParameters (h : ClientHelper) : TextParameters h.oauthParameters := by
  intro k v hv
  rw [ClientHelper.oauthParameters, OrderedHash.lookup_ofList] at hv
  obtain ⟨e, -, he⟩ : ∃ e ∈ h.candidateParameters.filter h.keeps, v = ClientHelper.toValue e.2 := by
    have hmem := OrderedHash.mem_of_findEntry hv
    rw [List.mem_reverse] at hmem
    obtain ⟨e, he, heq⟩ := List.mem_map.1 hmem
    exact ⟨e, he, (congrArg Prod.snd heq).symm⟩
  cases h2 : e.2 with
  | none => exact .inl (by rw [he, h2]; rfl)
  | some s => exact .inr ⟨s, by rw [he, h2]; rfl⟩

end RubyOAuth
