import RubyOAuth.Model.ClientProxies
import RubyOAuth.Proofs.Listing
import RubyOAuth.Proofs.Normalize
import RubyOAuth.Proofs.ClientParameters
import RubyOAuth.Proofs.SplitFields

set_option autoImplicit false

/-! # Form bodies and the proxies that read them

RestClient and Curl bodies are split by hand: names and values stay encoded, a repeated name keeps one
value, and what `split` drops is a flag or `nil`. A body that all proxies read alike has none of this. -/

namespace RubyOAuth

open Bytes

variable {rt : Runtime}

/-! ## Bodies -/

/-- The body that pairs are written as. -/
def formBody (ps : List (Bytes × Bytes)) : Bytes := joinWith ampersand (segments ps)

theorem cgiFields_joinedBody (ps : List (Bytes × Bytes)) :
    cgiFields (formBody ps) = ps.map (fun p => (p.1, some p.2)) := by
  rw [formBody, cgiFields_joinWith, segments, List.flatMap_map]
  induction ps with
  | nil => rfl
  | cons p rest ih => rw [List.flatMap_cons, ih, cgiFields_segment, List.map_cons, List.singleton_append]

/-- Nothing is dropped after a field that is not empty. -/
theorem splitFields_of_last {p : UInt8 → Bool} {s last : Bytes} {front : List Bytes}
    (h : s.splitOnP p = front ++ [last]) (hne : last ≠ []) : splitFields p s = front ++ [last] := by
  have hlast : ¬ last.isEmpty = true := by simpa using hne
  rw [splitFields, h, List.reverse_append, List.reverse_singleton, List.singleton_append,
    List.dropWhile_cons_of_neg hlast, List.reverse_cons, List.reverse_reverse]

/-- The fields of the body are its segments. -/
theorem splitFields_formBody (ps : List (Bytes × Bytes)) :
    splitFields (· == ampersand) (formBody ps) = segments ps := by
  rcases List.eq_nil_or_concat ps with rfl | ⟨front, p, rfl⟩
  · decide
  · rw [List.concat_eq_append]
    have hsplit : (formBody (front ++ [p])).splitOnP (· == ampersand)
        = segments front ++ [segment p.1 p.2] := by
      have hsep : ∀ t ∈ segments (front ++ [p]), ampersand ∉ t := ampersand_not_mem_segments
      have hall := splitOn_joinWith hsep (by simp [segments])
      rw [formBody]
      refine hall.trans ?_
      simp [segments]
    rw [splitFields_of_last hsplit (segment_ne_nil _ _)]
    simp [segments]

theorem splitOnP_segment (n v : Bytes) :
    (segment n v).splitOnP (· == equal) = [escapeBytes n, escapeBytes v] := by
  have hno := not_mem_escapeBytes (b := equal) (by decide) (by decide)
  have hvalue : (escapeBytes v).splitOnP (· == equal) = [escapeBytes v] := by
    refine List.splitOnP_eq_singleton fun b hb => ?_
    rw [beq_eq_false_iff_ne]
    rintro rfl
    exact hno v hb
  rw [splitOnP_eq_cut, segment, cut_append (hno n), Option.map_some, Option.getD_some, hvalue]

theorem splitFields_segment {n v : Bytes} (hv : v ≠ []) :
    splitFields (· == equal) (segment n v) = [escapeBytes n, escapeBytes v] := by
  have hsplit : (segment n v).splitOnP (· == equal) = [escapeBytes n] ++ [escapeBytes v] :=
    splitOnP_segment n v
  exact splitFields_of_last hsplit (fun he => hv (escapeBytes_injective he))

/-- An empty value is dropped, and an empty name before it. -/
theorem splitFields_segment_nil (n : Bytes) :
    splitFields (· == equal) (segment n []) = if n = [] then [] else [escapeBytes n] := by
  rw [splitFields, splitOnP_segment]
  by_cases hn : n = []
  · subst hn
    rfl
  · have hne : ¬ (escapeBytes n).isEmpty = true := by
      rw [List.isEmpty_iff]
      exact fun he => hn (escapeBytes_injective he)
    simp [hn, hne]

/-! ## What the loops read -/

/-- The key of a field: nothing is left of an empty one. -/
def fieldKey (p : Bytes × Bytes) : Key := if p = ([], []) then .nil else .str (escapeBytes p.1)

/-- The value of a field: an empty one is left blank. -/
def fieldValue (blank : Value) (v : Bytes) : Value := if v = [] then blank else .str (escapeBytes v)

theorem toS_fieldKey (p : Bytes × Bytes) : (fieldKey p).toS = escapeBytes p.1 := by
  rw [fieldKey]
  split
  · next h => rw [h]; rfl
  · rfl

/-- The hash has what the fields are read as: each entry is read from a field, each field has its key. -/
def ReadsFields (blank : Value) (ps : List (Bytes × Bytes)) (h : KeyedParams) : Prop :=
  (∀ k w, h.lookup k = some w → ∃ p ∈ ps, k = fieldKey p ∧ w = fieldValue blank p.2) ∧
    ∀ p ∈ ps, fieldKey p ∈ h.keys

theorem ReadsFields.set {blank : Value} {ps : List (Bytes × Bytes)} {h : KeyedParams}
    (hr : ReadsFields blank ps h) (p : Bytes × Bytes) :
    ReadsFields blank (ps ++ [p]) (h.set (fieldKey p) (fieldValue blank p.2)) := by
  refine ⟨fun k w hw => ?_, fun q hq => ?_⟩
  · rw [OrderedHash.lookup_set] at hw
    split at hw
    · next hk => exact ⟨p, by simp, hk, (Option.some.inj hw).symm⟩
    · obtain ⟨q, hq, hkw⟩ := hr.1 k w hw
      exact ⟨q, List.mem_append_left _ hq, hkw⟩
  · rw [OrderedHash.mem_keys, OrderedHash.lookup_set]
    split
    · rfl
    · next hne =>
        rcases List.mem_append.1 hq with hq | hq
        · exact OrderedHash.mem_keys.1 (hr.2 q hq)
        · rw [List.mem_singleton.1 hq] at hne
          exact absurd rfl hne

/-- A field whose key is there may be passed over. -/
theorem ReadsFields.skip {blank : Value} {ps : List (Bytes × Bytes)} {h : KeyedParams}
    (hr : ReadsFields blank ps h) {p : Bytes × Bytes} (hp : fieldKey p ∈ h.keys) :
    ReadsFields blank (ps ++ [p]) h := by
  refine ⟨fun k w hw => ?_, fun q hq => ?_⟩
  · obtain ⟨q, hq, hkw⟩ := hr.1 k w hw
    exact ⟨q, List.mem_append_left _ hq, hkw⟩
  · rcases List.mem_append.1 hq with hq | hq
    · exact hr.2 q hq
    · rw [List.mem_singleton.1 hq]
      exact hp

/-- A loop over the segments of a body, by what one step does. -/
theorem readsFields_foldl {blank : Value} {step : KeyedParams → Bytes → KeyedParams}
    (hstep : ∀ ps h p, ReadsFields blank ps h → ReadsFields blank (ps ++ [p]) (step h (segment p.1 p.2)))
    (ps : List (Bytes × Bytes)) :
    ReadsFields blank ps ((segments ps).foldl step OrderedHash.empty) := by
  induction ps using List.reverseRecOn with
  | nil =>
      refine ⟨fun k w hw => ?_, fun p hp => absurd hp List.not_mem_nil⟩
      exact absurd (show (none : Option Value) = some w from hw) (by simp)
  | append_singleton front p ih =>
      rw [segments, List.map_append, List.foldl_append]
      exact hstep front _ p ih

theorem RestClientRequest.readsFields (ps : List (Bytes × Bytes)) :
    ReadsFields (.bool true) ps (queryStringToHash (formBody ps)) := by
  rw [queryStringToHash, splitFields_formBody]
  refine readsFields_foldl (fun front h p hr => ?_) ps
  obtain ⟨n, v⟩ := p
  have hset := hr.set (n, v)
  by_cases hv : v = []
  · subst hv
    have hflag : addField h (segment n [])
        = if (h.lookup (fieldKey (n, []))).isSome then h else h.set (fieldKey (n, [])) (.bool true) := by
      rw [addField, splitFields_segment_nil]
      by_cases hn : n = []
      · simp [hn, fieldKey]
      · simp [hn, fieldKey]
    rw [hflag]
    split
    · next hpresent => exact hr.skip (OrderedHash.mem_keys.2 hpresent)
    · exact hset
  · have hstep : addField h (segment n v)
        = h.set (.str (escapeBytes n)) (.str (escapeBytes v)) := by
      simp only [addField, splitFields_segment hv]
    rw [hstep]
    simpa [fieldKey, fieldValue, hv] using hset

theorem CurlEasy.readsFields (ps : List (Bytes × Bytes)) :
    ReadsFields .nil ps ((splitFields (· == ampersand) (formBody ps)).foldl addField
      OrderedHash.empty) := by
  rw [splitFields_formBody]
  refine readsFields_foldl (fun front h p hr => ?_) ps
  obtain ⟨n, v⟩ := p
  have hset := hr.set (n, v)
  by_cases hv : v = []
  · subst hv
    have hstep : addField h (segment n []) = h.set (fieldKey (n, [])) .nil := by
      rw [addField, splitFields_segment_nil]
      by_cases hn : n = []
      · simp [hn, fieldKey]
      · simp [hn, fieldKey]
    rw [hstep]
    exact hset
  · have hstep : addField h (segment n v)
        = h.set (.str (escapeBytes n)) (.str (escapeBytes v)) := by
      simp only [addField, splitFields_segment hv]
    rw [hstep]
    simpa [fieldKey, fieldValue, hv] using hset

/-! ## Under string names -/

/-- The same of a hash with string names. -/
def ReadsNames (blank : Value) (ps : List (Bytes × Bytes)) (params : Params) : Prop :=
  (∀ n w, params.lookup n = some w → ∃ p ∈ ps, n = escapeBytes p.1 ∧ w = fieldValue blank p.2) ∧
    ∀ p ∈ ps, escapeBytes p.1 ∈ params.keys

theorem stringifyKeys_eq (h : KeyedParams) :
    RestClientRequest.stringifyKeys h
      = OrderedHash.ofList (h.entries.map (fun e => (e.1.toS, e.2))) := by
  rw [RestClientRequest.stringifyKeys, OrderedHash.ofList, List.foldl_map]

theorem ReadsFields.stringifyKeys {blank : Value} {ps : List (Bytes × Bytes)} {h : KeyedParams}
    (hr : ReadsFields blank ps h) : ReadsNames blank ps (RestClientRequest.stringifyKeys h) := by
  rw [stringifyKeys_eq]
  refine ⟨fun n w hw => ?_, fun p hp => ?_⟩
  · rw [OrderedHash.lookup_ofList] at hw
    obtain ⟨e, he, heq⟩ := List.mem_map.1 (List.mem_reverse.1 (OrderedHash.mem_of_findEntry hw))
    obtain ⟨rfl, rfl⟩ := Prod.mk.inj heq
    obtain ⟨p, hp, hk, hv⟩ := hr.1 e.1 e.2 (OrderedHash.mem_entries.1 he)
    exact ⟨p, hp, by rw [hk, toS_fieldKey], hv⟩
  · obtain ⟨e, he, hk⟩ := List.mem_map.1 (hr.2 p hp)
    rw [OrderedHash.mem_keys, OrderedHash.lookup_ofList_isSome, List.map_map]
    exact List.mem_map.2 ⟨e, he, by rw [Function.comp_apply, hk, toS_fieldKey]⟩

theorem ReadsFields.keyed {blank : Value} {ps : List (Bytes × Bytes)} {params : Params}
    (hr : ReadsFields blank ps params.keyed) (hps : ([], []) ∉ ps) : ReadsNames blank ps params := by
  have hkey : ∀ p ∈ ps, fieldKey p = .str (escapeBytes p.1) := by
    intro p hp
    rw [fieldKey, if_neg]
    rintro rfl
    exact hps hp
  refine ⟨fun n w hw => ?_, fun p hp => ?_⟩
  · have hmem : (.str n, w) ∈ params.keyed.entries :=
      List.mem_map.2 ⟨(n, w), OrderedHash.mem_entries.2 hw, rfl⟩
    obtain ⟨p, hp, hk, hv⟩ := hr.1 (.str n) w (OrderedHash.mem_entries.1 hmem)
    rw [hkey p hp] at hk
    exact ⟨p, hp, Key.str.inj hk, hv⟩
  · have hmem := hr.2 p hp
    rw [hkey p hp] at hmem
    obtain ⟨e, he, hk⟩ := List.mem_map.1 hmem
    obtain ⟨e', he', rfl⟩ := List.mem_map.1 he
    exact List.mem_map.2 ⟨e', he', Key.str.inj hk⟩

/-! ## Normal forms -/

/-- Neither an array nor a hash. -/
def IsScalar : Value → Prop
  | .arr _ => False
  | .hash _ => False
  | _ => True

/-- The pairs that scalar parameters are written as. -/
def scalarPairs (rt : Runtime) (params : Params) : List (Bytes × Bytes) :=
  params.entries.map (fun e => (e.1, e.2.toS rt))

theorem normalize_scalars {params : Params} (h : ∀ k v, params.lookup k = some v → IsScalar v) :
    normalize rt params = .ok (normalForm (scalarPairs rt params)) := by
  have htext : normalize rt params
      = normalize rt (params.mapValues (fun v => .str (v.toS rt))) := by
    refine normalize_congr_entries rt fun k => ?_
    rw [OrderedHash.lookup_mapValues]
    cases hv : params.lookup k with
    | none => rfl
    | some v =>
        have hscalar := h k v hv
        cases v with
        | arr vs => exact hscalar.elim
        | hash es => exact hscalar.elim
        | _ => rfl
  have hflat : Flat (params.mapValues (fun v => .str (v.toS rt))) := by
    intro e he
    obtain ⟨e', -, rfl⟩ := List.mem_map.1 he
    rfl
  rw [htext, normalize_flat hflat, flatPairs, OrderedHash.mapValues, List.flatMap_map]
  congr 2
  rw [scalarPairs]
  induction params.entries with
  | nil => rfl
  | cons e rest ih => rw [List.flatMap_cons, ih]; rfl

/-! ## Bodies that are read alike -/

/-- The name of the signature, which is not signed. -/
def signatureName : Bytes := ascii "oauth_signature"

def signedFields (ps : List (Bytes × Bytes)) : List (Bytes × Bytes) :=
  ps.filter (fun p => p.1 ≠ signatureName)

/-- Text that percent-encoding leaves as it is. -/
def Unreserved (s : Bytes) : Prop := ∀ b ∈ s, reservedCharacter b = false

/-- Bodies that every loop reads: each name once, no empty value, nothing that is encoded. -/
def ReadAlike (ps : List (Bytes × Bytes)) : Prop :=
  ((signedFields ps).map Prod.fst).Nodup ∧
    ∀ p ∈ signedFields ps, Unreserved p.1 ∧ Unreserved p.2 ∧ p.2 ≠ []

theorem escapeBytes_length (s : Bytes) :
    s.length ≤ (escapeBytes s).length ∧ ((escapeBytes s).length = s.length ↔ Unreserved s) := by
  have h : s.length ≤ (escapeBytes s).length ∧ ((escapeBytes s).length = s.length ↔
      ∀ b ∈ s, (!reservedCharacter b) = true) := PercentCode.length_encode_le_iff s
  simpa only [Unreserved, Bool.not_eq_true'] using h

theorem escapeBytes_of_unreserved {s : Bytes} (h : Unreserved s) : escapeBytes s = s :=
  PercentCode.encode_of_forall_safe fun b hb => by simpa using h b hb

theorem unreserved_of_escapeBytes {s : Bytes} (h : escapeBytes s = s) : Unreserved s :=
  (escapeBytes_length s).2.1 (congrArg List.length h)

/-- An escaped name is the signature's only where the name is. -/
theorem escapeBytes_eq_signatureName {n : Bytes} : escapeBytes n = signatureName ↔ n = signatureName := by
  have hname : escapeBytes signatureName = signatureName := by decide
  rw [← hname, escapeBytes_inj, hname]

def signedNames (params : Params) : Params := params.select (fun k => k ≠ signatureName)

section

variable {blank : Value} {ps : List (Bytes × Bytes)} {params : Params}

theorem mem_signedFields {p : Bytes × Bytes} : p ∈ signedFields ps ↔ p ∈ ps ∧ p.1 ≠ signatureName := by
  rw [signedFields, List.mem_filter, decide_eq_true_eq]

theorem mem_scalarPairs {params : Params} {n t : Bytes} :
    (n, t) ∈ scalarPairs rt (signedNames params)
      ↔ n ≠ signatureName ∧ ∃ w, params.lookup n = some w ∧ w.toS rt = t := by
  have hlook : ∀ w, (n, w) ∈ (signedNames params).entries
      ↔ n ≠ signatureName ∧ params.lookup n = some w := by
    intro w
    rw [OrderedHash.mem_entries, signedNames, OrderedHash.lookup_select]
    by_cases hn : n = signatureName <;> simp [hn]
  constructor
  · intro h
    obtain ⟨⟨k, w⟩, he, heq⟩ := List.mem_map.1 h
    obtain ⟨rfl, rfl⟩ := Prod.mk.inj heq
    obtain ⟨hn, hw⟩ := (hlook w).1 he
    exact ⟨hn, w, hw, rfl⟩
  · rintro ⟨hn, w, hw, rfl⟩
    exact List.mem_map.2 ⟨(n, w), (hlook w).2 ⟨hn, hw⟩, rfl⟩

theorem nodup_scalarPairs (params : Params) :
    ((scalarPairs rt (signedNames params)).map Prod.fst).Nodup := by
  rw [scalarPairs, List.map_map]
  exact (signedNames params).nodup

/-- **A body that is read alike is read as it was written.** -/
theorem scalarPairs_perm_of_readAlike (hr : ReadsNames blank ps params) (h : ReadAlike ps) :
    (scalarPairs rt (signedNames params)).Perm (signedFields ps) := by
  -- what is read under a signed name is the field of that name
  have hread : ∀ p ∈ ps, escapeBytes p.1 ≠ signatureName →
      p ∈ signedFields ps ∧ escapeBytes p.1 = p.1 ∧ fieldValue blank p.2 = .str p.2 := by
    intro p hp hn
    have hmem : p ∈ signedFields ps :=
      mem_signedFields.2 ⟨hp, fun he => hn (escapeBytes_eq_signatureName.2 he)⟩
    obtain ⟨hname, hvalue, hne⟩ := h.2 p hmem
    exact ⟨hmem, escapeBytes_of_unreserved hname, by
      rw [fieldValue, if_neg hne, escapeBytes_of_unreserved hvalue]⟩
  refine (List.perm_ext_iff_of_nodup (nodup_scalarPairs params).of_map h.1.of_map).2 ?_
  rintro ⟨n, t⟩
  rw [mem_scalarPairs]
  constructor
  · rintro ⟨hn, w, hw, rfl⟩
    obtain ⟨p, hp, rfl, rfl⟩ := hr.1 n w hw
    obtain ⟨hmem, hname, hvalue⟩ := hread p hp hn
    rw [hname, hvalue]
    exact hmem
  · intro hmem
    obtain ⟨hp, hn⟩ := mem_signedFields.1 hmem
    have hsigned : escapeBytes n ≠ signatureName := fun he => hn (escapeBytes_eq_signatureName.1 he)
    obtain ⟨-, hname, -⟩ := hread (n, t) hp hsigned
    obtain ⟨w, hw⟩ := Option.isSome_iff_exists.1 (OrderedHash.mem_keys.1 (hr.2 (n, t) hp))
    -- the field that was read has the same name
    obtain ⟨q, hq, hqn, hqw⟩ := hr.1 _ w hw
    have hqs : escapeBytes q.1 ≠ signatureName := hqn ▸ hsigned
    obtain ⟨hqmem, -, hqvalue⟩ := hread q hq hqs
    have hsame : (n, t) = q :=
      List.inj_on_of_nodup_map h.1 hmem hqmem (escapeBytes_injective hqn)
    refine ⟨hn, w, ?_, ?_⟩
    · rw [← hw]
      exact congrArg params.lookup hname.symm
    · rw [hqw, hqvalue, ← hsame]
      rfl

/-- **What reads back as written is read alike**, where an empty value is not read as one. -/
theorem readAlike_of_scalarPairs_perm (hr : ReadsNames blank ps params) (hblank : blank.toS rt ≠ [])
    (h : (scalarPairs rt (signedNames params)).Perm (signedFields ps)) : ReadAlike ps := by
  have hnames := h.map Prod.fst
  have hnodup : ((signedFields ps).map Prod.fst).Nodup :=
    hnames.nodup_iff.1 (nodup_scalarPairs params)
  have hread : ∀ p ∈ signedFields ps, ∃ w, params.lookup (escapeBytes p.1) = some w ∧
      (escapeBytes p.1, w.toS rt) ∈ signedFields ps := by
    intro p hp
    obtain ⟨hmem, hn⟩ := mem_signedFields.1 hp
    obtain ⟨w, hw⟩ := Option.isSome_iff_exists.1 (OrderedHash.mem_keys.1 (hr.2 p hmem))
    refine ⟨w, hw, h.mem_iff.1 (mem_scalarPairs.2 ⟨?_, w, hw, rfl⟩)⟩
    exact fun he => hn (escapeBytes_eq_signatureName.1 he)
  -- escaping permutes the names, so it keeps their lengths
  have hescaped : (((signedFields ps).map Prod.fst).map escapeBytes).Perm
      ((signedFields ps).map Prod.fst) := by
    refine List.Subperm.perm_of_length_le ?_ (by simp)
    refine (hnodup.map escapeBytes_injective).subperm fun n hn => ?_
    obtain ⟨m, hm, rfl⟩ := List.mem_map.1 hn
    obtain ⟨p, hp, rfl⟩ := List.mem_map.1 hm
    obtain ⟨w, -, hw⟩ := hread p hp
    exact List.mem_map.2 ⟨_, hw, rfl⟩
  have hplain : ∀ n ∈ (signedFields ps).map Prod.fst, Unreserved n := by
    intro n hn
    have hsum := (hescaped.map List.length).sum_eq
    rw [List.map_map] at hsum
    exact (escapeBytes_length n).2.1
      (eq_of_sum_eq (fun m => (escapeBytes_length m).1) hsum.symm n hn).symm
  refine ⟨hnodup, fun p hp => ?_⟩
  have hname := hplain p.1 (List.mem_map.2 ⟨p, hp, rfl⟩)
  obtain ⟨w, hw, hmem⟩ := hread p hp
  obtain ⟨q, hq, hqn, hqw⟩ := hr.1 _ w hw
  have hqp : q = p := by
    have hqs : q ∈ signedFields ps := by
      refine mem_signedFields.2 ⟨hq, ?_⟩
      rw [← escapeBytes_injective hqn]
      exact (mem_signedFields.1 hp).2
    exact List.inj_on_of_nodup_map hnodup hqs hp (escapeBytes_injective hqn).symm
  subst hqp
  rw [escapeBytes_of_unreserved hname] at hmem
  have hvalue : q.2 = w.toS rt := by
    have hsame : q = (q.1, w.toS rt) := List.inj_on_of_nodup_map hnodup hp hmem rfl
    exact congrArg Prod.snd hsame
  rw [hqw, fieldValue] at hvalue
  by_cases hempty : q.2 = []
  · rw [if_pos hempty, hempty] at hvalue
    exact absurd hvalue.symm hblank
  · rw [if_neg hempty] at hvalue
    exact ⟨hname, unreserved_of_escapeBytes hvalue.symm, hempty⟩

end

/-! ## One body, three requests -/

/-- A form request without query, header or parameters in the options, as each library holds it. -/
structure FormRequests (body : Bytes) where
  netHttp : HttpRequest
  restClient : RestClientRequest
  curl : CurlEasy
  options : SignatureOptions
  netHttp_body : netHttp.postParams = some body
  netHttp_query : netHttp.queryParams = .ok none
  netHttp_header : netHttp.authHeaderParams = none
  restClient_form : restClient.isFormData = true
  restClient_method : restClient.method = ascii "POST" ∨ restClient.method = ascii "PUT"
  restClient_body : restClient.payload.map RestClientPayload.text = some body
  restClient_query : urlQueryParams restClient.url = .ok OrderedHash.empty
  curl_form : isFormMediaType curl.contentType = true
  curl_body : curl.postBody = some body
  curl_query : urlQueryParams curl.url = .ok OrderedHash.empty
  no_parameters : options.parameters = none
  no_clobber : options.clobberRequest = false
  no_unsigned : options.unsignedParameters = none

namespace FormRequests

variable {ps : List (Bytes × Bytes)}

/-- What the Net::HTTP proxy collects from the body has the values of the pairs. -/
theorem valuesOf_collected_formBody (ps : List (Bytes × Bytes)) (k : Bytes) :
    valuesOf k (flatPairs (collected (formBody ps) OrderedHash.empty).entries) = valuesOf k ps := by
  have hfields : fieldValues k (ps.map (fun p => (p.1, some p.2))) = valuesOf k ps := by
    rw [fieldValues]
    induction ps with
    | nil => rfl
    | cons p rest ih =>
        rw [List.map_cons, valuesOf_cons, valuesOf_cons]
        split
        · rw [List.filterMap_cons, ih]
          rfl
        · exact ih
  have hnames : (ps.map (fun p => (p.1, some p.2))).map Prod.fst = ps.map Prod.fst := by simp
  rw [valuesOf_collected _ textParameters_empty, collectedValues, cgiFields_joinedBody, hfields, hnames]
  simp only [OrderedHash.lookup_empty]
  by_cases hk : valuesOf k ps = []
  · rw [hk, if_neg (valuesOf_eq_nil.1 hk)]
  · rw [if_pos (by_contra fun hc => hk (valuesOf_eq_nil.2 hc)), if_neg hk]

theorem normalize_collected_formBody (ps : List (Bytes × Bytes)) :
    normalize rt (signedNames (collected (formBody ps) OrderedHash.empty))
      = .ok (normalForm (signedFields ps)) := by
  have hflat : Flat (signedNames (collected (formBody ps) OrderedHash.empty)) := fun e he =>
    flat_collected (formBody ps) textParameters_empty e (List.mem_of_mem_filter he)
  have hperm : (flatPairs (signedNames (collected (formBody ps) OrderedHash.empty)).entries).Perm
      (signedFields ps) := by
    rw [perm_iff_valuesOf]
    intro k
    have hfilter := valuesOf_filter (fun n => decide (n ≠ signatureName)) k ps
    rw [signedNames, valuesOf_select, valuesOf_collected_formBody, signedFields, hfilter]
  rw [normalize_flat hflat, normalForm_inj.2 hperm]

/-- The names that are signed where none is unsigned. -/
theorem isSigned_eq {p : Proxy} (h : p.unsignedParameters = []) :
    p.isSigned = fun k => decide (k ≠ signatureName) := by
  funext k
  rw [Proxy.isSigned, Proxy.signatureAndUnsignedParameters, h]
  by_cases hk : k = signatureName <;> simp_all [signatureName]

/-- What a proxy without unsigned parameters normalizes. -/
theorem normalizedParameters_eq {p : Proxy} {params : Params} (h : p.unsignedParameters = [])
    (hparams : p.parameters = .ok params) :
    p.normalizedParameters rt = normalize rt (signedNames params) := by
  rw [Proxy.normalizedParameters, Proxy.parametersForSignature, hparams, Except.ok_bind, Except.ok_bind,
    isSigned_eq h, signedNames]

variable (rs : FormRequests (formBody ps))

theorem normalizedParameters_netHttp :
    (rs.netHttp.proxy rs.options).normalizedParameters rt = .ok (normalForm (signedFields ps)) := by
  have hquery : rs.netHttp.queryString = .ok (formBody ps) := by
    rw [HttpRequest.queryString, rs.netHttp_query, rs.netHttp_header, rs.netHttp_body]
    exact congrArg Except.ok (joinWith_singleton ampersand _)
  have hparams : rs.netHttp.parameters rs.options = .ok (collected (formBody ps) OrderedHash.empty) := by
    rw [HttpRequest.parameters, rs.no_clobber, if_neg Bool.false_ne_true, allParameters_eq, hquery,
      rs.no_parameters]
    rfl
  have hunsigned : (rs.netHttp.proxy rs.options).unsignedParameters = [] := by
    rw [HttpRequest.proxy, rs.no_unsigned]
    rfl
  rw [normalizedParameters_eq hunsigned hparams, normalize_collected_formBody]

/-- What the RestClient proxy reads. -/
def restClientParams (ps : List (Bytes × Bytes)) : Params :=
  RestClientRequest.stringifyKeys (RestClientRequest.queryStringToHash (formBody ps))

theorem isScalar_of_readsNames {blank : Value} {params : Params} (hr : ReadsNames blank ps params)
    (hb : IsScalar blank) : ∀ k v, (signedNames params).lookup k = some v → IsScalar v := by
  intro k v hv
  rw [signedNames, OrderedHash.lookup_select] at hv
  split at hv
  · obtain ⟨p, -, -, rfl⟩ := hr.1 k v hv
    rw [fieldValue]
    split
    · exact hb
    · trivial
  · exact absurd hv (by simp)

theorem normalizedParameters_restClient :
    (rs.restClient.proxy rs.options).normalizedParameters rt
      = .ok (normalForm (scalarPairs rt (signedNames (restClientParams ps)))) := by
  have hmethod : (rs.restClient.method == ascii "POST" || rs.restClient.method == ascii "PUT") = true := by
    rw [Bool.or_eq_true, beq_iff_eq, beq_iff_eq]
    exact rs.restClient_method
  have hpost : rs.restClient.postParameters = restClientParams ps := by
    rw [RestClientRequest.postParameters, rs.restClient_form, hmethod, rs.restClient_body]
    rfl
  have hparams : (rs.restClient.proxy rs.options).parameters = .ok (restClientParams ps) := by
    show rs.restClient.parameters rs.options = _
    rw [RestClientRequest.parameters, rs.no_clobber, if_neg Bool.false_ne_true, rs.restClient_query,
      hpost, rs.no_parameters]
    rfl
  have hunsigned : (rs.restClient.proxy rs.options).unsignedParameters = [] := by
    rw [RestClientRequest.proxy, rs.no_unsigned]
    rfl
  rw [normalizedParameters_eq hunsigned hparams]
  exact normalize_scalars (isScalar_of_readsNames (RestClientRequest.readsFields ps).stringifyKeys
    trivial)

/-- A hash whose keys are strings is one with string names. -/
theorem exists_keyed {h : KeyedParams} (hk : ∀ k ∈ h.keys, ∃ s, k = .str s) :
    ∃ params : Params, h = params.keyed := by
  have hback : ∀ e ∈ h.entries, (.str e.1.toS : Key) = e.1 := by
    intro e he
    obtain ⟨s, hs⟩ := hk e.1 (List.mem_map_of_mem he)
    rw [hs]
    rfl
  have hnodup : ((h.entries.map (fun e => (e.1.toS, e.2))).map Prod.fst).Nodup := by
    rw [List.map_map]
    refine List.Nodup.of_map Key.str ?_
    have hkeys : h.entries.map (Key.str ∘ Prod.fst ∘ fun e => (e.1.toS, e.2)) = h.keys :=
      List.map_congr_left hback
    rw [List.map_map, hkeys]
    exact h.nodup
  refine ⟨⟨_, hnodup⟩, ?_⟩
  obtain ⟨es, hes⟩ := h
  simp only [Params.keyed, List.map_map, OrderedHash.mk.injEq]
  refine ((List.map_congr_left fun e he => ?_).trans (List.map_id es)).symm
  exact Prod.ext (hback e he) rfl

/-- A body that is read alike leaves no `nil` among the names, and then Curl signs the pairs. -/
theorem normalizedParameters_curl (h : ReadAlike ps) :
    rs.curl.normalizedParameters rt rs.options = .ok (normalForm (signedFields ps)) := by
  have hblank : ([], []) ∉ ps := by
    intro hmem
    exact (h.2 ([], []) (mem_signedFields.2 ⟨hmem, by decide⟩)).2.2 rfl
  have hr := CurlEasy.readsFields ps
  obtain ⟨params, hkeyed⟩ := exists_keyed (h := (splitFields (· == ampersand) (formBody ps)).foldl
      CurlEasy.addField OrderedHash.empty) (by
    intro k hk
    obtain ⟨w, hw⟩ := Option.isSome_iff_exists.1 (OrderedHash.mem_keys.1 hk)
    obtain ⟨p, hp, rfl, -⟩ := hr.1 k w hw
    refine ⟨escapeBytes p.1, if_neg ?_⟩
    rintro rfl
    exact hblank hp)
  rw [hkeyed] at hr
  have hparams : rs.curl.parameters rs.options = .ok params.keyed := by
    have hpost : rs.curl.postParameters = .ok params.keyed := by
      rw [CurlEasy.postParameters, rs.curl_form, if_pos rfl, rs.curl_body]
      exact congrArg Except.ok hkeyed
    rw [CurlEasy.parameters, rs.no_clobber, if_neg Bool.false_ne_true, hpost, rs.curl_query,
      rs.no_parameters]
    rfl
  have hsigned : params.select (fun k => KeyedParams.isSigned [] (.str k)) = signedNames params := by
    rw [signedNames]
    congr 1
    funext k
    by_cases hk : k = signatureName <;> simp_all [KeyedParams.isSigned, signatureName]
  have hnames := hr.keyed hblank
  rw [CurlEasy.normalizedParameters, hparams, Except.ok_bind, KeyedParams.normalizedParameters,
    rs.no_unsigned]
  rw [show (none : Option (List Bytes)).getD [] = [] from rfl, Params.select_keyed, hsigned,
    KeyedParams.normalize_keyed, normalize_scalars (isScalar_of_readsNames hnames trivial),
    normalForm_inj.2 (scalarPairs_perm_of_readAlike hnames h)]

theorem restClient_agrees_iff :
    (rs.restClient.proxy rs.options).normalizedParameters rt
        = (rs.netHttp.proxy rs.options).normalizedParameters rt ↔ ReadAlike ps := by
  have hr := (RestClientRequest.readsFields ps).stringifyKeys
  rw [normalizedParameters_netHttp, normalizedParameters_restClient, Except.ok.injEq, normalForm_inj]
  exact ⟨readAlike_of_scalarPairs_perm hr (show ascii "true" ≠ [] by decide),
    scalarPairs_perm_of_readAlike hr⟩

/-- **The three proxies agree on a body exactly where it is read alike**: the names that are signed are
    distinct, no value of theirs is empty, and percent-encoding changes neither names nor values. -/
theorem proxies_agree_iff (rt : Runtime) (ps : List (Bytes × Bytes)) (rs : FormRequests (formBody ps)) :
    ((rs.restClient.proxy rs.options).normalizedParameters rt
        = (rs.netHttp.proxy rs.options).normalizedParameters rt ∧
      rs.curl.normalizedParameters rt rs.options
        = (rs.netHttp.proxy rs.options).normalizedParameters rt) ↔ ReadAlike ps := by
  constructor
  · rintro ⟨hrest, -⟩
    exact (restClient_agrees_iff rs).1 hrest
  · intro h
    refine ⟨(restClient_agrees_iff rs).2 h, ?_⟩
    rw [normalizedParameters_curl rs h, normalizedParameters_netHttp]

/-- A form of each library with one body. -/
def exampleForm (ps : List (Bytes × Bytes)) : FormRequests (formBody ps) where
  netHttp :=
    { method := ascii "POST", path := ascii "/",
      headers := OrderedHash.ofList [(ascii "content-type", formMediaType)],
      body := some (formBody ps), bodyStream := none, requestBodyPermitted := true }
  restClient :=
    { requestMethod := ascii "post", url := ascii "http://example.com/",
      payload := some ⟨some formMediaType, formBody ps⟩ }
  curl := ⟨ascii "http://example.com/", some formMediaType, some (formBody ps)⟩
  options := {}
  netHttp_body := rfl
  netHttp_query := rfl
  netHttp_header := rfl
  restClient_form := rfl
  restClient_method := Or.inl rfl
  restClient_body := rfl
  restClient_query := rfl
  curl_form := rfl
  curl_body := rfl
  curl_query := rfl
  no_parameters := rfl
  no_clobber := rfl
  no_unsigned := rfl

/-- A space comes out encoded twice. -/
theorem exampleForm_not_agree :
    ¬ (((exampleForm [(ascii "a", ascii "b c")]).restClient.proxy {}).normalizedParameters echoRuntime
        = ((exampleForm [(ascii "a", ascii "b c")]).netHttp.proxy {}).normalizedParameters echoRuntime ∧
      (exampleForm [(ascii "a", ascii "b c")]).curl.normalizedParameters echoRuntime {}
        = ((exampleForm [(ascii "a", ascii "b c")]).netHttp.proxy {}).normalizedParameters
          echoRuntime) := by
  rintro ⟨hrest, -⟩
  have hmem : (ascii "a", ascii "b c") ∈ signedFields [(ascii "a", ascii "b c")] := by decide
  have hspace := (((restClient_agrees_iff (exampleForm [(ascii "a", ascii "b c")])).1 hrest).2 _ hmem).2.1
    space (by decide)
  exact absurd hspace (by decide)

end FormRequests

end RubyOAuth
