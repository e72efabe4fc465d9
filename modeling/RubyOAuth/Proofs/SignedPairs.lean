import RubyOAuth.Model.SignedRequest
import RubyOAuth.Proofs.ClientParameters
import RubyOAuth.Proofs.HeaderRoundTrip
import RubyOAuth.Proofs.Verify

set_option autoImplicit false

/-! # What a signed request sends

After `sign!` the parameters leave in two parts, those of OAuth in the header and the others in the
query of the signed URI. The two filters cut the parameters into two disjoint parts; whether the
receiver gets back every pair depends on what the header makes of a value. -/

namespace RubyOAuth

open Bytes

/-! ## The query of the signed URI -/

/-- The query of a URI text: what stands after the first `?`, before the fragment. -/
def queryText (uri : Bytes) : Bytes := (cut question (cut sharp uri).1).2.getD []

theorem not_mem_normalForm {b : UInt8} (hr : reservedCharacter b = true) (hp : b ≠ percent)
    (he : b ≠ equal) (ha : b ≠ ampersand) (ps : List (Bytes × Bytes)) : b ∉ normalForm ps := by
  intro h
  rcases mem_joinWith h with h | ⟨t, ht, h⟩
  · exact ha h
  · obtain ⟨p, -, rfl⟩ := List.mem_map.1 ht
    have hno := not_mem_escapeBytes hr hp
    simp [segment, hno, he] at h

/-- A query put after a URI without one is its query, unless it gets into the fragment. -/
theorem queryText_append {uri query : Bytes} (huri : question ∉ uri) (hquery : sharp ∉ query) :
    queryText (uri ++ question :: query) = if sharp ∈ uri then [] else query := by
  by_cases hs : sharp ∈ uri
  · obtain ⟨a, b, rfl, ha⟩ := List.eq_append_cons_of_mem hs
    have hqa : question ∉ a := fun h => huri (List.mem_append_left _ h)
    rw [if_pos hs, queryText, List.append_assoc, List.cons_append, cut_append ha,
      cut_of_not_mem hqa]
    rfl
  · have hall : sharp ∉ uri ++ question :: query := by
      simp [hs, hquery, show sharp ≠ question by decide]
    rw [if_neg hs, queryText, cut_of_not_mem hall, cut_append huri]
    rfl

/-- The normal form decodes to its pairs. -/
theorem formPairs_normalForm (ps : List (Bytes × Bytes)) :
    formPairs (normalForm ps) = sortPairs ps := by
  rw [formPairs, normalForm, cgiFields_joinWith, List.flatMap_map]
  induction sortPairs ps with
  | nil => rfl
  | cons p rest ih =>
      rw [List.flatMap_cons, List.map_append, ih, cgiFields_segment]
      rfl

/-! ## Pairs of a hash -/

theorem valuesOf_entries (h : OrderedHash Bytes Bytes) (k : Bytes) :
    valuesOf k h.entries = (h.lookup k).toList := by
  have hflat : flatPairs (h.mapValues Value.str).entries = h.entries := by
    have hone : ∀ es : List (Bytes × Bytes),
        flatPairs (es.map (fun e => (e.1, Value.str e.2))) = es := by
      intro es
      induction es with
      | nil => rfl
      | cons e rest ih =>
          rw [List.map_cons, flatPairs, List.flatMap_cons]
          exact congrArg (e :: ·) ih
    exact hone h.entries
  have hvalues := valuesOf_flatPairs (h.mapValues Value.str).nodup k
  have hlookup : OrderedHash.findEntry k (h.mapValues Value.str).entries
      = (h.lookup k).map Value.str := OrderedHash.lookup_mapValues Value.str h k
  rw [hflat, hlookup] at hvalues
  rw [hvalues]
  cases h.lookup k <;> rfl

theorem valuesOf_flatPairs_lookup (params : Params) (k : Bytes) :
    valuesOf k (flatPairs params.entries) = ((params.lookup k).bind flatValues).getD [] :=
  valuesOf_flatPairs params.nodup k

/-! ## The values the header gives back -/

/-- `Array#to_s` on one string: brackets around a line at least as long as the string. -/
def InspectsInBrackets (rt : Runtime) : Prop :=
  ∀ s, ∃ t, rt.inspect (.arr [.str s]) = lbracket :: (t ++ [rbracket]) ∧ newline ∉ t ∧
    s.length ≤ t.length

/-- The value as the receiver reads it in the header, nothing where the header leaves it out. -/
def receivedValue (rt : Runtime) (v : Value) : Option Bytes :=
  match v with
  | .nil => none
  | .str [] => none
  | v => some (stripQuotes (quoted (v.toS rt)))

/-- **A single value comes through exactly as a non-empty string without a line end.** -/
theorem receivedValue_perm_iff {rt : Runtime} (hi : InspectsInBrackets rt) {v : Value} {s : Bytes}
    (hv : v = .str s ∨ v = .arr [.str s]) :
    (receivedValue rt v).toList.Perm [s] ↔ ∃ t, v = .str t ∧ t ≠ [] ∧ newline ∉ t := by
  rw [List.perm_singleton]
  rcases hv with rfl | rfl
  · cases s with
    | nil => simp [receivedValue]
    | cons b rest =>
        simp only [receivedValue, Value.toS, Option.toList_some, List.cons.injEq, and_true,
          Value.str.injEq, exists_eq_left', stripQuotes_quoted_iff]
        simp
  · obtain ⟨t, ht, hline, hlen⟩ := hi s
    have hno : newline ∉ rt.inspect (.arr [.str s]) := by
      rw [ht]
      simp [hline, show newline ≠ lbracket by decide, show newline ≠ rbracket by decide]
    have hne : rt.inspect (.arr [.str s]) ≠ s := by
      intro h
      have hl := congrArg List.length h
      rw [ht, List.length_cons, List.length_append] at hl
      omega
    simp [receivedValue, Value.toS, (stripQuotes_quoted_iff _).2 hno, hne]

/-! ## Sending -/

/-- The pairs of header and query together are those of the parameters. -/
def Transmits (rt : Runtime) (p : MockProxy) : Prop :=
  ∃ hdr text, parseHeader (p.oauthHeader rt none) = .ok hdr ∧
    p.signedUri rt false = .ok (some text) ∧
    (hdr.entries ++ formPairs (queryText text)).Perm (flatPairs p.request.parameters.entries)

/-- The OAuth parameters are non-empty strings of one line, and no fragment swallows the others. -/
def MockRequest.Sendable (r : MockRequest) : Prop :=
  (∀ k v, r.parameters.lookup k = some v → k ∈ oauthParameterNames →
    k ≠ ascii "oauth_signature" → ∃ s, v = .str s ∧ s ≠ [] ∧ newline ∉ s) ∧
  (sharp ∈ r.uri → ∀ k v, r.parameters.lookup k = some v → k ∈ oauthParameterNames)

/-- Every parameter has a single value, as a string or in an array. -/
def SingleValues (params : Params) : Prop :=
  ∀ k v, params.lookup k = some v → ∃ s, v = .str s ∨ v = .arr [.str s]

theorem SingleValues.flatValues {params : Params} (hp : SingleValues params) {k : Bytes} {v : Value}
    (hv : params.lookup k = some v) : ∃ s, flatValues v = some [s] ∧ (v = .str s ∨ v = .arr [.str s]) := by
  obtain ⟨s, hs⟩ := hp k v hv
  refine ⟨s, ?_, hs⟩
  rcases hs with rfl | rfl <;> rfl

theorem SingleValues.select {params : Params} (hp : SingleValues params) (q : Bytes → Bool) :
    SingleValues (params.select q) := by
  intro k v hv
  rw [OrderedHash.lookup_select] at hv
  split at hv
  · exact hp k v hv
  · simp at hv

theorem SingleValues.flat {params : Params} (hp : SingleValues params) : Flat params := by
  rintro ⟨k, v⟩ he
  obtain ⟨s, hs, -⟩ := hp.flatValues (OrderedHash.mem_entries.1 he)
  rw [hs]
  rfl

namespace MockProxy

/-- What the receiver reads in the header. -/
theorem parseHeader_oauthHeader (rt : Runtime) (p : MockProxy) :
    ∃ hdr, parseHeader (p.oauthHeader rt none) = .ok hdr ∧
      ∀ k, hdr.lookup k = if k ∈ oauthParameterNames then
        (p.request.parameters.lookup k).bind (receivedValue rt) else none := by
  have hplain : ∀ k ∈ oauthParameterNames, PlainName k := by decide +kernel
  have hlookup : ∀ k, p.oauthParameters.lookup k = _ := fun k => OrderedHash.lookup_filter _ _ k
  have hnames : ∀ e ∈ p.oauthParameters.entries, PlainName e.1 := by
    rintro ⟨k, v⟩ he
    rw [OrderedHash.mem_entries, hlookup, Option.filter_eq_some_iff, Bool.and_eq_true,
      List.contains_iff_mem] at he
    exact hplain k he.2.1
  have hnodup : ((p.oauthParameters.entries.map
      (fun e => (e.1, stripQuotes (quoted (e.2.toS rt))))).map Prod.fst).Nodup := by
    rw [List.map_map]
    exact p.oauthParameters.nodup
  have hparse := parseHeader_fields rt hnames
  refine ⟨_, by rw [oauthHeader, List.append_nil, hparse], fun k => ?_⟩
  rw [OrderedHash.lookup_ofList_of_nodup hnodup,
    OrderedHash.findEntry_map (fun v => stripQuotes (quoted (Value.toS rt v)))]
  show (p.oauthParameters.lookup k).map _ = _
  rw [hlookup]
  cases hv : p.request.parameters.lookup k with
  | none => simp
  | some v =>
      by_cases hk : k ∈ oauthParameterNames
      · rw [if_pos hk, Option.bind_some, Option.filter_some, List.contains_iff_mem.2 hk,
          Bool.true_and]
        cases v with
        | str s => cases s <;> rfl
        | _ => rfl
      · rw [if_neg hk, Option.filter_some,
          Bool.eq_false_iff.2 (fun h => hk (List.contains_iff_mem.1 h))]
        rfl

/-- The pairs in the query of the signed URI. -/
theorem valuesOf_query (rt : Runtime) {p : MockProxy} (hp : SingleValues p.request.parameters)
    (huri : question ∉ p.request.uri) (hs : p.signed = true) :
    ∃ text, p.signedUri rt false = .ok (some text) ∧ ∀ k,
      (valuesOf k (formPairs (queryText text))).Perm
        (if sharp ∈ p.request.uri ∨ k ∈ oauthParameterNames then []
          else valuesOf k (flatPairs p.request.parameters.entries)) := by
  have hflat : Flat p.nonOauthParameters := (hp.select _).flat
  have hsharp : sharp ∉ normalForm (flatPairs p.nonOauthParameters.entries) :=
    not_mem_normalForm (by decide) (by decide) (by decide) (by decide) _
  refine ⟨_, by rw [signedUri, if_pos hs, if_neg Bool.false_ne_true, normalize_flat hflat,
    Except.ok_bind], fun k => ?_⟩
  rw [queryText_append huri hsharp]
  by_cases hfrag : sharp ∈ p.request.uri
  · rw [if_pos hfrag, if_pos (.inl hfrag)]
    exact List.Perm.refl _
  · rw [if_neg hfrag, formPairs_normalForm]
    have hsort : (valuesOf k (sortPairs (flatPairs p.nonOauthParameters.entries))).Perm
        (valuesOf k (flatPairs p.nonOauthParameters.entries)) :=
      perm_iff_valuesOf.1 (sortPairs_perm _) k
    refine hsort.trans ?_
    rw [valuesOf_flatPairs_lookup, valuesOf_flatPairs_lookup, nonOauthParameters,
      OrderedHash.lookup_select]
    by_cases hk : k ∈ oauthParameterNames
    · simp [hk]
    · simp [hk, hfrag]

/-- The parameters after `sign!`: all as before, with a signature that the header can carry. -/
theorem sign!_eq_ok {rt : Runtime} (hd : NonemptyDigests rt) {p signed : MockProxy}
    {o : SignatureOptions} {block : Option SecretBlock} (h : p.sign! rt o block = .ok signed) :
    ∃ s, s ≠ [] ∧ newline ∉ s ∧ signed.signed = true ∧
      signed.request = p.request.withSignature (.str s) := by
  obtain ⟨s, hs, h⟩ := Except.bind_eq_ok.1 h
  rw [← Except.ok.inj h]
  exact ⟨s, sign_ne_nil hd hs, newline_not_mem_sign hs, rfl, rfl⟩

end MockProxy

/-- **A signed request sends its parameters, each once, exactly when the OAuth parameters are
    non-empty strings of one line and no fragment swallows the others.** -/
theorem transmits_iff (rt : Runtime) (p signed : MockProxy) (o : SignatureOptions)
    (block : Option SecretBlock) (hd : NonemptyDigests rt) (hi : InspectsInBrackets rt)
    (hp : SingleValues p.request.parameters) (huri : question ∉ p.request.uri)
    (hs : p.sign! rt o block = .ok signed) : Transmits rt signed ↔ p.request.Sendable := by
  obtain ⟨s, hne, hline, hsigned, hreq⟩ := MockProxy.sign!_eq_ok hd hs
  have hlookup : ∀ k, signed.request.parameters.lookup k
      = if k = ascii "oauth_signature" then some (.str s) else p.request.parameters.lookup k := by
    intro k
    rw [hreq]
    exact OrderedHash.lookup_set _ _ _ _
  have huri' : signed.request.uri = p.request.uri := by rw [hreq]; rfl
  have hsingle : SingleValues signed.request.parameters := by
    intro k v hv
    rw [hlookup] at hv
    split at hv
    · exact ⟨s, .inl (Option.some.inj hv).symm⟩
    · exact hp k v hv
  obtain ⟨hdr, hparse, hhdr⟩ := MockProxy.parseHeader_oauthHeader rt signed
  obtain ⟨text, htext, hquery⟩ := MockProxy.valuesOf_query rt hsingle (huri' ▸ huri) hsigned
  -- name by name: an OAuth parameter is in the header only, any other in the query only
  have hname : ∀ k, (valuesOf k (hdr.entries ++ formPairs (queryText text))).Perm
      (valuesOf k (flatPairs signed.request.parameters.entries)) ↔
      ∀ v, signed.request.parameters.lookup k = some v →
        if k ∈ oauthParameterNames then ∃ t, v = .str t ∧ t ≠ [] ∧ newline ∉ t
        else sharp ∉ p.request.uri := by
    intro k
    have hq := hquery k
    rw [huri'] at hq
    rw [valuesOf_append, ((List.Perm.refl _).append hq).congr_left, valuesOf_entries, hhdr,
      valuesOf_flatPairs_lookup]
    cases hv : signed.request.parameters.lookup k with
    | none => simp
    | some v =>
        obtain ⟨t, ht, hcases⟩ := hsingle.flatValues hv
        by_cases hk : k ∈ oauthParameterNames
        · simp [hk, ht, receivedValue_perm_iff hi hcases]
        · by_cases hfrag : sharp ∈ p.request.uri
          · simp [hk, ht, hfrag]
          · simp [hk, ht, hfrag]
  have hall : Transmits rt signed ↔ ∀ k v, signed.request.parameters.lookup k = some v →
      if k ∈ oauthParameterNames then ∃ t, v = .str t ∧ t ≠ [] ∧ newline ∉ t
      else sharp ∉ p.request.uri := by
    rw [← forall_congr' hname, ← perm_iff_valuesOf]
    constructor
    · rintro ⟨hdr', text', hparse', htext', h⟩
      obtain rfl : hdr = hdr' := Except.ok.inj (hparse.symm.trans hparse')
      obtain rfl : text = text' := Option.some.inj (Except.ok.inj (htext.symm.trans htext'))
      exact h
    · intro h
      exact ⟨hdr, text, hparse, htext, h⟩
  rw [hall]
  constructor
  · intro h
    refine ⟨fun k v hv hk hsig => ?_, fun hfrag k v hv => ?_⟩
    · have hkv := h k v (by rw [hlookup, if_neg hsig, hv])
      rwa [if_pos hk] at hkv
    · by_contra hk
      have hsig : k ≠ ascii "oauth_signature" := by
        rintro rfl
        exact hk (by decide)
      have hkv := h k v (by rw [hlookup, if_neg hsig, hv])
      rw [if_neg hk] at hkv
      exact hkv hfrag
  · rintro ⟨hstrings, hfrag⟩ k v hv
    rw [hlookup] at hv
    split at hv
    · next hk =>
        rw [if_pos (by rw [hk]; decide)]
        exact ⟨s, (Option.some.inj hv).symm, hne, hline⟩
    · next hsig =>
        by_cases hk : k ∈ oauthParameterNames
        · rw [if_pos hk]
          exact hstrings k v hv hk hsig
        · rw [if_neg hk]
          exact fun hf => hk (hfrag hf k v hv)

/-! ## Two requests -/

theorem printingRuntime_inspectsInBrackets : InspectsInBrackets printingRuntime := by
  intro s
  refine ⟨inspectString s, rfl, ?_, ?_⟩
  · rw [inspectString, List.mem_cons, List.mem_append, List.mem_flatMap]
    rintro (h | ⟨b, -, h⟩ | h)
    · exact absurd h (by decide)
    · split_ifs at h with hb hq
      · exact absurd h (by decide)
      · simp [show newline ≠ 92 by decide, Ne.symm hb] at h
      · exact hb (List.mem_singleton.1 h).symm
    · exact absurd h (by decide)
  · have hbytes : s.length ≤ (s.flatMap (fun b => if b = newline then ascii "\\n"
        else if b = quote || b = 92 then [92, b] else [b])).length := by
      induction s with
      | nil => exact Nat.le_refl 0
      | cons b rest ih =>
          have hone : 1 ≤ (if b = newline then ascii "\\n"
              else if b = quote || b = 92 then [92, b] else [b]).length := by
            split_ifs
            · decide
            · simp
            · simp
          rw [List.flatMap_cons, List.length_append, List.length_cons]
          omega
    rw [inspectString, List.length_cons, List.length_append]
    omega

/-- A request with a token in an array. -/
def arrayRequest : MockRequest where
  method := ascii "GET"
  uri := ascii "http://example.com/"
  parameters := OrderedHash.ofList
    [(ascii "oauth_signature_method", .str (ascii "PLAINTEXT")),
      (ascii "oauth_token", .arr [.str (ascii "abc")])]

theorem plaintextRequest_transmits_iff :
    ∃ signed, MockProxy.sign! printingRuntime ⟨plaintextRequest, {}, false⟩ {} = .ok signed ∧
      (Transmits printingRuntime signed ↔ plaintextRequest.Sendable) := by
  have hsingle : SingleValues plaintextRequest.parameters := by
    intro k v hv
    have hmem : (k, v) ∈ [(ascii "oauth_signature_method", Value.str (ascii "PLAINTEXT")),
        (ascii "size", .str (ascii "big"))] := OrderedHash.mem_entries.2 hv
    rw [List.mem_cons, List.mem_singleton] at hmem
    rcases hmem with h | h
    · exact ⟨_, .inl (congrArg Prod.snd h)⟩
    · exact ⟨_, .inl (congrArg Prod.snd h)⟩
  exact ⟨_, rfl, transmits_iff printingRuntime ⟨plaintextRequest, {}, false⟩ _ {} none
    printingRuntime_nonemptyDigests printingRuntime_inspectsInBrackets hsingle (by decide) rfl⟩

/-- The token comes back as `["abc"]`. -/
theorem arrayRequest_not_transmits :
    ∃ signed, MockProxy.sign! printingRuntime ⟨arrayRequest, {}, false⟩ {} = .ok signed ∧
      ¬ Transmits printingRuntime signed := by
  refine ⟨_, rfl, ?_⟩
  rintro ⟨hdr, text, hhdr, htext, h⟩
  rw [← Except.ok.inj hhdr, ← Option.some.inj (Except.ok.inj htext)] at h
  exact absurd h (by decide +kernel)

end RubyOAuth
