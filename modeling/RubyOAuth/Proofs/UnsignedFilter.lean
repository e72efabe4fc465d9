import RubyOAuth.Proofs.BaseString
import RubyOAuth.Proofs.ClientParameters
import RubyOAuth.Proofs.KeyedNormalize

set_option autoImplicit false

/-! # The filter of `Base`

`parameters_for_signature` leaves a parameter out whose key is one of the unsigned names, which are
strings. Requests that differ only in the values of such names normalize alike, unless a name stands as a
symbol in the options: what is under a symbol is signed. -/

namespace RubyOAuth

open Bytes

variable {rt : Runtime} {names : List Bytes}

/-! ## Differing in some values -/

/-- One name after the other, and every value but those under the given names. -/
def FieldsDifferAt {α : Type} (names : List Bytes) (fs gs : List (Bytes × α)) : Prop :=
  fs.map Prod.fst = gs.map Prod.fst ∧ ∀ k, k ∉ names → valuesOf k fs = valuesOf k gs

/-- The same keys, and every value but those under listed keys. -/
def HashesDifferAt {κ ν : Type} [DecidableEq κ] (listed : κ → Prop) (h g : OrderedHash κ ν) : Prop :=
  ∀ k, (h.lookup k).isSome = (g.lookup k).isSome ∧ (¬ listed k → h.lookup k = g.lookup k)

/-- Both raise the same, or return what is related. -/
def BothReturn {α : Type} (related : α → α → Prop) (x y : Except RubyError α) : Prop :=
  (∃ e, x = .error e ∧ y = .error e) ∨ ∃ a b, x = .ok a ∧ y = .ok b ∧ related a b

/-- URIs that differ in their queries only. -/
def SameUpToQuery (u v : Bytes) : Prop :=
  u = v ∨ ∃ a b, parseUri u = .ok a ∧ parseUri v = .ok b ∧
    ({ a with query := none } : Uri) = { b with query := none }

theorem normalizeUri_of_sameUpToQuery {u v : Bytes} (h : SameUpToQuery u v) :
    normalizeUri u = normalizeUri v := by
  rcases h with rfl | ⟨a, b, ha, hb, heq⟩
  · rfl
  · have hparts : normalizeParsedUri a = normalizeParsedUri b := by
      have hquery : ∀ w : Uri, normalizeParsedUri w = normalizeParsedUri { w with query := none } :=
        fun w => rfl
      rw [hquery a, hquery b, heq]
    rw [normalizeUri, normalizeUri, ha, hb]
    exact hparts

namespace BothReturn

variable {α β : Type} {related : α → α → Prop} {related' : β → β → Prop} {x y : Except RubyError α}

theorem refl (h : ∀ a, related a a) (x : Except RubyError α) : BothReturn related x x := by
  cases x with
  | error e => exact Or.inl ⟨e, rfl, rfl⟩
  | ok a => exact Or.inr ⟨a, a, rfl, rfl, h a⟩

theorem bind {f g : α → Except RubyError β} (h : BothReturn related x y)
    (hfg : ∀ a b, related a b → BothReturn related' (f a) (g b)) :
    BothReturn related' (x >>= f) (y >>= g) := by
  rcases h with ⟨e, rfl, rfl⟩ | ⟨a, b, rfl, rfl, hab⟩
  · exact Or.inl ⟨e, rfl, rfl⟩
  · exact hfg a b hab

end BothReturn

namespace HashesDifferAt

variable {κ ν μ : Type} [DecidableEq κ] {listed : κ → Prop} {h g h' g' : OrderedHash κ ν}

theorem refl (listed : κ → Prop) (h : OrderedHash κ ν) : HashesDifferAt listed h h :=
  fun _ => ⟨rfl, fun _ => rfl⟩

theorem mapValues (f : ν → μ) (hd : HashesDifferAt listed h g) :
    HashesDifferAt listed (h.mapValues f) (g.mapValues f) := by
  intro k
  rw [OrderedHash.lookup_mapValues, OrderedHash.lookup_mapValues, Option.isSome_map,
    Option.isSome_map]
  exact ⟨(hd k).1, fun hk => congrArg (Option.map f) ((hd k).2 hk)⟩

theorem merge (hd : HashesDifferAt listed h g) (hd' : HashesDifferAt listed h' g') :
    HashesDifferAt listed (h.merge h') (g.merge g') := by
  intro k
  rw [OrderedHash.lookup_merge, OrderedHash.lookup_merge, Option.isSome_or, Option.isSome_or,
    (hd k).1, (hd' k).1]
  exact ⟨rfl, fun hk => by rw [(hd k).2 hk, (hd' k).2 hk]⟩

/-- String names as keys. -/
theorem mapKeys {h g : OrderedHash Bytes ν} (hd : HashesDifferAt (· ∈ names) h g) :
    HashesDifferAt (fun k : Key => k.toS ∈ names) (h.mapKeys Key.str_injective)
      (g.mapKeys Key.str_injective) := by
  intro k
  cases k with
  | str s =>
      rw [OrderedHash.lookup_mapKeys, OrderedHash.lookup_mapKeys]
      exact hd s
  | nil =>
      rw [OrderedHash.lookup_mapKeys_eq_none _ (by simp), OrderedHash.lookup_mapKeys_eq_none _ (by simp)]
      exact ⟨rfl, fun _ => rfl⟩
  | sym s =>
      rw [OrderedHash.lookup_mapKeys_eq_none _ (by simp), OrderedHash.lookup_mapKeys_eq_none _ (by simp)]
      exact ⟨rfl, fun _ => rfl⟩

end HashesDifferAt

/-- What `CGI.parse` reads of fields that differ in some values. -/
theorem hashesDifferAt_cgiParse {s t : Bytes} (h : FieldsDifferAt names (cgiFields s) (cgiFields t)) :
    HashesDifferAt (· ∈ names) (cgiParse s) (cgiParse t) := by
  intro k
  rw [lookup_cgiParse, lookup_cgiParse, h.1]
  split
  · refine ⟨rfl, fun hk => ?_⟩
    rw [fieldValues, fieldValues, h.2 k hk]
  · exact ⟨rfl, fun _ => rfl⟩

/-- Options that differ in the values of listed parameters. -/
def KeyedOptions.DiffersOnlyIn (names : List Bytes) (o o' : KeyedOptions) : Prop :=
  o.clobberRequest = o'.clobberRequest ∧
    Option.Rel (HashesDifferAt (fun k : Key => k.toS ∈ names)) o.parameters o'.parameters

/-- What a Rack request decodes to differs in the values of listed parameters. -/
def RackRequest.DiffersOnlyIn (names : List Bytes) (r r' : RackRequest) : Prop :=
  r.method = r'.method ∧
    BothReturn (HashesDifferAt (· ∈ names)) r.requestParams r'.requestParams ∧
    BothReturn (HashesDifferAt (· ∈ names)) r.queryParams r'.queryParams ∧
    BothReturn (HashesDifferAt (· ∈ names)) r.headerParams r'.headerParams

def KeyedProxy.DiffersOnlyIn (names : List Bytes) (p p' : KeyedProxy) : Prop :=
  p.method = p'.method ∧ p.normalizedUri = p'.normalizedUri ∧
    BothReturn (HashesDifferAt (fun k : Key => k.toS ∈ names)) p.parameters p'.parameters

/-! ## When they are left out -/

/-- A listed name is signed: its key is no string, all signed keys compare, and what is signed besides
    can be put in order. -/
structure KeyedParams.SignsListed (names : List Bytes) (params : KeyedParams) : Prop where
  comparable : Key.comparable (params.select (isSigned names)).keys = true
  listed : ∃ k ∈ OrderedHash.keys params, isSigned names k = true ∧ k.toS ∈ names
  sortable : ∀ k v, params.lookup k = some v → isSigned names k = true → k.toS ∉ names →
    sortable v = true

def KeyedProxy.LeavesOut (names : List Bytes) (p : KeyedProxy) : Prop :=
  ∀ uri params, p.normalizedUri = .ok uri → p.parameters = .ok params → ¬ params.SignsListed names

/-! ## Hashes of parameters -/

namespace KeyedParams

variable {params params' : KeyedParams}

/-- What is not signed does not count. -/
theorem normalizedParameters_congr (h : ∀ k, isSigned names k = true →
    (params.lookup k).map (normalizeEntry rt k) = (params'.lookup k).map (normalizeEntry rt k)) :
    normalizedParameters rt names params = normalizedParameters rt names params' := by
  refine normalize_congr_entries fun k => ?_
  rw [OrderedHash.lookup_select, OrderedHash.lookup_select]
  split
  · next hk => exact h k hk
  · rfl

/-- **What is left out does not count.** -/
theorem normalizedParameters_of_differ
    (hd : HashesDifferAt (fun k : Key => k.toS ∈ names) params params')
    (h : ¬ params.SignsListed names) :
    normalizedParameters rt names params' = normalizedParameters rt names params := by
  have hlookup : ∀ (p : KeyedParams) (k : Key), (p.select (isSigned names)).lookup k
      = if isSigned names k then p.lookup k else none :=
    fun p k => OrderedHash.lookup_select (isSigned names) p k
  have hsome : ∀ k, ((params.select (isSigned names)).lookup k).isSome
      = ((params'.select (isSigned names)).lookup k).isSome := by
    intro k
    rw [hlookup, hlookup]
    split
    · exact (hd k).1
    · rfl
  have hkeys := comparable_congr hsome
  by_cases hcomp : Key.comparable (params.select (isSigned names)).keys = true
  · by_cases hlisted : ∃ k ∈ OrderedHash.keys params, isSigned names k = true ∧ k.toS ∈ names
    · -- what is signed besides raises, in both
      have hbad : ∃ k v, params.lookup k = some v ∧ isSigned names k = true ∧ k.toS ∉ names ∧
          RubyOAuth.sortable v = false := by
        by_contra hno
        refine h ⟨hcomp, hlisted, fun k v hkv hk hnot => ?_⟩
        by_contra hv
        exact hno ⟨k, v, hkv, hk, hnot, by simpa using hv⟩
      obtain ⟨k, v, hkv, hk, hnot, hv⟩ := hbad
      have hraises : ∀ p : KeyedParams, p.lookup k = some v →
          normalize rt (p.select (isSigned names)) = .error .argumentError := by
        intro p hp
        cases hn : normalize rt (p.select (isSigned names)) with
        | error e => rw [error_of_normalize hn]
        | ok text =>
            have hsortable := (normalize_isOk_iff.1 ⟨text, hn⟩).2 k v (by rw [hlookup, if_pos hk, hp])
            rw [hv] at hsortable
            exact absurd hsortable Bool.false_ne_true
      exact (hraises params' ((hd k).2 hnot ▸ hkv)).trans (hraises params hkv).symm
    · refine normalizedParameters_congr fun k hk => ?_
      by_cases hmem : k.toS ∈ names
      · have hnone : params.lookup k = none := by
          rw [← Option.isNone_iff_eq_none, ← Option.isSome_eq_false_iff, ← Bool.not_eq_true,
            ← OrderedHash.mem_keys]
          exact fun hmk => hlisted ⟨k, hmk, hk, hmem⟩
        have hnone' : params'.lookup k = none := by
          rw [← Option.isNone_iff_eq_none, ← Option.isSome_eq_false_iff, ← (hd k).1, hnone]
          rfl
        rw [hnone, hnone']
      · rw [(hd k).2 hmem]
  · rw [Bool.not_eq_true] at hcomp
    exact (normalize_of_not_comparable (hkeys ▸ hcomp)).trans (normalize_of_not_comparable hcomp).symm

/-- The text `t` in place of every listed value. -/
def rewritten (names : List Bytes) (t : Bytes) (params : KeyedParams) : KeyedParams :=
  params.mapEntries (fun k v => if k.toS ∈ names then .str t else v)

theorem lookup_rewritten (t : Bytes) (k : Key) :
    (params.rewritten names t).lookup k
      = (params.lookup k).map (fun v => if k.toS ∈ names then .str t else v) :=
  OrderedHash.lookup_mapEntries _ params k

theorem hashesDifferAt_rewritten (t : Bytes) (params : KeyedParams) :
    HashesDifferAt (fun k : Key => k.toS ∈ names) params (params.rewritten names t) := by
  intro k
  rw [lookup_rewritten, Option.isSome_map]
  refine ⟨rfl, fun hk => ?_⟩
  simp only [if_neg hk, Option.map_id']

theorem length_entryText_str (k : Key) (t : Bytes) :
    (entryText rt (k, .str t)).length = (escapeBytes k.toS).length + 1 + (escapeBytes t).length := by
  have htext : entryText rt (k, .str t) = segment k.toS t := by
    cases k <;> exact joinWith_singleton ampersand _
  rw [htext, segment, List.length_append, List.length_cons]
  omega

/-- **A listed name that is signed shows what its value is.** -/
theorem exists_normalizedParameters_ne (rt : Runtime) (h : params.SignsListed names) :
    ∃ text text', normalizedParameters rt names (params.rewritten names []) = .ok text ∧
      normalizedParameters rt names (params.rewritten names (ascii "x")) = .ok text' ∧
      text ≠ text' := by
  have hselect : ∀ t, ((params.rewritten names t).select (isSigned names)).entries
      = (params.select (isSigned names)).entries.map
          (fun e => (e.1, if e.1.toS ∈ names then .str t else e.2)) := by
    intro t
    exact List.filter_map
  have hok : ∀ t, ∃ text, normalizedParameters rt names (params.rewritten names t) = .ok text := by
    intro t
    refine normalize_isOk_iff.2 ⟨?_, fun k v hkv => ?_⟩
    · rw [OrderedHash.keys, hselect, List.map_map]
      exact h.comparable
    · rw [OrderedHash.lookup_select] at hkv
      split at hkv
      · next hk =>
          rw [lookup_rewritten] at hkv
          obtain ⟨w, hw, rfl⟩ := Option.map_eq_some_iff.1 hkv
          split
          · rfl
          · next hnot => exact h.sortable k w hw hk hnot
      · simp at hkv
  obtain ⟨text, htext⟩ := hok []
  obtain ⟨text', htext'⟩ := hok (ascii "x")
  refine ⟨text, text', htext, htext', ?_⟩
  rintro rfl
  obtain ⟨k, hk, hsigned, hlisted⟩ := h.listed
  obtain ⟨⟨k', v⟩, he, rfl⟩ := List.mem_map.1 hk
  have hmem : (k', v) ∈ (params.select (isSigned names)).entries := List.mem_filter.2 ⟨he, hsigned⟩
  have hne : ∀ t, ((params.rewritten names t).select (isSigned names)).entries ≠ [] := by
    intro t hnil
    rw [hselect, List.map_eq_nil_iff] at hnil
    rw [hnil] at hmem
    simp at hmem
  have hsum := (length_normalize htext (hne _)).symm.trans (length_normalize htext' (hne _))
  rw [hselect, hselect, List.map_map, List.map_map] at hsum
  have hempty : (escapeBytes []).length = 0 := rfl
  have hx : (escapeBytes (ascii "x")).length = 1 := by decide
  have hle : ∀ e : Key × Value,
      (entryText rt (e.1, if e.1.toS ∈ names then Value.str [] else e.2)).length + 1
        ≤ (entryText rt (e.1, if e.1.toS ∈ names then Value.str (ascii "x") else e.2)).length + 1 := by
    intro e
    split
    · rw [length_entryText_str, length_entryText_str]
      omega
    · exact Nat.le_refl _
  have heq := eq_of_sum_eq hle hsum (k', v) hmem
  simp only [if_pos hlisted] at heq
  rw [length_entryText_str, length_entryText_str] at heq
  omega

end KeyedParams

/-! ## Classes that keep the filter of `Base` -/

namespace KeyedProxy

variable {p q : KeyedProxy}

theorem signatureBaseString_eq (rt : Runtime) (names : List Bytes) (p : KeyedProxy) :
    p.signatureBaseString rt names = p.normalizedUri >>= fun uri =>
      (p.parameters >>= KeyedParams.normalizedParameters rt names) >>= fun text =>
        .ok (joinWith ampersand ([p.method, uri, text].map escapeBytes)) := by
  rw [signatureBaseString]
  simp only [bind_assoc]

theorem signatureBaseString_of_differ (hd : p.DiffersOnlyIn names q) (h : p.LeavesOut names) :
    q.signatureBaseString rt names = p.signatureBaseString rt names := by
  obtain ⟨hmethod, huri, hparams⟩ := hd
  rw [signatureBaseString_eq, signatureBaseString_eq, ← hmethod, ← huri]
  cases hu : p.normalizedUri with
  | error e => rfl
  | ok uri =>
      rcases hparams with ⟨e, hp, hq⟩ | ⟨params, params', hp, hq, hdiffer⟩
      · rw [hp, hq]
      · rw [hp, hq, Except.ok_bind, Except.ok_bind, Except.ok_bind, Except.ok_bind,
          KeyedParams.normalizedParameters_of_differ hdiffer (h uri params hu hp)]

/-- As `p`, with the text `t` in place of every listed value that is signed. -/
structure Rewrites (rt : Runtime) (names : List Bytes) (t : Bytes) (p q : KeyedProxy) : Prop where
  method_eq : q.method = p.method
  uri_eq : q.normalizedUri = p.normalizedUri
  parameters_eq : q.parameters >>= KeyedParams.normalizedParameters rt names
    = p.parameters.map (KeyedParams.rewritten names t) >>= KeyedParams.normalizedParameters rt names

/-- Where a listed name is signed, the base string tells its values apart. -/
theorem Rewrites.signatureBaseString_ne {q' : KeyedProxy} (h : ¬ p.LeavesOut names)
    (hq : Rewrites rt names [] p q) (hq' : Rewrites rt names (ascii "x") p q') :
    q.signatureBaseString rt names ≠ q'.signatureBaseString rt names := by
  rw [LeavesOut] at h
  push Not at h
  obtain ⟨uri, params, huri, hparams, hsigns⟩ := h
  obtain ⟨text, text', htext, htext', hne⟩ :=
    KeyedParams.exists_normalizedParameters_ne rt hsigns
  have hvalue : ∀ {t w : Bytes} {z : KeyedProxy}, Rewrites rt names t p z →
      KeyedParams.normalizedParameters rt names (params.rewritten names t) = .ok w →
        z.signatureBaseString rt names
          = .ok (joinWith ampersand ([p.method, uri, w].map escapeBytes)) := by
    intro t w z hz hw
    have hz_params := hz.parameters_eq
    rw [hparams] at hz_params
    rw [signatureBaseString_eq, hz.uri_eq, huri, hz_params, Except.ok_bind, hz.method_eq]
    change KeyedParams.normalizedParameters rt names (params.rewritten names t) >>= _ = _
    rw [hw, Except.ok_bind]
  rw [hvalue hq htext, hvalue hq' htext']
  intro heq
  exact hne (baseString_inj.1 (Except.ok.inj heq)).2.2

end KeyedProxy

/-- Where rewriting the listed values never changes the base string, they are left out. -/
theorem KeyedProxy.leavesOut_of_rewrites (rt : Runtime) {p : KeyedProxy}
    (h : ∀ t, ∃ q, Rewrites rt names t p q ∧
      q.signatureBaseString rt names = p.signatureBaseString rt names) : p.LeavesOut names := by
  by_contra hnot
  obtain ⟨q, hq, heq⟩ := h []
  obtain ⟨q', hq', heq'⟩ := h (ascii "x")
  exact hq.signatureBaseString_ne hnot hq' (heq.trans heq'.symm)

/-- A listed key that is signed is no string. -/
theorem KeyedParams.lookup_mapKeys_of_signed {ν : Type} {k : Key}
    (hk : KeyedParams.isSigned names k = true) (hmem : k.toS ∈ names) (h : OrderedHash Bytes ν) :
    (h.mapKeys Key.str_injective).lookup k = none := by
  cases k with
  | str s =>
      have hnot : KeyedParams.isSigned names (.str s) = false := by
        rw [KeyedParams.isSigned, Bool.not_eq_false', List.contains_iff_mem]
        exact List.mem_append_left _ hmem
      rw [hnot] at hk
      exact absurd hk Bool.false_ne_true
  | nil => exact OrderedHash.lookup_mapKeys_eq_none _ (by simp)
  | sym s => exact OrderedHash.lookup_mapKeys_eq_none _ (by simp)

namespace KeyedOptions

variable {o o' : KeyedOptions}

/-- The options with the text `t` in place of every listed value. -/
def rewritten (names : List Bytes) (t : Bytes) (o : KeyedOptions) : KeyedOptions :=
  { o with parameters := o.parameters.map (KeyedParams.rewritten names t) }

theorem differsOnlyIn_rewritten (t : Bytes) (o : KeyedOptions) :
    o.DiffersOnlyIn names (o.rewritten names t) := by
  refine ⟨rfl, ?_⟩
  rw [rewritten]
  cases o.parameters with
  | none => exact Option.Rel.none
  | some params => exact Option.Rel.some (KeyedParams.hashesDifferAt_rewritten t params)

theorem getD_rewritten (t : Bytes) (o : KeyedOptions) :
    (o.rewritten names t).parameters.getD OrderedHash.empty
      = (o.parameters.getD OrderedHash.empty).rewritten names t := by
  rw [rewritten]
  cases o.parameters <;> rfl

theorem getD_differ (h : o.DiffersOnlyIn names o') :
    HashesDifferAt (fun k : Key => k.toS ∈ names) (o.parameters.getD OrderedHash.empty)
      (o'.parameters.getD OrderedHash.empty) := by
  have hrel := h.2
  revert hrel
  cases o.parameters <;> cases o'.parameters <;> intro hrel
  · exact HashesDifferAt.refl _ _
  · cases hrel
  · cases hrel
  · cases hrel with
    | some hparams => exact hparams

theorem addTo_differ {own own' : Except RubyError Params} (h : o.DiffersOnlyIn names o')
    (hown : BothReturn (HashesDifferAt (· ∈ names)) own own') :
    BothReturn (HashesDifferAt (fun k : Key => k.toS ∈ names)) (o.addTo own) (o'.addTo own') := by
  rw [addTo, addTo, ← h.1]
  split
  · exact Or.inr ⟨_, _, rfl, rfl, getD_differ h⟩
  · exact hown.bind fun params params' hd => Or.inr ⟨_, _, rfl, rfl, hd.mapKeys.merge (getD_differ h)⟩

theorem addTo_rewritten (t : Bytes) (o : KeyedOptions) (own : Except RubyError Params) :
    (o.rewritten names t).addTo own >>= KeyedParams.normalizedParameters rt names
      = (o.addTo own).map (KeyedParams.rewritten names t) >>=
          KeyedParams.normalizedParameters rt names := by
  have hclobber : (o.rewritten names t).clobberRequest = o.clobberRequest := rfl
  rw [addTo, addTo, hclobber, getD_rewritten]
  split
  · rfl
  · cases own with
    | error e => rfl
    | ok params =>
        refine KeyedParams.normalizedParameters_congr fun k hk => congrArg _ ?_
        rw [OrderedHash.lookup_merge, KeyedParams.lookup_rewritten, KeyedParams.lookup_rewritten,
          OrderedHash.lookup_merge]
        cases (o.parameters.getD OrderedHash.empty).lookup k with
        | some v => rfl
        | none =>
            by_cases hmem : k.toS ∈ names
            · rw [Params.keyed_eq, KeyedParams.lookup_mapKeys_of_signed hk hmem]
              rfl
            · simp only [if_neg hmem, Option.map_id', Option.none_or, Option.map_none]

end KeyedOptions

/-! ## The Net::HTTP proxy -/

namespace KeyedParams

theorem lookup_addParameter (params : OrderedHash Key (List Value)) (e : Key × Value) (k : Key) :
    (addParameter params e).lookup k
      = if k = e.1 then
          some (if truthy e.2 then (params.lookup k).getD [] ++ [e.2] else [e.2])
        else params.lookup k := by
  rw [addParameter]
  by_cases hk : k = e.1
  · subst hk
    cases params.lookup e.1 with
    | none => simp
    | some vs => by_cases hv : truthy e.2 = true <;> simp [hv]
  · cases params.lookup e.1 with
    | none => simp [hk]
    | some vs => by_cases hv : truthy e.2 = true <;> simp [hv, hk]

/-- The parameters of a request with those of the options added. -/
def collected (own : OrderedHash Bytes (List Value)) (given : KeyedParams) : KeyedParams :=
  (given.entries.foldl addParameter (own.mapKeys Key.str_injective)).mapValues Value.arr

theorem lookup_collected (own : OrderedHash Bytes (List Value)) (given : KeyedParams) (k : Key) :
    (collected own given).lookup k
      = ((given.lookup k).elim ((own.mapKeys Key.str_injective).lookup k) (fun v => some
          (if truthy v then ((own.mapKeys Key.str_injective).lookup k).getD [] ++ [v] else [v]))).map
            Value.arr := by
  rw [collected, OrderedHash.lookup_mapValues, OrderedHash.lookup_foldl_update
    (fun found v => if truthy v then found.getD [] ++ [v] else [v]) lookup_addParameter given.nodup]
  rfl

theorem collected_differ {own own' : OrderedHash Bytes (List Value)} {given given' : KeyedParams}
    (hown : HashesDifferAt (· ∈ names) own own')
    (hgiven : HashesDifferAt (fun k : Key => k.toS ∈ names) given given') :
    HashesDifferAt (fun k : Key => k.toS ∈ names) (collected own given) (collected own' given') := by
  intro k
  have hkeyed := hown.mapKeys k
  have hk := hgiven k
  rw [lookup_collected, lookup_collected, Option.isSome_map, Option.isSome_map]
  constructor
  · have hsome := hk.1
    cases hv : given.lookup k <;> cases hw : given'.lookup k <;> rw [hv, hw] at hsome
    · exact hkeyed.1
    · simp at hsome
    · simp at hsome
    · rfl
  · intro hnot
    rw [hk.2 hnot, hkeyed.2 hnot]

theorem collected_rewritten (t : Bytes) (own : OrderedHash Bytes (List Value)) (given : KeyedParams) :
    normalizedParameters rt names (collected own (given.rewritten names t))
      = normalizedParameters rt names ((collected own given).rewritten names t) := by
  refine normalizedParameters_congr fun k hk => ?_
  rw [lookup_rewritten, lookup_collected, lookup_collected, lookup_rewritten]
  by_cases hmem : k.toS ∈ names
  · have hone : normalizeEntry rt k (.arr [.str t]) = normalizeEntry rt k (.str t) := by
      cases k <;> rfl
    rw [lookup_mapKeys_of_signed hk hmem]
    cases given.lookup k with
    | none => rfl
    | some v =>
        simp only [if_pos hmem, Option.map_some, Option.elim]
        exact congrArg some hone
  · simp only [if_neg hmem, Option.map_id']

end KeyedParams

namespace HttpRequest

variable {r r' : HttpRequest} {o o' : KeyedOptions}

theorem keyedAllParameters_eq (r : HttpRequest) (o : KeyedOptions) :
    r.keyedAllParameters o = r.queryString.map (fun query =>
      KeyedParams.collected ((cgiParse query).mapValues (fun vs => vs.map Value.str))
        (o.parameters.getD OrderedHash.empty)) := by
  rw [keyedAllParameters]
  cases r.queryString <;> rfl

theorem keyedParameters_differ (h : o.DiffersOnlyIn names o')
    (hquery : BothReturn (fun s t => FieldsDifferAt names (cgiFields s) (cgiFields t)) r.queryString
      r'.queryString) :
    BothReturn (HashesDifferAt (fun k : Key => k.toS ∈ names)) (r.keyedParameters o)
      (r'.keyedParameters o') := by
  rw [keyedParameters, keyedParameters, ← h.1]
  split
  · have hrel := h.2
    revert hrel
    cases o.parameters <;> cases o'.parameters <;> intro hrel
    · exact Or.inl ⟨_, rfl, rfl⟩
    · cases hrel
    · cases hrel
    · cases hrel with
      | some hparams => exact Or.inr ⟨_, _, rfl, rfl, hparams⟩
  · exact hquery.bind fun s t hst => Or.inr ⟨_, _, rfl, rfl,
      KeyedParams.collected_differ ((hashesDifferAt_cgiParse hst).mapValues _)
        (KeyedOptions.getD_differ h)⟩

theorem keyedParameters_rewritten (t : Bytes) (r : HttpRequest) (o : KeyedOptions) :
    r.keyedParameters (o.rewritten names t) >>= KeyedParams.normalizedParameters rt names
      = (r.keyedParameters o).map (KeyedParams.rewritten names t) >>=
          KeyedParams.normalizedParameters rt names := by
  rw [keyedParameters, keyedParameters, keyedAllParameters_eq, keyedAllParameters_eq,
    KeyedOptions.getD_rewritten]
  by_cases hclobber : o.clobberRequest = true
  · rw [if_pos hclobber, KeyedOptions.rewritten, if_pos hclobber]
    cases o.parameters <;> rfl
  · rw [if_neg hclobber, KeyedOptions.rewritten, if_neg hclobber]
    cases r.queryString with
    | error e => rfl
    | ok query => exact KeyedParams.collected_rewritten t _ _

end HttpRequest

/-! ## The Rack proxies -/

theorem RackRequest.differsOnlyIn_refl (r : RackRequest) : r.DiffersOnlyIn names r :=
  ⟨rfl, BothReturn.refl (HashesDifferAt.refl _) _, BothReturn.refl (HashesDifferAt.refl _) _,
    BothReturn.refl (HashesDifferAt.refl _) _⟩

theorem RackRequest.parameters_differ {r r' : RackRequest} (h : r.DiffersOnlyIn names r') :
    BothReturn (HashesDifferAt (· ∈ names)) (r.parameters {}) (r'.parameters {}) := by
  obtain ⟨-, hrequest, hquery, hheader⟩ := h
  refine hrequest.bind fun rq rq' hrq => hquery.bind fun qq qq' hqq => hheader.bind fun hp hp' hhp => ?_
  exact Or.inr ⟨_, _, rfl, rfl, ((hrq.merge hqq).merge (hhp.mapValues _)).merge
    (HashesDifferAt.refl _ _)⟩

theorem ActionDispatchRequest.parameters_differ {r r' : DispatchRequest}
    (h : r.toRackRequest.DiffersOnlyIn names r'.toRackRequest) :
    BothReturn (HashesDifferAt (· ∈ names)) (parameters r {}) (parameters r' {}) := by
  obtain ⟨-, hrequest, hquery, hheader⟩ := h
  refine hrequest.bind fun rq rq' hrq => hquery.bind fun qq qq' hqq => hheader.bind fun hp hp' hhp => ?_
  exact Or.inr ⟨_, _, rfl, rfl, (((hrq.mapValues _).merge (hqq.mapValues _)).merge
    (hhp.mapValues _)).merge (HashesDifferAt.refl _ _)⟩

end RubyOAuth
