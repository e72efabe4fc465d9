import RubyOAuth.Proofs.RawSegments
import RubyOAuth.Proofs.UnsignedFilter

set_option autoImplicit false

/-! # Parameters that are not to be signed

Two requests that differ only in the values of unsigned parameters should have one base string. The
filter of `Base` sees to it for string names; `ActionControllerRequest` collects what it signs by itself,
and leaves out the signature only. -/

namespace RubyOAuth

open Bytes

variable {rt : Runtime} {names : List Bytes}

/-! ## The request proxies -/

/-- What `ActionControllerRequest` reads: the name and the value of every segment. -/
def ActionControllerRequest.readPairs (support : ActiveSupport) (r : DispatchRequest)
    (o : SignatureOptions) : Except RubyError (List (Bytes × Bytes)) := do
  let texts ← signedTexts support r o
  .ok ((texts.flatMap rawSegments).map splitPair)

/-- A request with the class that proxies it. `base` is any class that leaves `Base` as it is;
    `to_query` writes a symbol as the string, so that names are strings in a controller's options. -/
inductive ParameterProxy where
  | base (p : KeyedProxy)
  | netHttp (r : HttpRequest) (o : KeyedOptions)
  | rack (r : RackRequest) (o : KeyedOptions)
  | actionDispatch (r : DispatchRequest) (o : KeyedOptions)
  | actionController (r : DispatchRequest) (o : SignatureOptions)

namespace ParameterProxy

def signatureBaseString (rt : Runtime) (support : ActiveSupport) (unsignedParameters : List Key) :
    ParameterProxy → Except RubyError Bytes
  | .base p => p.signatureBaseString rt (unsignedNames unsignedParameters)
  | .netHttp r o => (r.keyedProxy o).signatureBaseString rt (unsignedNames unsignedParameters)
  | .rack r o => (r.keyedProxy o).signatureBaseString rt (unsignedNames unsignedParameters)
  | .actionDispatch r o =>
    (ActionDispatchRequest.keyedProxy r o).signatureBaseString rt (unsignedNames unsignedParameters)
  | .actionController r o => ActionControllerRequest.signatureBaseString support r o

end ParameterProxy

/-- Two requests of one class that differ only in the values of parameters with these names, as the
    class reads them from query, body, header and options. -/
def ParameterProxy.DiffersOnlyIn (support : ActiveSupport) (names : List Bytes) :
    ParameterProxy → ParameterProxy → Prop
  | .base p, .base p' => p.DiffersOnlyIn names p'
  | .netHttp r o, .netHttp r' o' =>
    r.method = r'.method ∧ SameUpToQuery (o.uri.getD []) (o'.uri.getD []) ∧ o.DiffersOnlyIn names o' ∧
      BothReturn (fun s t => FieldsDifferAt names (cgiFields s) (cgiFields t)) r.queryString
        r'.queryString
  | .rack r o, .rack r' o' =>
    r.DiffersOnlyIn names r' ∧ SameUpToQuery r.url r'.url ∧ o.DiffersOnlyIn names o'
  | .actionDispatch r o, .actionDispatch r' o' =>
    r.toRackRequest.DiffersOnlyIn names r'.toRackRequest ∧
      SameUpToQuery (o.uri.getD r.url) (o'.uri.getD r'.url) ∧ o.DiffersOnlyIn names o'
  | .actionController r o, .actionController r' o' =>
    ActionControllerRequest.method r = ActionControllerRequest.method r' ∧
      SameUpToQuery (ActionControllerRequest.uri r o) (ActionControllerRequest.uri r' o') ∧
      BothReturn (FieldsDifferAt names) (ActionControllerRequest.readPairs support r o)
        (ActionControllerRequest.readPairs support r' o')
  | _, _ => False

/-- Unsigned parameters do not influence what is signed of a request. -/
def UnsignedDoNotCount (rt : Runtime) (support : ActiveSupport) (unsignedParameters : List Key)
    (x : ParameterProxy) : Prop :=
  ∀ y, x.DiffersOnlyIn support (unsignedNames unsignedParameters) y →
    y.signatureBaseString rt support unsignedParameters
      = x.signatureBaseString rt support unsignedParameters

/-- No listed parameter is read, the signature excepted. -/
def ActionControllerRequest.LeavesOut (support : ActiveSupport) (names : List Bytes)
    (r : DispatchRequest) (o : SignatureOptions) : Prop :=
  ∀ uri ps, normalizeUri (ActionControllerRequest.uri r o) = .ok uri → readPairs support r o = .ok ps →
    ∀ n ∈ names, n ≠ ascii "oauth_signature" → n ∉ ps.map Prod.fst

def ParameterProxy.LeavesOut (support : ActiveSupport) (names : List Bytes) : ParameterProxy → Prop
  | .base p => p.LeavesOut names
  | .netHttp r o => (r.keyedProxy o).LeavesOut names
  | .rack r o => (r.keyedProxy o).LeavesOut names
  | .actionDispatch r o => (ActionDispatchRequest.keyedProxy r o).LeavesOut names
  | .actionController r o => ActionControllerRequest.LeavesOut support names r o

/-! ## `ActionControllerRequest` -/

namespace ActionControllerRequest

/-- The base string lists the pairs read, but for the signature. -/
theorem signatureBaseString_eq (support : ActiveSupport) (r : DispatchRequest) (o : SignatureOptions) :
    signatureBaseString support r o = normalizeUri (uri r o) >>= fun uri =>
      readPairs support r o >>= fun ps =>
        .ok (joinWith ampersand ([method r, uri,
          normalForm (ps.filter (fun p => p.1 != ascii "oauth_signature"))].map escapeBytes)) := by
  have hfilter : ∀ texts : List Bytes, (texts.flatMap signedSegments).map splitPair
      = ((texts.flatMap rawSegments).map splitPair).filter (fun p => p.1 != ascii "oauth_signature") := by
    intro texts
    rw [List.filter_map, List.filter_flatMap]
    refine congrArg (List.map splitPair) (List.flatMap_congr fun t _ => List.filter_congr fun s _ => ?_)
    rw [Function.comp_apply, splitPair_eq]
  rw [signatureBaseString, normalizedParameters, parametersForSignature_eq_map, readPairs]
  cases normalizeUri (uri r o) with
  | error e => rfl
  | ok u =>
      cases signedTexts support r o with
      | error e => rfl
      | ok texts =>
          refine congrArg (fun text => Except.ok
            (joinWith ampersand ([method r, u, text].map escapeBytes))) ?_
          rw [normalizeLists_eq, hfilter]

theorem signatureBaseString_of_differ {support : ActiveSupport} {r r' : DispatchRequest}
    {o o' : SignatureOptions} (hmethod : method r = method r')
    (huri : SameUpToQuery (uri r o) (uri r' o'))
    (hpairs : BothReturn (FieldsDifferAt names) (readPairs support r o) (readPairs support r' o'))
    (h : LeavesOut support names r o) :
    signatureBaseString support r' o' = signatureBaseString support r o := by
  rw [signatureBaseString_eq, signatureBaseString_eq, ← hmethod, ← normalizeUri_of_sameUpToQuery huri]
  cases hu : normalizeUri (uri r o) with
  | error e => rfl
  | ok u =>
      rcases hpairs with ⟨e, hps, hqs⟩ | ⟨ps, qs, hps, hqs, hkeys, hvalues⟩
      · rw [hps, hqs]
      · have hperm : (qs.filter (fun p => p.1 != ascii "oauth_signature")).Perm
            (ps.filter (fun p => p.1 != ascii "oauth_signature")) := by
          rw [perm_iff_valuesOf]
          intro k
          rw [valuesOf_filter (· != ascii "oauth_signature"),
            valuesOf_filter (· != ascii "oauth_signature")]
          split
          · next hk =>
              by_cases hmem : k ∈ names
              · have hnot := h u ps hu hps k hmem (bne_iff_ne.1 hk)
                rw [valuesOf_eq_nil.2 hnot, valuesOf_eq_nil.2 (hkeys ▸ hnot)]
              · rw [hvalues k hmem]
          · rfl
        rw [hps, hqs, Except.ok_bind, Except.ok_bind, Except.ok_bind, Except.ok_bind,
          normalForm_inj.2 hperm]

/-! ### Requests that list given pairs -/

/-- A request like `r` whose query lists these pairs. -/
def listingRequest (r : DispatchRequest) (ps : List (Bytes × Bytes)) : DispatchRequest where
  requestMethod := r.method
  url := r.url
  env := OrderedHash.ofList [(ascii "REQUEST_URI", [question])]
  contentType := none
  get := .ok OrderedHash.empty
  post := .ok OrderedHash.empty
  queryString := joinWith ampersand (segments ps)
  rawPost := []

theorem isBlank_segment (n v : Bytes) : isBlank (segment n v) = false := by
  rw [isBlank, List.all_eq_false]
  exact ⟨equal, List.mem_append_right _ List.mem_cons_self, by decide⟩

theorem splitPair_segment (n v : Bytes) : splitPair (segment n v) = (n, v) := by
  have hno := not_mem_escapeBytes (b := equal) (by decide) (by decide)
  have hcut : cut equal (segment n v) = (escapeBytes n, some (escapeBytes v)) := cut_append (hno n) _
  have hone : OneEqual (segment n v) := by
    intro t ht
    rw [hcut] at ht
    exact Option.some.inj ht ▸ hno v
  rw [splitPair_eq_rawPair hone, rawPair, hcut, Option.getD_some, cgiUnescape_escapeBytes,
    cgiUnescape_escapeBytes]

theorem rawSegments_joinWith (ps : List (Bytes × Bytes)) :
    rawSegments (joinWith ampersand (segments ps)) = segments ps := by
  by_cases hps : segments ps = []
  · rw [hps]
    rfl
  · rw [rawSegments, splitOn_joinWith ampersand_not_mem_segments hps, List.filter_eq_self]
    intro s hs
    obtain ⟨p, -, rfl⟩ := List.mem_map.1 hs
    rw [isBlank_segment]
    rfl

theorem readPairs_listingRequest (support : ActiveSupport) (r : DispatchRequest) (uri : Option Bytes)
    (ps : List (Bytes × Bytes)) :
    readPairs support (listingRequest r ps) { uri := uri } = .ok ps := by
  have hempty : support.toQuery ((OrderedHash.empty : OrderedHash Bytes Bytes).mapValues Value.str)
      = [] := support.toQuery_empty
  have hraw : rawPostSignature (listingRequest r ps) = false := Bool.and_false _
  have hblank : queryStringBlank (listingRequest r ps) = false := rfl
  have hheader : (listingRequest r ps).headerParams = .ok OrderedHash.empty := rfl
  have htexts : signedTexts support (listingRequest r ps) { uri := uri }
      = .ok [[], joinWith ampersand (segments ps)] := by
    rw [signedTexts, hheader, hraw, hblank, Except.ok_bind, hempty]
    rfl
  have hpairs : (segments ps).map splitPair = ps := by
    rw [segments, List.map_map]
    exact (List.map_congr_left fun p _ => splitPair_segment p.1 p.2).trans (List.map_id _)
  have hnone : rawSegments [] = [] := rfl
  rw [readPairs, htexts, Except.ok_bind, List.flatMap_cons, hnone, List.nil_append,
    List.flatMap_singleton, rawSegments_joinWith, hpairs]

/-- The text `t` in place of every listed value. -/
def rewrittenPairs (names : List Bytes) (t : Bytes) (ps : List (Bytes × Bytes)) : List (Bytes × Bytes) :=
  ps.map (fun p => (p.1, if p.1 ∈ names then t else p.2))

theorem fieldsDifferAt_rewrittenPairs (t : Bytes) (ps : List (Bytes × Bytes)) :
    FieldsDifferAt names ps (rewrittenPairs names t ps) := by
  refine ⟨by rw [rewrittenPairs, List.map_map]; rfl, fun k hk => ?_⟩
  induction ps with
  | nil => rfl
  | cons p rest ih =>
      rw [rewrittenPairs, List.map_cons, valuesOf_cons, valuesOf_cons]
      rw [rewrittenPairs] at ih
      by_cases hp : p.1 = k
      · have hnot : p.1 ∉ names := hp ▸ hk
        simp only [if_pos hp, if_neg hnot, ih]
      · simp only [if_neg hp, ih]

/-- A listed name that is read shows what its value is. -/
theorem normalForm_rewrittenPairs_ne {ps : List (Bytes × Bytes)} {n : Bytes} (hn : n ∈ names)
    (hne : n ≠ ascii "oauth_signature") (hmem : n ∈ ps.map Prod.fst) :
    normalForm ((rewrittenPairs names [] ps).filter (fun p => p.1 != ascii "oauth_signature"))
      ≠ normalForm ((rewrittenPairs names (ascii "x") ps).filter
          (fun p => p.1 != ascii "oauth_signature")) := by
  intro heq
  obtain ⟨p, hp, rfl⟩ := List.mem_map.1 hmem
  have hx : (p.1, ascii "x") ∈ (rewrittenPairs names (ascii "x") ps).filter
      (fun p => p.1 != ascii "oauth_signature") :=
    List.mem_filter.2 ⟨List.mem_map.2 ⟨p, hp, by rw [if_pos hn]⟩, bne_iff_ne.2 hne⟩
  obtain ⟨q, -, hq⟩ := List.mem_map.1 (List.mem_filter.1 ((normalForm_inj.1 heq).mem_iff.2 hx)).1
  obtain ⟨hname, hvalue⟩ := Prod.mk.inj hq
  rw [if_pos (hname ▸ hn)] at hvalue
  exact absurd hvalue (by decide)

theorem leavesOut_of_forall {support : ActiveSupport} {r : DispatchRequest} {o : SignatureOptions}
    (h : ∀ ps t, readPairs support r o = .ok ps →
      signatureBaseString support (listingRequest r (rewrittenPairs names t ps)) { uri := o.uri }
        = signatureBaseString support r o) : LeavesOut support names r o := by
  intro u ps hu hps n hn hne hmem
  have hvalue : ∀ t, signatureBaseString support (listingRequest r (rewrittenPairs names t ps))
      { uri := o.uri } = .ok (joinWith ampersand ([method r, u, normalForm ((rewrittenPairs names t
        ps).filter (fun p => p.1 != ascii "oauth_signature"))].map escapeBytes)) := by
    intro t
    have huri : normalizeUri (uri (listingRequest r (rewrittenPairs names t ps)) { uri := o.uri })
        = .ok u := hu
    rw [signatureBaseString_eq, readPairs_listingRequest, huri]
    rfl
  have heq := (h ps [] hps).trans (h ps (ascii "x") hps).symm
  rw [hvalue, hvalue] at heq
  exact normalForm_rewrittenPairs_ne hn hne hmem (baseString_inj.1 (Except.ok.inj heq)).2.2

end ActionControllerRequest

namespace ParameterProxy

/-- **Unsigned parameters do not count exactly where they are left out**: of what
    `ActionControllerRequest` reads none is left out but the signature; elsewhere all are whose keys are
    strings. -/
theorem unsignedDoNotCount_iff (rt : Runtime) (support : ActiveSupport) (unsignedParameters : List Key)
    (x : ParameterProxy) :
    UnsignedDoNotCount rt support unsignedParameters x ↔
      x.LeavesOut support (unsignedNames unsignedParameters) := by
  have hsame : ∀ s : Bytes, SameUpToQuery s s := fun s => Or.inl rfl
  constructor
  · intro hx
    cases x with
    | base p =>
        refine KeyedProxy.leavesOut_of_rewrites rt fun t => ⟨
          { p with parameters := p.parameters.map (KeyedParams.rewritten _ t) }, ⟨rfl, rfl, rfl⟩,
          hx (.base _) ⟨rfl, rfl, ?_⟩⟩
        cases p.parameters with
        | error e => exact Or.inl ⟨e, rfl, rfl⟩
        | ok params =>
            exact Or.inr ⟨_, _, rfl, rfl, KeyedParams.hashesDifferAt_rewritten t params⟩
    | netHttp r o =>
        refine KeyedProxy.leavesOut_of_rewrites rt fun t => ⟨r.keyedProxy (o.rewritten _ t),
          ⟨rfl, rfl, HttpRequest.keyedParameters_rewritten t r o⟩, hx (.netHttp r (o.rewritten _ t))
            ⟨rfl, hsame _, KeyedOptions.differsOnlyIn_rewritten t o, ?_⟩⟩
        exact BothReturn.refl (fun s => ⟨rfl, fun _ _ => rfl⟩) _
    | rack r o =>
        exact KeyedProxy.leavesOut_of_rewrites rt fun t => ⟨r.keyedProxy (o.rewritten _ t),
          ⟨rfl, rfl, KeyedOptions.addTo_rewritten t o _⟩, hx (.rack r (o.rewritten _ t))
            ⟨r.differsOnlyIn_refl, hsame _, KeyedOptions.differsOnlyIn_rewritten t o⟩⟩
    | actionDispatch r o =>
        exact KeyedProxy.leavesOut_of_rewrites rt fun t => ⟨
          ActionDispatchRequest.keyedProxy r (o.rewritten _ t),
          ⟨rfl, rfl, KeyedOptions.addTo_rewritten t o _⟩, hx (.actionDispatch r (o.rewritten _ t))
            ⟨r.differsOnlyIn_refl, hsame _, KeyedOptions.differsOnlyIn_rewritten t o⟩⟩
    | actionController r o =>
        refine ActionControllerRequest.leavesOut_of_forall fun ps t hps =>
          hx (.actionController _ _) ⟨rfl, hsame _, ?_⟩
        exact Or.inr ⟨_, _, hps, ActionControllerRequest.readPairs_listingRequest support r o.uri _,
          ActionControllerRequest.fieldsDifferAt_rewrittenPairs t ps⟩
  · intro hleave y hd
    cases x with
    | base p =>
        cases y with
        | base p' => exact KeyedProxy.signatureBaseString_of_differ hd hleave
        | _ => exact hd.elim
    | netHttp r o =>
        cases y with
        | netHttp r' o' =>
            obtain ⟨hmethod, huri, hoptions, hquery⟩ := hd
            exact KeyedProxy.signatureBaseString_of_differ ⟨hmethod, normalizeUri_of_sameUpToQuery huri,
              HttpRequest.keyedParameters_differ hoptions hquery⟩ hleave
        | _ => exact hd.elim
    | rack r o =>
        cases y with
        | rack r' o' =>
            obtain ⟨hrequest, huri, hoptions⟩ := hd
            exact KeyedProxy.signatureBaseString_of_differ ⟨hrequest.1,
              normalizeUri_of_sameUpToQuery huri,
              KeyedOptions.addTo_differ hoptions (RackRequest.parameters_differ hrequest)⟩ hleave
        | _ => exact hd.elim
    | actionDispatch r o =>
        cases y with
        | actionDispatch r' o' =>
            obtain ⟨hrequest, huri, hoptions⟩ := hd
            exact KeyedProxy.signatureBaseString_of_differ ⟨hrequest.1,
              normalizeUri_of_sameUpToQuery huri,
              KeyedOptions.addTo_differ hoptions (ActionDispatchRequest.parameters_differ hrequest)⟩ hleave
        | _ => exact hd.elim
    | actionController r o =>
        cases y with
        | actionController r' o' =>
            obtain ⟨hmethod, huri, hpairs⟩ := hd
            exact ActionControllerRequest.signatureBaseString_of_differ hmethod huri hpairs hleave
        | _ => exact hd.elim

/-- A parameter of the query is signed although it is not to be. -/
theorem queryRequest_unsigned_counts :
    ¬ UnsignedDoNotCount echoRuntime emptyQueries [.str (ascii "x")]
      (.actionController (queryRequest (ascii "x=1")) {}) := by
  intro h
  have hone : ActionControllerRequest.readPairs emptyQueries (queryRequest (ascii "x=1")) {}
      = .ok [(ascii "x", ascii "1")] := by decide +kernel
  have htwo : ActionControllerRequest.readPairs emptyQueries (queryRequest (ascii "x=2")) {}
      = .ok [(ascii "x", ascii "2")] := by decide +kernel
  have huri : SameUpToQuery (queryRequest (ascii "x=1")).url (queryRequest (ascii "x=2")).url :=
    Or.inr ⟨_, _, rfl, rfl, rfl⟩
  have hdiffer : FieldsDifferAt [ascii "x"] [(ascii "x", ascii "1")] [(ascii "x", ascii "2")] := by
    refine ⟨rfl, fun k hk => ?_⟩
    rw [List.mem_singleton] at hk
    rw [valuesOf_eq_nil.2 (by simpa using hk), valuesOf_eq_nil.2 (by simpa using hk)]
  have hbases : ActionControllerRequest.signatureBaseString emptyQueries (queryRequest (ascii "x=2")) {}
      ≠ ActionControllerRequest.signatureBaseString emptyQueries (queryRequest (ascii "x=1")) {} := by
    decide +kernel
  exact hbases (h (.actionController (queryRequest (ascii "x=2")) {})
    ⟨rfl, huri, Or.inr ⟨_, _, hone, htwo, hdiffer⟩⟩)

end ParameterProxy

end RubyOAuth
