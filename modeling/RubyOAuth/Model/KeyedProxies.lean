import RubyOAuth.Model.KeyedParams
import RubyOAuth.Model.RailsRequest

set_option autoImplicit false

/-! # Proxies whose options have keys of any kind

`options[:parameters]` and `options[:unsigned_parameters]` may name parameters by symbols. What a proxy
reads of its request has string names; `KeyedProxy` is what `Base` sees once the options are added. With
string names it is the `Proxy` of the request (`Proxy.keyed`). -/

namespace RubyOAuth

open Bytes

/-- The options that decide what is signed. -/
structure KeyedOptions where
  uri : Option Bytes := none
  parameters : Option KeyedParams := none
  clobberRequest : Bool := false

/-- `(options[:unsigned_parameters] || []).map(&:to_s)`. -/
def unsignedNames (unsignedParameters : List Key) : List Bytes := unsignedParameters.map Key.toS

structure KeyedProxy where
  method : Bytes
  normalizedUri : Except RubyError Bytes
  parameters : Except RubyError KeyedParams

/-- `signature_base_string`. -/
def KeyedProxy.signatureBaseString (rt : Runtime) (p : KeyedProxy) (unsignedParameters : List Bytes) :
    Except RubyError Bytes := do
  let uri ← p.normalizedUri
  let params ← p.parameters
  let text ← KeyedParams.normalizedParameters rt unsignedParameters params
  .ok (joinWith ampersand ([p.method, uri, text].map escapeBytes))

/-! ## The Net::HTTP proxy -/

/-- `if request_params.key?(k) && v then request_params[k] << v else request_params[k] = [v]`. -/
def KeyedParams.addParameter (params : OrderedHash Key (List Value)) (e : Key × Value) :
    OrderedHash Key (List Value) :=
  match params.lookup e.1 with
  | some vs => if truthy e.2 then params.set e.1 (vs ++ [e.2]) else params.set e.1 [e.2]
  | none => params.set e.1 [e.2]

theorem Key.str_injective : Function.Injective Key.str := fun _ _ => Key.str.inj

namespace HttpRequest

/-- `all_parameters`. -/
def keyedAllParameters (r : HttpRequest) (o : KeyedOptions) : Except RubyError KeyedParams := do
  let query ← r.queryString
  let params := ((cgiParse query).mapValues (fun vs => vs.map Value.str)).mapKeys Key.str_injective
  .ok (((o.parameters.getD OrderedHash.empty).entries.foldl KeyedParams.addParameter params).mapValues
    Value.arr)

/-- `parameters`. -/
def keyedParameters (r : HttpRequest) (o : KeyedOptions) : Except RubyError KeyedParams :=
  if o.clobberRequest then
    match o.parameters with
    | some params => .ok params
    | none => .error .noMethodError
  else r.keyedAllParameters o

def keyedProxy (r : HttpRequest) (o : KeyedOptions) : KeyedProxy where
  method := r.method
  normalizedUri := normalizeUri (o.uri.getD [])
  parameters := r.keyedParameters o

end HttpRequest

/-! ## The Rack proxies -/

/-- `parameters` of a Rack proxy, given what the request alone has. -/
def KeyedOptions.addTo (o : KeyedOptions) (own : Except RubyError Params) :
    Except RubyError KeyedParams :=
  if o.clobberRequest then .ok (o.parameters.getD OrderedHash.empty)
  else do
    let params ← own
    .ok (params.keyed.merge (o.parameters.getD OrderedHash.empty))

def RackRequest.keyedProxy (r : RackRequest) (o : KeyedOptions) : KeyedProxy where
  method := r.method
  normalizedUri := normalizeUri r.url
  parameters := o.addTo (r.parameters {})

namespace ActionDispatchRequest

def keyedProxy (r : DispatchRequest) (o : KeyedOptions) : KeyedProxy where
  method := r.method
  normalizedUri := normalizeUri (o.uri.getD r.url)
  parameters := o.addTo (parameters r {})

end ActionDispatchRequest

/-! ## String names -/

def SignatureOptions.keyed (o : SignatureOptions) : KeyedOptions where
  uri := o.uri
  parameters := o.parameters.map Params.keyed
  clobberRequest := o.clobberRequest

def Proxy.keyed (p : Proxy) : KeyedProxy where
  method := p.method
  normalizedUri := p.normalizedUri
  parameters := p.parameters.map Params.keyed

/-- **With string names it is the proxy's base string.** -/
theorem KeyedProxy.signatureBaseString_keyed (rt : Runtime) (p : Proxy) :
    p.keyed.signatureBaseString rt p.unsignedParameters = p.signatureBaseString rt := by
  have hparams : (p.parameters.map Params.keyed >>=
      KeyedParams.normalizedParameters rt p.unsignedParameters) = p.normalizedParameters rt := by
    rw [Proxy.normalizedParameters, Proxy.parametersForSignature]
    cases p.parameters with
    | error e => rfl
    | ok params =>
        refine Eq.trans ?_ (KeyedParams.normalize_keyed rt _)
        exact congrArg (KeyedParams.normalize rt) (Params.select_keyed _ params)
  rw [KeyedProxy.signatureBaseString, Proxy.signatureBaseString, ← hparams]
  simp only [bind_assoc]
  rfl

theorem Params.keyed_eq (params : Params) : params.keyed = params.mapKeys Key.str_injective := rfl

theorem Params.keyed_merge (params params' : Params) :
    Params.keyed (params.merge params') = params.keyed.merge params'.keyed :=
  OrderedHash.mapKeys_merge Key.str_injective params params'

theorem KeyedOptions.getD_keyed (params : Option Params) :
    (params.map Params.keyed).getD OrderedHash.empty = (params.getD OrderedHash.empty).keyed := by
  cases params <;> rfl

theorem KeyedParams.addParameter_mapKeys (params : OrderedHash Bytes (List Value))
    (e : Bytes × Value) :
    KeyedParams.addParameter (params.mapKeys Key.str_injective) (.str e.1, e.2)
      = (RubyOAuth.addParameter params e).mapKeys Key.str_injective := by
  rw [KeyedParams.addParameter, RubyOAuth.addParameter, OrderedHash.lookup_mapKeys]
  cases params.lookup e.1 with
  | none => exact (OrderedHash.mapKeys_set _ _ _ _).symm
  | some vs =>
      by_cases hv : truthy e.2 = true
      · simp only [if_pos hv, OrderedHash.mapKeys_set]
      · simp only [if_neg hv, OrderedHash.mapKeys_set]

theorem KeyedParams.foldl_addParameter_mapKeys (es : List (Bytes × Value))
    (params : OrderedHash Bytes (List Value)) :
    (es.map (fun e => ((.str e.1, e.2) : Key × Value))).foldl KeyedParams.addParameter
        (params.mapKeys Key.str_injective)
      = (es.foldl RubyOAuth.addParameter params).mapKeys Key.str_injective := by
  induction es generalizing params with
  | nil => rfl
  | cons e rest ih =>
      rw [List.map_cons, List.foldl_cons, List.foldl_cons, KeyedParams.addParameter_mapKeys, ih]

theorem HttpRequest.keyedProxy_keyed (r : HttpRequest) (o : SignatureOptions) :
    r.keyedProxy o.keyed = (r.proxy o).keyed := by
  have hall : r.keyedAllParameters o.keyed = (r.allParameters o).map Params.keyed := by
    rw [keyedAllParameters, allParameters]
    cases r.queryString with
    | error e => rfl
    | ok query =>
        have hfold := KeyedParams.foldl_addParameter_mapKeys (o.parameters.getD OrderedHash.empty).entries
          ((cgiParse query).mapValues (fun vs => vs.map Value.str))
        rw [Except.ok_bind, Except.ok_bind, SignatureOptions.keyed, KeyedOptions.getD_keyed]
        refine congrArg Except.ok ((congrArg (fun h => h.mapValues Value.arr) hfold).trans ?_)
        simp only [OrderedHash.mapKeys, OrderedHash.mapValues, Params.keyed, List.map_map,
          OrderedHash.mk.injEq]
        rfl
  have hparams : r.keyedParameters o.keyed = (r.parameters o).map Params.keyed := by
    rw [keyedParameters, HttpRequest.parameters, hall]
    by_cases hclobber : o.clobberRequest = true
    · rw [if_pos hclobber, SignatureOptions.keyed, if_pos hclobber]
      cases o.parameters <;> rfl
    · rw [if_neg hclobber, SignatureOptions.keyed, if_neg hclobber]
  rw [HttpRequest.keyedProxy, Proxy.keyed, hparams]
  rfl

theorem KeyedOptions.addTo_keyed (o : SignatureOptions) {own whole : Except RubyError Params}
    (hwhole : whole = if o.clobberRequest then .ok (o.parameters.getD OrderedHash.empty)
      else own.map (·.merge (o.parameters.getD OrderedHash.empty))) :
    o.keyed.addTo own = whole.map Params.keyed := by
  rw [hwhole, addTo, SignatureOptions.keyed, getD_keyed]
  split
  · rfl
  · cases own with
    | error e => rfl
    | ok params => exact congrArg Except.ok (Params.keyed_merge params _).symm

theorem RackRequest.keyedProxy_keyed (r : RackRequest) (o : SignatureOptions) :
    r.keyedProxy o.keyed = (r.proxy o).keyed := by
  have hparams : o.keyed.addTo (r.parameters {}) = (r.parameters o).map Params.keyed := by
    refine KeyedOptions.addTo_keyed o ?_
    rw [RackRequest.parameters, RackRequest.parameters]
    split
    · rfl
    · cases r.requestParams <;> cases r.queryParams <;> cases r.headerParams <;> rfl
  rw [RackRequest.keyedProxy, Proxy.keyed, hparams]
  rfl

theorem ActionDispatchRequest.keyedProxy_keyed (r : DispatchRequest) (o : SignatureOptions) :
    keyedProxy r o.keyed = (proxy r o).keyed := by
  have hparams : o.keyed.addTo (parameters r {}) = (parameters r o).map Params.keyed := by
    refine KeyedOptions.addTo_keyed o ?_
    rw [parameters, parameters]
    split
    · rfl
    · cases r.requestParams <;> cases r.queryParams <;> cases r.headerParams <;> rfl
  rw [keyedProxy, Proxy.keyed, hparams]
  rfl

end RubyOAuth
