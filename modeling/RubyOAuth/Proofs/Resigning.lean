import RubyOAuth.Proofs.BodyHash

set_option autoImplicit false

/-! # Signing a request twice

The second `oauth!` finds the header of the first on the request, and signs what `CGI.parse` makes of
it. The two headers agree, whatever the digest, exactly where the second run reads of the new header what
the first read of the one before, if any: a signature method, and the values under every signed name. -/

namespace RubyOAuth

open Bytes

variable {rt : Runtime}

/-! ## The fields of a header with a signature -/

namespace ClientHelper

/-- Under a name that neither begins as the header does nor has a quote, the header has fixed values,
    and where the realm ends in a field of the name one more, which goes on past the quote. -/
theorem valuesOf_headerWith (rt : Runtime) (h : ClientHelper) {k : Bytes} (hk : ¬ LeadingName k)
    (hquote : quote ∉ k) :
    ∃ vs : List (Option Bytes), (∀ s, valuesOf k (cgiFields (h.headerWith rt s)) = vs) ∨
      ∀ s, ∃ v, quote ∈ v ∧ valuesOf k (cgiFields (h.headerWith rt s)) = vs ++ [some v] := by
  have htail : ∀ s, ∀ b ∈ separator.intercalate ((h.oauthParameters.set (ascii "oauth_signature")
      (.str s)).sortedEntries.map (headerField rt)), (b == ampersand || b == semicolon) = false := by
    intro s b hb
    refine not_sep_of_isFieldByte (isFieldByte_of_mem_fields rt ?_ b hb)
    rintro ⟨n, v⟩ he
    exact h.plainName_of_lookup_signed s n v (OrderedHash.mem_sortedEntries.1 he)
  cases hrealm : h.options.realm with
  | none =>
      -- one field, which begins as the header does
      refine ⟨[], .inl fun s => valuesOf_eq_nil.2 fun hmem => ?_⟩
      obtain ⟨f, hf, rfl⟩ := List.mem_map.1 hmem
      rw [headerWith, headerText, hrealm, List.append_nil] at hf
      refine hk (leadingName_of_mem (by rfl) (fun b hb => ?_) f hf)
      rcases List.mem_append.1 hb with hb | hb
      · exact (by simp [ascii, ampersand, semicolon] :
          ∀ b ∈ ascii "OAuth ", (b == ampersand || b == semicolon) = false) b hb
      · exact htail s b hb
  | some realm =>
      have hclose : ascii "\", " = quote :: separator := by decide
      have htext : ∀ s, h.headerWith rt s = (ascii "OAuth realm=\"" ++ realm) ++ quote :: (separator ++
          separator.intercalate ((h.oauthParameters.set (ascii "oauth_signature")
            (.str s)).sortedEntries.map (headerField rt))) := by
        intro s
        have hopen : ascii "OAuth realm=\"" = ascii "OAuth " ++ ascii "realm=\"" := by decide
        rw [headerWith, headerText, hrealm, hclose, hopen]
        simp only [List.append_assoc, List.cons_append]
      obtain ⟨fields, last, -, -, hall⟩ := cgiFields_append_quote (ascii "OAuth realm=\"" ++ realm)
      have hrest : ∀ s, ∀ b ∈ separator ++ separator.intercalate ((h.oauthParameters.set
          (ascii "oauth_signature") (.str s)).sortedEntries.map (headerField rt)),
          (b == ampersand || b == semicolon) = false := by
        intro s b hb
        rcases List.mem_append.1 hb with hb | hb
        · exact not_sep_of_isFieldByte (isFieldByte_of_mem_separator b hb)
        · exact htail s b hb
      refine ⟨valuesOf k fields, ?_⟩
      by_cases hlast : equal ∈ last ∧ cgiUnescape (cut equal last).1 = k
      · right
        intro s
        rcases cgiField_append_quote last _ with ⟨-, hname, v, hv, hmem⟩ | ⟨hno, -⟩
        · refine ⟨v, hmem, ?_⟩
          rw [htext, hall _ (hrest s), valuesOf_append, valuesOf_cons, if_pos (hname.trans hlast.2), hv]
          rfl
        · exact absurd hlast.1 hno
      · left
        intro s
        have hne : (cgiField (last ++ quote :: (separator ++ separator.intercalate
            ((h.oauthParameters.set (ascii "oauth_signature") (.str s)).sortedEntries.map
              (headerField rt))))).1 ≠ k := by
          intro he
          rcases cgiField_append_quote last _ with ⟨hequal, hname, -⟩ | ⟨-, hmem⟩
          · exact hlast ⟨hequal, hname.symm.trans he⟩
          · exact hquote (he ▸ hmem)
        rw [htext, hall _ (hrest s), valuesOf_append, valuesOf_cons, if_neg hne]
        exact List.append_nil _

theorem fieldValues_headerWith (rt : Runtime) (h : ClientHelper) {k : Bytes} (hk : ¬ LeadingName k)
    (hquote : quote ∉ k) :
    ∃ vs : List Bytes, (∀ s, fieldValues k (cgiFields (h.headerWith rt s)) = vs) ∨
      ∀ s, ∃ v, quote ∈ v ∧ fieldValues k (cgiFields (h.headerWith rt s)) = vs ++ [v] := by
  obtain ⟨vs, hall⟩ := h.valuesOf_headerWith rt hk hquote
  refine ⟨vs.filterMap id, hall.imp (fun hall s => congrArg (List.filterMap id) (hall s)) ?_⟩
  intro hall s
  obtain ⟨v, hmem, hv⟩ := hall s
  refine ⟨v, hmem, ?_⟩
  rw [fieldValues, hv, List.filterMap_append]
  rfl

/-- With nonce and timestamp in the options nothing in the parameters is generated. -/
theorem oauthParameters_eq {h : ClientHelper} (hn : h.options.nonce.isSome = true)
    (ht : h.options.timestamp.isSome = true) (r : HttpRequest) (g : Generated) :
    ({ h with request := r, generated := g } : ClientHelper).oauthParameters = h.oauthParameters := by
  obtain ⟨nonce, hn⟩ := Option.isSome_iff_exists.1 hn
  obtain ⟨timestamp, ht⟩ := Option.isSome_iff_exists.1 ht
  have hcandidates : ({ h with request := r, generated := g } : ClientHelper).candidateParameters
      = h.candidateParameters := by
    simp only [candidateParameters, ClientHelper.nonce, ClientHelper.timestamp, hn, ht,
      Option.getD_some]
    rfl
  rw [oauthParameters, oauthParameters, hcandidates]
  rfl

end ClientHelper

/-! ## The request that is signed again -/

/-- The request as the second run finds it, with the header of the first. -/
def ClientHelper.headed (rt : Runtime) (h : ClientHelper) (s : Bytes) : HttpRequest :=
  h.request.withHeader (ascii "Authorization") (h.headerWith rt s)

/-- The request that the second run signs. -/
def ClientHelper.resigned (rt : Runtime) (h : ClientHelper) (s : Bytes) : HttpRequest :=
  amendUserAgent (h.headed rt s)

/-- The fields of query, header and form body, in the order in which they are read. -/
def fieldsWith (r : HttpRequest) (query : Option Bytes) (header : List (Bytes × Option Bytes)) :
    List (Bytes × Option Bytes) :=
  query.toList.flatMap cgiFields ++ header ++ r.postParams.toList.flatMap cgiFields

/-- The fields of an OAuth header that was there before. -/
def HttpRequest.headerFields (r : HttpRequest) : List (Bytes × Option Bytes) :=
  r.authHeaderParams.toList.flatMap cgiFields

variable {http : Connection} {r : HttpRequest} {c : Consumer} {token : Option Token}
  {o : RequestOptions} {g : Generated} {helper : ClientHelper} {query : Option Bytes}

theorem queryString_first (hreq : helper.request = amendUserAgent r)
    (hquery : r.queryParams = .ok query) :
    ∃ q, helper.request.queryString = .ok q ∧ cgiFields q = fieldsWith r query r.headerFields := by
  obtain ⟨hquery₁, hpost₁, hauth₁⟩ := amendUserAgent_fields r
  obtain ⟨q, hq, hfields⟩ := queryString_of_query (hquery₁.trans hquery)
  refine ⟨q, hreq ▸ hq, ?_⟩
  rw [hfields, hpost₁, hauth₁]
  rfl

theorem queryString_resigned (rt : Runtime) (hreq : helper.request = amendUserAgent r)
    (hquery : r.queryParams = .ok query) (s : Bytes) :
    ∃ q, (helper.resigned rt s).queryString = .ok q ∧
      cgiFields q = fieldsWith r query (cgiFields (helper.headerWith rt s)) := by
  have hv : (helper.headerWith rt s).take 5 = ascii "OAuth" := take_headerText rt helper _
  obtain ⟨hquery₁, hpost₁, hauth₁⟩ := setAuthorization_fields r hv
  obtain ⟨hquery₂, hpost₂, hauth₂⟩ := amendUserAgent_fields (helper.headed rt s)
  rw [ClientHelper.resigned]
  rw [ClientHelper.headed, hreq] at hquery₂ hpost₂ hauth₂ ⊢
  obtain ⟨q, hq, hfields⟩ := queryString_of_query ((hquery₂.trans hquery₁).trans hquery)
  refine ⟨q, hq, ?_⟩
  rw [hfields, hauth₂, hauth₁, hpost₂, hpost₁, Option.toList_some, List.flatMap_singleton]
  rfl

theorem method_resigned (s : Bytes) : (helper.resigned rt s).method = helper.request.method := by
  obtain ⟨headers, hagent⟩ := amendUserAgent_eq (helper.headed rt s)
  rw [ClientHelper.resigned, hagent]
  rfl

theorem body_resigned (s : Bytes) : (helper.resigned rt s).body = helper.request.body := by
  obtain ⟨headers, hagent⟩ := amendUserAgent_eq (helper.headed rt s)
  rw [ClientHelper.resigned, hagent]
  rfl

/-! ## The method that is read -/

/-- The available method that a request names. -/
def Proxy.Reads (p : Proxy) (m : SignatureMethod) : Prop :=
  ∃ name, methodName p = .ok name ∧ availableMethod name = some m

theorem Proxy.Reads.eq {p : Proxy} {m m' : SignatureMethod} (h : p.Reads m) (h' : p.Reads m') :
    m = m' := by
  obtain ⟨name, hname, hm⟩ := h
  obtain ⟨name', hname', hm'⟩ := h'
  obtain rfl : name = name' := Except.ok.inj (hname.symm.trans hname')
  exact Option.some.inj (hm.symm.trans hm')

theorem sign_iff_reads {p : Proxy} {so : SignatureOptions} {s : Bytes} :
    sign rt p so = .ok s ↔ ∃ m, p.Reads m ∧
      Signature.signature rt ⟨m, p, so, so.givenConsumerSecret, so.givenTokenSecret⟩ = .ok s := by
  rw [sign_eq_ok]
  exact ⟨fun ⟨name, m, hname, hm, hs⟩ => ⟨m, ⟨name, hname, hm⟩, hs⟩,
    fun ⟨m, ⟨name, hname, hm⟩, hs⟩ => ⟨name, m, hname, hm, hs⟩⟩

/-- The method that the fields, then the OAuth parameters, then the consumer name. -/
def readMethod (fields : List (Bytes × Option Bytes)) (params : Params) (c : Option Consumer) :
    Option SignatureMethod :=
  let sent := match params.lookup (ascii "oauth_signature_method") with
    | some (.str s) => s
    | _ => (c.bind (·.options.signatureMethod)).getD []
  availableMethod (downcase ((fieldValues (ascii "oauth_signature_method") fields).headD sent))

/-- A sent method is text. -/
theorem ClientHelper.str_of_lookup_oauthSignatureMethod {h : ClientHelper} {v : Value}
    (hv : h.oauthParameters.lookup (ascii "oauth_signature_method") = some v) : ∃ s, v = .str s := by
  obtain ⟨e, he, -, hname, rfl⟩ := ClientHelper.lookup_oauthParameters.1 hv
  have hnames : (h.candidateParameters.map Prod.fst).Nodup := by
    rw [ClientHelper.names_candidateParameters]
    decide
  have hmem : (ascii "oauth_signature_method", some h.signatureMethod) ∈ h.candidateParameters := by
    simp [ClientHelper.candidateParameters]
  obtain rfl := List.inj_on_of_nodup_map hnames hmem he hname
  exact ⟨_, rfl⟩

theorem reads_of_str {p : Proxy} {s : Bytes} (h : p.oauthSignatureMethod = .ok (.str s))
    {m : SignatureMethod} : p.Reads m ↔ availableMethod (downcase s) = some m := by
  constructor
  · rintro ⟨name, hname, hm⟩
    rwa [← eq_downcase_of_methodName h hname]
  · intro hm
    exact ⟨_, methodName_of_str h hm, hm⟩

theorem reads_of_nil {p : Proxy} (h : p.oauthSignatureMethod = .ok .nil) {m : SignatureMethod} :
    p.Reads m ↔
      availableMethod (downcase ((p.consumer.bind (·.options.signatureMethod)).getD [])) = some m := by
  rw [Proxy.Reads, methodName, h, Except.ok_bind]
  simp only [downcaseText]
  constructor
  · rintro ⟨name, hname, hm⟩
    split at hname
    · rwa [Except.ok.inj hname]
    · simp at hname
  · intro hm
    rw [if_pos (validUtf8_of_availableMethod hm)]
    exact ⟨_, rfl, hm⟩

/-- **What the proxy reads is what the fields, the parameters and the consumer name.** -/
theorem reads_iff {r : HttpRequest} {h : ClientHelper} {so : SignatureOptions}
    (hso : so.parameters = some h.oauthParameters) (hc : so.clobberRequest = false) {q : Bytes}
    (hq : r.queryString = .ok q) {m : SignatureMethod} :
    (r.proxy so).Reads m ↔ readMethod (cgiFields q) h.oauthParameters so.consumer = some m := by
  have hread : (r.proxy so).oauthSignatureMethod = _ :=
    oauthParameter_collected hso hc hq fun v hv => ClientHelper.str_of_lookup_oauthSignatureMethod hv
  rw [readMethod]
  cases hfirst : fieldValues (ascii "oauth_signature_method") (cgiFields q) with
  | cons first rest =>
      rw [hfirst] at hread
      exact reads_of_str hread
  | nil =>
      rw [hfirst] at hread
      cases hl : h.oauthParameters.lookup (ascii "oauth_signature_method") with
      | none =>
          rw [hl] at hread
          exact reads_of_nil hread
      | some v =>
          obtain ⟨s, rfl⟩ := ClientHelper.str_of_lookup_oauthSignatureMethod hl
          rw [hl] at hread
          exact reads_of_str hread

/-- A name with a quote is none of a method. -/
theorem availableMethod_of_quote {v : Bytes} (h : quote ∈ v) : availableMethod (downcase v) = none := by
  cases hm : availableMethod (downcase v) with
  | none => rfl
  | some m =>
      have hlower : lower quote = quote := by decide
      have hmem : quote ∈ downcase v := List.mem_map.2 ⟨quote, h, hlower⟩
      have hplain : ∀ name ∈ [ascii "plaintext", ascii "hmac-sha1", ascii "hmac-sha256",
          ascii "rsa-sha1"], quote ∉ name := by decide +kernel
      exact absurd hmem (hplain _ (availableMethod_eq_some hm))

/-- **The method that is read with a header is no matter of its signature.** -/
theorem readMethod_headerWith {params : Params} {consumer : Option Consumer} {m : SignatureMethod}
    {s : Bytes}
    (hm : readMethod (fieldsWith r query (cgiFields (helper.headerWith rt s))) params consumer = some m)
    (t : Bytes) :
    readMethod (fieldsWith r query (cgiFields (helper.headerWith rt t))) params consumer = some m := by
  obtain ⟨vs, hall | hall⟩ := helper.fieldValues_headerWith rt (k := ascii "oauth_signature_method")
    (by simp [ClientHelper.LeadingName, ascii]) (by decide)
  · rw [← hm]
    simp only [readMethod, fieldsWith, fieldValues_append, hall]
  · -- the value past the realm's quote names no method, so another one comes first
    obtain ⟨v, hmem, hv⟩ := hall s
    obtain ⟨w, -, hw⟩ := hall t
    rw [readMethod, fieldsWith, fieldValues_append, fieldValues_append, hv, ← List.append_assoc] at hm
    rw [readMethod, fieldsWith, fieldValues_append, fieldValues_append, hw, ← List.append_assoc]
    cases hhead : fieldValues (ascii "oauth_signature_method") (query.toList.flatMap cgiFields) ++
        vs with
    | cons first rest =>
        rw [hhead] at hm
        exact hm
    | nil =>
        rw [hhead] at hm
        exact absurd ((availableMethod_of_quote hmem).symm.trans hm) (by simp)

/-! ## The body hash of the second run -/

/-- The OAuth parameters as `hash_body` finds them. -/
def ClientHelper.unhashedParameters (h : ClientHelper) (o : RequestOptions) : Params :=
  ({ h with options := o } : ClientHelper).oauthParameters

/-- The hash of the options, or the one that goes with the method of the fields. -/
def ClientHelper.MakesHash (rt : Runtime) (h : ClientHelper) (r : HttpRequest) (o : RequestOptions)
    (fields : List (Bytes × Option Bytes)) (hash : Option Bytes) : Prop :=
  if oauthBodyHashRequired r o then
    ∃ m, readMethod fields (h.unhashedParameters o) none = some m ∧
      hash = hashText rt m (r.body.getD [])
  else hash = o.bodyHash

theorem bodyHash_eq_ok {r : HttpRequest} {h : ClientHelper} {q : Bytes}
    (hq : r.queryString = .ok q) {hash : Option Bytes} :
    bodyHash rt (r.proxy { parameters := some h.oauthParameters })
        { parameters := some h.oauthParameters } = .ok hash ↔
      ∃ m, readMethod (cgiFields q) h.oauthParameters none = some m ∧
        hash = hashText rt m (r.body.getD []) := by
  have hreads : ∀ m, (r.proxy { parameters := some h.oauthParameters }).Reads m ↔ _ :=
    fun _ => reads_iff rfl rfl hq
  simp only [← hreads]
  rw [bodyHash, Except.bind_eq_ok]
  constructor
  · rintro ⟨sig, hsig, hhash⟩
    obtain ⟨name, m, secrets, hname, hm, -, rfl⟩ := build_eq_ok.1 hsig
    rw [bodyHash_proxy] at hhash
    exact ⟨m, ⟨name, hname, hm⟩, (Except.ok.inj hhash).symm⟩
  · rintro ⟨m, ⟨name, hname, hm⟩, rfl⟩
    exact ⟨_, build_eq_ok.2 ⟨name, m, _, hname, hm, rfl, rfl⟩, bodyHash_proxy⟩

theorem oauthBodyHashRequired_setAuthorization (r : HttpRequest) (value : Bytes)
    (o : RequestOptions) :
    oauthBodyHashRequired ((amendUserAgent r).withHeader (ascii "Authorization") value) o
      = oauthBodyHashRequired r o := by
  have htype : ((amendUserAgent r).withHeader (ascii "Authorization") value).contentType
      = r.contentType := by
    rw [HttpRequest.contentType, header_setAuthorization _ _ (by decide),
      header_amendUserAgent r (by decide)]
    rfl
  obtain ⟨headers, hagent⟩ := amendUserAgent_eq r
  rw [oauthBodyHashRequired, oauthBodyHashRequired, htype, hagent]
  rfl

theorem signingHelper_makesHash (h : signingHelper rt http r c token o g = .ok helper)
    (hquery : r.queryParams = .ok query) :
    helper.MakesHash rt r o (fieldsWith r query r.headerFields) helper.options.bodyHash := by
  obtain ⟨full, hash₀, hfull, hspec⟩ := signingHelper_eq_ok h
  have hreq : helper.request = amendUserAgent r := by rw [hspec]
  obtain ⟨q, hq, hfields⟩ := queryString_first hreq hquery
  rw [hreq] at hq
  have hbody : (amendUserAgent r).body = r.body := by
    obtain ⟨headers, hagent⟩ := amendUserAgent_eq r
    rw [hagent]
  rw [signingHelper_of_full hfull] at h
  rw [ClientHelper.MakesHash, ← hfields, ← hbody]
  split at h
  · next hneeded =>
      rw [if_pos hneeded]
      obtain ⟨hash, hhash, h⟩ := Except.bind_eq_ok.1 h
      rw [← Except.ok.inj h]
      exact (bodyHash_eq_ok hq).1 hhash
  · next hneeded =>
      rw [if_neg hneeded, ← Except.ok.inj h]

/-- The second run builds the same helper over the signed request, but for the body hash. -/
theorem signingHelper_again (hn : o.nonce.isSome = true) (ht : o.timestamp.isSome = true)
    (h : signingHelper rt http r c token o g = .ok helper) (hquery : r.queryParams = .ok query)
    (mac : SignatureMethod → Bytes → Bytes → Bytes) (g' : Generated) (s : Bytes)
    {again : ClientHelper} :
    signingHelper (rt.withMac mac) http (helper.headed rt s) c token o g' = .ok again ↔
      ∃ hash, helper.MakesHash rt r o (fieldsWith r query (cgiFields (helper.headerWith rt s))) hash ∧
        again = { helper with
          request := helper.resigned rt s
          options := { o with bodyHash := hash }
          generated := g' } := by
  obtain ⟨full, hash₀, hfull, hspec⟩ := signingHelper_eq_ok h
  have hreq : helper.request = amendUserAgent r := by rw [hspec]
  obtain ⟨q, hq, hfields⟩ := queryString_resigned rt hreq hquery s
  have hheaded : helper.headed rt s
      = (amendUserAgent r).withHeader (ascii "Authorization") (helper.headerWith rt s) := by
    rw [ClientHelper.headed, hreq]
  have hfull' : oauthFullRequestUri http (helper.headed rt s).path o = .ok full := by
    rw [← hfull, ← amendUserAgent_path r, hheaded]
    rfl
  have hbody : (helper.resigned rt s).body = r.body := by
    obtain ⟨headers, hagent⟩ := amendUserAgent_eq r
    rw [body_resigned, hreq, hagent]
  have hparams : ({ helper with
        request := helper.resigned rt s
        options := o
        generated := g' } : ClientHelper).oauthParameters = helper.unhashedParameters o :=
    ClientHelper.oauthParameters_eq (h := { helper with options := o }) hn ht _ _
  have hsame : (⟨helper.resigned rt s, o.requestUri.getD full, c, token, o, g'⟩ : ClientHelper)
      = { helper with
          request := helper.resigned rt s
          options := o
          generated := g' } := by
    rw [hspec]
  unfold ClientHelper.MakesHash
  rw [signingHelper_of_full hfull', hheaded, oauthBodyHashRequired_setAuthorization, ← hheaded,
    ← hfields, ← hbody]
  show (if _ then ClientHelper.hashBody _ ⟨helper.resigned rt s, _, _, _, _, _⟩ else
    .ok ⟨helper.resigned rt s, _, _, _, _, _⟩) = _ ↔ _
  rw [hsame]
  split
  · rw [ClientHelper.hashBody, Except.bind_eq_ok, hparams]
    constructor
    · rintro ⟨hash, hhash, h⟩
      exact ⟨hash, (bodyHash_eq_ok hq).1 hhash, (Except.ok.inj h).symm⟩
    · rintro ⟨hash, hhash, rfl⟩
      exact ⟨hash, (bodyHash_eq_ok hq).2 hhash, rfl⟩
  · rw [Except.ok.injEq]
    constructor
    · rintro rfl
      exact ⟨_, rfl, rfl⟩
    · rintro ⟨_, rfl, rfl⟩
      rfl

/-! ## The base string of the second run -/

/-- Two headers leave the same values of a name, beside the other fields of the request. -/
def AddsAlike (own header other : List (Bytes × Option Bytes)) (params : Params) (k : Bytes) : Prop :=
  match params.lookup k with
  -- a `nil` stands alone, whatever the fields
  | some .nil => True
  | some _ => (fieldValues k header).Perm (fieldValues k other)
  -- a bare name counts as an empty value, where there is no other
  | none => (k ∈ (own ++ header).map Prod.fst ↔ k ∈ (own ++ other).map Prod.fst) ∧
      ((fieldValues k header).Perm (fieldValues k other) ∨ fieldValues k own = [] ∧
        ∀ vs ∈ [fieldValues k header, fieldValues k other], vs = [] ∨ vs = [[]])

theorem collectedValues_perm {fields fields' : List (Bytes × Option Bytes)} (h : fields.Perm fields')
    (params : Params) (k : Bytes) :
    (collectedValues fields params k).Perm (collectedValues fields' params k) := by
  have hvalues : (fieldValues k fields).Perm (fieldValues k fields') :=
    ((h.filter _).map _).filterMap _
  have hnames := (h.map Prod.fst).mem_iff (a := k)
  have hnil : fieldValues k fields = [] ↔ fieldValues k fields' = [] :=
    ⟨fun hn => (hn ▸ hvalues).nil_eq.symm, fun hn => (hn ▸ hvalues.symm).nil_eq.symm⟩
  unfold collectedValues
  split
  · exact hvalues.append_right _
  · exact .refl _
  · simp only [hnames, hnil]
    split
    · split
      · exact .refl _
      · exact hvalues
    · exact .refl _

/-- Values beside none, each list with an empty value where it has none. -/
theorem orEmpty_perm_iff {a b : List Bytes} :
    ((if a = [] then [[]] else a).Perm (if b = [] then [[]] else b)) ↔
      a.Perm b ∨ ∀ vs ∈ [a, b], vs = [] ∨ vs = [[]] := by
  simp only [List.forall_mem_cons, List.not_mem_nil, false_imp_iff, implies_true, and_true]
  by_cases ha : a = []
  · subst ha
    by_cases hb : b = []
    · simp [hb]
    · simp [hb, eq_comm]
  · by_cases hb : b = []
    · subst hb
      simp [ha]
    · simp only [ha, hb, if_false, false_or]
      constructor
      · exact .inl
      · rintro (h | ⟨rfl, rfl⟩)
        · exact h
        · exact .refl _

theorem collectedValues_alike_iff {own header other : List (Bytes × Option Bytes)} {params : Params}
    (hp : TextParameters params) {k : Bytes} :
    (collectedValues (own ++ header) params k).Perm (collectedValues (own ++ other) params k) ↔
      AddsAlike own header other params k := by
  cases hl : params.lookup k with
  | some v =>
      rcases hp k v hl with rfl | ⟨s, rfl⟩
      · simp [collectedValues, AddsAlike, hl]
      · simp only [collectedValues, AddsAlike, hl, fieldValues_append, List.perm_append_right_iff,
          List.perm_append_left_iff]
  | none =>
      simp only [collectedValues, AddsAlike, hl, fieldValues_append]
      by_cases hh : k ∈ (own ++ header).map Prod.fst
      · by_cases ho : k ∈ (own ++ other).map Prod.fst
        · simp only [hh, ho, if_true, true_and]
          by_cases hown : fieldValues k own = []
          · simp only [hown, List.nil_append, true_and, orEmpty_perm_iff]
          · simp only [hown, false_and, or_false, List.append_eq_nil_iff, if_false,
              List.perm_append_left_iff]
        · simp only [hh, ho, if_true, if_false, iff_false, not_true, false_and, List.perm_nil]
          split <;> simp_all
      · by_cases ho : k ∈ (own ++ other).map Prod.fst
        · simp only [hh, ho, if_true, if_false, iff_true, false_and, List.nil_perm]
          split <;> simp_all
        · have hvalues : ∀ fs, k ∉ (own ++ fs).map Prod.fst → fieldValues k fs = [] := by
            intro fs hno
            rw [List.map_append, List.mem_append, not_or] at hno
            exact fieldValues_of_not_mem hno.2
          simp only [hh, ho, if_false, hvalues _ hh, hvalues _ ho, List.Perm.refl, true_or, and_true]

/-- Where the header stands among the fields is no matter. -/
theorem collectedValues_fieldsWith_iff {header other : List (Bytes × Option Bytes)} {params : Params}
    (hp : TextParameters params) {k : Bytes} :
    (collectedValues (fieldsWith r query header) params k).Perm
        (collectedValues (fieldsWith r query other) params k) ↔
      AddsAlike (ownFields r query) header other params k := by
  have hmove : ∀ fs : List (Bytes × Option Bytes),
      (collectedValues (fieldsWith r query fs) params k).Perm
        (collectedValues (ownFields r query ++ fs) params k) := fun fs => by
    refine collectedValues_perm ?_ params k
    rw [fieldsWith, ownFields, List.append_assoc, List.append_assoc]
    exact List.perm_append_comm.append_left _
  rw [← collectedValues_alike_iff hp]
  exact ⟨fun h => (hmove _).symm.trans (h.trans (hmove _)),
    fun h => (hmove _).trans (h.trans (hmove _).symm)⟩

/-- **The second base string is the first one exactly where the two headers add alike.** -/
theorem base_resigned (rt' : Runtime) (hreq : helper.request = amendUserAgent r)
    (hquery : r.queryParams = .ok query) {so : SignatureOptions} {params : Params}
    (hparams : so.parameters = some params) (htext : TextParameters params) {base : Bytes}
    (hbase : (helper.request.proxy so).signatureBaseString rt = .ok base) (s : Bytes) :
    ∃ base', ((helper.resigned rt s).proxy so).signatureBaseString rt' = .ok base' ∧
      (base' = base ↔ so.clobberRequest = true ∨ ∀ k, (helper.request.proxy so).isSigned k = true →
        AddsAlike (ownFields r query) (cgiFields (helper.headerWith rt s)) r.headerFields params k) := by
  have ht : ∀ ps ∈ so.parameters, TextParameters ps := by
    intro ps hps
    rw [hparams, Option.mem_some_iff] at hps
    exact hps ▸ htext
  obtain ⟨uri, collected₁, huri, hcollected, rfl⟩ := (signatureBaseString_proxy ht).1 hbase
  obtain ⟨q, hq, hfields⟩ := queryString_first hreq hquery
  obtain ⟨q', hq', hfields'⟩ := queryString_resigned rt hreq hquery s
  by_cases hc : so.clobberRequest = true
  · -- the request is not looked at
    have hsame : ((helper.resigned rt s).proxy so).parameters = .ok collected₁ := by
      rw [← hcollected, parameters_of_clobber _ hc, parameters_of_clobber _ hc]
    refine ⟨_, (signatureBaseString_proxy ht).2 ⟨uri, collected₁, huri, hsame, rfl⟩, ?_⟩
    rw [method_resigned]
    exact iff_of_true rfl (.inl hc)
  · have hclobber := Bool.not_eq_true _ ▸ hc
    have hcollected' := parameters_of_queryString hq' hclobber
    rw [parameters_of_queryString hq hclobber, Except.ok.injEq] at hcollected
    refine ⟨_, (signatureBaseString_proxy ht).2 ⟨uri, _, huri, hcollected', rfl⟩, ?_⟩
    rw [method_resigned, ← hcollected, baseString_inj, and_iff_right rfl, and_iff_right rfl]
    refine Iff.trans (normalForm_select_eq_iff _) ?_
    rw [or_iff_right hc, hparams, Option.getD_some]
    simp only [valuesOf_collected _ htext, hfields, hfields', collectedValues_fieldsWith_iff htext]
    rfl

/-! ## The header of the second run -/

theorem newline_not_mem_hashText {m : SignatureMethod} {text : Bytes} :
    newline ∉ (hashText rt m text).getD [] := by
  rw [hashText]
  split
  · exact List.not_mem_nil
  · exact newline_not_mem_encodeDigest rt _

/-- Digests have bytes that Base64 shows. -/
def HashesToText (rt : Runtime) : Prop := ∀ m text, bodyDigest rt m text ≠ []

theorem hashText_inj (hdigest : HashesToText rt) {m m' : SignatureMethod} {text : Bytes}
    (h : (hashText rt m text).getD [] = (hashText rt m' text).getD []) :
    hashText rt m text = hashText rt m' text := by
  unfold hashText at h ⊢
  split at h <;> split at h
  · rw [if_pos ‹_›, if_pos ‹_›]
  · exact absurd h.symm (hdigest _ _)
  · exact absurd h (hdigest _ _)
  · rw [if_neg ‹_›, if_neg ‹_›]
    exact congrArg some h

/-- Two hashes that would be made, if they are shown alike, are the same. -/
theorem ClientHelper.MakesHash.eq (hdigest : HashesToText rt) {h : ClientHelper}
    {fields fields' : List (Bytes × Option Bytes)} {hash hash' : Option Bytes}
    (hmakes : h.MakesHash rt r o fields hash) (hmakes' : h.MakesHash rt r o fields' hash')
    (heq : newline ∉ hash.getD [] → newline ∉ hash'.getD [] → hash.getD [] = hash'.getD []) :
    hash = hash' := by
  rw [ClientHelper.MakesHash] at hmakes hmakes'
  by_cases hneeded : oauthBodyHashRequired r o = true
  · rw [if_pos hneeded] at hmakes hmakes'
    obtain ⟨m, -, rfl⟩ := hmakes
    obtain ⟨m', -, rfl⟩ := hmakes'
    exact hashText_inj hdigest (heq newline_not_mem_hashText newline_not_mem_hashText)
  · rw [if_neg hneeded] at hmakes hmakes'
    exact hmakes.trans hmakes'.symm

/-- Two headers that differ in the body hash at most show it, as long as it has no line end. -/
theorem ClientHelper.hash_of_headerWith_eq (rt : Runtime) {h h' : ClientHelper} {hash : Option Bytes}
    (hoptions : h'.options = { h.options with bodyHash := hash })
    (hn : newline ∉ h.options.bodyHash.getD []) (hn' : newline ∉ hash.getD []) {s t : Bytes}
    (heq : h'.headerWith rt t = h.headerWith rt s) :
    hash.getD [] = h.options.bodyHash.getD [] := by
  have hshown := lookup_of_headerText_eq (by rw [hoptions]) (h'.plainName_of_lookup_signed t)
    (h.plainName_of_lookup_signed s) heq (ascii "oauth_body_hash")
  have hname : ascii "oauth_body_hash" ≠ ascii "oauth_signature" := by decide
  rw [OrderedHash.lookup_set, OrderedHash.lookup_set, if_neg hname, if_neg hname] at hshown
  have hread : ∀ helper : ClientHelper, newline ∉ helper.options.bodyHash.getD [] →
      (helper.oauthParameters.lookup (ascii "oauth_body_hash")).map
          (fun v => stripQuotes (quoted (v.toS rt)))
        = if helper.options.bodyHash.getD [] ≠ [] ∨ allowsEmptyHash helper.options = true then
            some (helper.options.bodyHash.getD [])
          else none := by
    intro helper hno
    have hprint : (toValue helper.options.bodyHash).toS rt = helper.options.bodyHash.getD [] := by
      cases helper.options.bodyHash <;> rfl
    split
    · next hsent =>
        rw [lookup_oauthBodyHash.2 ⟨hsent, rfl⟩, Option.map_some, hprint,
          (stripQuotes_quoted_iff _).2 hno]
    · next hsent =>
        rw [Option.map_eq_none_iff, Option.eq_none_iff_forall_ne_some]
        exact fun v hv => hsent (lookup_oauthBodyHash.1 hv).1
  have hallows : allowsEmptyHash h'.options = allowsEmptyHash h.options := by rw [hoptions]; rfl
  have hhash : h'.options.bodyHash = hash := by rw [hoptions]
  rw [hread h' (hhash ▸ hn'), hread h hn, hhash, hallows] at hshown
  split at hshown <;> split at hshown
  · exact Option.some.inj hshown
  · simp at hshown
  · simp at hshown
  · next hno hno' =>
      rw [not_or, not_not] at hno hno'
      rw [hno.1, hno'.1]

/-- The second run leaves the header exactly where it makes the same body hash and signs alike. -/
theorem oauth_again_iff_sign (hdigest : HashesToText rt) (hscheme : o.scheme = .header)
    (hn : o.nonce.isSome = true) (ht : o.timestamp.isSome = true)
    (hrealm : (o.realm.getD []).any isLineEnd = false)
    (h : signingHelper rt http r c token o g = .ok helper) (hquery : r.queryParams = .ok query)
    (mac : SignatureMethod → Bytes → Bytes → Bytes) (g' : Generated) {s : Bytes} (hs : newline ∉ s) :
    (∃ again, oauth (rt.withMac mac) http (helper.headed rt s) c token o g' = .ok again ∧
        again.header (ascii "Authorization")
          = (helper.headed rt s).header (ascii "Authorization")) ↔
      helper.MakesHash rt r o (fieldsWith r query (cgiFields (helper.headerWith rt s)))
          helper.options.bodyHash ∧
        sign (rt.withMac mac) ((helper.resigned rt s).proxy
            (helper.signatureOptions helper.oauthParameters))
          (helper.signatureOptions helper.oauthParameters) = .ok s := by
  obtain ⟨full, hash₀, hfull, hspec⟩ := signingHelper_eq_ok h
  have hoptions : helper.options = { o with bodyHash := helper.options.bodyHash } := by rw [hspec]
  have hn' : helper.options.nonce.isSome = true := by rw [hspec]; exact hn
  have ht' : helper.options.timestamp.isSome = true := by rw [hspec]; exact ht
  have hparams := ClientHelper.oauthParameters_eq hn' ht' (helper.resigned rt s) g'
  have hfirst := signingHelper_makesHash h hquery
  have hagain := @signingHelper_again rt http r c token o g helper query hn ht h hquery mac g' s
  constructor
  · rintro ⟨again, hrun, heq⟩
    obtain ⟨helper', hhelper', -⟩ := Except.bind_eq_ok.1 hrun
    obtain ⟨hash, hmakes, rfl⟩ := hagain.1 hhelper'
    obtain ⟨t, hsign, rfl⟩ := oauth_header_eq_ok hscheme hhelper' hrun
    rw [ClientHelper.headed, header_withHeader, header_withHeader, if_pos rfl, if_pos rfl,
      Option.some.injEq] at heq
    obtain rfl : hash = helper.options.bodyHash := hmakes.eq hdigest hfirst fun hno hno' =>
      ClientHelper.hash_of_headerWith_eq rt (by rw [hoptions]) hno' hno heq
    rw [← hoptions, hparams] at hsign
    rw [← hoptions] at heq
    have hshown : ClientHelper.headerWith rt { helper with
        request := helper.resigned rt s
        generated := g' } t = helper.headerWith rt s := heq
    have hsameRealm : ({ helper with
        request := helper.resigned rt s
        generated := g' } : ClientHelper).options.realm = helper.options.realm := rfl
    obtain rfl : t = s := ClientHelper.signature_of_headerWith_eq hsameRealm
      (newline_not_mem_sign hsign) hs hshown
    exact ⟨hmakes, hsign⟩
  · rintro ⟨hmakes, hsign⟩
    have hhelper' := hagain.2 ⟨_, hmakes, rfl⟩
    rw [← hoptions] at hhelper'
    refine ⟨_, (oauth_header_iff hscheme hhelper').2 ⟨hrealm, s, ?_, rfl⟩, ?_⟩
    · rw [hparams]
      exact hsign
    · rw [ClientHelper.headed, header_withHeader, header_withHeader, if_pos rfl, if_pos rfl,
        ClientHelper.headerWith, ClientHelper.headerWith, hparams]
      rfl

/-! ## The two signatures -/

theorem signature_plaintext {p : Proxy} {so : SignatureOptions} {cs ts : Secret} {s : Bytes} :
    Signature.signature rt ⟨.plaintext, p, so, cs, ts⟩ = .ok s ↔
      s = escapeBytes cs.toS ++ ampersand :: escapeBytes ts.toS := by
  constructor
  · intro h
    exact (Except.ok.inj h).symm
  · rintro rfl
    rfl

theorem exists_encodeDigest_ne (hcode : ∃ x y, encodeDigest rt x ≠ encodeDigest rt y) (s : Bytes) :
    ∃ d, encodeDigest rt d ≠ s := by
  obtain ⟨x, y, hxy⟩ := hcode
  by_cases hx : encodeDigest rt x = s
  · exact ⟨y, fun hy => hxy (hx.trans hy.symm)⟩
  · exact ⟨x, hx⟩

/-- Whether a request can be signed is no matter of the digests. -/
theorem exists_sign_withMac {r : HttpRequest} {so : SignatureOptions}
    (ht : ∀ ps ∈ so.parameters, TextParameters ps) {s : Bytes} (h : sign rt (r.proxy so) so = .ok s)
    (mac : SignatureMethod → Bytes → Bytes → Bytes) :
    ∃ s', sign (rt.withMac mac) (r.proxy so) so = .ok s' := by
  obtain ⟨m, hm, hs⟩ := sign_iff_reads.1 h
  by_cases hplain : m = .plaintext
  · subst hplain
    exact ⟨s, sign_iff_reads.2 ⟨_, hm, hs⟩⟩
  · obtain ⟨key, base, hkey, hbase⟩ := exists_macKey hplain hs
    exact ⟨_, sign_iff_reads.2 ⟨m, hm, (signature_withMac hplain).2
      ⟨key, base, hkey, signatureBaseString_runtime _ ht hbase, rfl⟩⟩⟩

/-- **A request that is signed as another one, whatever the digests, names the same method.** -/
theorem reads_of_sign_again (hcode : ∃ x y, encodeDigest rt x ≠ encodeDigest rt y) {p : Proxy}
    (again : Bytes → Proxy) {so : SignatureOptions} {m : SignatureMethod} (hm : p.Reads m)
    (hsigns : ∀ mac, ∃ s, sign (rt.withMac mac) p so = .ok s)
    (h : ∀ mac s, sign (rt.withMac mac) p so = .ok s → sign (rt.withMac mac) (again s) so = .ok s) :
    ∃ s, (again s).Reads m := by
  obtain ⟨d, hd⟩ := exists_encodeDigest_ne hcode
    (escapeBytes so.givenConsumerSecret.toS ++ ampersand :: escapeBytes so.givenTokenSecret.toS)
  obtain ⟨e, he⟩ := exists_encodeDigest_ne hcode (encodeDigest rt d)
  -- the digest of `m` differs from that of the other methods, and is none for plain text
  obtain ⟨s, hs⟩ := hsigns fun m' _ _ => if m' = m then d else if m = .plaintext then d else e
  obtain ⟨m₁, hm₁, hs₁⟩ := sign_iff_reads.1 hs
  obtain rfl : m = m₁ := hm.eq hm₁
  obtain ⟨m₂, hm₂, hs₂⟩ := sign_iff_reads.1 (h _ s hs)
  by_cases hsame : m₂ = m
  · exact ⟨s, hsame ▸ hm₂⟩
  · exfalso
    by_cases hplain : m = .plaintext
    · obtain ⟨-, -, -, -, hshown⟩ := (signature_withMac (hplain ▸ hsame)).1 hs₂
      subst hplain
      rw [signature_plaintext] at hs₁
      rw [if_neg hsame, if_pos rfl] at hshown
      exact hd (hshown.symm.trans hs₁)
    · obtain ⟨-, -, -, -, hshown⟩ := (signature_withMac hplain).1 hs₁
      rw [if_pos rfl] at hshown
      by_cases hplain₂ : m₂ = .plaintext
      · subst hplain₂
        rw [signature_plaintext] at hs₂
        exact hd (hshown.symm.trans hs₂)
      · obtain ⟨-, -, -, -, hshown₂⟩ := (signature_withMac hplain₂).1 hs₂
        rw [if_neg hsame, if_neg hplain] at hshown₂
        exact he (hshown₂.symm.trans hshown)

variable {p : Proxy} {so : SignatureOptions} {m : SignatureMethod}
  {mac : SignatureMethod → Bytes → Bytes → Bytes}

/-- One method and one base string have one signature. -/
theorem sign_again_of_base {p' : Proxy} (hm : p.Reads m) (hm' : p'.Reads m) {s : Bytes}
    (hbase : m ≠ .plaintext → ∀ d base, s = encodeDigest rt d →
      p.signatureBaseString (rt.withMac mac) = .ok base →
        p'.signatureBaseString (rt.withMac mac) = .ok base)
    (h : sign (rt.withMac mac) p so = .ok s) : sign (rt.withMac mac) p' so = .ok s := by
  obtain ⟨m₁, hm₁, hs⟩ := sign_iff_reads.1 h
  obtain rfl : m = m₁ := hm.eq hm₁
  refine sign_iff_reads.2 ⟨m, hm', ?_⟩
  by_cases hplain : m = .plaintext
  · subst hplain
    rwa [signature_plaintext] at hs ⊢
  · obtain ⟨key, base, hkey, hb, hs⟩ := (signature_withMac hplain).1 hs
    refine (signature_withMac hplain).2 ⟨key, base, ?_, hbase hplain _ base hs hb, hs⟩
    cases m <;> exact hkey

/-- A digest that tells two base strings apart gives two signatures. -/
theorem base_of_sign_again (again : Bytes → Proxy) (hcode : ∃ x y, encodeDigest rt x ≠ encodeDigest rt y)
    (hplain : m ≠ .plaintext) (hm : p.Reads m) (hm' : ∀ s, (again s).Reads m) {key base : Bytes}
    (hkey : Signature.macKey rt ⟨m, p, so, so.givenConsumerSecret, so.givenTokenSecret⟩ = .ok key)
    (hbase : ∀ mac, p.signatureBaseString (rt.withMac mac) = .ok base)
    (h : ∀ mac s, sign (rt.withMac mac) p so = .ok s → sign (rt.withMac mac) (again s) so = .ok s)
    {d base' : Bytes}
    (hbase' : ∀ mac, (again (encodeDigest rt d)).signatureBaseString (rt.withMac mac) = .ok base') :
    base' = base := by
  by_contra hne
  obtain ⟨e, he⟩ := exists_encodeDigest_ne hcode (encodeDigest rt d)
  let mac : SignatureMethod → Bytes → Bytes → Bytes := fun _ _ text => if text = base then d else e
  have hd : mac m key base = d := if_pos rfl
  have hsign := h mac (encodeDigest rt d) (sign_iff_reads.2 ⟨m, hm,
    (signature_withMac hplain).2 ⟨key, base, hkey, hbase mac, by rw [hd]⟩⟩)
  obtain ⟨m₂, hm₂, hs₂⟩ := sign_iff_reads.1 hsign
  obtain rfl : m = m₂ := (hm' _).eq hm₂
  obtain ⟨key₂, base₂, -, hb₂, hshown⟩ := (signature_withMac hplain).1 hs₂
  obtain rfl : base' = base₂ := Except.ok.inj ((hbase' mac).symm.trans hb₂)
  have hother : mac m key₂ base' = e := if_neg hne
  rw [hother] at hshown
  exact he hshown.symm

/-! ## Signing twice -/

/-- Where a body hash is made, the methods of the header before and of the new one have the same. -/
def ClientHelper.HashesAlike (rt : Runtime) (h : ClientHelper) (r : HttpRequest) (o : RequestOptions)
    (query : Option Bytes) : Prop :=
  oauthBodyHashRequired r o = true → ∃ m m',
    readMethod (fieldsWith r query r.headerFields) (h.unhashedParameters o) none = some m ∧
    (∀ s, readMethod (fieldsWith r query (cgiFields (h.headerWith rt s))) (h.unhashedParameters o) none
      = some m') ∧
    hashText rt m' (r.body.getD []) = hashText rt m (r.body.getD [])

/-- With the header before and with the new one the method is the same, and it is plain text, or the
    two headers leave the same values of every signed name, whatever the digest. -/
def ClientHelper.SignsAlike (rt : Runtime) (h : ClientHelper) (r : HttpRequest)
    (query : Option Bytes) : Prop :=
  ∃ m, readMethod (fieldsWith r query r.headerFields) h.oauthParameters (some h.consumer) = some m ∧
    (∀ s, readMethod (fieldsWith r query (cgiFields (h.headerWith rt s))) h.oauthParameters
      (some h.consumer) = some m) ∧
    (m = .plaintext ∨
      ∀ d k, (h.request.proxy (h.signatureOptions h.oauthParameters)).isSigned k = true →
        AddsAlike (ownFields r query) (cgiFields (h.headerWith rt (encodeDigest rt d))) r.headerFields
          h.oauthParameters k)

namespace ClientHelper

theorem hashesAlike_iff (hfirst : helper.MakesHash rt r o (fieldsWith r query r.headerFields)
      helper.options.bodyHash) {P : Bytes → Prop} (hP : ∃ s, P s) :
    (∀ s, P s → helper.MakesHash rt r o (fieldsWith r query (cgiFields (helper.headerWith rt s)))
      helper.options.bodyHash) ↔ helper.HashesAlike rt r o query := by
  unfold MakesHash at *
  rw [HashesAlike]
  by_cases hneeded : oauthBodyHashRequired r o = true
  · simp only [hneeded, if_true, forall_const] at hfirst ⊢
    obtain ⟨m, hm, hhash⟩ := hfirst
    constructor
    · intro h
      obtain ⟨s, hs⟩ := hP
      obtain ⟨m', hm', hhash'⟩ := h s hs
      exact ⟨m, m', hm, readMethod_headerWith hm', hhash'.symm.trans hhash⟩
    · rintro ⟨m₁, m', hm₁, hm', hsame⟩ s -
      obtain rfl : m = m₁ := Option.some.inj (hm.symm.trans hm₁)
      exact ⟨m', hm' s, hhash.trans hsame.symm⟩
  · simp only [hneeded] at hfirst ⊢
    exact iff_of_true (fun _ _ => hfirst) (fun h => absurd h Bool.false_ne_true)

/-- What the two runs read, where the request is not clobbered. -/
theorem reads_first_iff (hreq : helper.request = amendUserAgent r)
    (hquery : r.queryParams = .ok query) (hc : helper.options.clobberRequest = false)
    {m : SignatureMethod} :
    (helper.request.proxy (helper.signatureOptions helper.oauthParameters)).Reads m ↔
      readMethod (fieldsWith r query r.headerFields) helper.oauthParameters (some helper.consumer)
        = some m := by
  obtain ⟨q, hq, hfields⟩ := queryString_first hreq hquery
  rw [← hfields]
  exact reads_iff rfl hc hq

theorem reads_resigned_iff (hreq : helper.request = amendUserAgent r)
    (hquery : r.queryParams = .ok query) (hc : helper.options.clobberRequest = false) (s : Bytes)
    {m : SignatureMethod} :
    ((helper.resigned rt s).proxy (helper.signatureOptions helper.oauthParameters)).Reads m ↔
      readMethod (fieldsWith r query (cgiFields (helper.headerWith rt s))) helper.oauthParameters
        (some helper.consumer) = some m := by
  obtain ⟨q, hq, hfields⟩ := queryString_resigned rt hreq hquery s
  rw [← hfields]
  exact reads_iff rfl hc hq

/-- A clobbered request is not read, so both runs read one method. -/
theorem reads_resigned_of_clobber (hc : helper.options.clobberRequest = true) {s : Bytes}
    {m : SignatureMethod}
    (hm : (helper.request.proxy (helper.signatureOptions helper.oauthParameters)).Reads m) :
    ((helper.resigned rt s).proxy (helper.signatureOptions helper.oauthParameters)).Reads m := by
  obtain ⟨name, hname, hav⟩ := hm
  refine ⟨name, ?_, hav⟩
  have hclobber : (helper.signatureOptions helper.oauthParameters).clobberRequest = true := hc
  rw [← hname]
  simp only [methodName, Proxy.oauthSignatureMethod, Proxy.oauthParameter,
    parameters_of_clobber _ hclobber]
  rfl

theorem signsAlike_of_sign_again (hcode : ∃ x y, encodeDigest rt x ≠ encodeDigest rt y)
    (hreq : helper.request = amendUserAgent r) (hquery : r.queryParams = .ok query)
    (hc : helper.options.clobberRequest = false) {s : Bytes}
    (hsign : sign rt (helper.request.proxy (helper.signatureOptions helper.oauthParameters))
      (helper.signatureOptions helper.oauthParameters) = .ok s)
    (h : ∀ mac s, sign (rt.withMac mac)
        (helper.request.proxy (helper.signatureOptions helper.oauthParameters))
        (helper.signatureOptions helper.oauthParameters) = .ok s →
      sign (rt.withMac mac)
        ((helper.resigned rt s).proxy (helper.signatureOptions helper.oauthParameters))
        (helper.signatureOptions helper.oauthParameters) = .ok s) :
    helper.SignsAlike rt r query := by
  obtain ⟨m, hm, hs⟩ := sign_iff_reads.1 hsign
  obtain ⟨t, ht⟩ := reads_of_sign_again hcode
    (fun s => (helper.resigned rt s).proxy (helper.signatureOptions helper.oauthParameters)) hm
    (exists_sign_withMac helper.textParameters_of_mem hsign) h
  have hall := readMethod_headerWith ((reads_resigned_iff hreq hquery hc t).1 ht)
  refine ⟨m, (reads_first_iff hreq hquery hc).1 hm, hall, ?_⟩
  by_cases hplain : m = .plaintext
  · exact .inl hplain
  · right
    intro d
    obtain ⟨key, base, hkey, hbase⟩ := exists_macKey hplain hs
    obtain ⟨base', hbase', hiff⟩ := base_resigned rt hreq hquery rfl
      (textParameters_oauthParameters helper) hbase (encodeDigest rt d)
    have heq : base' = base := base_of_sign_again
      (fun s => (helper.resigned rt s).proxy (helper.signatureOptions helper.oauthParameters))
      hcode hplain hm (fun u => (reads_resigned_iff hreq hquery hc u).2 (hall u)) hkey
      (fun mac => signatureBaseString_runtime _ helper.textParameters_of_mem hbase) h
      (fun mac => signatureBaseString_runtime _ helper.textParameters_of_mem hbase')
    exact (hiff.1 heq).resolve_left fun hcl => absurd (hc.symm.trans hcl) Bool.false_ne_true

theorem sign_again_of_signsAlike (hreq : helper.request = amendUserAgent r)
    (hquery : r.queryParams = .ok query)
    (hcond : helper.options.clobberRequest = true ∨ helper.SignsAlike rt r query) {s : Bytes}
    (h : sign (rt.withMac mac)
        (helper.request.proxy (helper.signatureOptions helper.oauthParameters))
        (helper.signatureOptions helper.oauthParameters) = .ok s) :
    sign (rt.withMac mac)
      ((helper.resigned rt s).proxy (helper.signatureOptions helper.oauthParameters))
      (helper.signatureOptions helper.oauthParameters) = .ok s := by
  have htext := textParameters_oauthParameters helper
  by_cases hc : helper.options.clobberRequest = true
  · obtain ⟨m, hm, -⟩ := sign_iff_reads.1 h
    refine sign_again_of_base hm (reads_resigned_of_clobber hc hm) (fun _ d base _ hbase => ?_) h
    obtain ⟨base', hbase', hiff⟩ := base_resigned (rt.withMac mac) hreq hquery rfl htext hbase s
    exact hiff.2 (.inl hc) ▸ hbase'
  · obtain ⟨m, hm, hm', hadds⟩ := hcond.resolve_left hc
    rw [Bool.not_eq_true] at hc
    refine sign_again_of_base ((reads_first_iff hreq hquery hc).2 hm)
      ((reads_resigned_iff hreq hquery hc s).2 (hm' s)) (fun hplain d base hs hbase => ?_) h
    obtain ⟨base', hbase', hiff⟩ := base_resigned (rt.withMac mac) hreq hquery rfl htext hbase s
    subst hs
    exact hiff.2 (.inr (hadds.resolve_left hplain d)) ▸ hbase'

end ClientHelper

/-- **Signing twice leaves the header of signing once, whatever the digest, exactly where the body hash
    stays the same and the request is clobbered or both headers are signed alike.** -/
theorem oauth_again_iff (rt : Runtime) (http : Connection) (r : HttpRequest) (c : Consumer)
    (token : Option Token) (o : RequestOptions) (g g' : Generated) (helper : ClientHelper)
    (first : HttpRequest) (query : Option Bytes) (hscheme : o.scheme = .header)
    (hn : o.nonce.isSome = true) (ht : o.timestamp.isSome = true)
    (hcode : ∃ x y, encodeDigest rt x ≠ encodeDigest rt y) (hdigest : HashesToText rt)
    (hquery : r.queryParams = .ok query)
    (hhelper : signingHelper rt http r c token o g = .ok helper)
    (hfirst : oauth rt http r c token o g = .ok first) :
    (∀ mac signed, oauth (rt.withMac mac) http r c token o g = .ok signed →
      ∃ again, oauth (rt.withMac mac) http signed c token o g' = .ok again ∧
        again.header (ascii "Authorization") = signed.header (ascii "Authorization")) ↔
      helper.HashesAlike rt r o query ∧
        (o.clobberRequest = true ∨ helper.SignsAlike rt r query) := by
  obtain ⟨full, hash, hfull, hspec⟩ := signingHelper_eq_ok hhelper
  have hreq : helper.request = amendUserAgent r := by rw [hspec]
  have hclobber : helper.options.clobberRequest = o.clobberRequest := by rw [hspec]
  have hsame : ∀ mac, signingHelper (rt.withMac mac) http r c token o g = .ok helper :=
    fun _ => hhelper
  obtain ⟨hrealm, s₀, hs₀, -⟩ := (oauth_header_iff hscheme hhelper).1 hfirst
  -- both runs in terms of what they hash and sign
  have hagain := fun mac s (hs : newline ∉ s) => oauth_again_iff_sign hdigest hscheme hn ht hrealm
    hhelper hquery mac g' hs
  have hfirstHash := signingHelper_makesHash hhelper hquery
  have hsigns := exists_sign_withMac helper.textParameters_of_mem hs₀
  rw [← hclobber]
  constructor
  · intro h
    have hboth := fun mac s hs => (hagain mac s (newline_not_mem_sign hs)).1
      (h mac _ ((oauth_header_iff hscheme (hsame mac)).2 ⟨hrealm, s, hs, rfl⟩))
    refine ⟨(ClientHelper.hashesAlike_iff hfirstHash (hsigns fun _ _ _ => [])).1
      fun s hs => (hboth _ s hs).1, ?_⟩
    by_cases hc : helper.options.clobberRequest = true
    · exact .inl hc
    · exact .inr (ClientHelper.signsAlike_of_sign_again hcode hreq hquery (Bool.not_eq_true _ ▸ hc) hs₀
        fun mac s hs => (hboth mac s hs).2)
  · rintro ⟨hhash, hcond⟩ mac signed hsigned
    obtain ⟨s, hs, rfl⟩ := oauth_header_eq_ok hscheme (hsame mac) hsigned
    exact (hagain mac s (newline_not_mem_sign hs)).2
      ⟨(ClientHelper.hashesAlike_iff hfirstHash (P := fun _ => True) ⟨s, trivial⟩).2 hhash s trivial,
        ClientHelper.sign_again_of_signsAlike hreq hquery hcond hs⟩

/-- Nonce and timestamp given, signed with HMAC-SHA1. -/
def fixedOptions : RequestOptions :=
  { nonce := some (ascii "n0nce"), timestamp := some (ascii "1700000000") }

/-- A runtime whose digests are never empty. -/
def taggingRuntime : Runtime :=
  { printingRuntime with
    sha1 := fun text => 65 :: text
    sha256 := fun text => 65 :: text }

theorem taggingRuntime_hashesToText : HashesToText taggingRuntime := by
  intro m text
  rw [bodyDigest, show taggingRuntime.sha256 text = taggingRuntime.sha1 text from rfl, ite_self]
  exact printingRuntime_nonemptyDigests.encoded _ (List.cons_ne_nil _ _)

theorem rootRequest_again_iff :
    ∃ helper first, signingHelper taggingRuntime exampleConnection rootRequest exampleConsumer none
        fixedOptions exampleGenerated = .ok helper ∧
      oauth taggingRuntime exampleConnection rootRequest exampleConsumer none fixedOptions
        exampleGenerated = .ok first ∧
      ((∀ mac signed, oauth (taggingRuntime.withMac mac) exampleConnection rootRequest
          exampleConsumer none fixedOptions exampleGenerated = .ok signed →
        ∃ again, oauth (taggingRuntime.withMac mac) exampleConnection signed exampleConsumer none
            fixedOptions exampleGenerated = .ok again ∧
          again.header (ascii "Authorization") = signed.header (ascii "Authorization")) ↔
        helper.HashesAlike taggingRuntime rootRequest fixedOptions none ∧
          (fixedOptions.clobberRequest = true ∨ helper.SignsAlike taggingRuntime rootRequest none)) := by
  have hok : (oauth taggingRuntime exampleConnection rootRequest exampleConsumer none fixedOptions
      exampleGenerated).isOk = true := by decide +kernel
  cases h : oauth taggingRuntime exampleConnection rootRequest exampleConsumer none fixedOptions
      exampleGenerated with
  | error e =>
      rw [h] at hok
      exact absurd hok Bool.false_ne_true
  | ok first =>
      obtain ⟨helper, hhelper, -⟩ := Except.bind_eq_ok.1 h
      exact ⟨helper, first, hhelper, rfl, oauth_again_iff taggingRuntime exampleConnection
        rootRequest exampleConsumer none fixedOptions exampleGenerated exampleGenerated helper first
        none rfl rfl rfl ⟨[], ascii "A", by decide⟩ taggingRuntime_hashesToText (by rfl) hhelper h⟩

/-- The second header has another signature. -/
theorem rootRequest_headers_differ :
    (do
      let first ← oauth printingRuntime exampleConnection rootRequest exampleConsumer none
        fixedOptions exampleGenerated
      let again ← oauth printingRuntime exampleConnection first exampleConsumer none
        fixedOptions exampleGenerated
      Except.ok (first.header (ascii "Authorization") == again.header (ascii "Authorization")))
      = .ok false := by
  decide +kernel

end RubyOAuth
