import RubyOAuth.Proofs.HeaderRoundTrip
import RubyOAuth.Proofs.Signing

set_option autoImplicit false

/-! # The `Authorization` header as the Net::HTTP proxy reads it

The proxy hands the whole header to `CGI.parse`, between query and body. The header has no `&` or `;`
but those of the realm, so it is one field, named by all that stands before its first `=`: the OAuth
parameters are not found in it. -/

namespace RubyOAuth

open Bytes

variable {rt : Runtime}

/-! ## The fields of the header -/

theorem quote_mem_cgiUnescape {s : Bytes} (h : quote ∈ s) : quote ∈ cgiUnescape s := by
  have hmap : quote ∈ s.map (fun b => if b = plus then space else b) :=
    List.mem_map.2 ⟨quote, h, by decide⟩
  exact PercentCode.mem_decode (by decide) (by decide) hmap

/-- The fields of a text that goes on with a quote: those before its last separator, then one that goes
    on past the quote. -/
theorem cgiFields_append_quote (s : Bytes) :
    ∃ fields last, (∀ f ∈ fields, f ∈ cgiFields s) ∧
      (equal ∈ last → ∃ g ∈ cgiFields s, g.1 = cgiUnescape (cut equal last).1) ∧
      ∀ t, (∀ b ∈ t, (b == ampersand || b == semicolon) = false) →
        cgiFields (s ++ quote :: t) = fields ++ [cgiField (last ++ quote :: t)] := by
  induction hn : s.length using Nat.strong_induction_on generalizing s with
  | _ n ih =>
      cases hfind : s.find? (fun b => b == ampersand || b == semicolon) with
      | none =>
          -- no separator: one field
          have hs : ∀ b ∈ s, (b == ampersand || b == semicolon) = false := by
            intro b hb
            simpa using List.find?_eq_none.1 hfind b hb
          refine ⟨[], s, by simp, fun he => ⟨cgiField s, ?_, rfl⟩, fun t ht => ?_⟩
          · rw [cgiFields_of_not_sep hs (List.ne_nil_of_mem he)]
            exact List.mem_singleton_self _
          · rw [List.nil_append]
            refine cgiFields_of_not_sep (fun b hb => ?_) (by simp)
            rw [List.mem_append, List.mem_cons] at hb
            rcases hb with hb | rfl | hb
            · exact hs b hb
            · decide
            · exact ht b hb
      | some b =>
          obtain ⟨hb, x, y, rfl, -⟩ := List.find?_eq_some_iff_append.1 hfind
          have hlt : y.length < n := by
            rw [← hn, List.length_append, List.length_cons]
            omega
          obtain ⟨fields, last, hfields, hlast, hall⟩ := ih y.length hlt y rfl
          rw [cgiFields_append_sep hb]
          refine ⟨cgiFields x ++ fields, last, fun f hf => ?_, fun he => ?_, fun t ht => ?_⟩
          · rcases List.mem_append.1 hf with hf | hf
            · exact List.mem_append_left _ hf
            · exact List.mem_append_right _ (hfields f hf)
          · obtain ⟨g, hg, hname⟩ := hlast he
            exact ⟨g, List.mem_append_right _ hg, hname⟩
          · rw [List.append_assoc, List.cons_append, cgiFields_append_sep hb, hall t ht,
              List.append_assoc]

/-- A field that goes on past a quote has the quote in its value, or in its name. -/
theorem cgiField_append_quote (s t : Bytes) :
    (equal ∈ s ∧ (cgiField (s ++ quote :: t)).1 = cgiUnescape (cut equal s).1 ∧
        ∃ v, (cgiField (s ++ quote :: t)).2 = some v ∧ quote ∈ v) ∨
      equal ∉ s ∧ quote ∈ (cgiField (s ++ quote :: t)).1 := by
  by_cases he : equal ∈ s
  · obtain ⟨a, b, rfl, ha⟩ := List.eq_append_cons_of_mem he
    have hcut : cut equal (a ++ equal :: b ++ quote :: t) = (a, some (b ++ quote :: t)) := by
      rw [List.append_assoc, List.cons_append, cut_append ha]
    refine .inl ⟨he, ?_, cgiUnescape (b ++ quote :: t), ?_, ?_⟩
    · rw [cgiField, hcut, cut_append ha]
    · rw [cgiField, hcut, Option.map_some]
    · exact quote_mem_cgiUnescape (List.mem_append_right _ List.mem_cons_self)
  · refine .inr ⟨he, quote_mem_cgiUnescape ?_⟩
    have hstop : (cut equal (quote :: t)).1 = quote :: (cut equal t).1 := by
      rw [cut, if_neg (by decide)]
    rw [cut_append_left he, hstop]
    exact List.mem_append_right s List.mem_cons_self

/-- Each field has the name of a field of the text, or a name with a quote. -/
theorem name_of_mem_append_quote (s : Bytes) {t : Bytes}
    (ht : ∀ b ∈ t, (b == ampersand || b == semicolon) = false) :
    ∀ f ∈ cgiFields (s ++ quote :: t), (∃ g ∈ cgiFields s, f.1 = g.1) ∨ quote ∈ f.1 := by
  obtain ⟨fields, last, hfields, hlast, hall⟩ := cgiFields_append_quote s
  intro f hf
  rw [hall t ht, List.mem_append, List.mem_singleton] at hf
  rcases hf with hf | rfl
  · exact .inl ⟨f, hfields f hf, rfl⟩
  · rcases cgiField_append_quote last t with ⟨he, hname, -⟩ | ⟨-, hq⟩
    · obtain ⟨g, hg, hg'⟩ := hlast he
      exact .inl ⟨g, hg, hname.trans hg'.symm⟩
    · exact .inr hq

namespace ClientHelper

/-- The bytes of a field: visible ones and blanks, but no separator of `CGI.parse`. -/
def isFieldByte (b : UInt8) : Bool :=
  decide (space ≤ b) && decide (b < 127) && b != ampersand && b != semicolon

theorem not_sep_of_isFieldByte {b : UInt8} (hb : isFieldByte b = true) :
    (b == ampersand || b == semicolon) = false := by
  grind [isFieldByte]

theorem not_lineEnd_of_isFieldByte {b : UInt8} (hb : isFieldByte b = true) : isLineEnd b = false := by
  have h : ∀ b, isFieldByte b = true → isLineEnd b = false := by decide +kernel
  exact h b hb

theorem isFieldByte_of_mem_separator : ∀ b ∈ separator, isFieldByte b = true := by decide +kernel

theorem isFieldByte_of_mem_escapeBytes {s : Bytes} : ∀ b ∈ escapeBytes s, isFieldByte b = true := by
  have hsafe : ∀ b, (!reservedCharacter b) = true → isFieldByte b = true := by decide +kernel
  have hdigit : ∀ b, PercentCode.isUpperHex b = true → isFieldByte b = true := by decide +kernel
  intro b hb
  rcases PercentCode.mem_encode hb with h | rfl | h
  · exact hsafe b h
  · decide
  · exact hdigit b h

theorem isFieldByte_of_mem_headerField (rt : Runtime) {e : Bytes × Value} (he : PlainName e.1) :
    ∀ b ∈ headerField rt e, isFieldByte b = true := by
  have hplain : ∀ b, (isLower b || b == underscore) = true → isFieldByte b = true := by decide +kernel
  intro b hb
  rw [headerField_eq, quoted, List.mem_append, List.mem_cons, List.mem_cons, List.mem_append,
    List.mem_singleton] at hb
  rcases hb with hb | rfl | rfl | hb | rfl
  · exact hplain b (he b hb)
  · decide
  · decide
  · exact isFieldByte_of_mem_escapeBytes b hb
  · decide

/-- What follows the realm. -/
theorem isFieldByte_of_mem_fields (rt : Runtime) {es : List (Bytes × Value)}
    (hes : ∀ e ∈ es, PlainName e.1) :
    ∀ b ∈ separator.intercalate (es.map (headerField rt)), isFieldByte b = true := by
  induction es with
  | nil => simp
  | cons e rest ih =>
      have hfield := isFieldByte_of_mem_headerField rt (hes e List.mem_cons_self)
      by_cases hr : rest = []
      · subst hr
        rw [List.map_singleton, List.intercalate_singleton]
        exact hfield
      · have hmap : rest.map (headerField rt) ≠ [] := by simpa using hr
        intro b hb
        rw [List.map_cons, List.intercalate_cons_of_ne_nil hmap, List.mem_append,
          List.mem_append] at hb
        rcases hb with (hb | hb) | hb
        · exact hfield b hb
        · exact isFieldByte_of_mem_separator b hb
        · exact ih (fun f hf => hes f (List.mem_cons_of_mem e hf)) b hb

/-- A header has a line end only where its realm has one. -/
theorem any_isLineEnd_headerText (rt : Runtime) (h : ClientHelper) {params : Params}
    (hnames : ∀ k v, params.lookup k = some v → PlainName k) :
    (h.headerText rt params).any isLineEnd = (h.options.realm.getD []).any isLineEnd := by
  have hfields : (separator.intercalate (params.sortedEntries.map (headerField rt))).any isLineEnd
      = false := by
    rw [List.any_eq_false]
    intro b hb
    rw [Bool.not_eq_true]
    refine not_lineEnd_of_isFieldByte (isFieldByte_of_mem_fields rt ?_ b hb)
    rintro ⟨k, v⟩ he
    exact hnames k v (OrderedHash.mem_sortedEntries.1 he)
  have hstart : (ascii "OAuth ").any isLineEnd = false := by decide
  have hopen : (ascii "realm=\"").any isLineEnd = false := by decide
  have hclose : (ascii "\", ").any isLineEnd = false := by decide
  rw [headerText, List.any_append, List.any_append, hfields, hstart, Bool.or_false, Bool.false_or]
  cases h.options.realm with
  | none => rfl
  | some realm => rw [List.any_append, List.any_append, hopen, hclose, Bool.or_false, Bool.false_or,
      Option.getD_some]

/-- Names that begin as the header does. -/
def LeadingName (k : Bytes) : Prop := k.head? = some 79

theorem leadingName_of_mem {s : Bytes} (hs : s.head? = some 79)
    (hsep : ∀ b ∈ s, (b == ampersand || b == semicolon) = false) :
    ∀ f ∈ cgiFields s, LeadingName f.1 := by
  intro f hf
  cases s with
  | nil => simp at hs
  | cons b rest =>
      rw [List.head?_cons, Option.some.injEq] at hs
      subst hs
      rw [cgiFields_of_not_sep hsep (List.cons_ne_nil _ _), List.mem_singleton] at hf
      subst hf
      have hcut : (cut equal (79 :: rest)).1 = 79 :: (cut equal rest).1 := by
        rw [cut, if_neg (by decide)]
      rw [LeadingName, cgiField, hcut, cgiUnescape, List.map_cons, if_neg (by decide),
        PercentCode.decode_cons_of_ne (by decide)]
      rfl

/-- **The names that `CGI.parse` finds in a header**: the one the header begins with, those of the
    realm, and a name that goes on past the quote after the realm. -/
theorem name_of_mem_headerText (rt : Runtime) (h : ClientHelper) {params : Params}
    (hnames : ∀ k v, params.lookup k = some v → PlainName k) :
    ∀ f ∈ cgiFields (h.headerText rt params), LeadingName f.1 ∨ quote ∈ f.1 ∨
      ∃ realm ∈ h.options.realm, ∃ g ∈ cgiFields realm, f.1 = g.1 := by
  have hplain : ∀ e ∈ params.sortedEntries, PlainName e.1 := by
    rintro ⟨k, v⟩ he
    exact hnames k v (OrderedHash.mem_sortedEntries.1 he)
  have hrest := fun b hb => not_sep_of_isFieldByte (isFieldByte_of_mem_fields rt hplain b hb)
  have hstart : ∀ b ∈ ascii "OAuth ", (b == ampersand || b == semicolon) = false := by
    simp [ascii, ampersand, semicolon]
  intro f hf
  rw [headerText] at hf
  cases hrealm : h.options.realm with
  | none =>
      rw [hrealm, List.append_nil] at hf
      refine .inl (leadingName_of_mem (by rfl) ?_ f hf)
      intro b hb
      rcases List.mem_append.1 hb with hb | hb
      · exact hstart b hb
      · exact hrest b hb
  | some realm =>
      rw [hrealm] at hf
      -- the text before the realm, and the text after the quote that closes it
      have hhead : ∀ b ∈ ascii "OAuth " ++ ascii "realm=\"",
          (b == ampersand || b == semicolon) = false := by
        simp [ascii, ampersand, semicolon]
      have htail : ∀ b ∈ separator ++ separator.intercalate (params.sortedEntries.map
          (headerField rt)), (b == ampersand || b == semicolon) = false := by
        intro b hb
        rcases List.mem_append.1 hb with hb | hb
        · exact not_sep_of_isFieldByte (isFieldByte_of_mem_separator b hb)
        · exact hrest b hb
      have htext : ascii "OAuth " ++ (ascii "realm=\"" ++ realm ++ ascii "\", ") ++
            separator.intercalate (params.sortedEntries.map (headerField rt))
          = (ascii "OAuth " ++ ascii "realm=\"") ++ (realm ++ quote :: (separator ++
            separator.intercalate (params.sortedEntries.map (headerField rt)))) := by
        have hclose : ascii "\", " = quote :: separator := by decide
        simp only [hclose, List.append_assoc, List.cons_append]
      simp only [htext] at hf
      cases hfind : realm.find? (fun b => b == ampersand || b == semicolon) with
      | none =>
          refine .inl (leadingName_of_mem (by rfl) ?_ f hf)
          intro b hb
          rw [List.mem_append, List.mem_append (s := realm), List.mem_cons] at hb
          rcases hb with hb | hb | rfl | hb
          · exact hhead b hb
          · simpa using List.find?_eq_none.1 hfind b hb
          · decide
          · exact htail b hb
      | some b =>
          obtain ⟨hb, x, y, rfl, hx⟩ := List.find?_eq_some_iff_append.1 hfind
          rw [List.append_assoc x, List.cons_append, ← List.append_assoc _ x,
            cgiFields_append_sep hb, List.mem_append] at hf
          rcases hf with hf | hf
          · refine .inl (leadingName_of_mem (by rfl) ?_ f hf)
            intro c hc
            rcases List.mem_append.1 hc with hc | hc
            · exact hhead c hc
            · simpa using hx c hc
          · rcases name_of_mem_append_quote y htail f hf with ⟨g, hg, hname⟩ | hq
            · refine .inr (.inr ⟨_, rfl, g, ?_, hname⟩)
              rw [cgiFields_append_sep hb]
              exact List.mem_append_right _ hg
            · exact .inr (.inl hq)

end ClientHelper

/-! ## The signed request -/

variable {http : Connection} {r signed : HttpRequest} {c : Consumer} {token : Option Token}
  {o : RequestOptions} {g : Generated}

theorem ClientHelper.any_isLineEnd_headerWith (rt : Runtime) (h : ClientHelper) (s : Bytes) :
    (h.headerWith rt s).any isLineEnd = (h.options.realm.getD []).any isLineEnd :=
  any_isLineEnd_headerText rt h (h.plainName_of_lookup_signed s)

/-- The header scheme signs the request with the OAuth parameters, and puts them into the header. A
    realm with a line end cannot stand there. -/
theorem oauth_header_iff {helper : ClientHelper} (hscheme : o.scheme = .header)
    (hhelper : signingHelper rt http r c token o g = .ok helper) :
    oauth rt http r c token o g = .ok signed ↔
      (o.realm.getD []).any isLineEnd = false ∧
        ∃ s, sign rt (helper.request.proxy (helper.signatureOptions helper.oauthParameters))
            (helper.signatureOptions helper.oauthParameters) = .ok s ∧
          signed = helper.request.withHeader (ascii "Authorization") (helper.headerWith rt s) := by
  have hrealm : helper.options.realm = o.realm := by
    obtain ⟨full, hash, -, rfl⟩ := signingHelper_eq_ok hhelper
    rfl
  rw [oauth, hhelper, Except.ok_bind, hscheme, ← hrealm]
  simp only [setOauthHeader, ClientHelper.header, Except.bind_eq_ok, Except.ok.injEq]
  constructor
  · rintro ⟨value, ⟨s, hs, rfl⟩, h⟩
    obtain ⟨hline, h⟩ := setHeader_eq_ok.1 h
    exact ⟨(helper.any_isLineEnd_headerWith rt s).symm.trans hline, s, hs, h⟩
  · rintro ⟨hline, s, hs, rfl⟩
    refine ⟨_, ⟨s, hs, rfl⟩, ?_⟩
    rw [← helper.any_isLineEnd_headerWith rt s] at hline
    exact setHeader_eq_ok.2 ⟨hline, rfl⟩

theorem oauth_header_eq_ok {helper : ClientHelper} (hscheme : o.scheme = .header)
    (hhelper : signingHelper rt http r c token o g = .ok helper)
    (h : oauth rt http r c token o g = .ok signed) :
    ∃ s, sign rt (helper.request.proxy (helper.signatureOptions helper.oauthParameters))
        (helper.signatureOptions helper.oauthParameters) = .ok s ∧
      signed = helper.request.withHeader (ascii "Authorization") (helper.headerWith rt s) :=
  ((oauth_header_iff hscheme hhelper).1 h).2

/-- An OAuth header is all that changes for the proxy. -/
theorem setAuthorization_fields (r : HttpRequest) {value : Bytes} (hv : value.take 5 = ascii "OAuth") :
    ((amendUserAgent r).withHeader (ascii "Authorization") value).queryParams = r.queryParams ∧
      ((amendUserAgent r).withHeader (ascii "Authorization") value).postParams = r.postParams ∧
      ((amendUserAgent r).withHeader (ascii "Authorization") value).authHeaderParams = some value := by
  obtain ⟨hquery, hpost, -⟩ := amendUserAgent_fields r
  have hform : ((amendUserAgent r).withHeader (ascii "Authorization") value).formUrlEncoded
      = (amendUserAgent r).formUrlEncoded := by
    rw [HttpRequest.formUrlEncoded, header_setAuthorization _ _ (by decide)]
    rfl
  refine ⟨hquery, ?_, ?_⟩
  · rw [← hpost, HttpRequest.postParams, hform]
    rfl
  · rw [HttpRequest.authHeaderParams, header_withHeader, if_pos rfl, Option.filter_some, hv]
    rfl

/-- A request with an OAuth header has the fields of the header between its own. -/
theorem cgiFields_setAuthorization {value q : Bytes} (hv : value.take 5 = ascii "OAuth")
    (h : ((amendUserAgent r).withHeader (ascii "Authorization") value).queryString = .ok q) :
    ∃ query, r.queryParams = .ok query ∧
      cgiFields q = query.toList.flatMap cgiFields ++ cgiFields value ++
        r.postParams.toList.flatMap cgiFields := by
  obtain ⟨query, hquery, hq⟩ := cgiFields_queryString h
  obtain ⟨hqueryParams, hpost, hauth⟩ := setAuthorization_fields r hv
  refine ⟨query, hqueryParams ▸ hquery, ?_⟩
  rw [hq, hauth, hpost, List.flatMap_append, List.flatMap_append, Option.toList_some,
    List.flatMap_singleton]

theorem take_headerText (rt : Runtime) (h : ClientHelper) (params : Params) :
    (h.headerText rt params).take 5 = ascii "OAuth" := by
  rw [ClientHelper.headerText, List.append_assoc]
  rfl

/-! ## Verifying the signed request -/

/-- RSA verification accepts no empty signature. -/
structure RejectsEmpty (rt : Runtime) : Prop extends NonemptyDigests rt where
  decode64_nil : rt.decode64 [] = []
  rsaVerify : ∀ key base, rt.rsaVerify key [] base ≠ .ok true

/-- Where no signature is found, none is accepted. -/
theorem verify_without_signature (hr : RejectsEmpty rt) {p : Proxy} {so : SignatureOptions}
    {block : Option SecretBlock} (hs : p.oauthSignature = .ok (.str [])) :
    verify rt p so block ≠ .ok true := by
  intro h
  obtain ⟨sig, hsig, h⟩ := Except.bind_eq_ok.1 h
  obtain ⟨name, m, secrets, -, -, -, rfl⟩ := build_eq_ok.1 hsig
  rw [Signature.verify, hs, Except.ok_bind] at h
  by_cases hm : m = .rsaSha1
  · subst hm
    have hmatch : Signature.rsaMatches rt ⟨.rsaSha1, p, so, secrets.2, secrets.1⟩ [] = .ok true := by
      rw [← hr.decode64_nil]
      exact h
    rw [Signature.rsaMatches, Except.bind_eq_ok] at hmatch
    obtain ⟨base, -, hmatch⟩ := hmatch
    -- the own signature that is compared where the key cannot verify is not empty either
    have hown : ∀ key, (rt.rsaSign key base >>= fun d => .ok (d == ([] : Bytes))) ≠ .ok true := by
      intro key hk
      obtain ⟨d, hd, hk⟩ := Except.bind_eq_ok.1 hk
      rw [Except.ok.injEq, beq_iff_eq] at hk
      exact hr.rsaSign key base d hd hk
    cases hcs : secrets.2 with
    | nil => simp [hcs] at hmatch
    | str s =>
        simp only [hcs] at hmatch
        split at hmatch
        · split at hmatch
          · simp at hmatch
          · exact hown _ hmatch
        · exact hr.rsaVerify _ base hmatch
    | certificate pem =>
        simp only [hcs] at hmatch
        split at hmatch
        · simp at hmatch
        · exact hr.rsaVerify _ base hmatch
    | rsaKey pem =>
        simp only [hcs] at hmatch
        split at hmatch
        · exact hown _ hmatch
        · exact hr.rsaVerify _ base hmatch
  · have hkey := (equals_keyed_iff hm).1 h
    cases m with
    | plaintext => simp [KeyedSignature, Value.toS] at hkey
    | rsaSha1 => exact hm rfl
    | hmacSha1 =>
        obtain ⟨base, -, hv⟩ := hkey
        exact hr.encoded _ (hr.hmacSha1 _ base) (Value.str.inj hv).symm
    | hmacSha256 =>
        obtain ⟨base, -, hv⟩ := hkey
        exact hr.encoded _ (hr.hmacSha256 _ base) (Value.str.inj hv).symm

theorem parameters_of_verify {p : Proxy} {so : SignatureOptions} {block : Option SecretBlock}
    {b : Bool} (h : verify rt p so block = .ok b) : ∃ params, p.parameters = .ok params := by
  obtain ⟨sig, hsig, -⟩ := Except.bind_eq_ok.1 h
  obtain ⟨name, m, secrets, hname, -⟩ := build_eq_ok.1 hsig
  obtain ⟨v, hv, -⟩ := Except.bind_eq_ok.1 hname
  obtain ⟨params, hparams, -⟩ := Except.bind_eq_ok.1 hv
  exact ⟨params, hparams⟩

/-- **A request signed in its header never verifies as a Net::HTTP request**: its proxy finds no
    signature in the header. -/
theorem oauth_header_not_verified (rt : Runtime) (http : Connection) (r signed : HttpRequest)
    (c : Consumer) (token : Option Token) (o : RequestOptions) (g : Generated) (uri : Bytes)
    (hr : RejectsEmpty rt) (hscheme : o.scheme = .header) (hfields : NoOauthParameters r)
    (hrealm : ∀ realm ∈ o.realm, ∀ f ∈ cgiFields realm, startsWith (ascii "oauth_") f.1 = false)
    (h : oauth rt http r c token o g = .ok signed) :
    verify rt (signed.proxy { consumer := some c, token := token, uri := some uri })
      { consumer := some c, token := token, uri := some uri } ≠ .ok true := by
  intro hv
  obtain ⟨helper, hhelper, -⟩ := Except.bind_eq_ok.1 h
  obtain ⟨signature, -, rfl⟩ := oauth_header_eq_ok hscheme hhelper h
  obtain ⟨full, hash, -, hspec⟩ := signingHelper_eq_ok hhelper
  have hreq : helper.request = amendUserAgent r := by rw [hspec]
  have hoptions : helper.options.realm = o.realm := by rw [hspec]
  rw [hreq] at hv
  obtain ⟨params, hparams⟩ := parameters_of_verify hv
  obtain ⟨q, hq, rfl⟩ := parameters_eq_ok hparams rfl rfl
  obtain ⟨query, hquery, hall⟩ := cgiFields_setAuthorization (take_headerText rt helper _) hq
  -- `oauth_signature` names no field of the header, and none of the request
  have hnot : ascii "oauth_signature" ∉ (cgiFields q).map Prod.fst := by
    intro hmem
    obtain ⟨f, hf, hname⟩ := List.mem_map.1 hmem
    have hown : f ∈ ownFields r query → False := by
      intro hf
      have hno := hfields query hquery f hf
      rw [hname] at hno
      exact absurd hno (by decide)
    rw [hall, List.mem_append, List.mem_append] at hf
    rcases hf with (hf | hf) | hf
    · exact hown (List.mem_append_left _ hf)
    · rcases ClientHelper.name_of_mem_headerText rt helper
        (helper.plainName_of_lookup_signed signature) f hf with hlead | hquote |
        ⟨realm, hin, g, hg, hgname⟩
      · rw [ClientHelper.LeadingName, hname] at hlead
        exact absurd hlead (by decide)
      · rw [hname] at hquote
        exact absurd hquote (by decide)
      · have hno := hrealm realm (hoptions ▸ hin) g hg
        rw [← hgname, hname] at hno
        exact absurd hno (by decide)
    · exact hown (List.mem_append_right _ hf)
  refine verify_without_signature hr ?_ hv
  have hnone : (collected q OrderedHash.empty).lookup (ascii "oauth_signature") = none := by
    rw [lookup_collected_empty, if_neg hnot]
  rw [Proxy.oauthSignature, Proxy.oauthParameter, hparams, Except.ok_bind]
  simp only [Option.getD_none, hnone]
  rfl

theorem printingRuntime_rejectsEmpty : RejectsEmpty printingRuntime where
  toNonemptyDigests := printingRuntime_nonemptyDigests
  decode64_nil := rfl
  rsaVerify key base := by simp [printingRuntime, echoRuntime]

def plaintextOptions : RequestOptions := { signatureMethod := some (ascii "PLAINTEXT") }

theorem rootRequest_not_verified :
    ∃ signed, oauth printingRuntime exampleConnection rootRequest exampleConsumer none
        plaintextOptions exampleGenerated = .ok signed ∧
      verify printingRuntime
        (signed.proxy { consumer := some exampleConsumer, uri := some (ascii "http://example.com/") })
        { consumer := some exampleConsumer, uri := some (ascii "http://example.com/") } ≠ .ok true := by
  have hfields : NoOauthParameters rootRequest := by
    intro query hquery f hf
    have hnone : none = query := Except.ok.inj hquery
    subst hnone
    simp [ownFields, HttpRequest.postParams, HttpRequest.isPostOrPut, rootRequest] at hf
  have hok : (oauth printingRuntime exampleConnection rootRequest exampleConsumer none
      plaintextOptions exampleGenerated).isOk = true := by decide
  cases h : oauth printingRuntime exampleConnection rootRequest exampleConsumer none
      plaintextOptions exampleGenerated with
  | error e =>
      rw [h] at hok
      exact absurd hok Bool.false_ne_true
  | ok signed =>
      exact ⟨signed, rfl, oauth_header_not_verified printingRuntime exampleConnection rootRequest
        signed exampleConsumer none plaintextOptions exampleGenerated _ printingRuntime_rejectsEmpty
        rfl hfields (by simp [plaintextOptions]) h⟩

/-- A consumer of plain-text signatures. -/
def plaintextConsumer : Consumer :=
  { exampleConsumer with options := { signatureMethod := some (ascii "PLAINTEXT") } }

/-- The request is compared with the empty signature. -/
theorem rootRequest_verify_false :
    (do
      let signed ← oauth printingRuntime exampleConnection rootRequest plaintextConsumer none
        plaintextOptions exampleGenerated
      let so : SignatureOptions :=
        { consumer := some plaintextConsumer, uri := some (ascii "http://example.com/") }
      verify printingRuntime (signed.proxy so) so) = .ok false := by
  decide +kernel

end RubyOAuth
