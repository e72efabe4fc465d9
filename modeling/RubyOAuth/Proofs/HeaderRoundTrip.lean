import RubyOAuth.Lib.Fallible
import RubyOAuth.Model.ClientHelper
import RubyOAuth.Proofs.SplitFields

set_option autoImplicit false

/-! # The `Authorization` header, written and read

`parse_header` splits before it unescapes and takes the quotes off last. What `header` writes it
splits back into the same fields; a quoted value loses its quotes again exactly when it has no line
end, since `^`, `$` and `.` look at one line. -/

namespace RubyOAuth

open Bytes

/-! ## Stripping -/

theorem dropWhile_of_head? {p : UInt8 → Bool} {s : Bytes} (h : ∀ b ∈ s.head?, p b = false) :
    s.dropWhile p = s := by
  cases s with
  | nil => rfl
  | cons b rest => rw [List.dropWhile_cons_of_neg (by simp [h b rfl])]

theorem strip_of_ends {s : Bytes} (hh : ∀ b ∈ s.head?, isSpace b = false)
    (hl : ∀ b ∈ s.getLast?, isSpace b = false) : strip s = s := by
  have hrev : ∀ b ∈ s.reverse.head?, isSpace b = false := by
    rw [List.head?_reverse]
    exact hl
  rw [strip, dropWhile_of_head? hh, dropWhile_of_head? hrev, List.reverse_reverse]

theorem strip_space_cons (s : Bytes) : strip (space :: s) = strip s := by
  rw [strip, List.dropWhile_cons_of_pos (by decide), strip]

/-! ## Quoted text -/

/-- `"..."`. -/
def quoted (s : Bytes) : Bytes := quote :: (s ++ [quote])

theorem strip_quoted (s : Bytes) : strip (quoted s) = quoted s := by
  refine strip_of_ends ?_ ?_
  · intro b hb
    rw [quoted, List.head?_cons, Option.mem_def, Option.some.injEq] at hb
    rw [← hb]
    decide
  · intro b hb
    rw [quoted, ← List.cons_append, List.getLast?_concat, Option.mem_def, Option.some.injEq] at hb
    rw [← hb]
    decide

theorem unescape_quoted (s : Bytes) : unescape (quoted (escapeBytes s)) = quoted s := by
  have hplus : plus ∉ quoted (escapeBytes s) := by
    have hno := not_mem_escapeBytes (b := plus) (by decide) (by decide) s
    simp [quoted, hno, show plus ≠ quote by decide]
  have hdecode : PercentCode.decode [quote] = [quote] := by decide
  rw [unescape_of_not_mem hplus, quoted, PercentCode.decode_cons_of_ne (by decide), escapeBytes,
    PercentCode.decode_encode_append (by decide), hdecode, quoted]

/-- Text without a line end is one line. -/
theorem splitOn_newline {s : Bytes} (h : newline ∉ s) : s.splitOn newline = [s] := by
  have hone : ∀ p ∈ [s], newline ∉ p := fun p hp => List.mem_singleton.1 hp ▸ h
  simpa using splitOn_joinWith hone (List.cons_ne_nil s [])

theorem unquoteLine_quoted (s : Bytes) : unquoteLine (quoted s) = some s := by
  rw [quoted, unquoteLine, if_pos ⟨rfl, List.getLast?_concat⟩, List.dropLast_concat]

theorem unquoteLines_ne_nil {ls : List Bytes} (h : ls ≠ []) : unquoteLines ls ≠ [] := by
  cases ls with
  | nil => exact absurd rfl h
  | cons l rest =>
      rw [unquoteLines]
      split
      · exact List.cons_ne_nil _ _
      · exact List.cons_ne_nil _ _

/-- Of a value with a line end the first line gains the opening quote, or loses a quote of its own. -/
theorem stripQuotes_quoted_of_line {a : Bytes} (ha : newline ∉ a) (b : Bytes) :
    ∃ x y, stripQuotes (quoted (a ++ newline :: b)) = x ++ newline :: y ∧ newline ∉ x ∧
      x.length ≠ a.length := by
  have hqa : newline ∉ quote :: a := by simp [ha, show newline ≠ quote by decide]
  have hlines : (quoted (a ++ newline :: b)).splitOn newline
      = (quote :: a) :: (b ++ [quote]).splitOn newline := by
    have hassoc : quoted (a ++ newline :: b) = (quote :: a) ++ newline :: (b ++ [quote]) := by
      simp [quoted]
    have hno : ∀ x ∈ quote :: a, (x == newline) = false := by
      intro x hx
      rw [beq_eq_false_iff_ne]
      rintro rfl
      exact hqa hx
    rw [hassoc, List.splitOn_eq_splitOnP, List.splitOn_eq_splitOnP]
    exact List.splitOnP_append_cons_of_forall_mem hno newline (beq_self_eq_true _) _
  have hrest : (b ++ [quote]).splitOn newline ≠ [] := by
    rw [List.splitOn_eq_splitOnP]
    exact List.splitOnP_ne_nil _ _
  rw [stripQuotes, hlines, unquoteLines]
  cases hline : unquoteLine (quote :: a) with
  | none =>
      refine ⟨quote :: a, _, joinWith_cons newline _ (unquoteLines_ne_nil hrest), hqa, ?_⟩
      simp
  | some l =>
      rw [unquoteLine] at hline
      split_ifs at hline with hq
      have hlen : l.length + 1 = a.length := by
        have hne : a ≠ [] := by
          rintro rfl
          simp at hq
        rw [← Option.some.inj hline, List.length_dropLast]
        have := List.length_pos_of_ne_nil hne
        omega
      refine ⟨l, _, joinWith_cons newline _ hrest, ?_, by omega⟩
      rw [← Option.some.inj hline]
      exact fun hm => ha (List.mem_of_mem_dropLast hm)

/-- **A value comes out of its quotes exactly when it has no line end.** -/
theorem stripQuotes_quoted_iff (s : Bytes) : stripQuotes (quoted s) = s ↔ newline ∉ s := by
  constructor
  · intro h hmem
    obtain ⟨a, b, rfl, ha⟩ := List.eq_append_cons_of_mem hmem
    obtain ⟨x, y, hstrip, hx, hlen⟩ := stripQuotes_quoted_of_line ha b
    rw [hstrip] at h
    have hcut := congrArg (cut newline) h
    rw [cut_append hx, cut_append ha, Prod.mk.injEq] at hcut
    exact hlen (congrArg List.length hcut.1)
  · intro h
    have hq : newline ∉ quoted s := by
      simp [quoted, h, show newline ≠ quote by decide]
    rw [stripQuotes, splitOn_newline hq, unquoteLines, unquoteLine_quoted]
    exact joinWith_singleton newline s

/-! ## Splitting into fields -/

/-- `[,=&]`. -/
def isFieldSeparator (b : UInt8) : Bool := b == comma || b == equal || b == ampersand

/-- The fields of a header before they are unescaped. -/
def rawFields (s : Bytes) : List Bytes := (s.splitOnP isFieldSeparator).map strip

theorem rawFields_of_not_sep {s : Bytes} (h : ∀ b ∈ s, isFieldSeparator b = false) :
    rawFields s = [strip s] := by
  rw [rawFields, List.splitOnP_eq_singleton h, List.map_singleton]

theorem rawFields_append {b : UInt8} (hb : isFieldSeparator b = true) (s t : Bytes) :
    rawFields (s ++ b :: t) = rawFields s ++ rawFields t := by
  rw [rawFields, List.splitOnP_append_cons s t hb, List.map_append]
  rfl

theorem rawFields_space_cons (s : Bytes) : rawFields (space :: s) = rawFields s := by
  have hspace : isFieldSeparator space = false := by decide
  rw [rawFields, List.splitOnP_cons_eq_if_modifyHead, hspace, if_neg Bool.false_ne_true, rawFields]
  cases s.splitOnP isFieldSeparator with
  | nil => rfl
  | cons x rest => rw [List.modifyHead_cons, List.map_cons, List.map_cons, strip_space_cons]

/-- Text that ends in a non-empty field has no empty fields at its end. -/
theorem splitFields_append (s : Bytes) {t : Bytes} (ht : ∀ c ∈ t, isFieldSeparator c = false)
    (hne : t ≠ []) :
    splitFields isFieldSeparator (s ++ t) = (s ++ t).splitOnP isFieldSeparator := by
  obtain ⟨t, c, rfl⟩ := t.eq_nil_or_concat'.resolve_left hne
  rw [← List.append_assoc]
  exact splitFields_concat _ _ (ht c (by simp))

/-! ## The fields of a header -/

/-- Names of lower-case letters and underscores, as the OAuth parameters have. -/
def PlainName (k : Bytes) : Prop := ∀ b ∈ k, (isLower b || b == underscore) = true

instance (k : Bytes) : Decidable (PlainName k) :=
  decidable_of_iff (k.all (fun b => isLower b || b == underscore) = true) List.all_eq_true

theorem PlainName.class {k : Bytes} (hk : PlainName k) {b : UInt8} (hb : b ∈ k) :
    isFieldSeparator b = false ∧ isSpace b = false ∧ b ≠ plus ∧ b ≠ percent ∧ b ≠ quote ∧
      b ≠ newline := by
  have hall : ∀ c, (isLower c || c == underscore) = true →
      isFieldSeparator c = false ∧ isSpace c = false ∧ c ≠ plus ∧ c ≠ percent ∧ c ≠ quote ∧
        c ≠ newline := by
    decide +kernel
  exact hall b (hk b hb)

theorem PlainName.strip_eq {k : Bytes} (hk : PlainName k) : strip k = k :=
  strip_of_ends (fun _ hb => (hk.class (List.mem_of_mem_head? hb)).2.1)
    (fun _ hb => (hk.class (List.mem_of_mem_getLast? hb)).2.1)

theorem PlainName.unescape_eq {k : Bytes} (hk : PlainName k) : unescape k = k := by
  rw [unescape_of_not_mem (fun h => (hk.class h).2.2.1 rfl)]
  exact PercentCode.decode_of_not_mem (fun h => (hk.class h).2.2.2.1 rfl)

theorem PlainName.stripQuotes_eq {k : Bytes} (hk : PlainName k) : stripQuotes k = k := by
  have hline : unquoteLine k = none := by
    cases k with
    | nil => rfl
    | cons b rest =>
        rw [unquoteLine, if_neg]
        rintro ⟨rfl, -⟩
        exact (hk.class List.mem_cons_self).2.2.2.2.1 rfl
  rw [stripQuotes, splitOn_newline (fun h => (hk.class h).2.2.2.2.2 rfl), unquoteLines, hline]
  exact joinWith_singleton newline k

/-- No separator stands in a quoted value. -/
theorem not_sep_of_mem_quoted {s : Bytes} : ∀ b ∈ quoted (escapeBytes s), isFieldSeparator b = false := by
  intro b hb
  have hno : ∀ c, isFieldSeparator c = true → reservedCharacter c = true ∧ c ≠ percent ∧ c ≠ quote := by
    decide +kernel
  by_contra hc
  rw [Bool.not_eq_false] at hc
  obtain ⟨hr, hp, hq⟩ := hno b hc
  rw [quoted, List.mem_cons, List.mem_append, List.mem_singleton] at hb
  rcases hb with hb | hb | hb
  · exact hq hb
  · exact not_mem_escapeBytes hr hp s hb
  · exact hq hb

namespace ClientHelper

theorem headerField_eq (rt : Runtime) (e : Bytes × Value) :
    headerField rt e = e.1 ++ equal :: quoted (escapeBytes (e.2.toS rt)) := by
  simp [headerField, quoted, escape]

/-- The two raw fields of a header field. -/
theorem rawFields_headerField (rt : Runtime) {e : Bytes × Value} (he : PlainName e.1) :
    rawFields (headerField rt e) = [e.1, quoted (escapeBytes (e.2.toS rt))] := by
  rw [headerField_eq, rawFields_append (by decide), rawFields_of_not_sep (fun b hb => (he.class hb).1),
    rawFields_of_not_sep not_sep_of_mem_quoted, he.strip_eq, strip_quoted, List.singleton_append]

/-- The raw fields of the fields of a header. -/
theorem rawFields_intercalate (rt : Runtime) {es : List (Bytes × Value)}
    (hes : ∀ e ∈ es, PlainName e.1) (hne : es ≠ []) :
    rawFields (separator.intercalate (es.map (headerField rt)))
      = es.flatMap (fun e => [e.1, quoted (escapeBytes (e.2.toS rt))]) := by
  induction es with
  | nil => exact absurd rfl hne
  | cons e rest ih =>
      have he := hes e List.mem_cons_self
      by_cases hr : rest = []
      · subst hr
        rw [List.map_singleton, List.intercalate_singleton, rawFields_headerField rt he]
        rfl
      · have hsep : separator = [comma, space] := by decide
        have hmap : rest.map (headerField rt) ≠ [] := by simpa using hr
        rw [List.map_cons, List.intercalate_cons_of_ne_nil hmap, List.flatMap_cons,
          ← ih (fun f hf => hes f (List.mem_cons_of_mem _ hf)) hr, hsep, List.append_assoc,
          List.cons_append, List.singleton_append, rawFields_append (by decide),
          rawFields_headerField rt he, rawFields_space_cons]

/-- The text of the fields ends in a quoted value. -/
theorem exists_last_value (rt : Runtime) {es : List (Bytes × Value)} (hne : es ≠ []) :
    ∃ s v, separator.intercalate (es.map (headerField rt)) = s ++ equal :: quoted (escapeBytes v) := by
  induction es with
  | nil => exact absurd rfl hne
  | cons e rest ih =>
      by_cases hr : rest = []
      · subst hr
        exact ⟨e.1, e.2.toS rt, by rw [List.map_singleton, List.intercalate_singleton, headerField_eq]⟩
      · obtain ⟨s, v, hs⟩ := ih hr
        have hmap : rest.map (headerField rt) ≠ [] := by simpa using hr
        exact ⟨headerField rt e ++ separator ++ s, v, by
          rw [List.map_cons, List.intercalate_cons_of_ne_nil hmap, hs, List.append_assoc,
            List.append_assoc, List.append_assoc]⟩

end ClientHelper

/-! ## Reading the header -/

theorem length_flatMap_pair {α : Type} (f g : α → Bytes) (l : List α) :
    (l.flatMap (fun a => [f a, g a])).length = 2 * l.length := by
  induction l with
  | nil => rfl
  | cons a rest ih =>
      rw [List.flatMap_cons, List.length_append, ih]
      simp only [List.length_cons, List.length_nil]
      omega

theorem pairUp_flatMap {α : Type} (f g : α → Bytes) (l : List α) :
    pairUp (l.flatMap (fun a => [f a, g a])) = l.map (fun a => (f a, g a)) := by
  induction l with
  | nil => rfl
  | cons a rest ih =>
      rw [List.flatMap_cons, List.cons_append, List.singleton_append, pairUp, ih, List.map_cons]

/-- The fields of a header as the parser reads them. -/
def readFields (s : Bytes) : List Bytes :=
  (splitFields isFieldSeparator s).map (fun v => stripQuotes (unescape (strip v)))

/-- The parser pairs up the fields after the scheme, if their number is even. -/
theorem parseHeader_append {scheme : Bytes} (hscheme : scheme.length = 6) (s : Bytes) :
    parseHeader (scheme ++ s)
      = if (readFields s).length % 2 = 1 then .error (.problem "Invalid authorization header")
        else .ok (OrderedHash.ofList (pairUp (readFields s))) := by
  have hlen : ¬ (scheme ++ s).length < 6 := by
    rw [List.length_append]
    omega
  rw [parseHeader, if_neg hlen, ← hscheme, List.drop_left, readFields, List.length_map]
  rfl

theorem parseHeader_of_even {s : Bytes} (h : (readFields s).length % 2 = 0) :
    parseHeader (ascii "OAuth " ++ s) = .ok (OrderedHash.ofList (pairUp (readFields s))) := by
  rw [parseHeader_append rfl, if_neg (by omega)]

/-- The fields that were written, each value as it comes out of its quotes. -/
theorem readFields_intercalate (rt : Runtime) {es : List (Bytes × Value)}
    (hes : ∀ e ∈ es, PlainName e.1) :
    readFields (ClientHelper.separator.intercalate (es.map (ClientHelper.headerField rt)))
      = es.flatMap (fun e => [e.1, stripQuotes (quoted (e.2.toS rt))]) := by
  by_cases hne : es = []
  · subst hne
    rfl
  · obtain ⟨s, v, hs⟩ := ClientHelper.exists_last_value rt hne
    have hraw := ClientHelper.rawFields_intercalate rt hes hne
    have hread : ∀ l : List Bytes, l.map (fun v => stripQuotes (unescape (strip v)))
        = (l.map strip).map (fun v => stripQuotes (unescape v)) := by
      intro l
      rw [List.map_map]
      rfl
    rw [rawFields] at hraw
    rw [readFields, hs, List.append_cons,
      splitFields_append (s ++ [equal]) not_sep_of_mem_quoted (by simp [quoted]), ← List.append_cons,
      ← hs, hread, hraw, List.map_flatMap, List.flatMap_def, List.flatMap_def]
    congr 1
    refine List.map_congr_left fun e he => ?_
    have hk := hes e he
    rw [List.map_cons, List.map_singleton, hk.unescape_eq, hk.stripQuotes_eq, unescape_quoted]

/-- **What the parser reads of a header**: the names that were written, with each value as it comes
    out of its quotes. -/
theorem parseHeader_fields (rt : Runtime) {es : List (Bytes × Value)}
    (hes : ∀ e ∈ es, PlainName e.1) :
    parseHeader (ascii "OAuth " ++
        ClientHelper.separator.intercalate (es.map (ClientHelper.headerField rt)))
      = .ok (OrderedHash.ofList (es.map (fun e => (e.1, stripQuotes (quoted (e.2.toS rt)))))) := by
  have hread := readFields_intercalate rt hes
  have heven : (readFields (ClientHelper.separator.intercalate
      (es.map (ClientHelper.headerField rt)))).length % 2 = 0 := by
    rw [hread, length_flatMap_pair]
    exact Nat.mul_mod_right 2 _
  rw [parseHeader_of_even heven, hread, pairUp_flatMap]

/-! ## The header of a helper -/

theorem newline_not_mem_encodeDigest (rt : Runtime) (d : Bytes) : newline ∉ encodeDigest rt d := by
  intro h
  simpa using List.of_mem_filter h

/-- No signature has a line end. -/
theorem newline_not_mem_signature {rt : Runtime} {sig : Signature} {s : Bytes}
    (h : sig.signature rt = .ok s) : newline ∉ s := by
  have hencoded : ∀ x : Except RubyError Bytes, (x >>= fun d => .ok (encodeDigest rt d)) = .ok s →
      newline ∉ s := by
    intro x hx
    obtain ⟨d, -, hd⟩ := Except.bind_eq_ok.1 hx
    rw [← Except.ok.inj hd]
    exact newline_not_mem_encodeDigest rt d
  obtain ⟨m, p, o, cs, ts⟩ := sig
  cases m with
  | plaintext =>
      have hno := not_mem_escapeBytes (b := newline) (by decide) (by decide)
      rw [← Except.ok.inj h]
      simp [Signature.secret, hno, show newline ≠ ampersand by decide]
  | hmacSha1 => exact hencoded _ h
  | hmacSha256 => exact hencoded _ h
  | rsaSha1 => exact hencoded _ h

theorem newline_not_mem_sign {rt : Runtime} {p : Proxy} {o : SignatureOptions}
    {block : Option SecretBlock} {s : Bytes} (h : sign rt p o block = .ok s) : newline ∉ s := by
  obtain ⟨sig, -, hs⟩ := Except.bind_eq_ok.1 h
  exact newline_not_mem_signature hs

namespace ClientHelper

theorem names_candidateParameters (h : ClientHelper) :
    h.candidateParameters.map Prod.fst
      = ["oauth_body_hash", "oauth_callback", "oauth_consumer_key", "oauth_token",
          "oauth_signature_method", "oauth_timestamp", "oauth_nonce", "oauth_verifier",
          "oauth_version", "oauth_session_handle"].map ascii := rfl

/-- What `oauth_parameters` gives: the candidates that are kept. -/
theorem lookup_oauthParameters {h : ClientHelper} {k : Bytes} {v : Value} :
    h.oauthParameters.lookup k = some v ↔
      ∃ e ∈ h.candidateParameters, h.keeps e = true ∧ k = e.1 ∧ v = toValue e.2 := by
  have hnames : (h.candidateParameters.map Prod.fst).Nodup := by
    rw [names_candidateParameters]
    decide
  have hnodup : (((h.candidateParameters.filter h.keeps).map (fun e => (e.1, toValue e.2))).map
      Prod.fst).Nodup := by
    rw [List.map_map]
    exact (List.filter_sublist.map Prod.fst).nodup hnames
  rw [oauthParameters, OrderedHash.lookup_ofList_of_nodup hnodup,
    OrderedHash.findEntry_eq_some hnodup, List.mem_map]
  constructor
  · rintro ⟨e, he, heq⟩
    rw [List.mem_filter] at he
    exact ⟨e, he.1, he.2, (congrArg Prod.fst heq).symm, (congrArg Prod.snd heq).symm⟩
  · rintro ⟨e, he, hk, rfl, rfl⟩
    exact ⟨e, List.mem_filter.2 ⟨he, hk⟩, rfl⟩

theorem name_of_lookup {h : ClientHelper} {k : Bytes} {v : Value}
    (hv : h.oauthParameters.lookup k = some v) :
    PlainName k ∧ startsWith (ascii "oauth_") k = true ∧ k ≠ ascii "oauth_signature" := by
  obtain ⟨e, he, -, rfl, -⟩ := lookup_oauthParameters.1 hv
  have hmem : e.1 ∈ h.candidateParameters.map Prod.fst := List.mem_map_of_mem he
  rw [names_candidateParameters] at hmem
  revert hmem
  generalize e.1 = n
  revert n
  decide +kernel

/-- **The fields of a header read back**: every value as it comes out of its quotes. -/
theorem parseHeader_sortedEntries (rt : Runtime) {params : Params}
    (hnames : ∀ k v, params.lookup k = some v → PlainName k) :
    ∃ hdr, parseHeader (ascii "OAuth " ++
        separator.intercalate (params.sortedEntries.map (headerField rt))) = .ok hdr ∧
      ∀ k, hdr.lookup k = (params.lookup k).map (fun v => stripQuotes (quoted (v.toS rt))) := by
  have hsorted : ∀ e ∈ params.sortedEntries, PlainName e.1 :=
    fun e he => hnames e.1 e.2 (OrderedHash.mem_sortedEntries.1 he)
  refine ⟨_, parseHeader_fields rt hsorted, fun k => ?_⟩
  have hnodup : ((params.sortedEntries.map (fun e => (e.1, stripQuotes (quoted (e.2.toS rt))))).map
      Prod.fst).Nodup := by
    rw [List.map_map]
    exact params.sortedEntries_nodup
  have hfind : OrderedHash.findEntry k params.sortedEntries = params.lookup k := by
    apply Option.ext
    intro v
    rw [OrderedHash.findEntry_eq_some params.sortedEntries_nodup, OrderedHash.mem_sortedEntries]
  rw [OrderedHash.lookup_ofList_of_nodup hnodup,
    OrderedHash.findEntry_map (fun v => stripQuotes (quoted (Value.toS rt v))), hfind]

theorem parseHeader_headerText (rt : Runtime) {h : ClientHelper} (hrealm : h.options.realm = none)
    {params : Params} (hnames : ∀ k v, params.lookup k = some v → PlainName k) :
    ∃ hdr, parseHeader (h.headerText rt params) = .ok hdr ∧
      ∀ k, hdr.lookup k = (params.lookup k).map (fun v => stripQuotes (quoted (v.toS rt))) := by
  have htext : h.headerText rt params
      = ascii "OAuth " ++ separator.intercalate (params.sortedEntries.map (headerField rt)) := by
    rw [headerText, hrealm]
    rfl
  rw [htext]
  exact parseHeader_sortedEntries rt hnames

/-- With the signature every name in the header is a plain one still. -/
theorem plainName_of_lookup_set {params : Params}
    (hnames : ∀ k v, params.lookup k = some v → PlainName k) (s : Bytes) :
    ∀ k v, (params.set (ascii "oauth_signature") (.str s)).lookup k = some v → PlainName k := by
  intro k v hv
  rw [OrderedHash.lookup_set] at hv
  split at hv
  · next hk =>
      rw [hk]
      decide +kernel
  · exact hnames k v hv

theorem plainName_of_lookup_signed (h : ClientHelper) (s : Bytes) :
    ∀ k v, (h.oauthParameters.set (ascii "oauth_signature") (.str s)).lookup k = some v → PlainName k :=
  plainName_of_lookup_set (fun _ _ hv => (name_of_lookup hv).1) s

/-- The header with a signature. -/
def headerWith (rt : Runtime) (h : ClientHelper) (signature : Bytes) : Bytes :=
  h.headerText rt (h.oauthParameters.set (ascii "oauth_signature") (.str signature))

/-- Equal headers, of helpers with the same realm, have equal values, as they come out of their
    quotes. -/
theorem lookup_of_headerText_eq {rt : Runtime} {h h' : ClientHelper} {params params' : Params}
    (hrealm : h.options.realm = h'.options.realm)
    (hnames : ∀ k v, params.lookup k = some v → PlainName k)
    (hnames' : ∀ k v, params'.lookup k = some v → PlainName k)
    (heq : h.headerText rt params = h'.headerText rt params') (k : Bytes) :
    (params.lookup k).map (fun v => stripQuotes (quoted (v.toS rt)))
      = (params'.lookup k).map (fun v => stripQuotes (quoted (v.toS rt))) := by
  rw [headerText, headerText, hrealm] at heq
  have hfields := List.append_cancel_left heq
  obtain ⟨hdr, hparse, hlook⟩ := parseHeader_sortedEntries rt hnames
  obtain ⟨hdr', hparse', hlook'⟩ := parseHeader_sortedEntries rt hnames'
  rw [hfields] at hparse
  obtain rfl : hdr = hdr' := Except.ok.inj (hparse.symm.trans hparse')
  exact (hlook k).symm.trans (hlook' k)

/-- Headers that differ in the signature are different. -/
theorem signature_of_headerWith_eq {rt : Runtime} {h h' : ClientHelper}
    (hrealm : h.options.realm = h'.options.realm) {s t : Bytes} (hs : newline ∉ s) (ht : newline ∉ t)
    (heq : h.headerWith rt s = h'.headerWith rt t) : s = t := by
  have hsig := lookup_of_headerText_eq hrealm (h.plainName_of_lookup_signed s)
    (h'.plainName_of_lookup_signed t) heq (ascii "oauth_signature")
  rw [OrderedHash.lookup_set, OrderedHash.lookup_set, if_pos rfl, if_pos rfl, Option.map_some,
    Option.map_some, Option.some.injEq] at hsig
  have hout : stripQuotes (quoted s) = stripQuotes (quoted t) := hsig
  rwa [(stripQuotes_quoted_iff s).2 hs, (stripQuotes_quoted_iff t).2 ht] at hout

end ClientHelper

/-- **The header reads back as what was sent exactly when every value sent is a string without a line
    end.** -/
theorem parseHeader_header_iff (rt : Runtime) (h : ClientHelper) (text : Bytes)
    (hrealm : h.options.realm = none) (htext : h.header rt = .ok text) :
    (∃ hdr signature, parseHeader text = .ok hdr ∧
        h.signature rt h.oauthParameters = .ok signature ∧
        ∀ k, (hdr.lookup k).map Value.str
          = (h.oauthParameters.set (ascii "oauth_signature") (.str signature)).lookup k) ↔
      ∀ e ∈ h.candidateParameters, h.keeps e = true → ∃ s, e.2 = some s ∧ newline ∉ s := by
  rw [ClientHelper.header, Except.bind_eq_ok] at htext
  obtain ⟨signature, hsig, htext⟩ := htext
  obtain ⟨hdr, hparse, hlook⟩ := ClientHelper.parseHeader_headerText rt hrealm
    (h.plainName_of_lookup_signed signature)
  rw [← Except.ok.inj htext]
  have hread : ∀ v : Value, .str (stripQuotes (quoted (v.toS rt))) = v ↔
      ∃ s, v = .str s ∧ newline ∉ s := by
    intro v
    cases v with
    | str s =>
        simp only [Value.str.injEq, exists_eq_left']
        exact stripQuotes_quoted_iff s
    | _ => simp
  constructor
  · rintro ⟨hdr', signature', hparse', hsig', heq⟩ e he hk
    obtain rfl : hdr = hdr' := Except.ok.inj (hparse.symm.trans hparse')
    obtain rfl : signature = signature' := Except.ok.inj (hsig.symm.trans hsig')
    have hv : h.oauthParameters.lookup e.1 = some (ClientHelper.toValue e.2) :=
      ClientHelper.lookup_oauthParameters.2 ⟨e, he, hk, rfl, rfl⟩
    have hset : (h.oauthParameters.set (ascii "oauth_signature") (.str signature)).lookup e.1
        = some (ClientHelper.toValue e.2) := by
      rw [OrderedHash.lookup_set, if_neg (ClientHelper.name_of_lookup hv).2.2, hv]
    have hvalue := heq e.1
    rw [hlook, hset, Option.map_some, Option.map_some, Option.some.injEq, hread] at hvalue
    obtain ⟨s, hs, hno⟩ := hvalue
    cases h2 : e.2 with
    | none => simp [h2, ClientHelper.toValue] at hs
    | some t =>
        rw [h2, ClientHelper.toValue, Value.str.injEq] at hs
        exact ⟨t, rfl, hs ▸ hno⟩
  · intro hall
    refine ⟨hdr, signature, hparse, hsig, fun k => ?_⟩
    rw [hlook]
    cases hv : (h.oauthParameters.set (ascii "oauth_signature") (.str signature)).lookup k with
    | none => rfl
    | some v =>
        rw [Option.map_some, Option.map_some, Option.some.injEq, hread]
        rw [OrderedHash.lookup_set] at hv
        split at hv
        · exact ⟨signature, (Option.some.inj hv).symm, newline_not_mem_sign hsig⟩
        · obtain ⟨e, he, hk, -, rfl⟩ := ClientHelper.lookup_oauthParameters.1 hv
          obtain ⟨s, hs, hno⟩ := hall e he hk
          exact ⟨s, by rw [hs]; rfl, hno⟩

/-- A helper whose nonce is given. -/
def helperWithNonce (nonce : String) : ClientHelper where
  request := ⟨ascii "GET", ascii "/", OrderedHash.empty, none, none, false⟩
  requestUri := ascii "http://example.com/"
  consumer := { key := ascii "key", secret := .str (ascii "secret") }
  token := none
  options := { nonce := some (ascii nonce), timestamp := some (ascii "137131200") }
  generated := ⟨[], []⟩

theorem helperWithNonce_parseHeader_header :
    ∃ text, (helperWithNonce "n").header echoRuntime = .ok text ∧
      ((∃ hdr signature, parseHeader text = .ok hdr ∧
          (helperWithNonce "n").signature echoRuntime (helperWithNonce "n").oauthParameters
            = .ok signature ∧
          ∀ k, (hdr.lookup k).map Value.str = ((helperWithNonce "n").oauthParameters.set
            (ascii "oauth_signature") (.str signature)).lookup k) ↔
        ∀ e ∈ (helperWithNonce "n").candidateParameters, (helperWithNonce "n").keeps e = true →
          ∃ s, e.2 = some s ∧ newline ∉ s) :=
  ⟨_, rfl, parseHeader_header_iff echoRuntime (helperWithNonce "n") _ rfl rfl⟩

/-- A nonce of two lines keeps its quotes. -/
theorem helperWithNonce_lines_kept :
    (do
        let text ← (helperWithNonce "a\nb").header echoRuntime
        let hdr ← parseHeader text
        .ok (hdr.lookup (ascii "oauth_nonce"))) = .ok (some (ascii "\"a\nb\"")) ∧
      (helperWithNonce "a\nb").oauthParameters.lookup (ascii "oauth_nonce")
        = some (.str (ascii "a\nb")) :=
  ⟨by decide +kernel, rfl⟩

end RubyOAuth
