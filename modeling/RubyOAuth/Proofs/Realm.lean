import RubyOAuth.Proofs.HeaderRoundTrip
import RubyOAuth.Proofs.SplitFields

set_option autoImplicit false

/-! # The realm of a header

`header` writes the realm in front of the parameters as it is. The parser splits the whole header at
every `,`, `=` and `&`, so those of the realm count: an odd number of them shifts what follows, and an
even number makes pairs of the pieces of the realm, which come before the parameters. -/

namespace RubyOAuth

open Bytes

/-! ## Pairing up -/

/-- Pairs are made within a part of even length. -/
theorem pairUp_append {l : List Bytes} (h : l.length % 2 = 0) (m : List Bytes) :
    pairUp (l ++ m) = pairUp l ++ pairUp m := by
  match l with
  | [] => rfl
  | [_] => simp at h
  | k :: v :: rest =>
      have hrest : rest.length % 2 = 0 := by
        simp only [List.length_cons] at h
        omega
      rw [List.cons_append, List.cons_append, pairUp, pairUp, List.cons_append, pairUp_append hrest m]

/-- Later pairs decide before earlier ones. -/
theorem lookup_ofList_append (es fs : List (Bytes × Bytes)) (k : Bytes) :
    (OrderedHash.ofList (es ++ fs)).lookup k
      = ((OrderedHash.ofList fs).lookup k).or ((OrderedHash.ofList es).lookup k) := by
  rw [OrderedHash.lookup_ofList fs, ← OrderedHash.lookup_foldl_set, OrderedHash.ofList,
    List.foldl_append]
  rfl

/-! ## The fields of the realm -/

/-- `realm="..."`. -/
def realmField (realm : Bytes) : Bytes := ascii "realm=" ++ quoted realm

/-- The pairs that the parser makes of the realm, the first one under the name `realm`. -/
def realmPairs (realm : Bytes) : List (Bytes × Bytes) := pairUp (readFields (realmField realm))

/-- A text that ends in a quote loses no field at its end. -/
theorem readFields_quote_end (s : Bytes) :
    readFields (s ++ [quote]) = (rawFields (s ++ [quote])).map (fun v => stripQuotes (unescape v)) := by
  rw [readFields, splitFields_concat isFieldSeparator s (by decide), rawFields, List.map_map]
  rfl

theorem exists_quote_end (rt : Runtime) {es : List (Bytes × Value)} (hne : es ≠ []) :
    ∃ s, ClientHelper.separator.intercalate (es.map (ClientHelper.headerField rt)) = s ++ [quote] := by
  obtain ⟨s, v, hs⟩ := ClientHelper.exists_last_value rt hne
  exact ⟨s ++ equal :: quote :: escapeBytes v, by rw [hs, quoted]; simp⟩

/-- The fields of a realm stand before those of the parameters. -/
theorem readFields_realm (rt : Runtime) (realm : Bytes) {es : List (Bytes × Value)} (hne : es ≠ []) :
    readFields (realmField realm ++ comma :: space ::
        ClientHelper.separator.intercalate (es.map (ClientHelper.headerField rt)))
      = readFields (realmField realm) ++
        readFields (ClientHelper.separator.intercalate (es.map (ClientHelper.headerField rt))) := by
  obtain ⟨s, hs⟩ := exists_quote_end rt hne
  have hrealm : realmField realm = ascii "realm=" ++ quote :: realm ++ [quote] := by
    simp [realmField, quoted]
  have hwhole : realmField realm ++ comma :: space :: (s ++ [quote])
      = (realmField realm ++ comma :: space :: s) ++ [quote] := by simp
  rw [hs, hwhole, readFields_quote_end, ← hwhole, rawFields_append (by decide), rawFields_space_cons,
    List.map_append, ← readFields_quote_end s, hrealm, ← readFields_quote_end]

/-- The realm makes a name, and a field for each of its separators and one more. -/
theorem length_readFields_realm (realm : Bytes) :
    (readFields (realmField realm)).length = realm.countP isFieldSeparator + 2 := by
  have hrealm : realmField realm = ascii "realm=" ++ quote :: realm ++ [quote] := by
    simp [realmField, quoted]
  have hname : (ascii "realm=").countP isFieldSeparator = 1 := by decide +kernel
  have hquote : isFieldSeparator quote = false := by decide
  rw [hrealm, readFields_quote_end, List.length_map, rawFields, List.length_map, length_splitOnP,
    List.countP_append, List.countP_append, List.countP_cons_of_neg (by simp [hquote]), hname,
    List.countP_singleton, hquote, if_neg Bool.false_ne_true]
  omega

/-! ## The header with a realm -/

namespace ClientHelper

/-- The same helper with the option `realm`. -/
def withRealm (h : ClientHelper) (realm : Bytes) : ClientHelper :=
  { h with options := { h.options with realm := some realm } }

/-- The realm is no part of what is signed. -/
theorem header_withRealm (rt : Runtime) {h : ClientHelper} (realm : Bytes) {text : Bytes}
    (hnone : h.options.realm = none) (htext : h.header rt = .ok text) :
    ∃ signature, let params := h.oauthParameters.set (ascii "oauth_signature") (.str signature)
      text = ascii "OAuth " ++ separator.intercalate (params.sortedEntries.map (headerField rt)) ∧
      (h.withRealm realm).header rt = .ok (ascii "OAuth " ++ (realmField realm ++ comma :: space ::
        separator.intercalate (params.sortedEntries.map (headerField rt)))) := by
  obtain ⟨signature, hsig, htext⟩ := Except.bind_eq_ok.1 htext
  have hsig' : (h.withRealm realm).signature rt (h.withRealm realm).oauthParameters = .ok signature :=
    hsig
  refine ⟨signature, ?_, ?_⟩
  · rw [← Except.ok.inj htext, headerText, hnone]
    rfl
  · have hend : ascii "\", " = [quote, comma, space] := by decide
    have hstart : ascii "realm=\"" = ascii "realm=" ++ [quote] := by decide
    rw [header, hsig', Except.ok_bind, headerText]
    simp only [withRealm, hend, hstart, realmField, quoted]
    simp
    rfl

end ClientHelper

/-- **The realm leaves the OAuth parameters of a header alone exactly where it has an even number of
    separators and no piece of it becomes an OAuth parameter that the header does not have.** -/
theorem parseHeader_realm_iff (rt : Runtime) (h : ClientHelper) (realm text : Bytes)
    (hnone : h.options.realm = none) (htext : h.header rt = .ok text) :
    ∃ text', (h.withRealm realm).header rt = .ok text' ∧
      ((∃ hdr hdr', parseHeader text = .ok hdr ∧ parseHeader text' = .ok hdr' ∧
          ∀ k, startsWith (ascii "oauth_") k = true → hdr'.lookup k = hdr.lookup k) ↔
        realm.countP isFieldSeparator % 2 = 0 ∧
          ∀ p ∈ realmPairs realm, startsWith (ascii "oauth_") p.1 = true →
            p.1 = ascii "oauth_signature" ∨ (h.oauthParameters.lookup p.1).isSome = true) := by
  obtain ⟨signature, htext, htext'⟩ := h.header_withRealm rt realm hnone htext
  have hnames := h.plainName_of_lookup_signed signature
  generalize hparams : h.oauthParameters.set (ascii "oauth_signature") (.str signature) = params
    at htext htext' hnames
  have hes : ∀ e ∈ params.sortedEntries, PlainName e.1 :=
    fun e he => hnames e.1 e.2 (OrderedHash.mem_sortedEntries.1 he)
  have hne : params.sortedEntries ≠ [] := by
    have hmem : (ascii "oauth_signature", Value.str signature) ∈ params.sortedEntries := by
      rw [OrderedHash.mem_sortedEntries, ← hparams, OrderedHash.lookup_set, if_pos rfl]
    exact List.ne_nil_of_mem hmem
  refine ⟨_, htext', ?_⟩
  obtain ⟨hdr, hparse, hlook⟩ := ClientHelper.parseHeader_sortedEntries rt hnames
  have hkeys : ∀ k, (hdr.lookup k).isSome = true ↔
      k = ascii "oauth_signature" ∨ (h.oauthParameters.lookup k).isSome = true := by
    intro k
    rw [hlook, Option.isSome_map, ← hparams, OrderedHash.lookup_set]
    split
    · next hk => simp [hk]
    · next hk => simp [hk]
  have hfields := readFields_realm rt realm hne
  have heven : (readFields (ClientHelper.separator.intercalate
      (params.sortedEntries.map (ClientHelper.headerField rt)))).length % 2 = 0 := by
    rw [readFields_intercalate rt hes, length_flatMap_pair]
    exact Nat.mul_mod_right 2 _
  rw [parseHeader_of_even heven, Except.ok.injEq] at hparse
  rw [htext, parseHeader_of_even heven]
  generalize ClientHelper.separator.intercalate
    (params.sortedEntries.map (ClientHelper.headerField rt)) = fields at hfields heven hparse ⊢
  by_cases hcount : realm.countP isFieldSeparator % 2 = 0
  · -- the pieces of the realm make pairs before those of the parameters
    have hreal : (readFields (realmField realm)).length % 2 = 0 := by
      rw [length_readFields_realm]
      omega
    have hwhole : (readFields (realmField realm ++ comma :: space :: fields)).length % 2 = 0 := by
      rw [hfields, List.length_append]
      omega
    rw [parseHeader_of_even hwhole, hfields, pairUp_append hreal, ← realmPairs, hparse]
    have hlookup : ∀ k, (OrderedHash.ofList (realmPairs realm ++ pairUp (readFields fields))).lookup k
        = (hdr.lookup k).or ((OrderedHash.ofList (realmPairs realm)).lookup k) := by
      intro k
      rw [lookup_ofList_append, hparse]
    constructor
    · rintro ⟨hdr₁, hdr₂, h₁, h₂, hsame⟩
      rw [Except.ok.injEq] at h₁ h₂
      subst h₁ h₂
      refine ⟨hcount, fun p hp hname => ?_⟩
      rw [← hkeys]
      have hk := hsame p.1 hname
      rw [hlookup] at hk
      by_contra hnone'
      have hnone'' : hdr.lookup p.1 = none := by simpa using hnone'
      rw [hnone'', Option.none_or, OrderedHash.lookup_ofList_eq_none] at hk
      exact hk (List.mem_map_of_mem hp)
    · rintro ⟨-, hall⟩
      refine ⟨hdr, _, rfl, rfl, fun k hname => ?_⟩
      rw [hlookup]
      cases hk : hdr.lookup k with
      | some v => rfl
      | none =>
          rw [Option.none_or, OrderedHash.lookup_ofList_eq_none]
          intro hmem
          obtain ⟨p, hp, rfl⟩ := List.mem_map.1 hmem
          have hsome := (hkeys p.1).2 (hall p hp hname)
          rw [hk] at hsome
          exact absurd hsome Bool.false_ne_true
  · -- the number of fields is odd
    have hodd : (readFields (realmField realm ++ comma :: space :: fields)).length % 2 = 1 := by
      rw [hfields, List.length_append, length_readFields_realm]
      omega
    refine iff_of_false ?_ (fun hc => hcount hc.1)
    rintro ⟨hdr₁, hdr₂, -, h₂, -⟩
    rw [parseHeader_append rfl, if_pos hodd] at h₂
    simp at h₂

/-- A realm of one word. -/
theorem helperWithNonce_parseHeader_realm :
    ∃ text, (helperWithNonce "n").header echoRuntime = .ok text ∧
      ∃ text', ((helperWithNonce "n").withRealm (ascii "Photos")).header echoRuntime = .ok text' ∧
        ((∃ hdr hdr', parseHeader text = .ok hdr ∧ parseHeader text' = .ok hdr' ∧
            ∀ k, startsWith (ascii "oauth_") k = true → hdr'.lookup k = hdr.lookup k) ↔
          (ascii "Photos").countP isFieldSeparator % 2 = 0 ∧
            ∀ p ∈ realmPairs (ascii "Photos"), startsWith (ascii "oauth_") p.1 = true →
              p.1 = ascii "oauth_signature" ∨
                ((helperWithNonce "n").oauthParameters.lookup p.1).isSome = true) :=
  ⟨_, rfl, parseHeader_realm_iff echoRuntime (helperWithNonce "n") (ascii "Photos") _ rfl rfl⟩

/-- A realm with an `=`. -/
theorem helperWithNonce_realm_uri :
    (do
        let text ← (helperWithNonce "n").header echoRuntime
        let hdr ← parseHeader text
        .ok ((hdr.lookup (ascii "oauth_nonce")).isSome)) = .ok true ∧
      (do
        let text ← ((helperWithNonce "n").withRealm (ascii "http://example.com/?a=b")).header
          echoRuntime
        let hdr ← parseHeader text
        .ok ((hdr.lookup (ascii "oauth_nonce")).isSome))
          = .error (.problem "Invalid authorization header") ∧
      quote ∉ ascii "http://example.com/?a=b" :=
  ⟨by decide +kernel, by decide +kernel, by decide +kernel⟩

end RubyOAuth
