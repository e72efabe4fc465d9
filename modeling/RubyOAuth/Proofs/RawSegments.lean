import RubyOAuth.Model.RailsRequest
import RubyOAuth.Proofs.BaseString
import RubyOAuth.Proofs.Listing
import RubyOAuth.Proofs.SplitFields

set_option autoImplicit false

/-! # Raw segments

`ActionControllerRequest` signs the segments of the raw query and of a raw form body. It splits each at
every `=` and signs the first two parts, so of a segment with two `=` it does not sign the end. -/

namespace RubyOAuth

open Bytes

/-! ## Segments and their pairs -/

/-- The segments between `&` that are not blank. -/
def rawSegments (s : Bytes) : List Bytes := (s.splitOn ampersand).filter (!isBlank ·)

/-- The text before the first `=` and all the text after it, decoded. -/
def rawPair (s : Bytes) : Bytes × Bytes :=
  (cgiUnescape (cut equal s).1, cgiUnescape ((cut equal s).2.getD []))

/-- The segments of a text that are to be signed. -/
def signedSegments (s : Bytes) : List Bytes :=
  (rawSegments s).filter (fun s => (rawPair s).1 != ascii "oauth_signature")

/-- What is sent: the segments of the query, and those of a form body of a POST or PUT. -/
def sentSegments (r : DispatchRequest) : List Bytes :=
  signedSegments r.queryString ++
    if ActionControllerRequest.rawPostSignature r then signedSegments r.rawPost else []

/-- The pairs that the code signs of a segment. -/
def splitPair (s : Bytes) : Bytes × Bytes :=
  ((ActionControllerRequest.splitSegment s).head?.getD [],
    (ActionControllerRequest.splitSegment s).tail.head?.getD [])

theorem splitSegment_getD (s : Bytes) (i : Nat) :
    (ActionControllerRequest.splitSegment s)[i]?.getD []
      = cgiUnescape ((s.splitOnP (· == equal))[i]?.getD []) := by
  rw [← splitFields_getD, ActionControllerRequest.splitSegment, List.getElem?_map]
  cases (splitFields (· == equal) s)[i]? <;> rfl

/-- The name is read as it should be; the value ends at the next `=`. -/
theorem splitPair_eq (s : Bytes) :
    splitPair s
      = ((rawPair s).1, cgiUnescape (((cut equal s).2.map (fun t => (cut equal t).1)).getD [])) := by
  have hfst := splitSegment_getD s 0
  have hsnd := splitSegment_getD s 1
  rw [splitOnP_eq_cut] at hfst hsnd
  rw [splitPair, rawPair, List.head?_eq_getElem?, List.head?_eq_getElem?, List.getElem?_tail, hfst,
    hsnd]
  cases (cut equal s).2 with
  | none => rfl
  | some t =>
      rw [Option.map_some, Option.getD_some, splitOnP_eq_cut]
      rfl

theorem signed_splitSegment (s : Bytes) :
    ((ActionControllerRequest.splitSegment s).head? != some (ascii "oauth_signature"))
      = ((rawPair s).1 != ascii "oauth_signature") := by
  have hname : (ActionControllerRequest.splitSegment s).head?.getD [] = (rawPair s).1 :=
    congrArg Prod.fst (splitPair_eq s)
  rw [← hname]
  cases (ActionControllerRequest.splitSegment s).head? with
  | none => rfl
  | some n => rw [Bool.eq_iff_iff, bne_iff_ne, bne_iff_ne]; simp

/-! ## Values with `=` -/

theorem cgiUnescape_append_equal (s t : Bytes) :
    cgiUnescape (s ++ equal :: t) = cgiUnescape s ++ equal :: cgiUnescape t := by
  rw [cgiUnescape, List.map_append, List.map_cons, if_neg (by decide),
    PercentCode.decode_append_cons (by decide) (by decide)]
  rfl

/-- One `=` at most. -/
def OneEqual (s : Bytes) : Prop := ∀ t, (cut equal s).2 = some t → equal ∉ t

/-- Of a value with an `=` less is signed. -/
theorem splitPair_length (s : Bytes) :
    (splitPair s).2.length ≤ (rawPair s).2.length ∧
      ((splitPair s).2.length = (rawPair s).2.length ↔ OneEqual s) := by
  rw [splitPair_eq, rawPair, OneEqual]
  cases (cut equal s).2 with
  | none => simp
  | some t =>
      simp only [Option.map_some, Option.getD_some, Option.some.injEq, forall_eq']
      by_cases ht : equal ∈ t
      · obtain ⟨u, hu⟩ : ∃ u, (cut equal t).2 = some u := by
          cases hcut : (cut equal t).2 with
          | some u => exact ⟨u, rfl⟩
          | none =>
              have huncut := uncut_cut equal t
              rw [show cut equal t = ((cut equal t).1, none) from Prod.ext rfl hcut, uncut] at huncut
              rw [← huncut] at ht
              exact absurd ht (not_mem_cut_fst equal t)
        have hsplit : t = (cut equal t).1 ++ equal :: u := by
          conv_lhs => rw [← uncut_cut equal t]
          rw [show cut equal t = ((cut equal t).1, some u) from Prod.ext rfl hu, uncut]
        have hlen : (cgiUnescape t).length
            = (cgiUnescape (cut equal t).1).length + (cgiUnescape u).length + 1 := by
          conv_lhs => rw [hsplit]
          rw [cgiUnescape_append_equal, List.length_append, List.length_cons]
          omega
        refine ⟨by omega, iff_of_false (by omega) (fun h => h ht)⟩
      · rw [cut_of_not_mem ht]
        exact ⟨Nat.le_refl _, iff_of_true rfl ht⟩

theorem splitPair_eq_rawPair {s : Bytes} (h : OneEqual s) : splitPair s = rawPair s := by
  rw [splitPair_eq, rawPair]
  cases hcut : (cut equal s).2 with
  | none => rfl
  | some t =>
      rw [Option.map_some, Option.getD_some, Option.getD_some, cut_of_not_mem (h t hcut)]

/-- **The pairs signed are the pairs sent exactly where no segment has a second `=`.** -/
theorem map_splitPair_perm_iff (ss : List Bytes) :
    (ss.map splitPair).Perm (ss.map rawPair) ↔ ∀ s ∈ ss, OneEqual s := by
  constructor
  · intro h
    have hsum : ((ss.map splitPair).map (fun p => p.2.length)).sum
        = ((ss.map rawPair).map (fun p => p.2.length)).sum := (h.map _).sum_eq
    rw [List.map_map, List.map_map] at hsum
    intro s hs
    exact (splitPair_length s).2.1 (eq_of_sum_eq (fun t => (splitPair_length t).1) hsum s hs)
  · intro h
    rw [List.map_congr_left fun s hs => splitPair_eq_rawPair (h s hs)]

/-! ## What is signed -/

/-- The normalized string lists exactly these pairs. -/
def Covers (text : Bytes) (ps : List (Bytes × Bytes)) : Prop :=
  ∃ qs : List (Bytes × Bytes), qs.Perm ps ∧ text = joinWith ampersand (segments qs)

/-- A text that lists pairs determines them up to order. -/
theorem Covers.perm {text : Bytes} {ps qs : List (Bytes × Bytes)} (hp : Covers text ps)
    (hq : Covers text qs) : ps.Perm qs := by
  obtain ⟨ps', hps, rfl⟩ := hp
  obtain ⟨qs', hqs, htext⟩ := hq
  rw [joinWith_segments_inj.1 htext] at hps
  exact hps.symm.trans hqs

/-- The parts of a split segment that are signed. -/
def listPair (kv : List Bytes) : Bytes × Bytes := (kv.head?.getD [], kv.tail.head?.getD [])

/-- Lists in order have these parts in order. -/
theorem listPair_le {a b : List Bytes} (h : a ≤ b) : PairLe (listPair a) (listPair b) := by
  have hhead : ∀ {x y : List Bytes}, x ≤ y → x.head?.getD [] ≤ y.head?.getD [] := by
    intro x y hxy
    cases x with
    | nil => exact List.nil_le _
    | cons n ns =>
        cases y with
        | nil => exact absurd hxy (by simp)
        | cons m ms =>
            rcases List.cons_le_cons_iff.1 hxy with hlt | ⟨rfl, -⟩
            · exact Std.le_of_lt hlt
            · exact Std.le_refl _
  cases a with
  | nil =>
      by_cases heq : ([] : Bytes) = b.head?.getD []
      · exact Or.inr ⟨heq, List.nil_le _⟩
      · exact Or.inl (Std.lt_of_le_of_ne (hhead h) heq)
  | cons n ns =>
      cases b with
      | nil => exact absurd h (by simp)
      | cons m ms =>
          rcases List.cons_le_cons_iff.1 h with hlt | ⟨rfl, hle⟩
          · exact Or.inl hlt
          · exact Or.inr ⟨rfl, hhead hle⟩

/-- **The order of the split segments is that of their pairs.** -/
theorem normalizeLists_eq (ss : List Bytes) :
    normalizeLists (ss.map ActionControllerRequest.splitSegment) = normalForm (ss.map splitPair) := by
  have hpairs : ((ss.map ActionControllerRequest.splitSegment).insertionSort (· ≤ ·)).map listPair
      = sortPairs (ss.map splitPair) := by
    refine eq_sortPairs ?_ ?_
    · have hperm := (List.perm_insertionSort (· ≤ ·)
        (ss.map ActionControllerRequest.splitSegment)).map listPair
      rw [List.map_map] at hperm
      exact hperm
    · exact List.pairwise_map.2 ((List.pairwise_insertionSort _ _).imp listPair_le)
  rw [normalizeLists, normalForm, ← hpairs, List.map_map]
  rfl

theorem covers_normalizeLists (ss : List Bytes) :
    Covers (normalizeLists (ss.map ActionControllerRequest.splitSegment)) (ss.map splitPair) :=
  ⟨sortPairs (ss.map splitPair), sortPairs_perm _, normalizeLists_eq ss⟩

namespace ActionControllerRequest

/-- What is read: the query is left out where `REQUEST_URI` says there is none, and everything where the
    request is to be clobbered. -/
def readSegments (r : DispatchRequest) (o : SignatureOptions) : List Bytes :=
  if o.clobberRequest then []
  else (if queryStringBlank r then [] else signedSegments r.queryString) ++
    if rawPostSignature r then signedSegments r.rawPost else []

/-- The joined texts have the segments of each. -/
theorem filter_joinWith (texts : List Bytes) :
    (splitFields (· == ampersand) (joinWith ampersand texts)).filter (!isBlank ·)
      = texts.flatMap rawSegments := by
  rw [filter_splitFields _ rfl, ← List.splitOn_eq_splitOnP]
  by_cases h : texts = []
  · subst h
    rfl
  · rw [splitOn_joinWith_flatMap ampersand h, List.filter_flatMap]
    rfl

theorem parametersForSignature_eq_map (support : ActiveSupport) (r : DispatchRequest)
    (o : SignatureOptions) :
    parametersForSignature support r o
      = (signedTexts support r o).map (fun texts => (texts.flatMap signedSegments).map splitSegment) := by
  rw [parametersForSignature]
  cases signedTexts support r o with
  | error e => rfl
  | ok texts =>
      refine congrArg Except.ok ?_
      rw [filter_joinWith, List.filter_map, List.filter_flatMap]
      refine congrArg (List.map splitSegment) ?_
      exact List.flatMap_congr fun t _ => List.filter_congr fun s _ => signed_splitSegment s

/-- Without an `Authorization` header and `options[:parameters]`, the raw query and body are signed. -/
theorem parametersForSignature_eq (support : ActiveSupport) {r : DispatchRequest}
    {o : SignatureOptions} (hheader : r.oauthHeader = none) (hparams : o.parameters = none) :
    parametersForSignature support r o = .ok ((readSegments r o).map splitSegment) := by
  have hempty : support.toQuery ((OrderedHash.empty : OrderedHash Bytes Bytes).mapValues Value.str)
      = [] := support.toQuery_empty
  rw [parametersForSignature_eq_map, signedTexts, hparams, RackRequest.headerParams, hheader,
    readSegments]
  by_cases hclobber : o.clobberRequest = true
  · rw [if_pos hclobber, if_pos hclobber]
    rfl
  · rw [if_neg hclobber, if_neg hclobber, Except.ok_bind, hempty]
    refine congrArg (fun ss => Except.ok (List.map splitSegment ss)) ?_
    rw [Option.map_none, Option.toList_none, List.nil_append, List.flatMap_append, List.flatMap_append]
    have hnone : [[]].flatMap signedSegments = [] := rfl
    rw [hnone, List.nil_append]
    split <;> split <;> simp

theorem normalizedParameters_covers (support : ActiveSupport) {r : DispatchRequest}
    {o : SignatureOptions} (hheader : r.oauthHeader = none) (hparams : o.parameters = none) :
    ∃ text, normalizedParameters support r o = .ok text ∧
      Covers text ((readSegments r o).map splitPair) := by
  rw [normalizedParameters, parametersForSignature_eq support hheader hparams]
  exact ⟨_, rfl, covers_normalizeLists _⟩

/-- What is signed is what is sent. -/
def SignsWholeValues (support : ActiveSupport) (r : DispatchRequest) (o : SignatureOptions) : Prop :=
  ∃ text, normalizedParameters support r o = .ok text ∧ Covers text ((sentSegments r).map rawPair)

/-- The pairs read are the pairs sent where nothing is left out and no value is cut. -/
theorem readSegments_perm_iff (r : DispatchRequest) (o : SignatureOptions) :
    ((readSegments r o).map splitPair).Perm ((sentSegments r).map rawPair) ↔
      (o.clobberRequest = true → sentSegments r = []) ∧
        (queryStringBlank r = true → signedSegments r.queryString = []) ∧
        ∀ s ∈ sentSegments r, OneEqual s := by
  rw [readSegments]
  by_cases hclobber : o.clobberRequest = true
  · rw [if_pos hclobber]
    constructor
    · intro h
      have hnil : sentSegments r = [] := List.map_eq_nil_iff.1 h.nil_eq.symm
      have hquery : signedSegments r.queryString = [] := (List.append_eq_nil_iff.1 hnil).1
      exact ⟨fun _ => hnil, fun _ => hquery, by simp [hnil]⟩
    · rintro ⟨hnil, -, -⟩
      rw [hnil hclobber]
      rfl
  · rw [if_neg hclobber]
    by_cases hblank : queryStringBlank r = true
    · rw [if_pos hblank, List.nil_append]
      constructor
      · intro h
        have hlen := h.length_eq
        rw [List.length_map, List.length_map, sentSegments, List.length_append] at hlen
        have hquery : signedSegments r.queryString = [] := List.length_eq_zero_iff.1 (by omega)
        refine ⟨fun hc => absurd hc hclobber, fun _ => hquery, ?_⟩
        rw [sentSegments, hquery, List.nil_append] at h ⊢
        exact (map_splitPair_perm_iff _).1 h
      · rintro ⟨-, hquery, hone⟩
        rw [sentSegments, hquery hblank, List.nil_append] at hone ⊢
        exact (map_splitPair_perm_iff _).2 hone
    · rw [if_neg hblank, ← sentSegments, map_splitPair_perm_iff]
      exact ⟨fun h => ⟨fun hc => absurd hc hclobber, fun hb => absurd hb hblank, h⟩, fun h => h.2.2⟩

/-- **Whole values are signed exactly where nothing is left out and no segment has a second `=`**; and
    requests that both sign whole values have one base string only if they send the same pairs. -/
theorem signsWholeValues_iff (support : ActiveSupport) (r : DispatchRequest) (o : SignatureOptions)
    (hheader : r.oauthHeader = none) (hparams : o.parameters = none) :
    (SignsWholeValues support r o ↔
      (o.clobberRequest = true → sentSegments r = []) ∧
        (queryStringBlank r = true → signedSegments r.queryString = []) ∧
        ∀ s ∈ sentSegments r, OneEqual s) ∧
    ∀ r' : DispatchRequest, SignsWholeValues support r o → SignsWholeValues support r' o →
      ∀ base, signatureBaseString support r o = .ok base →
        signatureBaseString support r' o = .ok base →
          ((sentSegments r).map rawPair).Perm ((sentSegments r').map rawPair) := by
  constructor
  · obtain ⟨text, htext, hcovers⟩ := normalizedParameters_covers support hheader hparams
    rw [← readSegments_perm_iff]
    constructor
    · rintro ⟨text', htext', hcovers'⟩
      rw [htext, Except.ok.injEq] at htext'
      exact hcovers.perm (htext' ▸ hcovers')
    · intro hperm
      obtain ⟨qs, hqs, heq⟩ := hcovers
      exact ⟨text, htext, qs, hqs.trans hperm, heq⟩
  · rintro r' ⟨text, htext, hcovers⟩ ⟨text', htext', hcovers'⟩ base hbase hbase'
    obtain ⟨uri, -, hbase⟩ := Except.bind_eq_ok.1 hbase
    obtain ⟨uri', -, hbase'⟩ := Except.bind_eq_ok.1 hbase'
    rw [htext, Except.ok_bind] at hbase
    rw [htext', Except.ok_bind] at hbase'
    have hsame := baseString_inj.1
      ((Except.ok.inj hbase).trans (Except.ok.inj hbase').symm)
    exact hcovers.perm (hsame.2.2 ▸ hcovers')

end ActionControllerRequest

/-- A GET whose query is given. -/
def queryRequest (query : Bytes) : DispatchRequest where
  requestMethod := ascii "GET"
  url := ascii "http://example.com/?" ++ query
  env := OrderedHash.empty
  contentType := none
  get := .ok OrderedHash.empty
  post := .ok OrderedHash.empty
  queryString := query
  rawPost := []

/-- Enough for requests without a hash to write out. -/
def emptyQueries : ActiveSupport := ⟨fun _ => [], rfl⟩

theorem queryRequest_signsWholeValues :
    (ActionControllerRequest.SignsWholeValues emptyQueries (queryRequest (ascii "a=b&c=d+e")) {} ↔
      ((({} : SignatureOptions).clobberRequest = true →
          sentSegments (queryRequest (ascii "a=b&c=d+e")) = []) ∧
        (ActionControllerRequest.queryStringBlank (queryRequest (ascii "a=b&c=d+e")) = true →
          signedSegments (queryRequest (ascii "a=b&c=d+e")).queryString = []) ∧
        ∀ s ∈ sentSegments (queryRequest (ascii "a=b&c=d+e")), OneEqual s)) :=
  (ActionControllerRequest.signsWholeValues_iff emptyQueries (queryRequest (ascii "a=b&c=d+e")) {}
    rfl rfl).1

/-- What follows the second `=` can be changed. -/
theorem queryRequest_value_cut :
    ActionControllerRequest.signatureBaseString emptyQueries (queryRequest (ascii "a=b=c")) {}
        = .ok (ascii "GET&http%3A%2F%2Fexample.com%2F&a%3Db") ∧
      ActionControllerRequest.signatureBaseString emptyQueries (queryRequest (ascii "a=b=d")) {}
        = .ok (ascii "GET&http%3A%2F%2Fexample.com%2F&a%3Db") ∧
      (sentSegments (queryRequest (ascii "a=b=c"))).map rawPair = [(ascii "a", ascii "b=c")] ∧
      (sentSegments (queryRequest (ascii "a=b=d"))).map rawPair = [(ascii "a", ascii "b=d")] := by
  refine ⟨?_, ?_, ?_, ?_⟩ <;> decide +kernel

end RubyOAuth
