import RubyOAuth.Lib.Uri
import RubyOAuth.Proofs.Flat

set_option autoImplicit false

/-! # Normalization before and after encoding

`normalize` sorts names and values as they are and encodes them afterwards; RFC 5849 (section
3.4.1.3.2) sorts what is encoded. The two part where percent-encoding changes the order of two names,
or of two values of one name: `%` comes before every byte that is not escaped. -/

namespace RubyOAuth

open Bytes

/-! ## The reference -/

/-- Names are strings, and every value is a string or a non-empty array of strings. -/
def StringParameters (params : Params) : Prop :=
  ∀ e ∈ params.entries, (∃ s, e.2 = .str s) ∨ ∃ ss, ss ≠ [] ∧ e.2 = .arr (ss.map Value.str)

/-- Percent-encoding after section 3.6: all but the unreserved characters. -/
def percentEncode (s : Bytes) : Bytes := PercentCode.encode Uri.isUnreserved s

def encodedPair (p : Bytes × Bytes) : Bytes × Bytes := (percentEncode p.1, percentEncode p.2)

/-- An encoded pair as text. -/
def encodedText (p : Bytes × Bytes) : Bytes := p.1 ++ equal :: p.2

/-- The three steps of section 3.4.1.3.2: encode, sort by encoded name and then encoded value, join. -/
def referenceForm (ps : List (Bytes × Bytes)) : Bytes :=
  joinWith ampersand ((sortPairs (ps.map encodedPair)).map encodedText)

/-! ## Encoding and order -/

theorem escapeBytes_eq (s : Bytes) : escapeBytes s = percentEncode s := by
  have hsafe : (fun b => !reservedCharacter b) = Uri.isUnreserved := by
    funext b
    rw [reservedCharacter, Bool.not_not]
    rfl
  rw [escapeBytes, hsafe, percentEncode]

theorem percent_lt_of_isUnreserved : ∀ b, Uri.isUnreserved b = true → percent < b := by
  decide +kernel

/-- Two texts whose order encoding reverses: where they first differ, the smaller byte is unreserved
    and the larger one is not. -/
def Reversed (s t : Bytes) : Prop := PercentCode.Swapped Uri.isUnreserved s t

theorem percentEncode_lt_iff {s t : Bytes} (h : s < t) :
    percentEncode s < percentEncode t ↔ ¬ Reversed s t :=
  PercentCode.encode_lt_iff percent_lt_of_isUnreserved h

/-- No two names are reversed, and no two values of one name. -/
def OrderKept (ps : List (Bytes × Bytes)) : Prop :=
  ∀ p ∈ ps, ∀ q ∈ ps, ¬ Reversed p.1 q.1 ∧ (p.1 = q.1 → ¬ Reversed p.2 q.2)

theorem orderKept_iff (ps : List (Bytes × Bytes)) :
    OrderKept ps ↔ ∀ p ∈ ps, ∀ q ∈ ps, PairLe p q →
      PairLe (percentEncode p.1, percentEncode p.2) (percentEncode q.1, percentEncode q.2) := by
  constructor
  · intro h p hp q hq hle
    obtain ⟨hname, hvalue⟩ := h p hp q hq
    rcases hle with hlt | ⟨heq, hle⟩
    · exact .inl ((percentEncode_lt_iff hlt).2 hname)
    · refine .inr ⟨by rw [heq], ?_⟩
      by_cases hv : p.2 = q.2
      · rw [hv]
        exact Std.le_refl _
      · exact Std.le_of_lt ((percentEncode_lt_iff (Std.lt_of_le_of_ne hle hv)).2 (hvalue heq))
  · intro h p hp q hq
    constructor
    · intro hrev
      have hlt := PercentCode.lt_of_swapped hrev
      rcases h p hp q hq (.inl hlt) with hlt' | ⟨heq, -⟩
      · exact (percentEncode_lt_iff hlt).1 hlt' hrev
      · rw [PercentCode.encode_injective (by decide) heq] at hlt
        exact Std.lt_irrefl hlt
    · intro heq hrev
      have hlt := PercentCode.lt_of_swapped hrev
      rcases h p hp q hq (.inr ⟨heq, Std.le_of_lt hlt⟩) with hlt' | ⟨-, hle⟩
      · simp only [heq] at hlt'
        exact Std.lt_irrefl hlt'
      · refine (percentEncode_lt_iff hlt).1 (Std.lt_of_le_of_ne hle fun he => ?_) hrev
        rw [PercentCode.encode_injective (by decide) he] at hlt
        exact Std.lt_irrefl hlt

/-! ## The two forms -/

theorem flat_of_stringParameters {params : Params} (h : StringParameters params) : Flat params := by
  intro e he
  rcases h e he with ⟨s, hs⟩ | ⟨ss, hne, hs⟩
  · rw [hs]
    rfl
  · rw [hs, flatValues_arr_map hne]
    rfl

theorem encodedText_encodedPair (p : Bytes × Bytes) :
    encodedText (encodedPair p) = segment p.1 p.2 := by
  rw [encodedText, encodedPair, segment, escapeBytes_eq, escapeBytes_eq]

/-- The joined texts of encoded pairs agree only if the pairs do. -/
theorem joinWith_encodedText_inj {ps qs : List (Bytes × Bytes)}
    (hp : ∀ x ∈ ps, ∃ p, x = encodedPair p) (hq : ∀ x ∈ qs, ∃ p, x = encodedPair p) :
    joinWith ampersand (ps.map encodedText) = joinWith ampersand (qs.map encodedText) ↔ ps = qs := by
  have hsep : ∀ rs : List (Bytes × Bytes), (∀ x ∈ rs, ∃ p, x = encodedPair p) →
      ∀ t ∈ rs.map encodedText, ampersand ∉ t ∧ t ≠ [] := by
    intro rs hrs t ht
    obtain ⟨x, hx, rfl⟩ := List.mem_map.1 ht
    obtain ⟨p, rfl⟩ := hrs x hx
    rw [encodedText_encodedPair]
    exact ⟨ampersand_not_mem_segment p.1 p.2, segment_ne_nil p.1 p.2⟩
  -- the text of an encoded pair is cut at its first `=`
  have hcut : ∀ rs : List (Bytes × Bytes), (∀ x ∈ rs, ∃ p, x = encodedPair p) →
      (rs.map encodedText).map (fun s => ((cut equal s).1, (cut equal s).2.getD [])) = rs := by
    intro rs hrs
    rw [List.map_map]
    refine (List.map_congr_left fun x hx => ?_).trans (List.map_id _)
    obtain ⟨p, rfl⟩ := hrs x hx
    have hno : equal ∉ percentEncode p.1 := by
      rw [← escapeBytes_eq]
      exact not_mem_escapeBytes (by decide) (by decide) p.1
    rw [Function.comp_apply, encodedText, encodedPair, cut_append hno]
    rfl
  rw [joinWith_inj (fun t ht => (hsep ps hp t ht).1) (fun t ht => (hsep qs hq t ht).1)
    (fun h => (hsep ps hp [] h).2 rfl) (fun h => (hsep qs hq [] h).2 rfl)]
  constructor
  · intro h
    rw [← hcut ps hp, h, hcut qs hq]
  · rintro rfl; rfl

/-- **`normalize` gives the reference form exactly where encoding reverses no two names and no two
    values of one name.** -/
theorem normalize_eq_reference_iff (rt : Runtime) (params : Params) (h : StringParameters params) :
    normalize rt params = .ok (referenceForm (flatPairs params.entries)) ↔
      OrderKept (flatPairs params.entries) := by
  have hanti : ∀ a b : Bytes × Bytes, PairLe a b → PairLe b a → a = b :=
    fun _ _ => PairLe.antisymm
  have hnormal : ∀ ps, normalForm ps
      = joinWith ampersand (((sortPairs ps).map encodedPair).map encodedText) := by
    intro ps
    rw [normalForm, List.map_map]
    congr 1
    exact List.map_congr_left fun p _ => (encodedText_encodedPair p).symm
  have hsorted : ∀ ps : List (Bytes × Bytes), ∀ x ∈ (sortPairs ps).map encodedPair,
      ∃ p, x = encodedPair p := by
    intro ps x hx
    obtain ⟨p, -, rfl⟩ := List.mem_map.1 hx
    exact ⟨p, rfl⟩
  have hencoded : ∀ ps : List (Bytes × Bytes), ∀ x ∈ sortPairs (ps.map encodedPair),
      ∃ p, x = encodedPair p := by
    intro ps x hx
    obtain ⟨p, -, rfl⟩ := List.mem_map.1 ((sortPairs_perm _).mem_iff.1 hx)
    exact ⟨p, rfl⟩
  rw [normalize_flat (flat_of_stringParameters h), Except.ok.injEq, hnormal, referenceForm,
    joinWith_encodedText_inj (hsorted _) (hencoded _), orderKept_iff]
  exact map_insertionSort_eq_iff hanti hanti

/-- Names and values of letters and digits. -/
def plainParameters : Params :=
  OrderedHash.ofList
    [(ascii "b", .str (ascii "x")), (ascii "a", .arr [.str (ascii "2"), .str (ascii "1")])]

theorem plainParameters_normalize :
    normalize echoRuntime plainParameters
        = .ok (referenceForm (flatPairs plainParameters.entries)) ↔
      OrderKept (flatPairs plainParameters.entries) :=
  normalize_eq_reference_iff echoRuntime plainParameters (by
    intro e he
    have hmem : e ∈ [(ascii "b", Value.str (ascii "x")),
        (ascii "a", .arr ([ascii "2", ascii "1"].map Value.str))] := he
    rcases List.mem_cons.1 hmem with rfl | hmem
    · exact .inl ⟨ascii "x", rfl⟩
    · rw [List.mem_singleton.1 hmem]
      exact .inr ⟨[ascii "2", ascii "1"], List.cons_ne_nil _ _, rfl⟩)

/-- `{` comes after `A`, and its escape before it. -/
def braceParameters : Params :=
  OrderedHash.ofList [(ascii "A", .str (ascii "1")), (ascii "\x7b", .str (ascii "2"))]

theorem braceParameters_normalize :
    StringParameters braceParameters ∧
      normalize echoRuntime braceParameters = .ok (ascii "A=1&%7B=2") ∧
      referenceForm (flatPairs braceParameters.entries) = ascii "%7B=2&A=1" := by
  refine ⟨?_, rfl, by decide +kernel⟩
  intro e he
  have hmem : e ∈ [(ascii "A", Value.str (ascii "1")), (ascii "\x7b", .str (ascii "2"))] := he
  rcases List.mem_cons.1 hmem with rfl | hmem
  · exact .inl ⟨ascii "1", rfl⟩
  · rw [List.mem_singleton.1 hmem]
    exact .inl ⟨ascii "2", rfl⟩

end RubyOAuth
