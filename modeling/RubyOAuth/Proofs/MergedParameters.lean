import RubyOAuth.Model.ClientProxies

set_option autoImplicit false

/-! # What `merged_parameters` keeps

The EventMachine proxy folds form body, query and options into one hash of arrays. The fold looks a key
up as it comes and writes it as a string: a symbol is never found, and then takes the place of what was
there; a string that is found has its value added, which an array can be and a string cannot. -/

namespace RubyOAuth.EmHttpRequest

open Bytes

/-! ## What is given -/

/-- The entries of the hashes, in the order of the fold. -/
def allEntries (extraParams : List (Option KeyedParams)) : List (Key × Value) :=
  (extraParams.filterMap id).flatMap OrderedHash.entries

/-- The names that are given, as strings. -/
def givenNames (es : List (Key × Value)) : List Bytes := es.map (fun e => e.1.toS)

/-- Every value that is given for a name. -/
def givenValues (n : Bytes) (es : List (Key × Value)) : List Value :=
  es.flatMap (fun e => if e.1.toS = n then flattenValue e.2 else [])

/-- A string, or an array of strings. -/
def IsText : Value → Prop
  | .str _ => True
  | .arr vs => ∀ v ∈ vs, ∃ s, v = .str s
  | _ => False

theorem givenValues_append (n : Bytes) (es fs : List (Key × Value)) :
    givenValues n (es ++ fs) = givenValues n es ++ givenValues n fs := List.flatMap_append

theorem givenValues_singleton (n : Bytes) (e : Key × Value) :
    givenValues n [e] = if e.1.toS = n then flattenValue e.2 else [] := by
  simp [givenValues]

theorem givenValues_of_not_mem {n : Bytes} {es : List (Key × Value)} (h : n ∉ givenNames es) :
    givenValues n es = [] := by
  rw [givenValues, List.flatMap_eq_nil_iff]
  intro e he
  exact if_neg fun hn => h (List.mem_map.2 ⟨e, he, hn⟩)

/-- An array of strings is flat. -/
theorem flattenValue_of_isText {vs : List Value} (h : IsText (.arr vs)) :
    flattenValue (.arr vs) = vs := by
  rw [flattenValue]
  induction vs with
  | nil => rfl
  | cons v rest ih =>
      obtain ⟨s, rfl⟩ := h v List.mem_cons_self
      rw [flattenValues, ih (fun w hw => h w (List.mem_cons_of_mem _ hw))]
      rfl

/-! ## One entry -/

/-- The entry adds to what is there: its name is new, or it is a string key with an array, or no value
    is there yet for a key of another kind to overwrite. -/
def AddsTo (pre : List (Key × Value)) (e : Key × Value) : Prop :=
  e.1.toS ∈ givenNames pre →
    match e.1 with
    | .str _ => ∃ vs, e.2 = .arr vs
    | _ => givenValues e.1.toS pre = []

/-- The hash holds what the entries gave. -/
def Holds (pre : List (Key × Value)) (params : OrderedHash Bytes (List Value)) : Prop :=
  ∀ n, params.lookup n = if n ∈ givenNames pre then some (givenValues n pre) else none

variable {pre : List (Key × Value)} {params params' : OrderedHash Bytes (List Value)}
  {e : Key × Value}

/-- The hash with the values of one name as given. -/
theorem holds_set (h : Holds pre params) {vs : List Value}
    (hvs : vs = givenValues e.1.toS (pre ++ [e])) :
    Holds (pre ++ [e]) (params.set e.1.toS vs) := by
  intro n
  rw [OrderedHash.lookup_set, h n]
  have hmem : n ∈ givenNames (pre ++ [e]) ↔ n ∈ givenNames pre ∨ n = e.1.toS := by
    simp [givenNames]
  by_cases hn : n = e.1.toS
  · rw [if_pos hn, if_pos (hmem.2 (Or.inr hn)), hvs, hn]
  · have hother : givenValues n [e] = [] := by
      rw [givenValues_singleton, if_neg (fun he => hn he.symm)]
    rw [if_neg hn, givenValues_append, hother, List.append_nil]
    simp only [hmem, hn, or_false]

/-- What an entry does: it is written, or its array is added to the values of a string key. -/
theorem addEntry_cases (h : addEntry params e = .ok params') :
    params' = params.set e.1.toS (flattenValue e.2) ∨
      ∃ values vs, params.lookup e.1.toS = some values ∧ e.2 = .arr vs ∧
        params' = params.set e.1.toS (values ++ vs) := by
  obtain ⟨k, v⟩ := e
  cases k with
  | str s =>
      cases hlook : params.lookup s with
      | none =>
          simp only [addEntry, hlook] at h
          exact Or.inl (Except.ok.inj h).symm
      | some values =>
          simp only [addEntry, hlook] at h
          cases v with
          | arr vs => exact Or.inr ⟨values, vs, hlook, rfl, (Except.ok.inj h).symm⟩
          | _ => exact absurd h (by simp)
  | nil => exact Or.inl (Except.ok.inj h).symm
  | sym s => exact Or.inl (Except.ok.inj h).symm

/-- **Adding an entry keeps everything.** -/
theorem addEntry_holds (h : Holds pre params) (hadds : AddsTo pre e) (ht : IsText e.2) :
    ∃ params', addEntry params e = .ok params' ∧ Holds (pre ++ [e]) params' := by
  obtain ⟨k, v⟩ := e
  have hgiven : givenValues k.toS (pre ++ [(k, v)]) = givenValues k.toS pre ++ flattenValue v := by
    rw [givenValues_append, givenValues_singleton, if_pos rfl]
  -- a value that is written is all that is given
  have hwrite : givenValues k.toS pre = [] →
      Holds (pre ++ [(k, v)]) (params.set k.toS (flattenValue v)) := by
    intro hnone
    exact holds_set h (by rw [hgiven, hnone, List.nil_append])
  by_cases hmem : k.toS ∈ givenNames pre
  · have hadds := hadds hmem
    cases k with
    | str s =>
        obtain ⟨vs, rfl⟩ := hadds
        have hlook : params.lookup s = some (givenValues s pre) := by
          rw [h s]
          exact if_pos hmem
        refine ⟨params.set s (givenValues s pre ++ vs), ?_, holds_set (e := (.str s, .arr vs)) h ?_⟩
        · simp only [addEntry, hlook]
          rfl
        · rw [hgiven, flattenValue_of_isText ht]
          rfl
    | nil => exact ⟨_, rfl, hwrite hadds⟩
    | sym s => exact ⟨_, rfl, hwrite hadds⟩
  · have hfree := hwrite (givenValues_of_not_mem hmem)
    cases k with
    | str s =>
        have hlook : params.lookup s = none := by
          rw [h s]
          exact if_neg hmem
        refine ⟨params.set s (flattenValue v), ?_, hfree⟩
        simp only [addEntry, hlook]
        rfl
    | nil => exact ⟨_, rfl, hfree⟩
    | sym s => exact ⟨_, rfl, hfree⟩

/-- An entry adds no more values than it gives. -/
theorem length_addEntry (ht : IsText e.2) (h : addEntry params e = .ok params') (n : Bytes) :
    ((params'.lookup n).getD []).length
      ≤ ((params.lookup n).getD []).length + (givenValues n [e]).length := by
  have hset : ∀ vs : List Value,
      vs.length ≤ ((params.lookup e.1.toS).getD []).length + (flattenValue e.2).length →
      (((params.set e.1.toS vs).lookup n).getD []).length
        ≤ ((params.lookup n).getD []).length + (givenValues n [e]).length := by
    intro vs hle
    rw [OrderedHash.lookup_set, givenValues_singleton]
    by_cases hn : n = e.1.toS
    · subst hn
      simpa using hle
    · simp [hn]
  rcases addEntry_cases h with rfl | ⟨values, vs, hlook, harr, rfl⟩
  · exact hset _ (Nat.le_add_left _ _)
  · refine hset _ ?_
    rw [harr] at ht ⊢
    rw [List.length_append, flattenValue_of_isText ht, hlook, Option.getD_some]

/-! ## The fold -/

/-- Every entry adds to those before it. -/
def NothingOverwritten (es : List (Key × Value)) : Prop :=
  ∀ pre e post, es = pre ++ e :: post → AddsTo pre e

theorem foldlM_holds {es : List (Key × Value)} (ht : ∀ e ∈ es, IsText e.2)
    (hadds : ∀ front e post, es = front ++ e :: post → AddsTo (pre ++ front) e)
    (h : Holds pre params) :
    ∃ merged, es.foldlM addEntry params = .ok merged ∧ Holds (pre ++ es) merged := by
  induction es generalizing pre params with
  | nil => exact ⟨params, rfl, by rwa [List.append_nil]⟩
  | cons e rest ih =>
      have hfirst : AddsTo pre e := by simpa using hadds [] e rest rfl
      obtain ⟨params', hstep, h'⟩ := addEntry_holds h hfirst (ht e List.mem_cons_self)
      have hrest : ∀ front f post, rest = front ++ f :: post → AddsTo (pre ++ [e] ++ front) f := by
        rintro front f post rfl
        have := hadds (e :: front) f post rfl
        rwa [List.append_assoc, List.singleton_append]
      obtain ⟨merged, hfold, hmerged⟩ :=
        ih (fun f hf => ht f (List.mem_cons_of_mem _ hf)) hrest h'
      refine ⟨merged, ?_, ?_⟩
      · rw [List.foldlM_cons, hstep]
        exact hfold
      · rwa [List.append_assoc, List.singleton_append] at hmerged

/-- A value that is lost is not given back. -/
theorem length_foldlM {es : List (Key × Value)} (ht : ∀ e ∈ es, IsText e.2)
    (h : es.foldlM addEntry params = .ok params') (n : Bytes) :
    ((params'.lookup n).getD []).length
      ≤ ((params.lookup n).getD []).length + (givenValues n es).length := by
  induction es generalizing params with
  | nil =>
      rw [← Except.ok.inj h]
      exact Nat.le_add_right _ _
  | cons e rest ih =>
      rw [List.foldlM_cons] at h
      cases hstep : addEntry params e with
      | error err =>
          rw [hstep] at h
          exact absurd h (by simp [bind, Except.bind])
      | ok next =>
          rw [hstep] at h
          have hone := length_addEntry (ht e List.mem_cons_self) hstep n
          have hrest := ih (fun f hf => ht f (List.mem_cons_of_mem _ hf)) h
          have hgiven : givenValues n (e :: rest) = givenValues n [e] ++ givenValues n rest :=
            givenValues_append n [e] rest
          rw [hgiven, List.length_append]
          omega

/-- Where the fold ends with all values, every entry added to what was there. -/
theorem addsTo_of_foldlM {es : List (Key × Value)} (ht : ∀ e ∈ es, IsText e.2)
    (h : Holds pre params) {merged : OrderedHash Bytes (List Value)}
    (hfold : es.foldlM addEntry params = .ok merged)
    (hall : ∀ n, (givenValues n (pre ++ es)).length ≤ ((merged.lookup n).getD []).length) :
    ∀ front e post, es = front ++ e :: post → AddsTo (pre ++ front) e := by
  induction es generalizing pre params with
  | nil =>
      intro front e post heq
      simp at heq
  | cons e rest ih =>
      have ht' : ∀ f ∈ rest, IsText f.2 := fun f hf => ht f (List.mem_cons_of_mem _ hf)
      rw [List.foldlM_cons] at hfold
      have hfirst : AddsTo pre e := by
        intro hmem
        obtain ⟨k, v⟩ := e
        -- what a key of another kind overwrites is missing at the end
        have hlost : addEntry params (k, v) = .ok (params.set k.toS (flattenValue v)) →
            givenValues k.toS pre = [] := by
          intro hstep
          rw [hstep] at hfold
          have hlen := length_foldlM ht' hfold k.toS
          have hend := hall k.toS
          have hgiven : givenValues k.toS (pre ++ (k, v) :: rest)
              = givenValues k.toS pre ++ (flattenValue v ++ givenValues k.toS rest) := by
            rw [givenValues_append, show (k, v) :: rest = [(k, v)] ++ rest from rfl,
              givenValues_append, givenValues_singleton, if_pos rfl]
          rw [hgiven, List.length_append, List.length_append] at hend
          rw [OrderedHash.lookup_set, if_pos rfl, Option.getD_some] at hlen
          exact List.length_eq_zero_iff.1 (by omega)
        cases k with
        | str s =>
            have hlook : params.lookup s = some (givenValues s pre) := by
              rw [h s]
              exact if_pos hmem
            cases v with
            | arr vs => exact ⟨vs, rfl⟩
            | str t => simp [addEntry, hlook, bind, Except.bind] at hfold
            | nil => exact (ht _ List.mem_cons_self).elim
            | bool b => exact (ht _ List.mem_cons_self).elim
            | hash es => exact (ht _ List.mem_cons_self).elim
        | nil => exact hlost rfl
        | sym s => exact hlost rfl
      obtain ⟨params', hstep, h'⟩ := addEntry_holds h hfirst (ht e List.mem_cons_self)
      rw [hstep] at hfold
      have hrest := ih ht' h' hfold (by simpa using hall)
      intro front f post heq
      cases front with
      | nil =>
          obtain ⟨rfl, -⟩ := List.cons.inj heq
          simpa using hfirst
      | cons g front =>
          obtain ⟨rfl, htail⟩ := List.cons.inj heq
          have hnext := hrest front f post htail
          rwa [List.append_assoc, List.singleton_append] at hnext

/-! ## Merging -/

/-- `merged_parameters` returns, and maps each name to the values given for it in all the hashes. -/
def MergesWithoutLoss (extraParams : List (Option KeyedParams)) : Prop :=
  ∃ merged, mergedParameters OrderedHash.empty extraParams = .ok merged ∧
    ∀ n ∈ givenNames (allEntries extraParams), ∃ vs, merged.lookup n = some vs ∧
      vs.Perm (givenValues n (allEntries extraParams))

theorem mergesWithoutLoss_of_nothingOverwritten {extraParams : List (Option KeyedParams)}
    (ht : ∀ e ∈ allEntries extraParams, IsText e.2)
    (h : NothingOverwritten (allEntries extraParams)) : MergesWithoutLoss extraParams := by
  have hadds : ∀ front e post, allEntries extraParams = front ++ e :: post →
      AddsTo ([] ++ front) e := h
  have hstart : Holds [] OrderedHash.empty := fun n => rfl
  obtain ⟨merged, hfold, hmerged⟩ := foldlM_holds ht hadds hstart
  refine ⟨merged, hfold, fun n hn => ⟨givenValues n (allEntries extraParams), ?_, .refl _⟩⟩
  rw [hmerged n, List.nil_append, if_pos hn]

/-- **`merged_parameters` merges without loss exactly where no entry overwrites or fails**: a name given
    again comes as a string with an array, or as a symbol while no value is there. -/
theorem mergesWithoutLoss_iff (extraParams : List (Option KeyedParams))
    (ht : ∀ e ∈ allEntries extraParams, IsText e.2) :
    MergesWithoutLoss extraParams ↔ NothingOverwritten (allEntries extraParams) := by
  constructor
  · rintro ⟨merged, hfold, hall⟩
    have hlen : ∀ n, (givenValues n ([] ++ allEntries extraParams)).length
        ≤ ((merged.lookup n).getD []).length := by
      intro n
      rw [List.nil_append]
      by_cases hn : n ∈ givenNames (allEntries extraParams)
      · obtain ⟨vs, hvs, hperm⟩ := hall n hn
        rw [hvs, Option.getD_some, hperm.length_eq]
      · rw [givenValues_of_not_mem hn]
        exact Nat.zero_le _
    exact addsTo_of_foldlM ht (fun n => rfl) hfold hlen
  · exact mergesWithoutLoss_of_nothingOverwritten ht

/-- A form with one field. -/
def oneField : KeyedParams := cgiParams (ascii "a=1")

/-- The same name in the options, with an array. -/
def arrayOption : KeyedParams := OrderedHash.ofList [(.str (ascii "a"), .arr [.str (ascii "2")])]

/-- The same name in the options, with a string. -/
def stringOption : KeyedParams := OrderedHash.ofList [(.str (ascii "a"), .str (ascii "2"))]

/-- An array in the options joins the form's value. -/
theorem oneField_arrayOption_merges :
    MergesWithoutLoss [some oneField, none, some arrayOption]
      ↔ NothingOverwritten (allEntries [some oneField, none, some arrayOption]) := by
  refine mergesWithoutLoss_iff _ ?_
  have hentries : allEntries [some oneField, none, some arrayOption]
      = [(.str (ascii "a"), .arr [.str (ascii "1")]), (.str (ascii "a"), .arr [.str (ascii "2")])] :=
    rfl
  rw [hentries]
  simp [IsText]

/-- A string in the options cannot be added to the form's array. -/
theorem oneField_stringOption_not_merged :
    ¬ MergesWithoutLoss [some oneField, none, some stringOption] := by
  rintro ⟨merged, hmerged, -⟩
  have hraise : mergedParameters OrderedHash.empty [some oneField, none, some stringOption]
      = .error .typeError := rfl
  rw [hraise] at hmerged
  exact absurd hmerged (by simp)

/-- Arrays under string keys always merge, as `CGI.parse` makes them of a body and of a query. -/
theorem nothingOverwritten_of_arrays {es : List (Key × Value)}
    (h : ∀ e ∈ es, ∃ s vs, e = (.str s, .arr vs)) : NothingOverwritten es := by
  intro pre e post heq _
  obtain ⟨s, vs, rfl⟩ := h e (heq ▸ List.mem_append_right _ List.mem_cons_self)
  exact ⟨vs, rfl⟩

/-- `CGI.parse` gives arrays of strings under string keys. -/
theorem mem_cgiParams {q : Bytes} {e : Key × Value} (h : e ∈ (cgiParams q).entries) :
    ∃ (s : Bytes) (vs : List Bytes), e = (.str s, .arr (vs.map Value.str)) := by
  simp only [cgiParams, Params.keyed, OrderedHash.mapValues, List.mem_map, Prod.exists] at h
  obtain ⟨s, _, ⟨t, vs, _, heq⟩, rfl⟩ := h
  obtain ⟨rfl, rfl⟩ := Prod.mk.inj heq
  exact ⟨t, vs, rfl⟩

/-- **Without parameters in the options, body and text query merge.** -/
theorem allParameters_text (r : EmHttpRequest) {query : Bytes} (hq : r.query = .text query) :
    MergesWithoutLoss [some r.postParameters, some r.queryParameters, none] := by
  have hentry : ∀ e ∈ allEntries [some r.postParameters, some r.queryParameters, none],
      ∃ (s : Bytes) (vs : List Bytes), e = (.str s, .arr (vs.map Value.str)) := by
    intro e he
    rcases List.mem_append.1 (show e ∈ r.postParameters.entries ++ (r.queryParameters.entries ++ [])
      from he) with he | he
    · rw [postParameters] at he
      split at he
      · exact mem_cgiParams he
      · exact absurd he List.not_mem_nil
    · rw [List.append_nil, queryParameters, hq] at he
      obtain ⟨k, v⟩ := e
      rw [OrderedHash.mem_entries, OrderedHash.lookup_merge] at he
      rcases Option.or_eq_some_iff.1 he with he | ⟨_, he⟩
      · exact mem_cgiParams (OrderedHash.mem_entries.2 he)
      · exact mem_cgiParams (OrderedHash.mem_entries.2 he)
  refine mergesWithoutLoss_of_nothingOverwritten ?_ (nothingOverwritten_of_arrays ?_)
  · intro e he
    obtain ⟨s, vs, rfl⟩ := hentry e he
    intro v hv
    obtain ⟨t, _, rfl⟩ := List.mem_map.1 hv
    exact ⟨t, rfl⟩
  · intro e he
    obtain ⟨s, vs, rfl⟩ := hentry e he
    exact ⟨s, _, rfl⟩

end RubyOAuth.EmHttpRequest
