import RubyOAuth.Proofs.Nested

set_option autoImplicit false

/-! # Parameters in another order

Client and server collect the parameters of a request in different orders. `normalize` sorts wherever
an order could show: at the top by name, in an array of strings by value, and below that by segment.
So it gives the same string for trees that differ in the order of entries and elements only. -/

namespace RubyOAuth

open Bytes

/-! ## Reordered values -/

mutual

/-- The same value but for the order of entries and elements, at any level. -/
inductive Reordered : Value → Value → Prop
  | refl (v : Value) : Reordered v v
  | arr {vs ws us : List Value} (h : ReorderedElements vs ws) (hperm : ws.Perm us) :
      Reordered (.arr vs) (.arr us)
  | hash {es fs gs : List (Bytes × Value)} (h : ReorderedEntries es fs) (hperm : fs.Perm gs) :
      Reordered (.hash es) (.hash gs)

/-- Elements that differ in the order inside them. -/
inductive ReorderedElements : List Value → List Value → Prop
  | nil : ReorderedElements [] []
  | cons {v w : Value} {vs ws : List Value} (h : Reordered v w) (hs : ReorderedElements vs ws) :
      ReorderedElements (v :: vs) (w :: ws)

/-- Entries with the same keys whose values differ in the order inside them. -/
inductive ReorderedEntries : List (Bytes × Value) → List (Bytes × Value) → Prop
  | nil : ReorderedEntries [] []
  | cons (k : Bytes) {v w : Value} {es fs : List (Bytes × Value)} (h : Reordered v w)
      (hs : ReorderedEntries es fs) : ReorderedEntries ((k, v) :: es) ((k, w) :: fs)

end

/-- The leaves of an array are those of its elements, one after the other. -/
theorem arrayLeaves_eq_flatMap (rt : Runtime) (name : Bytes) (vs : List Value) :
    arrayLeaves rt name vs = vs.flatMap (leaves rt (name ++ ascii "[]")) := by
  induction vs with
  | nil => rfl
  | cons v rest ih => rw [arrayLeaves, ih, List.flatMap_cons]

theorem hashLeaves_eq_flatMap (rt : Runtime) (name : Bytes) (es : List (Bytes × Value)) :
    hashLeaves rt name es
      = es.flatMap (fun e => leaves rt (name ++ [lbracket] ++ e.1 ++ [rbracket]) e.2) := by
  induction es with
  | nil => rfl
  | cons e rest ih =>
      obtain ⟨k, v⟩ := e
      rw [hashLeaves, ih, List.flatMap_cons]

mutual

/-- Reordered values have the same leaves, in some order. -/
theorem leaves_reordered (rt : Runtime) {v w : Value} (h : Reordered v w) (name : Bytes) :
    (leaves rt name v).Perm (leaves rt name w) := by
  cases h with
  | refl => exact List.Perm.refl _
  | arr h hperm =>
      rw [leaves_arr, leaves_arr]
      refine (arrayLeaves_reordered rt h name).trans ?_
      rw [arrayLeaves_eq_flatMap, arrayLeaves_eq_flatMap]
      exact hperm.flatMap_right _
  | hash h hperm =>
      rw [leaves_hash, leaves_hash]
      refine (hashLeaves_reordered rt h name).trans ?_
      rw [hashLeaves_eq_flatMap, hashLeaves_eq_flatMap]
      exact hperm.flatMap_right _

theorem arrayLeaves_reordered (rt : Runtime) {vs ws : List Value} (h : ReorderedElements vs ws)
    (name : Bytes) : (arrayLeaves rt name vs).Perm (arrayLeaves rt name ws) := by
  cases h with
  | nil => exact List.Perm.refl _
  | cons h hs =>
      rw [arrayLeaves, arrayLeaves]
      exact (leaves_reordered rt h _).append (arrayLeaves_reordered rt hs name)

theorem hashLeaves_reordered (rt : Runtime) {es fs : List (Bytes × Value)}
    (h : ReorderedEntries es fs) (name : Bytes) :
    (hashLeaves rt name es).Perm (hashLeaves rt name fs) := by
  cases h with
  | nil => exact List.Perm.refl _
  | cons k h hs =>
      rw [hashLeaves, hashLeaves]
      exact (leaves_reordered rt h _).append (hashLeaves_reordered rt hs name)

end

theorem normalizeNestedQuery_reordered (rt : Runtime) {v w : Value} (h : Reordered v w)
    (name : Bytes) :
    normalizeNestedQuery rt (some name) v = normalizeNestedQuery rt (some name) w := by
  rw [normalizeNestedQuery_eq, normalizeNestedQuery_eq, sortSegments_eq_iff]
  exact (leaves_reordered rt h name).map _

/-! ## Reordered parameters -/

theorem Reordered.isHash_eq {v w : Value} (h : Reordered v w) : v.isHash = w.isHash := by
  cases h <;> rfl

theorem ReorderedElements.isHash {vs ws : List Value} (h : ReorderedElements vs ws)
    (hvs : ∀ v ∈ vs, v.isHash = true) : ∀ w ∈ ws, w.isHash = true := by
  induction vs generalizing ws with
  | nil =>
      cases h with
      | nil => exact hvs
  | cons v rest ih =>
      cases h with
      | cons h hs =>
          rw [List.forall_mem_cons] at hvs
          exact List.forall_mem_cons.2 ⟨h.isHash_eq ▸ hvs.1, ih hs hvs.2⟩

/-- Strings have no order inside them. -/
theorem ReorderedElements.eq_of_strings {ss : List Bytes} {ws : List Value}
    (h : ReorderedElements (ss.map Value.str) ws) : ws = ss.map Value.str := by
  induction ss generalizing ws with
  | nil =>
      cases h with
      | nil => rfl
  | cons s rest ih =>
      cases h with
      | cons h hs =>
          cases h with
          | refl => rw [ih hs, List.map_cons]

theorem normalizeEntry_hashes (rt : Runtime) (k : Bytes) {vs : List Value} (hne : vs ≠ [])
    (h : ∀ v ∈ vs, v.isHash = true) :
    normalizeEntry rt k (.arr vs) = .ok (normalizeNestedQuery rt (some k) (.arr vs)) := by
  cases vs with
  | nil => exact absurd rfl hne
  | cons v rest => simp [normalizeEntry, h v List.mem_cons_self]

/-- A parameter with an array of strings or of hashes has the same segments in any order. -/
theorem normalizeEntry_reordered (rt : Runtime) (k : Bytes) {v w : Value} (h : Reordered v w)
    (hu : ∀ vs, v = .arr vs → (∀ u ∈ vs, ∃ s, u = .str s) ∨ ∀ u ∈ vs, u.isHash = true) :
    normalizeEntry rt k v = normalizeEntry rt k w := by
  cases h with
  | refl => rfl
  | @hash es fs gs h hperm =>
      show Except.ok _ = Except.ok _
      rw [normalizeNestedQuery_reordered rt (.hash h hperm)]
  | @arr vs ws us h hperm =>
      rcases hu vs rfl with hs | hs
      · obtain ⟨ss, rfl⟩ := exists_map_str hs
        rw [h.eq_of_strings] at hperm
        have hus : ∀ u ∈ us, ∃ s, u = .str s := by
          intro u hu
          obtain ⟨s, -, rfl⟩ := List.mem_map.1 (hperm.mem_iff.2 hu)
          exact ⟨s, rfl⟩
        obtain ⟨ts, rfl⟩ := exists_map_str hus
        have hstr : Function.Injective Value.str := fun _ _ => Value.str.inj
        have hperm' : ss.Perm ts := (List.map_perm_map_iff hstr).1 hperm
        by_cases hnil : ss = []
        · rw [hnil] at hperm' ⊢
          rw [hperm'.nil_eq]
        · have hnil' : ts ≠ [] := by
            rintro rfl
            exact hnil hperm'.eq_nil
          rw [normalizeEntry_flat (flatValues_arr_map hnil),
            normalizeEntry_flat (flatValues_arr_map hnil'),
            (insertionSort_eq_iff fun _ _ => Std.le_antisymm).2 hperm']
      · have hus : ∀ u ∈ us, u.isHash = true := fun u hu => h.isHash hs u (hperm.mem_iff.2 hu)
        cases h with
        | nil => rw [hperm.nil_eq]
        | @cons v w vs ws hv hvs =>
            have hne : us ≠ [] := by
              rintro rfl
              exact absurd hperm.eq_nil (List.cons_ne_nil w ws)
            rw [normalizeEntry_hashes rt k (List.cons_ne_nil v vs) hs,
              normalizeEntry_hashes rt k hne hus,
              normalizeNestedQuery_reordered rt (.arr (.cons hv hvs) hperm)]

/-- Reordered entries are found under the same keys. -/
theorem ReorderedEntries.findEntry {es fs : List (Bytes × Value)} (h : ReorderedEntries es fs)
    (k : Bytes) :
    (OrderedHash.findEntry k es = none ∧ OrderedHash.findEntry k fs = none) ∨
      ∃ v w, OrderedHash.findEntry k es = some v ∧ OrderedHash.findEntry k fs = some w ∧
        Reordered v w := by
  induction es generalizing fs with
  | nil =>
      cases h with
      | nil => exact .inl ⟨rfl, rfl⟩
  | cons e rest ih =>
      cases h with
      | @cons j v w _ fs h hs =>
          rw [OrderedHash.findEntry, OrderedHash.findEntry]
          split
          · exact .inr ⟨v, w, rfl, rfl, h⟩
          · exact ih hs

theorem ReorderedEntries.keys_eq {es fs : List (Bytes × Value)} (h : ReorderedEntries es fs) :
    es.map Prod.fst = fs.map Prod.fst := by
  induction es generalizing fs with
  | nil =>
      cases h with
      | nil => rfl
  | cons e rest ih =>
      cases h with
      | cons k h hs => rw [List.map_cons, List.map_cons, ih hs]

theorem lookup_reordered {p q : Params} (h : Reordered (.hash p.entries) (.hash q.entries))
    (k : Bytes) :
    (p.lookup k = none ∧ q.lookup k = none) ∨
      ∃ v w, p.lookup k = some v ∧ q.lookup k = some w ∧ Reordered v w := by
  generalize hes : p.entries = es at h
  generalize hgs : q.entries = gs at h
  cases h with
  | refl =>
      have hsame : p.lookup k = q.lookup k := by
        rw [OrderedHash.lookup, OrderedHash.lookup, hes, hgs]
      cases hq : q.lookup k with
      | none => exact .inl ⟨hsame.trans hq, rfl⟩
      | some w => exact .inr ⟨w, w, hsame.trans hq, rfl, .refl w⟩
  | @hash es fs gs h hperm =>
      have hn : (fs.map Prod.fst).Nodup := by
        rw [← h.keys_eq, ← hes]
        exact p.nodup
      have hsame : q.lookup k = OrderedHash.findEntry k fs := by
        apply Option.ext
        intro w
        rw [← OrderedHash.mem_entries, hgs, ← hperm.mem_iff, OrderedHash.findEntry_eq_some hn]
      rw [hsame, OrderedHash.lookup, hes]
      exact h.findEntry k

/-- **Normalization does not depend on any order.** -/
theorem normalize_reordered (rt : Runtime) (p q : Params) (hu : UniformArrays p)
    (h : Reordered (.hash p.entries) (.hash q.entries)) :
    ∃ text, normalize rt p = .ok text ∧ normalize rt q = .ok text := by
  have hsame : normalize rt p = normalize rt q := by
    refine normalize_congr_entries rt fun k => ?_
    rcases lookup_reordered h k with ⟨hp, hq⟩ | ⟨v, w, hp, hq, hvw⟩
    · rw [hp, hq]
    · rw [hp, hq, Option.map_some, Option.map_some,
        normalizeEntry_reordered rt k hvw (hu (k, v) (OrderedHash.mem_entries.2 hp))]
  obtain ⟨ss, hss, -⟩ := listing_leaves rt hu
  have htext : normalize rt p = .ok (joinWith ampersand ss) := by
    rw [normalize_eq_listing, hss]
    rfl
  exact ⟨_, htext, hsame ▸ htext⟩

/-- A hash with an array inside, before a string. -/
def earlyParameters : Params :=
  OrderedHash.ofList
    [(ascii "a", .hash [(ascii "x", .str (ascii "1")),
        (ascii "y", .arr [.str (ascii "2"), .str (ascii "3")])]),
      (ascii "b", .str (ascii "4"))]

/-- The same with every order turned around. -/
def lateParameters : Params :=
  OrderedHash.ofList
    [(ascii "b", .str (ascii "4")),
      (ascii "a", .hash [(ascii "y", .arr [.str (ascii "3"), .str (ascii "2")]),
        (ascii "x", .str (ascii "1"))])]

theorem earlyParameters_normalize :
    ∃ text, normalize echoRuntime earlyParameters = .ok text ∧
      normalize echoRuntime lateParameters = .ok text :=
  normalize_reordered echoRuntime earlyParameters lateParameters
    (by
      intro e he vs hvs
      have hmem : e ∈ [(ascii "a", Value.hash [(ascii "x", .str (ascii "1")),
          (ascii "y", .arr [.str (ascii "2"), .str (ascii "3")])]),
          (ascii "b", .str (ascii "4"))] := he
      rcases List.mem_cons.1 hmem with rfl | hmem
      · simp at hvs
      · rw [List.mem_singleton.1 hmem] at hvs
        simp at hvs)
    (by
      have hinner : Reordered (.arr [.str (ascii "2"), .str (ascii "3")])
          (.arr [.str (ascii "3"), .str (ascii "2")]) :=
        .arr (.cons (.refl _) (.cons (.refl _) .nil)) (List.Perm.swap _ _ _)
      have hvalue := Reordered.hash
        (.cons (ascii "x") (.refl (.str (ascii "1"))) (.cons (ascii "y") hinner .nil))
        (List.Perm.swap _ _ _)
      exact .hash (.cons (ascii "a") hvalue (.cons (ascii "b") (.refl (.str (ascii "4"))) .nil))
        (List.Perm.swap _ _ _))

end RubyOAuth
