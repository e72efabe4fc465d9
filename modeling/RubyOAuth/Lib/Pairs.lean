import RubyOAuth.Lib.Bytes

set_option autoImplicit false

/-! # Joined lists and the canonical order of pairs

Two facts carry every statement about delimited text:

* a list of non-empty parts free of the separator is recovered from their join (`joinWith_inj`), and
* two lists of pairs have the same sorted form exactly when one is a permutation of the other
  (`sortPairs_eq_iff`), so sorting is a canonical form of a multiset of pairs.

`PairLe` is the order by first component, then by second, over any two linear orders. -/

/-! ## Joining with a separator -/

/-- The parts with `sep` between them. -/
def joinWith (sep : UInt8) (parts : List Bytes) : Bytes := [sep].intercalate parts

@[simp] theorem joinWith_nil (sep : UInt8) : joinWith sep [] = [] := rfl

@[simp] theorem joinWith_singleton (sep : UInt8) (p : Bytes) : joinWith sep [p] = p := by
  simp [joinWith]

theorem joinWith_cons (sep : UInt8) (p : Bytes) {ps : List Bytes} (h : ps ≠ []) :
    joinWith sep (p :: ps) = p ++ sep :: joinWith sep ps := by
  simp [joinWith, List.intercalate_cons_of_ne_nil h]

theorem mem_joinWith {sep b : UInt8} {ps : List Bytes} (h : b ∈ joinWith sep ps) :
    b = sep ∨ ∃ p ∈ ps, b ∈ p := by
  induction ps with
  | nil => simp at h
  | cons p rest ih =>
      by_cases hr : rest = []
      · subst hr
        rw [joinWith_singleton] at h
        exact .inr ⟨p, List.mem_cons_self, h⟩
      · rw [joinWith_cons sep p hr, List.mem_append, List.mem_cons] at h
        rcases h with h | h | h
        · exact .inr ⟨p, List.mem_cons_self, h⟩
        · exact .inl h
        · rcases ih h with h | ⟨q, hq, h⟩
          · exact .inl h
          · exact .inr ⟨q, List.mem_cons_of_mem p hq, h⟩

/-- Splitting undoes joining. -/
theorem splitOn_joinWith {sep : UInt8} {ps : List Bytes} (h : ∀ p ∈ ps, sep ∉ p) (hne : ps ≠ []) :
    (joinWith sep ps).splitOn sep = ps := List.splitOn_intercalate sep h hne

theorem joinWith_eq_nil {sep : UInt8} {ps : List Bytes} (h : [] ∉ ps) :
    joinWith sep ps = [] ↔ ps = [] := by
  constructor
  · intro hj
    cases ps with
    | nil => rfl
    | cons p rest =>
        rw [List.mem_cons, not_or] at h
        by_cases hr : rest = []
        · subst hr
          rw [joinWith_singleton] at hj
          exact absurd hj.symm h.1
        · rw [joinWith_cons sep p hr] at hj
          simp at hj
  · rintro rfl; rfl

/-- **Joins of separator-free, non-empty parts are equal only for equal parts.** -/
theorem joinWith_inj {sep : UInt8} {ps qs : List Bytes} (hp : ∀ p ∈ ps, sep ∉ p)
    (hq : ∀ q ∈ qs, sep ∉ q) (hpn : [] ∉ ps) (hqn : [] ∉ qs) :
    joinWith sep ps = joinWith sep qs ↔ ps = qs := by
  constructor
  · intro h
    by_cases hps : ps = []
    · subst hps
      rw [joinWith_nil] at h
      exact ((joinWith_eq_nil hqn).1 h.symm).symm
    · by_cases hqs : qs = []
      · subst hqs
        exact (joinWith_eq_nil hpn).1 h
      · rw [← splitOn_joinWith hp hps, ← splitOn_joinWith hq hqs, h]
  · rintro rfl; rfl

/-- Joins of the same number of separator-free parts, one of them at least. -/
theorem joinWith_inj_of_ne {sep : UInt8} {ps qs : List Bytes} (hp : ∀ p ∈ ps, sep ∉ p)
    (hq : ∀ q ∈ qs, sep ∉ q) (hps : ps ≠ []) (hqs : qs ≠ []) :
    joinWith sep ps = joinWith sep qs ↔ ps = qs := by
  constructor
  · intro h
    rw [← splitOn_joinWith hp hps, ← splitOn_joinWith hq hqs, h]
  · rintro rfl; rfl

theorem joinWith_append (sep : UInt8) {ps qs : List Bytes} (hp : ps ≠ []) (hq : qs ≠ []) :
    joinWith sep (ps ++ qs) = joinWith sep ps ++ sep :: joinWith sep qs := by
  induction ps with
  | nil => exact absurd rfl hp
  | cons p rest ih =>
      by_cases hr : rest = []
      · subst hr
        rw [List.singleton_append, joinWith_cons sep p hq, joinWith_singleton]
      · have hne : rest ++ qs ≠ [] := by simp [hr]
        rw [List.cons_append, joinWith_cons sep p hne, ih hr, joinWith_cons sep p hr]
        simp

/-- The bytes of the parts, and one for each. -/
def partsSize (ps : List Bytes) : Nat := (ps.map (fun p => p.length + 1)).sum

theorem partsSize_cons (p : Bytes) (ps : List Bytes) :
    partsSize (p :: ps) = p.length + 1 + partsSize ps := by
  rw [partsSize, List.map_cons, List.sum_cons, partsSize]

theorem partsSize_append (ps qs : List Bytes) :
    partsSize (ps ++ qs) = partsSize ps + partsSize qs := by
  rw [partsSize, List.map_append, List.sum_append, partsSize, partsSize]

theorem partsSize_perm {ps qs : List Bytes} (h : ps.Perm qs) : partsSize ps = partsSize qs :=
  (h.map _).sum_eq

/-- A join is one byte shorter. -/
theorem length_joinWith (sep : UInt8) {ps : List Bytes} (h : ps ≠ []) :
    (joinWith sep ps).length + 1 = partsSize ps := by
  induction ps with
  | nil => exact absurd rfl h
  | cons p rest ih =>
      by_cases hr : rest = []
      · subst hr
        simp [partsSize]
      · have hrest := ih hr
        rw [joinWith_cons sep p hr, List.length_append, List.length_cons, partsSize_cons]
        omega

/-- Joining the joins of non-empty groups joins all their parts. -/
theorem joinWith_map_joinWith (sep : UInt8) {gs : List (List Bytes)} (h : [] ∉ gs) :
    joinWith sep (gs.map (joinWith sep)) = joinWith sep gs.flatten := by
  induction gs with
  | nil => rfl
  | cons g rest ih =>
      rw [List.mem_cons, not_or] at h
      have hg : g ≠ [] := fun he => h.1 he.symm
      by_cases hr : rest = []
      · subst hr; simp
      · have hm : rest.map (joinWith sep) ≠ [] := by simpa using hr
        have hf : rest.flatten ≠ [] := by
          intro hf
          rw [List.flatten_eq_nil_iff] at hf
          obtain ⟨r, hrm⟩ := List.exists_mem_of_ne_nil rest hr
          exact h.2 (hf r hrm ▸ hrm)
        rw [List.map_cons, joinWith_cons sep _ hm, ih h.2, List.flatten_cons,
          joinWith_append sep hg hf]

/-- Two joins that differ in one part only are equal only if that part is. -/
theorem joinWith_cancel {sep : UInt8} (pre post : List Bytes) {p q : Bytes}
    (h : joinWith sep (pre ++ p :: post) = joinWith sep (pre ++ q :: post)) : p = q := by
  have hcore : joinWith sep (p :: post) = joinWith sep (q :: post) := by
    by_cases hpre : pre = []
    · simpa [hpre] using h
    · rw [joinWith_append sep hpre (by simp), joinWith_append sep hpre (by simp)] at h
      simpa using h
  by_cases hpost : post = []
  · simpa [hpost] using hcore
  · rw [joinWith_cons sep p hpost, joinWith_cons sep q hpost] at hcore
    exact List.append_cancel_right hcore

/-! ## The order on pairs -/

section PairLe

variable {α β : Type} [LE α] [LT α] [LE β]

/-- By first component, then by second. -/
def PairLe (p q : α × β) : Prop := p.1 < q.1 ∨ (p.1 = q.1 ∧ p.2 ≤ q.2)

instance [DecidableEq α] [DecidableLT α] [DecidableLE β] : DecidableRel (PairLe (α := α) (β := β)) :=
  fun p q => inferInstanceAs (Decidable (p.1 < q.1 ∨ (p.1 = q.1 ∧ p.2 ≤ q.2)))

variable [Std.IsLinearOrder α] [Std.LawfulOrderLT α] [Std.IsLinearOrder β]

theorem PairLe.total (p q : α × β) : PairLe p q ∨ PairLe q p := by
  by_cases hpq : p.1 = q.1
  · rcases Std.le_total (a := p.2) (b := q.2) with h | h
    · exact Or.inl (Or.inr ⟨hpq, h⟩)
    · exact Or.inr (Or.inr ⟨hpq.symm, h⟩)
  · rcases Std.le_total (a := p.1) (b := q.1) with h | h
    · exact Or.inl (Or.inl (Std.lt_of_le_of_ne h hpq))
    · exact Or.inr (Or.inl (Std.lt_of_le_of_ne h (Ne.symm hpq)))

theorem PairLe.trans {p q r : α × β} (hpq : PairLe p q) (hqr : PairLe q r) : PairLe p r := by
  rcases hpq with h1 | ⟨h1, h1'⟩ <;> rcases hqr with h2 | ⟨h2, h2'⟩
  · exact Or.inl (Std.lt_trans h1 h2)
  · exact Or.inl (h2 ▸ h1)
  · exact Or.inl (h1 ▸ h2)
  · exact Or.inr ⟨h1.trans h2, Std.le_trans h1' h2'⟩

theorem PairLe.antisymm {p q : α × β} (hpq : PairLe p q) (hqp : PairLe q p) : p = q := by
  rcases hpq with h1 | ⟨h1, h1'⟩
  · rcases hqp with h2 | ⟨h2, _⟩
    · exact absurd (Std.lt_trans h1 h2) Std.lt_irrefl
    · exact absurd (h2 ▸ h1) Std.lt_irrefl
  · rcases hqp with h2 | ⟨_, h2'⟩
    · exact absurd (h1 ▸ h2) Std.lt_irrefl
    · exact Prod.ext h1 (Std.le_antisymm h1' h2')

instance : Std.Total (PairLe (α := α) (β := β)) := ⟨PairLe.total⟩

instance : IsTrans (α × β) PairLe := ⟨fun _ _ _ => PairLe.trans⟩

end PairLe

/-! ## Sorting as a canonical form -/

/-- A list in one order is in another exactly where the first order implies it. -/
theorem pairwise_iff_of_pairwise {α : Type} {r s : α → α → Prop} {xs : List α} (hr : xs.Pairwise r)
    (hanti : ∀ a b, r a b → r b a → s a b) :
    xs.Pairwise s ↔ ∀ a ∈ xs, ∀ b ∈ xs, r a b → s a b := by
  constructor
  · intro hs a ha b hb
    have hforward : xs.Pairwise (fun a b => r a b → s a b) := by
      refine hs.imp ?_
      intro a b hab _
      exact hab
    have hback : xs.Pairwise (flip (fun a b => r a b → s a b)) := by
      refine hr.imp ?_
      intro a b hab hba
      exact hanti b a hba hab
    exact List.Pairwise.forall_of_forall_of_flip (fun a _ h => hanti a a h h) hforward hback ha hb
  · intro h
    refine hr.imp_of_mem ?_
    intro a b ha hb hab
    exact h a ha b hb hab

section CanonicalForm

variable {α : Type} {r : α → α → Prop} [DecidableRel r] [Std.Total r] [IsTrans α r]

/-- A sorted permutation is the sorted form. -/
theorem eq_insertionSort (hanti : ∀ a b, r a b → r b a → a = b) {xs ys : List α}
    (hperm : xs.Perm ys) (hsorted : xs.Pairwise r) : xs = ys.insertionSort r :=
  List.Perm.eq_of_pairwise (fun a b _ _ => hanti a b) hsorted (List.pairwise_insertionSort r ys)
    (hperm.trans (List.perm_insertionSort r ys).symm)

/-- **Sorted forms agree exactly for permutations.** -/
theorem insertionSort_eq_iff (hanti : ∀ a b, r a b → r b a → a = b) {xs ys : List α} :
    xs.insertionSort r = ys.insertionSort r ↔ xs.Perm ys := by
  constructor
  · intro h
    have hx := List.perm_insertionSort r xs
    rw [h] at hx
    exact hx.symm.trans (List.perm_insertionSort r ys)
  · intro h
    exact eq_insertionSort hanti ((List.perm_insertionSort r xs).trans h)
      (List.pairwise_insertionSort r xs)

/-- **Sorting before and after a map agree exactly where the map keeps the order of what is sorted.** -/
theorem map_insertionSort_eq_iff {β : Type} {r' : β → β → Prop} [DecidableRel r'] [Std.Total r']
    [IsTrans β r'] (hanti : ∀ a b, r a b → r b a → a = b) (hanti' : ∀ a b, r' a b → r' b a → a = b)
    {f : α → β} {xs : List α} :
    (xs.insertionSort r).map f = (xs.map f).insertionSort r' ↔
      ∀ a ∈ xs, ∀ b ∈ xs, r a b → r' (f a) (f b) := by
  have hperm := List.perm_insertionSort r xs
  have hrefl : ∀ b, r' b b := fun b => (Std.Total.total (r := r') b b).elim id id
  have hsorted : ((xs.insertionSort r).map f).Pairwise r' ↔
      ∀ a ∈ xs, ∀ b ∈ xs, r a b → r' (f a) (f b) := by
    rw [List.pairwise_map, pairwise_iff_of_pairwise (List.pairwise_insertionSort r xs)]
    · simp only [hperm.mem_iff]
    · intro a b hab hba
      rw [hanti a b hab hba]
      exact hrefl _
  rw [← hsorted]
  constructor
  · intro h
    rw [h]
    exact List.pairwise_insertionSort r' _
  · exact eq_insertionSort hanti' (hperm.map f)

end CanonicalForm

/-- The pairs in canonical order. -/
def sortPairs (ps : List (Bytes × Bytes)) : List (Bytes × Bytes) := ps.insertionSort PairLe

theorem sortPairs_perm (ps : List (Bytes × Bytes)) : (sortPairs ps).Perm ps :=
  List.perm_insertionSort PairLe ps

theorem sortPairs_eq_iff {ps qs : List (Bytes × Bytes)} :
    sortPairs ps = sortPairs qs ↔ ps.Perm qs :=
  insertionSort_eq_iff (fun _ _ => PairLe.antisymm)

theorem eq_sortPairs {ps qs : List (Bytes × Bytes)} (hperm : ps.Perm qs)
    (hsorted : ps.Pairwise PairLe) : ps = sortPairs qs :=
  eq_insertionSort (fun _ _ => PairLe.antisymm) hperm hsorted

/-! ## Pairs by name -/

section

variable {α β : Type} [DecidableEq α]

/-- The values under one name, in order. -/
def valuesOf (k : α) (ps : List (α × β)) : List β := (ps.filter (fun p => p.1 = k)).map Prod.snd

@[simp] theorem valuesOf_nil (k : α) : valuesOf k ([] : List (α × β)) = [] := rfl

theorem valuesOf_cons (k : α) (p : α × β) (ps : List (α × β)) :
    valuesOf k (p :: ps) = if p.1 = k then p.2 :: valuesOf k ps else valuesOf k ps := by
  by_cases h : p.1 = k <;> simp [valuesOf, h]

theorem valuesOf_append (k : α) (ps qs : List (α × β)) :
    valuesOf k (ps ++ qs) = valuesOf k ps ++ valuesOf k qs := by
  simp [valuesOf]

theorem valuesOf_eq_nil {k : α} {ps : List (α × β)} : valuesOf k ps = [] ↔ k ∉ ps.map Prod.fst := by
  induction ps with
  | nil => simp
  | cons p ps ih =>
      by_cases h : p.1 = k
      · simp [valuesOf_cons, h]
      · rw [valuesOf_cons, if_neg h, ih, List.map_cons, List.mem_cons, not_or]
        exact ⟨fun hm => ⟨fun he => h he.symm, hm⟩, fun hm => hm.2⟩

/-- A test on names keeps the values under a name, or none. -/
theorem valuesOf_filter (p : α → Bool) (k : α) (ps : List (α × β)) :
    valuesOf k (ps.filter (fun e => p e.1)) = if p k then valuesOf k ps else [] := by
  induction ps with
  | nil => simp
  | cons e rest ih =>
      by_cases hn : e.1 = k
      · by_cases hp : p k = true <;> simp [valuesOf_cons, hn, hp, ih]
      · by_cases hp : p e.1 = true <;> simp [valuesOf_cons, hn, hp, ih]

theorem count_valuesOf [BEq β] [LawfulBEq β] [BEq (α × β)] [LawfulBEq (α × β)] (k : α) (v : β)
    (ps : List (α × β)) : (valuesOf k ps).count v = ps.count (k, v) := by
  induction ps with
  | nil => rfl
  | cons p ps ih =>
      obtain ⟨n, w⟩ := p
      rw [valuesOf_cons, List.count_cons, ← ih]
      by_cases hn : n = k
      · by_cases hw : w = v <;> simp [hn, hw]
      · simp [hn]

/-- **Two lists of pairs agree up to order when they do under every name.** -/
theorem perm_iff_valuesOf [DecidableEq β] {ps qs : List (α × β)} :
    ps.Perm qs ↔ ∀ k, (valuesOf k ps).Perm (valuesOf k qs) := by
  constructor
  · intro h k
    exact (h.filter _).map _
  · intro h
    rw [List.perm_iff_count]
    rintro ⟨k, v⟩
    rw [← count_valuesOf, ← count_valuesOf]
    exact List.perm_iff_count.1 (h k) v

end

/-- Sums that are compared term by term are equal only if all terms are. -/
theorem eq_of_sum_eq {α : Type} {f g : α → Nat} (hle : ∀ x, f x ≤ g x) {l : List α}
    (h : (l.map f).sum = (l.map g).sum) : ∀ x ∈ l, f x = g x := by
  induction l with
  | nil => simp
  | cons a rest ih =>
      have hrest : (rest.map f).sum ≤ (rest.map g).sum := List.sum_le_sum fun x _ => hle x
      have ha := hle a
      rw [List.map_cons, List.map_cons, List.sum_cons, List.sum_cons] at h
      rw [List.forall_mem_cons]
      exact ⟨by omega, ih (by omega)⟩

/-- A sublist that weighs as much as the list is all of it, where every element has a weight. -/
theorem eq_of_sublist_of_sum_eq {α : Type} {w : α → Nat} {l l' : List α} (hsub : l.Sublist l')
    (hw : ∀ x ∈ l', 0 < w x) (hsum : (l.map w).sum = (l'.map w).sum) : l = l' := by
  induction hsub with
  | slnil => rfl
  | cons a hsub ih =>
      have hle := (hsub.map w).sum_le_sum fun _ _ => Nat.zero_le _
      have ha := hw a List.mem_cons_self
      rw [List.map_cons, List.sum_cons] at hsum
      omega
  | cons_cons a hsub ih =>
      rw [List.map_cons, List.map_cons, List.sum_cons, List.sum_cons, Nat.add_left_cancel_iff] at hsum
      rw [ih (fun x hx => hw x (List.mem_cons_of_mem a hx)) hsum]

/-- Where a test on the parts is a test on what they come from, it is made before. -/
theorem filter_flatMap_of_forall {α β : Type} {f : α → List β} {p : α → Bool} {q : β → Bool}
    {l : List α} (h : ∀ a ∈ l, ∀ x ∈ f a, q x = p a) :
    (l.flatMap f).filter q = (l.filter p).flatMap f := by
  induction l with
  | nil => rfl
  | cons a rest ih =>
      have hrest := ih (fun b hb => h b (List.mem_cons_of_mem _ hb))
      have ha := h a List.mem_cons_self
      rw [List.flatMap_cons, List.filter_append, hrest]
      by_cases hp : p a = true
      · have hall : (f a).filter q = f a := by
          rw [List.filter_eq_self]
          exact fun x hx => (ha x hx).trans hp
        rw [List.filter_cons, if_pos hp, hall, List.flatMap_cons]
      · have hnone : (f a).filter q = [] := by
          rw [List.filter_eq_nil_iff]
          exact fun x hx hq => hp ((ha x hx).symm.trans hq)
        rw [List.filter_cons, if_neg hp, hnone, List.nil_append]
