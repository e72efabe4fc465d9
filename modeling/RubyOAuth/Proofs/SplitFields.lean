import RubyOAuth.Model.Helper

set_option autoImplicit false

/-! # What `String#split` drops

`splitFields` gives the fields of `splitOnP` without the empty ones at the end. Read by position, with an
empty field for one that is not there, the two are the same; so they are after a test that no empty field
passes. -/

namespace RubyOAuth

open Bytes

variable (p : UInt8 → Bool)

/-- The fields that are dropped are empty. -/
theorem splitOnP_eq_splitFields (s : Bytes) :
    ∃ n, s.splitOnP p = splitFields p s ++ List.replicate n [] := by
  have hnil : ((s.splitOnP p).reverse.takeWhile List.isEmpty).reverse
      = List.replicate ((s.splitOnP p).reverse.takeWhile List.isEmpty).length [] := by
    rw [List.eq_replicate_iff]
    refine ⟨List.length_reverse, fun f hf => ?_⟩
    exact List.isEmpty_iff.1 (List.mem_takeWhile_imp (List.mem_reverse.1 hf))
  refine ⟨((s.splitOnP p).reverse.takeWhile List.isEmpty).length, ?_⟩
  rw [← hnil, splitFields, ← List.reverse_append, List.takeWhile_append_dropWhile, List.reverse_reverse]

theorem splitFields_getD (s : Bytes) (i : Nat) :
    (splitFields p s)[i]?.getD [] = (s.splitOnP p)[i]?.getD [] := by
  obtain ⟨n, hn⟩ := splitOnP_eq_splitFields p s
  rw [hn]
  by_cases hi : i < (splitFields p s).length
  · rw [List.getElem?_append_left hi]
  · rw [List.getElem?_append_right (Nat.le_of_not_lt hi), List.getElem?_eq_none (Nat.le_of_not_lt hi),
      List.getElem?_replicate]
    split <;> rfl

theorem filter_splitFields {q : Bytes → Bool} (hq : q [] = false) (s : Bytes) :
    (splitFields p s).filter q = (s.splitOnP p).filter q := by
  obtain ⟨n, hn⟩ := splitOnP_eq_splitFields p s
  rw [hn, List.filter_append, List.filter_replicate, hq, if_neg Bool.false_ne_true, List.append_nil]

/-- A text with a separator has a last one. -/
theorem exists_last_separator (s : Bytes) :
    (∀ b ∈ s, p b = false) ∨
      ∃ x b t, s = x ++ b :: t ∧ p b = true ∧ ∀ c ∈ t, p c = false := by
  induction s with
  | nil => exact .inl (by simp)
  | cons a rest ih =>
      rcases ih with hno | ⟨x, b, t, rfl, hb, ht⟩
      · by_cases ha : p a = true
        · exact .inr ⟨[], a, rest, rfl, ha, hno⟩
        · rw [Bool.not_eq_true] at ha
          exact .inl (List.forall_mem_cons.2 ⟨ha, hno⟩)
      · exact .inr ⟨a :: x, b, t, rfl, hb, ht⟩

/-- Where the text does not end in a separator, nothing is dropped. -/
theorem splitFields_concat (s : Bytes) {c : UInt8} (hc : p c = false) :
    splitFields p (s ++ [c]) = (s ++ [c]).splitOnP p := by
  have hlast : ∃ fs t, (s ++ [c]).splitOnP p = fs ++ [t ++ [c]] := by
    rcases exists_last_separator p s with hno | ⟨x, b, t, rfl, hb, ht⟩
    · have hall : ∀ d ∈ s ++ [c], p d = false :=
        List.forall_mem_append.2 ⟨hno, List.forall_mem_singleton.2 hc⟩
      exact ⟨[], s, List.splitOnP_eq_singleton hall⟩
    · have htc : ∀ d ∈ t ++ [c], p d = false :=
        List.forall_mem_append.2 ⟨ht, List.forall_mem_singleton.2 hc⟩
      refine ⟨x.splitOnP p, t, ?_⟩
      rw [List.append_assoc, List.cons_append, List.splitOnP_append_cons x _ hb,
        List.splitOnP_eq_singleton htc]
  obtain ⟨fs, t, h⟩ := hlast
  rw [splitFields, h, List.reverse_append, List.reverse_singleton, List.singleton_append,
    List.dropWhile_cons_of_neg (by simp), List.reverse_cons, List.reverse_reverse]

/-- The first field is what stands before the first separator. -/
theorem splitOnP_eq_cut (sep : UInt8) (s : Bytes) :
    s.splitOnP (· == sep)
      = (cut sep s).1 :: ((cut sep s).2.map (List.splitOnP (· == sep))).getD [] := by
  have hno : ∀ b ∈ (cut sep s).1, (b == sep) = false := by
    intro b hb
    rw [beq_eq_false_iff_ne]
    rintro rfl
    exact not_mem_cut_fst b s hb
  conv_lhs => rw [← uncut_cut sep s]
  cases hc : cut sep s with
  | mk a t =>
      rw [hc] at hno
      cases t with
      | none => rw [uncut, List.splitOnP_eq_singleton hno]; rfl
      | some t =>
          rw [uncut, List.splitOnP_append_cons_of_forall_mem hno sep (beq_self_eq_true _)]
          rfl

/-- A text has one field more than separators. -/
theorem length_splitOnP (s : Bytes) : (s.splitOnP p).length = s.countP p + 1 := by
  induction s with
  | nil => rfl
  | cons b rest ih =>
      rw [List.splitOnP_cons_eq_if_modifyHead]
      by_cases hb : p b = true
      · rw [if_pos hb, List.length_cons, ih, List.countP_cons_of_pos hb]
      · rw [if_neg hb, List.length_modifyHead, ih, List.countP_cons_of_neg hb]

/-- A join is split where its parts are. -/
theorem splitOn_joinWith_flatMap (sep : UInt8) {ps : List Bytes} (h : ps ≠ []) :
    (joinWith sep ps).splitOn sep = ps.flatMap (List.splitOn sep) := by
  induction ps with
  | nil => exact absurd rfl h
  | cons s rest ih =>
      by_cases hr : rest = []
      · subst hr
        simp
      · rw [joinWith_cons sep s hr, List.splitOn_append_cons_self, ih hr, List.flatMap_cons]

end RubyOAuth
