import RubyOAuth.Lib.UriResolve

set_option autoImplicit false

/-! # Dot segments under a prefix

Removing dot segments is a walk over the segments with those kept so far. A walk that never takes away
more than it has kept leaves a prefix in front of it alone. -/

namespace Uri

open Bytes

/-! ## The walk -/

def IsDots (s : Bytes) : Prop := s = [dot] ∨ s = [dot, dot]

instance (s : Bytes) : Decidable (IsDots s) := by unfold IsDots; infer_instance

/-- What a segment that is not the last does to those kept. -/
def keepSegment (kept : List Bytes) (s : Bytes) : List Bytes :=
  if s = [dot] then kept else if s = [dot, dot] then kept.tail else s :: kept

theorem keepSegment_of_not_isDots {s : Bytes} (h : ¬ IsDots s) (kept : List Bytes) :
    keepSegment kept s = s :: kept := by
  rw [IsDots, not_or] at h
  rw [keepSegment, if_neg h.1, if_neg h.2]

theorem dropDots_cons (kept : List Bytes) (s : Bytes) {rest : List Bytes} (h : rest ≠ []) :
    dropDots kept (s :: rest) = dropDots (keepSegment kept s) rest := by
  rw [keepSegment]
  cases rest with
  | nil => exact absurd rfl h
  | cons t rest =>
      rw [dropDots.eq_3 kept s _ (by simp)]
      split
      · rfl
      · split <;> rfl

theorem dropDots_append (kept segs : List Bytes) {rest : List Bytes} (h : rest ≠ []) :
    dropDots kept (segs ++ rest) = dropDots (segs.foldl keepSegment kept) rest := by
  induction segs generalizing kept with
  | nil => rfl
  | cons s segs ih =>
      rw [List.cons_append, dropDots_cons kept s (by simp [h]), ih, List.foldl_cons]

theorem foldl_keepSegment_of_plain {segs : List Bytes} (h : ∀ s ∈ segs, ¬ IsDots s)
    (kept : List Bytes) : segs.foldl keepSegment kept = segs.reverse ++ kept := by
  induction segs generalizing kept with
  | nil => rfl
  | cons s segs ih =>
      rw [List.foldl_cons, keepSegment_of_not_isDots (h s List.mem_cons_self),
        ih fun t ht => h t (List.mem_cons_of_mem _ ht), List.reverse_cons, List.append_assoc]
      rfl

/-- The walk keeps no dot segment. -/
theorem not_isDots_of_mem_foldl {segs kept : List Bytes} (hkept : ∀ s ∈ kept, ¬ IsDots s) :
    ∀ s ∈ segs.foldl keepSegment kept, ¬ IsDots s := by
  induction segs generalizing kept with
  | nil => exact hkept
  | cons t segs ih =>
      rw [List.foldl_cons]
      refine ih fun s hs => ?_
      rw [keepSegment] at hs
      split at hs
      · exact hkept s hs
      · split at hs
        · exact hkept s (List.mem_of_mem_tail hs)
        · next h₁ h₂ =>
            rcases List.mem_cons.1 hs with rfl | hs
            · exact fun hdots => hdots.elim h₁ h₂
            · exact hkept s hs

/-! ## Below a depth -/

/-- Segments that never take away more than they have added to a depth. -/
def staysBelow : Nat → List Bytes → Bool
  | _, [] => true
  | depth, s :: rest =>
    if s = [dot] then staysBelow depth rest
    else if s = [dot, dot] then decide (0 < depth) && staysBelow (depth - 1) rest
    else staysBelow (depth + 1) rest

/-- **A walk that stays below its depth leaves what was kept before alone.** -/
theorem dropDots_of_staysBelow {segs : List Bytes} (kept base : List Bytes)
    (h : staysBelow kept.length segs = true) :
    dropDots (kept ++ base) segs = base.reverse ++ dropDots kept segs := by
  induction segs generalizing kept with
  | nil => rw [dropDots, dropDots, List.reverse_append]
  | cons s rest ih =>
      rw [staysBelow] at h
      by_cases hdot : s = [dot]
      · subst hdot
        rw [if_pos rfl] at h
        cases rest with
        | nil => simp [dropDots]
        | cons t rest =>
            rw [dropDots_cons (kept ++ base) _ (List.cons_ne_nil t rest),
              dropDots_cons kept _ (List.cons_ne_nil t rest)]
            exact ih _ h
      · rw [if_neg hdot] at h
        by_cases hdots : s = [dot, dot]
        · subst hdots
          rw [if_pos rfl, Bool.and_eq_true, decide_eq_true_eq] at h
          obtain ⟨k, kept, rfl⟩ := List.exists_cons_of_length_pos h.1
          cases rest with
          | nil => simp [dropDots]
          | cons t rest =>
              rw [dropDots_cons (k :: kept ++ base) _ (List.cons_ne_nil t rest),
                dropDots_cons (k :: kept) _ (List.cons_ne_nil t rest)]
              exact ih _ h.2
        · rw [if_neg hdots] at h
          have hplain : ¬ IsDots s := fun hd => hd.elim hdot hdots
          cases rest with
          | nil => simp [dropDots, hdot, hdots]
          | cons t rest =>
              rw [dropDots_cons (kept ++ base) _ (List.cons_ne_nil t rest),
                dropDots_cons kept _ (List.cons_ne_nil t rest),
                keepSegment_of_not_isDots hplain, keepSegment_of_not_isDots hplain]
              have hrest : staysBelow (s :: kept).length (t :: rest) = true := h
              exact ih _ hrest

/-- The path has no dot segment. -/
def DotFree (p : Bytes) : Prop := ∀ s ∈ p.splitOn slash, ¬ IsDots s

instance (p : Bytes) : Decidable (DotFree p) := by unfold DotFree; infer_instance

/-- The dot segments of an absolute path never lead above its root. -/
def NeverClimbs (p : Bytes) : Prop := staysBelow 0 (p.tail.splitOn slash) = true

instance (p : Bytes) : Decidable (NeverClimbs p) := by unfold NeverClimbs; infer_instance

/-! ## Paths -/

theorem splitOn_append_slash (a b : Bytes) :
    (a ++ slash :: b).splitOn slash = a.splitOn slash ++ b.splitOn slash :=
  List.splitOnP_append_cons a b (by simp)

theorem splitOn_slash_ne_nil (p : Bytes) : p.splitOn slash ≠ [] := List.splitOnP_ne_nil _ p

theorem not_mem_of_mem_splitOn {p s : Bytes} (h : s ∈ p.splitOn slash) : slash ∉ s := by
  induction p generalizing s with
  | nil =>
      rw [List.splitOn_nil, List.mem_singleton] at h
      simp [h]
  | cons b p ih =>
      rw [List.splitOn, List.splitOnP_cons_eq_if_modifyHead] at h
      split at h
      · rcases List.mem_cons.1 h with rfl | h
        · simp
        · exact ih h
      · next hb =>
          obtain ⟨t, rest, hsplit⟩ := List.exists_cons_of_ne_nil (splitOn_slash_ne_nil p)
          rw [List.splitOn] at hsplit
          rw [hsplit, List.modifyHead_cons, List.mem_cons] at h
          rcases h with rfl | h
          · rw [List.mem_cons, not_or]
            exact ⟨fun he => hb (by simp [he]), ih (by rw [List.splitOn, hsplit]; exact List.mem_cons_self)⟩
          · exact ih (by rw [List.splitOn, hsplit]; exact List.mem_cons_of_mem _ h)

theorem removeDots_slash (p : Bytes) :
    removeDots (slash :: p) = slash :: joinWith slash (dropDots [] (p.splitOn slash)) := by
  rw [removeDots, if_pos rfl]

theorem dropDots_ne_nil {segs : List Bytes} (h : segs ≠ []) (kept : List Bytes) :
    dropDots kept segs ≠ [] := by
  induction segs generalizing kept with
  | nil => exact absurd rfl h
  | cons s rest ih =>
      cases rest with
      | nil =>
          rw [dropDots]
          split
          · simp
          · split <;> simp
      | cons t rest =>
          rw [dropDots_cons _ _ (by simp)]
          exact ih (by simp) _

theorem exists_eq_slash_cons {p : Bytes} (h : p.head? = some slash) : ∃ rest, p = slash :: rest := by
  cases p with
  | nil => simp at h
  | cons b rest => exact ⟨rest, by rw [List.head?_cons, Option.some.injEq] at h; rw [h]⟩

/-- **A prefix without dot segments stays in front of a path that never climbs above its root.** -/
theorem removeDots_append {pre p : Bytes} (hs : pre.head? = some slash) (hpre : DotFree pre)
    (hp : p.head? = some slash) (hclimb : NeverClimbs p) :
    removeDots (pre ++ p) = pre ++ removeDots p := by
  obtain ⟨pre, rfl⟩ := exists_eq_slash_cons hs
  obtain ⟨p, rfl⟩ := exists_eq_slash_cons hp
  have hplain : ∀ s ∈ pre.splitOn slash, ¬ IsDots s := by
    intro s hmem
    refine hpre s ?_
    have hsplit := splitOn_append_slash [] pre
    rw [List.nil_append] at hsplit
    rw [hsplit]
    exact List.mem_append_right _ hmem
  rw [List.cons_append, removeDots_slash, removeDots_slash, splitOn_append_slash,
    dropDots_append _ _ (splitOn_slash_ne_nil p), foldl_keepSegment_of_plain hplain]
  have hwalk := dropDots_of_staysBelow [] (pre.splitOn slash).reverse hclimb
  rw [List.nil_append, List.reverse_reverse] at hwalk
  rw [List.append_nil]
  rw [List.tail_cons] at hwalk
  rw [hwalk, joinWith_append slash (splitOn_slash_ne_nil pre)
    (dropDots_ne_nil (splitOn_slash_ne_nil p) []), joinWith, List.intercalate_splitOn]
  rfl

theorem mem_foldl_keepSegment {segs kept : List Bytes} {s : Bytes}
    (h : s ∈ segs.foldl keepSegment kept) : s ∈ segs ∨ s ∈ kept := by
  induction segs generalizing kept with
  | nil => exact .inr h
  | cons t segs ih =>
      rw [List.foldl_cons] at h
      rcases ih h with h | h
      · exact .inl (List.mem_cons_of_mem _ h)
      · rw [keepSegment] at h
        split at h
        · exact .inr h
        · split at h
          · exact .inr (List.mem_of_mem_tail h)
          · rcases List.mem_cons.1 h with rfl | h
            · exact .inl List.mem_cons_self
            · exact .inr h

/-- **Below a directory its dot segments can be removed first.** -/
theorem removeDots_removeDots_append (a p : Bytes) :
    removeDots (removeDots (slash :: a ++ [slash]) ++ p) = removeDots (slash :: a ++ slash :: p) := by
  have hdir : removeDots (slash :: a ++ [slash])
      = slash :: joinWith slash (((a.splitOn slash).foldl keepSegment []).reverse ++ [[]]) := by
    rw [List.cons_append, removeDots_slash, splitOn_append_slash,
      dropDots_append _ _ (splitOn_slash_ne_nil []), List.splitOn_nil, dropDots,
      if_neg (by simp), if_neg (by simp), List.reverse_cons]
  have hplain : ∀ s ∈ ((a.splitOn slash).foldl keepSegment []).reverse, ¬ IsDots s :=
    fun s hs => not_isDots_of_mem_foldl (by simp) s (List.mem_reverse.1 hs)
  have hno : ∀ s ∈ ((a.splitOn slash).foldl keepSegment []).reverse, slash ∉ s := by
    intro s hs
    exact not_mem_of_mem_splitOn ((mem_foldl_keepSegment (List.mem_reverse.1 hs)).resolve_right (by simp))
  rw [hdir, show slash :: a ++ slash :: p = slash :: (a ++ slash :: p) from rfl, removeDots_slash (a ++ _),
    splitOn_append_slash,
    dropDots_append _ _ (splitOn_slash_ne_nil p), List.cons_append, removeDots_slash]
  generalize (a.splitOn slash).foldl keepSegment [] = kept at hplain hno ⊢
  by_cases hk : kept = []
  · subst hk
    rfl
  · have hne : kept.reverse ≠ [] := by simpa using hk
    rw [joinWith_append slash hne (List.cons_ne_nil [] []), joinWith_singleton, List.append_assoc,
      List.cons_append, List.nil_append, splitOn_append_slash, splitOn_joinWith hno hne,
      dropDots_append _ _ (splitOn_slash_ne_nil p), foldl_keepSegment_of_plain hplain,
      List.reverse_reverse, List.append_nil]

/-! ## Directories -/

theorem directory_append (pre : Bytes) {p : Bytes} (h : slash ∈ p) :
    directory (pre ++ p) = pre ++ directory p := by
  have hmem : ¬ ∀ b ∈ p.reverse, (b != slash) = true := by
    intro hall
    simpa using hall slash (List.mem_reverse.2 h)
  rw [directory, directory, List.reverse_append, List.dropWhile_append, if_neg (by simpa using hmem),
    List.reverse_append, List.reverse_reverse]

theorem head?_directory {p : Bytes} (h : p.head? = some slash) : (directory p).head? = some slash := by
  rcases directory_eq_nil_or p with hnil | ⟨a, t, rfl, hdir⟩
  · obtain ⟨rest, rfl⟩ := exists_eq_slash_cons h
    rw [directory, List.reverse_cons, List.dropWhile_append] at hnil
    split at hnil <;> simp_all
  · rw [hdir]
    cases a with
    | nil => rfl
    | cons b a => simpa using h

/-- A path whose last segment takes none away resolves references as it does without its dots. -/
theorem removeDots_directory_append {p : Bytes} (hp : p.head? = some slash)
    (h : directory (removeDots p) = removeDots (directory p)) (x : Bytes) :
    removeDots (directory (removeDots p) ++ x) = removeDots (directory p ++ x) := by
  rw [h]
  obtain ⟨rest, rfl⟩ := exists_eq_slash_cons hp
  rcases directory_eq_nil_or (slash :: rest) with hnil | ⟨a, t, heq, hdir⟩
  · rw [hnil]
    rfl
  · rw [hdir]
    cases a with
    | nil => rfl
    | cons b a =>
        rw [List.cons_append, List.cons.injEq] at heq
        rw [← heq.1, removeDots_removeDots_append, List.append_assoc]
        rfl

end Uri
