import RubyOAuth.Lib.Uri

set_option autoImplicit false

/-! # A path behind a reference

The text of an absolute reference without query and fragment can be continued with a rooted path, the
way programs join a base URL and a path: what comes out has the origin of the base, and the path behind
the path of the base. -/

namespace Uri

open Bytes

variable {s t : Bytes}

theorem not_mem_of_cut_none {sep : UInt8} (h : (cut sep s).2 = none) : sep ∉ s := by
  have hs : uncut sep (cut sep s) = s := uncut_cut sep s
  rw [show cut sep s = ((cut sep s).1, none) from Prod.ext rfl h] at hs
  exact hs ▸ not_mem_cut_fst sep s

theorem cut_append_right {sep : UInt8} {x r : Bytes} (h : cut sep s = (x, some r)) (t : Bytes) :
    cut sep (s ++ t) = (x, some (r ++ t)) := by
  have hs : s = x ++ sep :: r := by
    rw [← uncut_cut sep s, h]
    rfl
  have hx : sep ∉ x := by
    have hx := not_mem_cut_fst sep s
    rwa [h] at hx
  rw [hs, List.append_assoc, List.cons_append, cut_append hx]

/-- The path of a base is what stands in front of further text. -/
theorem front_append_path {base : Uri} (hbase : base.Valid) (t : Bytes) :
    front (base.path ++ t) = base.path ++ front t ∧
      queryPart (base.path ++ t) = queryPart t := by
  have hpath : pctValid isPathChar base.path = true := hbase.2.2.2.2.1
  have hsharp : sharp ∉ base.path := not_mem_of_pctValid hpath (by decide) (by decide) (by decide)
  have hquestion : question ∉ base.path := not_mem_of_pctValid hpath (by decide) (by decide) (by decide)
  rw [front, queryPart, cut_append_left hsharp, cut_append_left hquestion]
  exact ⟨rfl, rfl⟩

/-- Without a fragment, path and query end the text. -/
theorem print_eq_append {u : Uri} (hf : u.fragment = none) :
    print u = print { u with path := [], query := none } ++ uncut question (u.path, u.query) := by
  cases hq : u.query with
  | none => simp [print, printHierarchy, printAuthority, uncut, hf, hq]
  | some q => simp [print, printHierarchy, printAuthority, uncut, hf, hq]

/-- A scheme is read off the beginning. -/
theorem splitScheme_append (h : (splitScheme s).1.isSome = true) (t : Bytes) :
    splitScheme (s ++ t) = ((splitScheme s).1, (splitScheme s).2 ++ t) := by
  cases hcut : cut colon s with
  | mk x rest =>
      cases rest with
      | none => simp [splitScheme, hcut] at h
      | some rest =>
          by_cases hv : validScheme (downcase x) = true
          · simp [splitScheme, hcut, cut_append_right hcut t, hv]
          · simp [splitScheme, hcut, hv] at h

/-- An authority ends where the path begins. -/
theorem splitHierarchy_append {i h : Option Bytes} {p : Option Nat} {path : Bytes}
    (hs : splitHierarchy s = some (i, h, p, path)) (hh : h.isSome = true) (ht : t.head? = some slash) :
    splitHierarchy (s ++ t) = some (i, h, p, path ++ t) := by
  obtain ⟨t, rfl⟩ : ∃ t', t = slash :: t' := by
    cases t with
    | nil => simp at ht
    | cons b t' => exact ⟨t', by rw [List.head?_cons, Option.some.injEq] at ht; rw [ht]⟩
  rcases splitHierarchy_cases hs with ⟨rfl, -⟩ | ⟨authority, -, hrest, -⟩
  · simp at hh
  · generalize authority ++ path = rest at hrest
    subst hrest
    simp only [splitHierarchy, and_self, if_true, List.cons_append] at hs ⊢
    have htake : (rest ++ slash :: t).takeWhile (· != slash) = rest.takeWhile (· != slash) := by
      rw [List.takeWhile_append]
      split
      · next hall =>
          rw [List.takeWhile_cons, if_neg (by simp), List.append_nil]
          exact ((List.takeWhile_prefix _).eq_of_length hall).symm
      · rfl
    have hdrop : (rest ++ slash :: t).dropWhile (· != slash)
        = rest.dropWhile (· != slash) ++ slash :: t := by
      have hboth := List.takeWhile_append_dropWhile (p := (· != slash)) (l := rest ++ slash :: t)
      have hrest := List.takeWhile_append_dropWhile (p := (· != slash)) (l := rest)
      rw [htake] at hboth
      have hfront : rest.takeWhile (· != slash) ++ (rest ++ slash :: t).dropWhile (· != slash)
          = rest.takeWhile (· != slash) ++ (rest.dropWhile (· != slash) ++ slash :: t) := by
        rw [hboth, ← List.append_assoc, hrest]
      exact List.append_cancel_left hfront
    rw [htake, hdrop]
    obtain ⟨⟨g, q⟩, hg, heq⟩ := Option.map_eq_some_iff.1 hs
    simp only [Prod.mk.injEq] at heq
    obtain ⟨rfl, rfl, rfl, rfl⟩ := heq
    rw [hg]
    rfl

/-- **A base URL with a path behind it.** -/
theorem parse_append {u w : Uri} (hu : parse s = some u) (hscheme : u.scheme.isSome = true)
    (hhost : u.host.isSome = true) (hquery : u.query = none) (hfragment : u.fragment = none)
    (ht : t.head? = some slash) (hw : parse (s ++ t) = some w) :
    w = { u with
      path := u.path ++ front t
      query := (queryPart t).map storeQuery
      fragment := (cut sharp t).2 } := by
  obtain ⟨hs, hhierarchy, hq, hf⟩ := components_of_parse hu
  have hsharp : sharp ∉ s := not_mem_of_cut_none (hf.symm.trans hfragment)
  have hquestion : question ∉ s := by
    refine not_mem_of_cut_none ?_
    rw [isOpaque_of_host (valid_of_parse hu) hhost, if_neg Bool.false_ne_true, hquery, queryPart,
      cut_of_not_mem hsharp] at hq
    exact Option.map_eq_none_iff.1 hq.symm
  have hfront : front s = s := by rw [front, cut_of_not_mem hsharp, cut_of_not_mem hquestion]
  have hfront' : front (s ++ t) = s ++ front t := by
    rw [front, cut_append_left hsharp, cut_append_left hquestion]
    rfl
  have hpart : queryPart (s ++ t) = queryPart t := by
    rw [queryPart, cut_append_left hsharp, cut_append_left hquestion]
    rfl
  obtain ⟨hs', hhierarchy', hq', hf'⟩ := components_of_parse hw
  rw [hfront] at hs hhierarchy
  rw [hfront'] at hs' hhierarchy'
  have happend := splitScheme_append (hs ▸ hscheme) (front t)
  rw [happend] at hs' hhierarchy'
  rw [splitHierarchy_append hhierarchy hhost (head?_front.2 ht), Option.some.injEq, Prod.mk.injEq,
    Prod.mk.injEq, Prod.mk.injEq] at hhierarchy'
  obtain ⟨huser, hhost', hport, hpath⟩ := hhierarchy'
  rw [cut_append_left hsharp] at hf'
  rw [isOpaque_of_host (valid_of_parse hw) (hhost' ▸ hhost), if_neg Bool.false_ne_true, hpart] at hq'
  cases w
  simp only at hs' huser hhost' hport hpath hq' hf'
  rw [hs', ← huser, ← hhost', ← hport, ← hpath, hq', hf', hs]

end Uri
