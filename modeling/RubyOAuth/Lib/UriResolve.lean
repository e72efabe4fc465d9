import RubyOAuth.Lib.Uri
import RubyOAuth.Lib.Pairs

set_option autoImplicit false

/-! # Resolution of references, ports and request targets

RFC 3986 section 5.2: a reference is resolved against a base by taking the first of scheme,
authority and path it has and the base's components before it, with the dot segments of the path
removed. `resolve_valid_of_host` says that a reference with a host stays inside the grammar, so that it
can be printed and read back (`parse_print`).

The port of a reference is the one written or the default of its scheme; `SameOrigin` compares
scheme, case-folded host and that port. -/

open Bytes

namespace Uri

/-! ## Ports and origins -/

/-- The default port of a scheme. -/
def defaultPort (scheme : Bytes) : Option Nat :=
  if scheme = ascii "http" then some 80
  else if scheme = ascii "https" then some 443
  else if scheme = ascii "ftp" then some 21
  else if scheme = ascii "ws" then some 80
  else if scheme = ascii "wss" then some 443
  else if scheme = ascii "ldap" then some 389
  else if scheme = ascii "ldaps" then some 636
  else none

def effectivePort (u : Uri) : Option Nat := u.port.or (u.scheme.bind defaultPort)

theorem effectivePort_of_defaultPort {u : Uri} {s : Bytes} {d : Nat} (hs : u.scheme = some s)
    (hd : defaultPort s = some d) : u.effectivePort = some (u.port.getD d) := by
  rw [effectivePort, hs, Option.bind_some, hd]
  cases u.port <;> rfl

/-- Leaving the default port out changes no port. -/
theorem effectivePort_filter (u : Uri) :
    effectivePort { u with port := u.port.filter (fun p => some p != u.scheme.bind defaultPort) }
      = u.effectivePort := by
  simp only [effectivePort]
  cases hp : u.port with
  | none => rfl
  | some p =>
      by_cases hd : some p = u.scheme.bind defaultPort
      · simp [Option.filter, ← hd]
      · simp [Option.filter, hd]

/-- Same scheme, same host up to case, same port once defaults are filled in. -/
def SameOrigin (u v : Uri) : Prop :=
  u.scheme = v.scheme ∧ u.host.map downcase = v.host.map downcase ∧
    u.effectivePort = v.effectivePort

instance (u v : Uri) : Decidable (SameOrigin u v) := by unfold SameOrigin; infer_instance

theorem SameOrigin.trans {u v w : Uri} (h : SameOrigin u v) (h' : SameOrigin v w) :
    SameOrigin u w := ⟨h.1.trans h'.1, h.2.1.trans h'.2.1, h.2.2.trans h'.2.2⟩

/-! ## Request targets -/

/-- Path and query as they are written. -/
def pathQuery (u : Uri) : Bytes := uncut question (u.path, u.query)

theorem components_of_pathQuery {u : Uri} (hu : u.Valid) :
    front u.pathQuery = u.path ∧ queryPart u.pathQuery = u.query := by
  have hpath : pctValid isPathChar u.path = true := hu.2.2.2.2.1
  have hquestion : question ∉ u.path := not_mem_of_pctValid hpath (by decide) (by decide) (by decide)
  have hsharp : sharp ∉ u.pathQuery := by
    have hno : sharp ∉ u.path := not_mem_of_pctValid hpath (by decide) (by decide) (by decide)
    rw [pathQuery]
    cases hq : u.query with
    | none => exact hno
    | some q =>
        have hchars := List.all_eq_true.1 (hu.2.2.2.2.2.2.1 q hq)
        have hne : sharp ≠ question := by decide
        simp only [uncut, List.mem_append, List.mem_cons, hno, hne, false_or]
        intro hmem
        exact absurd (hchars sharp hmem) (by decide)
  rw [front, queryPart, cut_of_not_mem hsharp, pathQuery, cut_uncut hquestion]
  exact ⟨rfl, rfl⟩

/-- Path and query with the root path filled in. -/
def requestTarget (u : Uri) : Bytes :=
  if u.path.head? = some slash then u.pathQuery else slash :: u.pathQuery

theorem head?_requestTarget (u : Uri) : u.requestTarget.head? = some slash := by
  rw [requestTarget]
  split
  · next h =>
      rw [pathQuery]
      cases hq : u.query with
      | none => exact h
      | some q =>
          cases hp : u.path with
          | nil => simp [hp] at h
          | cons b rest => simpa [uncut, hp] using h
  · rfl

/-! ## Dot segments -/

/-- Walk the segments of an absolute path with the segments kept so far in reverse. -/
def dropDots (kept : List Bytes) : List Bytes → List Bytes
  | [] => kept.reverse
  | [s] =>
    if s = [dot] then ([] :: kept).reverse
    else if s = [dot, dot] then ([] :: kept.tail).reverse
    else (s :: kept).reverse
  | s :: rest =>
    if s = [dot] then dropDots kept rest
    else if s = [dot, dot] then dropDots kept.tail rest
    else dropDots (s :: kept) rest

/-- Remove the dot segments of an absolute path. -/
def removeDots (p : Bytes) : Bytes :=
  match p with
  | [] => []
  | b :: rest => if b = slash then slash :: joinWith slash (dropDots [] (rest.splitOn slash)) else p

theorem mem_dropDots {kept segs : List Bytes} {s : Bytes} (h : s ∈ dropDots kept segs) :
    s = [] ∨ s ∈ kept ∨ s ∈ segs := by
  induction segs generalizing kept with
  | nil => exact Or.inr (Or.inl (by simpa [dropDots] using h))
  | cons t rest ih =>
      cases rest with
      | nil =>
          rw [dropDots] at h
          split at h
          · rcases List.mem_cons.1 (List.mem_reverse.1 h) with h | h
            · exact Or.inl h
            · exact Or.inr (Or.inl h)
          · split at h
            · rcases List.mem_cons.1 (List.mem_reverse.1 h) with h | h
              · exact Or.inl h
              · exact Or.inr (Or.inl (List.mem_of_mem_tail h))
            · rcases List.mem_cons.1 (List.mem_reverse.1 h) with rfl | h
              · exact Or.inr (Or.inr List.mem_cons_self)
              · exact Or.inr (Or.inl h)
      | cons t' rest' =>
          rw [dropDots] at h
          · split at h
            · rcases ih h with h | h | h
              · exact Or.inl h
              · exact Or.inr (Or.inl h)
              · exact Or.inr (Or.inr (List.mem_cons_of_mem _ h))
            · split at h
              · rcases ih h with h | h | h
                · exact Or.inl h
                · exact Or.inr (Or.inl (List.mem_of_mem_tail h))
                · exact Or.inr (Or.inr (List.mem_cons_of_mem _ h))
              · rcases ih h with h | h | h
                · exact Or.inl h
                · rcases List.mem_cons.1 h with rfl | h
                  · exact Or.inr (Or.inr List.mem_cons_self)
                  · exact Or.inr (Or.inl h)
                · exact Or.inr (Or.inr (List.mem_cons_of_mem _ h))
          · simp

theorem pctValid_joinWith {segs : List Bytes} (h : ∀ s ∈ segs, pctValid isPathChar s = true) :
    pctValid isPathChar (joinWith slash segs) = true := by
  induction segs with
  | nil => rfl
  | cons s rest ih =>
      by_cases hr : rest = []
      · subst hr
        simpa using h s List.mem_cons_self
      · rw [joinWith_cons slash s hr, pctValid_append_sep (by decide) (by decide) (by decide),
          h s List.mem_cons_self, ih (fun t ht => h t (List.mem_cons_of_mem _ ht))]
        rfl

theorem pctValid_of_joinWith (segs : List Bytes)
    (h : pctValid isPathChar (joinWith slash segs) = true) :
    ∀ s ∈ segs, pctValid isPathChar s = true := by
  induction segs with
  | nil => simp
  | cons s rest ih =>
      by_cases hr : rest = []
      · subst hr
        simpa using h
      · rw [joinWith_cons slash s hr, pctValid_append_sep (by decide) (by decide) (by decide),
          Bool.and_eq_true] at h
        intro t ht
        rcases List.mem_cons.1 ht with rfl | ht
        · exact h.1
        · exact ih h.2 t ht

theorem pctValid_slash_cons (p : Bytes) : pctValid isPathChar (slash :: p) = pctValid isPathChar p := by
  have hsep : pctValid isPathChar ([] ++ slash :: p)
      = (pctValid isPathChar [] && pctValid isPathChar p) :=
    pctValid_append_sep (by decide) (by decide) (by decide) [] p
  simpa using hsep

theorem pctValid_removeDots {p : Bytes} (h : pctValid isPathChar p = true) :
    pctValid isPathChar (removeDots p) = true := by
  cases p with
  | nil => rfl
  | cons b rest =>
      rw [removeDots]
      split
      · next hb =>
          subst hb
          rw [pctValid_slash_cons] at h ⊢
          apply pctValid_joinWith
          intro s hs
          rcases mem_dropDots hs with rfl | hs | hs
          · rfl
          · simp at hs
          · refine pctValid_of_joinWith (rest.splitOn slash) ?_ s hs
            rw [joinWith, List.intercalate_splitOn]
            exact h
      · exact h

theorem head?_removeDots {p : Bytes} (h : p.head? = some slash) :
    (removeDots p).head? = some slash := by
  cases p with
  | nil => simp at h
  | cons b rest =>
      simp only [List.head?_cons, Option.some.injEq] at h
      subst h
      rw [removeDots, if_pos rfl]
      rfl

/-! ## Resolution -/

/-- Everything of a path up to its last slash. -/
def directory (p : Bytes) : Bytes := (p.reverse.dropWhile (· != slash)).reverse

def mergePath (base : Uri) (p : Bytes) : Bytes :=
  if base.host.isSome ∧ base.path = [] then slash :: p else directory base.path ++ p

/-- The path of a reference that has neither scheme nor authority. -/
def resolvePath (base : Uri) (p : Bytes) : Bytes :=
  if p = [] then base.path
  else if p.head? = some slash then removeDots p
  else removeDots (mergePath base p)

/-- The reference names an origin: it has a scheme or an authority of its own. -/
def NamesOrigin (r : Uri) : Prop := r.scheme.isSome = true ∨ r.host.isSome = true

instance (r : Uri) : Decidable r.NamesOrigin := by unfold NamesOrigin; infer_instance

/-- The target of reference `r` against `base`. -/
def resolve (base r : Uri) : Uri :=
  if r.NamesOrigin then
    { r with scheme := r.scheme.or base.scheme, path := removeDots r.path }
  else
    { base with
      path := resolvePath base r.path
      query := if r.path = [] then r.query.or base.query else r.query
      fragment := r.fragment }

theorem resolve_of_namesOrigin (base : Uri) {r : Uri} (h : r.NamesOrigin) :
    resolve base r = { r with scheme := r.scheme.or base.scheme, path := removeDots r.path } :=
  if_pos h

theorem resolve_of_not_namesOrigin (base : Uri) {r : Uri} (h : ¬ r.NamesOrigin) :
    resolve base r =
      { base with
        path := resolvePath base r.path
        query := if r.path = [] then r.query.or base.query else r.query
        fragment := r.fragment } :=
  if_neg h

/-- A reference without an origin stays on the base's. -/
theorem sameOrigin_resolve (base : Uri) {r : Uri} (h : ¬ r.NamesOrigin) :
    SameOrigin base (resolve base r) := by
  rw [resolve_of_not_namesOrigin base h]
  exact ⟨rfl, rfl, rfl⟩

theorem directory_eq_nil_or (p : Bytes) :
    directory p = [] ∨ ∃ a t, p = a ++ slash :: t ∧ directory p = a ++ [slash] := by
  rw [directory]
  have hsplit := List.takeWhile_append_dropWhile (p := (· != slash)) (l := p.reverse)
  cases hd : p.reverse.dropWhile (· != slash) with
  | nil => exact Or.inl rfl
  | cons b rest =>
      have hb : b = slash := by
        have := List.head_dropWhile_not (p := (· != slash)) (l := p.reverse) (by simp [hd])
        simpa [hd] using this
      subst hb
      right
      refine ⟨rest.reverse, (p.reverse.takeWhile (· != slash)).reverse, ?_, by simp⟩
      have hp := congrArg List.reverse hsplit
      rw [hd, List.reverse_append, List.reverse_cons, List.reverse_reverse, List.append_assoc,
        List.singleton_append] at hp
      exact hp.symm

/-- A reference with a host stays inside the grammar. -/
theorem resolve_valid_of_host {base r : Uri} (hr : r.Valid) (hh : r.host.isSome = true)
    (hs : ∀ s ∈ (resolve base r).scheme, validScheme s = true) : (resolve base r).Valid := by
  obtain ⟨-, ri, rh, rp, rpath, rstart, rq, rf⟩ := hr
  rw [resolve_of_namesOrigin base (.inr hh)] at hs ⊢
  refine ⟨hs, ri, rh, rp, pctValid_removeDots rpath, ?_, rq, rf⟩
  obtain ⟨h, hh⟩ := Option.isSome_iff_exists.1 hh
  rw [validPathStart, hh] at rstart
  simp only [validPathStart, hh]
  cases hp : r.path with
  | nil => rfl
  | cons b rest =>
      rw [hp] at rstart
      have hb : (b :: rest).head? = some slash := by simpa using rstart
      simp [head?_removeDots hb]

end Uri
