import RubyOAuth.Lib.PercentCode

set_option autoImplicit false

/-! # URI references

A URI reference is split into its components as RFC 3986 says: scheme, authority (user
information, host, port), path, query and fragment. `Uri.Valid` is the grammar of the components —
which bytes each may hold, that a path after an authority is empty or begins with `/`, that a
relative path shows no colon in its first segment — and `Uri.parse` accepts exactly the strings
whose components are valid.

A query is stored with the bytes outside a class percent-encoded (`store`), as readers do that assign
it to a component; the text of a reference without path stays as it is written.

`Uri.print` recomposes a reference. **A valid reference is read back from its own text**
(`parse_print`); everything a client needs to know about URI strings follows from that. -/

open Bytes

/-! ## Percent-encoded text -/

/-- Where a reader of percent-encoded text stands: outside an escape, or one or two digits
    before the end of one. -/
inductive PctState where
  | plain
  | twoDigits
  | oneDigit
  deriving DecidableEq

/-- Read one byte of percent-encoded text over the bytes `ok`. -/
def pctStep (ok : UInt8 → Bool) : PctState → UInt8 → Option PctState
  | .plain, b => if b = percent then some .twoDigits else if ok b then some .plain else none
  | .twoDigits, b => if PercentCode.isHex b then some .oneDigit else none
  | .oneDigit, b => if PercentCode.isHex b then some .plain else none

/-- Every byte is one of `ok` or part of a complete `%XX`. -/
def pctValid (ok : UInt8 → Bool) (s : Bytes) : Bool :=
  s.foldlM (pctStep ok) PctState.plain == some .plain

section PctValid

variable {ok : UInt8 → Bool}

@[simp] theorem pctValid_nil : pctValid ok [] = true := rfl

/-- A byte that stands for itself separates percent-encoded text. -/
theorem pctValid_append_sep {sep : UInt8} (hok : ok sep = true) (hp : sep ≠ percent)
    (hx : PercentCode.isHex sep = false) (s t : Bytes) :
    pctValid ok (s ++ sep :: t) = (pctValid ok s && pctValid ok t) := by
  simp only [pctValid, List.foldlM_append, List.foldlM_cons]
  cases hs : List.foldlM (pctStep ok) PctState.plain s with
  | none => rfl
  | some st =>
      cases st with
      | plain => simp [pctStep, hok, hp]
      | twoDigits => simp [pctStep, hx]
      | oneDigit => simp [pctStep, hx]

theorem mem_of_foldlM_pctStep {s : Bytes} {st st' : PctState}
    (h : s.foldlM (pctStep ok) st = some st') {b : UInt8} (hb : b ∈ s) :
    ok b = true ∨ b = percent ∨ PercentCode.isHex b = true := by
  induction s generalizing st with
  | nil => simp at hb
  | cons c rest ih =>
      rw [List.foldlM_cons] at h
      cases hstep : pctStep ok st c with
      | none => rw [hstep] at h; simp at h
      | some st₁ =>
          rw [hstep] at h
          rcases List.mem_cons.1 hb with rfl | hb
          · cases st <;> simp only [pctStep] at hstep <;> split at hstep <;> simp_all
          · exact ih h hb

theorem mem_of_pctValid {s : Bytes} (h : pctValid ok s = true) {b : UInt8} (hb : b ∈ s) :
    ok b = true ∨ b = percent ∨ PercentCode.isHex b = true :=
  mem_of_foldlM_pctStep (by simpa [pctValid] using h) hb

/-- A byte that may not stand there stands nowhere. -/
theorem not_mem_of_pctValid {s : Bytes} (h : pctValid ok s = true) {b : UInt8}
    (hok : ok b = false) (hp : b ≠ percent) (hx : PercentCode.isHex b = false) : b ∉ s := by
  intro hb
  rcases mem_of_pctValid h hb with h | h | h
  · simp [hok] at h
  · exact hp h
  · simp [hx] at h

theorem foldlM_pctStep_downcase (hok : ∀ b, ok b = true → ok (lower b) = true) {s : Bytes}
    {st st' : PctState} (h : s.foldlM (pctStep ok) st = some st') :
    (downcase s).foldlM (pctStep ok) st = some st' := by
  have hhex : ∀ b, PercentCode.isHex b = true → PercentCode.isHex (lower b) = true := by
    decide +kernel
  have hper : ∀ b, lower b = percent ↔ b = percent := fun b => lower_eq_iff (by decide)
  induction s generalizing st with
  | nil => exact h
  | cons c rest ih =>
      rw [List.foldlM_cons] at h
      cases hstep : pctStep ok st c with
      | none => rw [hstep] at h; simp at h
      | some st₁ =>
          rw [hstep] at h
          have hlow : pctStep ok st (lower c) = some st₁ := by
            cases st with
            | plain =>
                simp only [pctStep, hper] at hstep ⊢
                by_cases hc : c = percent
                · simpa [hc] using hstep
                · rw [if_neg hc] at hstep ⊢
                  by_cases hokc : ok c
                  · simpa [hokc, hok c hokc] using hstep
                  · simp [hokc] at hstep
            | twoDigits =>
                simp only [pctStep] at hstep ⊢
                by_cases hx : PercentCode.isHex c
                · simpa [hx, hhex c hx] using hstep
                · simp [hx] at hstep
            | oneDigit =>
                simp only [pctStep] at hstep ⊢
                by_cases hx : PercentCode.isHex c
                · simpa [hx, hhex c hx] using hstep
                · simp [hx] at hstep
          rw [downcase, List.map_cons, List.foldlM_cons, hlow]
          exact ih h

theorem pctValid_downcase (hok : ∀ b, ok b = true → ok (lower b) = true) {s : Bytes}
    (h : pctValid ok s = true) : pctValid ok (downcase s) = true := by
  simp only [pctValid, beq_iff_eq] at h ⊢
  exact foldlM_pctStep_downcase hok h

end PctValid

/-! ## Character classes of the grammar -/

namespace Uri

def isUnreserved (b : UInt8) : Bool :=
  isAlnum b || b == minus || b == dot || b == underscore || b == tilde

def isSubDelim (b : UInt8) : Bool := (ascii "!$&'()*+,;=").contains b

def isRegNameChar (b : UInt8) : Bool := isUnreserved b || isSubDelim b

def isUserinfoChar (b : UInt8) : Bool := isRegNameChar b || b == colon

def isPchar (b : UInt8) : Bool := isRegNameChar b || b == colon || b == at'

def isPathChar (b : UInt8) : Bool := isPchar b || b == slash

def isFragmentChar (b : UInt8) : Bool := isPathChar b || b == question

/-- Any visible ASCII byte but `#`: a query may hold more than the grammar of RFC 3986 gives it. -/
def isQueryChar (b : UInt8) : Bool := decide (space < b) && decide (b < 127) && b != sharp

/-- `[!$-&(-;=?-_a-~]`: the bytes that a query keeps when it is stored. -/
def isAssignedQueryChar (b : UInt8) : Bool :=
  b == 33 || (decide (36 ≤ b) && decide (b ≤ 38)) || (decide (40 ≤ b) && decide (b ≤ 59)) ||
    b == 61 || (decide (63 ≤ b) && decide (b ≤ 95)) || (decide (97 ≤ b) && decide (b ≤ 126))

/-- A query as it is stored: bytes outside the class are percent-encoded. -/
def storeQuery (q : Bytes) : Bytes := PercentCode.encode isAssignedQueryChar q

theorem isQueryChar_of_assigned {b : UInt8} (h : isAssignedQueryChar b = true) :
    isQueryChar b = true := by
  have hassigned : ∀ b, isAssignedQueryChar b = true → isQueryChar b = true := by
    grind [isAssignedQueryChar, isQueryChar]
  exact hassigned b h

theorem isAssignedQueryChar_of_mem_storeQuery {q : Bytes} :
    ∀ b ∈ storeQuery q, isAssignedQueryChar b = true := by
  have hdigit : ∀ b, PercentCode.isUpperHex b = true → isAssignedQueryChar b = true := by
    grind [PercentCode.isUpperHex, isAssignedQueryChar, isDigit]
  intro b hb
  rcases PercentCode.mem_encode hb with h | rfl | h
  · exact h
  · decide
  · exact hdigit b h

theorem isQueryChar_of_mem_storeQuery {q : Bytes} : ∀ b ∈ storeQuery q, isQueryChar b = true :=
  fun b hb => isQueryChar_of_assigned (isAssignedQueryChar_of_mem_storeQuery b hb)

theorem storeQuery_of_assigned {q : Bytes} (h : ∀ b ∈ q, isAssignedQueryChar b = true) :
    storeQuery q = q := PercentCode.encode_of_forall_safe h

/-- What is stored stays as it is. -/
@[simp] theorem storeQuery_storeQuery (q : Bytes) : storeQuery (storeQuery q) = storeQuery q :=
  storeQuery_of_assigned isAssignedQueryChar_of_mem_storeQuery

def isSchemeChar (b : UInt8) : Bool := isLower b || isDigit b || b == plus || b == minus || b == dot

/-- A letter, then letters, digits, `+`, `-` and `.`, in lower case. -/
def validScheme (s : Bytes) : Bool :=
  match s with
  | [] => false
  | b :: rest => isLower b && rest.all isSchemeChar

/-- A bracketed IP literal (its inside checked by its characters) or a registered name. -/
def validHost (s : Bytes) : Bool :=
  match s with
  | [] => true
  | b :: rest =>
    if b = lbracket then
      rest.getLast? == some rbracket && rest.dropLast.all isUserinfoChar && rest.length != 1
    else pctValid isRegNameChar (b :: rest)

theorem validHost_downcase {h : Bytes} (hv : validHost h = true) :
    validHost (downcase h) = true := by
  have hreg : ∀ b, isRegNameChar b = true → isRegNameChar (lower b) = true := by decide +kernel
  have huser : ∀ b, isUserinfoChar b = true → isUserinfoChar (lower b) = true := by decide +kernel
  cases h with
  | nil => rfl
  | cons b rest =>
      have hb : lower b = lbracket ↔ b = lbracket := lower_eq_iff (by decide)
      rw [validHost] at hv
      rw [downcase, List.map_cons, validHost]
      by_cases hl : b = lbracket
      · rw [if_pos hl] at hv
        rw [if_pos (hb.2 hl)]
        simp only [Bool.and_eq_true, beq_iff_eq, List.all_eq_true] at hv ⊢
        obtain ⟨⟨hlast, hall⟩, hlen⟩ := hv
        refine ⟨⟨by rw [List.getLast?_map, hlast]; rfl, ?_⟩, by rw [List.length_map]; exact hlen⟩
        intro c hc
        rw [← List.map_dropLast] at hc
        obtain ⟨d, hd, rfl⟩ := List.mem_map.1 hc
        exact huser d (hall d hd)
      · rw [if_neg hl] at hv
        rw [if_neg (fun h => hl (hb.1 h))]
        exact pctValid_downcase hreg hv

/-! ## Decimal numbers -/

def decimal (n : Nat) : Bytes := (Nat.toDigits 10 n).map (fun c => UInt8.ofNat c.toNat)

def ofDecimal (s : Bytes) : Nat := s.foldl (fun acc d => 10 * acc + (d.toNat - 48)) 0

theorem isDigit_decimal {n : Nat} {b : UInt8} (h : b ∈ decimal n) : isDigit b = true := by
  obtain ⟨c, hc, rfl⟩ := List.mem_map.1 h
  have hd := Nat.isDigit_of_mem_toDigits (by omega) (by omega) hc
  rw [Char.isDigit_iff_toNat] at hd
  obtain ⟨h1, h2⟩ := hd
  have : ∀ k : Nat, 48 ≤ k → k ≤ 57 → isDigit (UInt8.ofNat k) = true := by
    intro k hk1 hk2
    interval_cases k <;> decide
  exact this _ h1 h2

theorem decimal_ne_nil (n : Nat) : decimal n ≠ [] := by
  simp [decimal, Nat.toDigits_ne_nil]

theorem ofDecimal_decimal (n : Nat) : ofDecimal (decimal n) = n := by
  have key : ∀ (cs : List Char) (acc : Nat), (∀ c ∈ cs, c.isDigit = true) →
      (cs.map (fun c => UInt8.ofNat c.toNat)).foldl (fun acc d => 10 * acc + (d.toNat - 48)) acc
        = Nat.ofDigitChars 10 cs acc := by
    intro cs
    induction cs with
    | nil => intro acc _; simp
    | cons c rest ih =>
        intro acc hd
        have hc := (Char.isDigit_iff_toNat).1 (hd c List.mem_cons_self)
        have hb : (UInt8.ofNat c.toNat).toNat = c.toNat := by
          simp only [UInt8.toNat_ofNat']
          have h9 : '9'.toNat = 57 := rfl
          exact Nat.mod_eq_of_lt (by have := hc.2; omega)
        rw [List.map_cons, List.foldl_cons, Nat.ofDigitChars_cons, hb,
          ih _ (fun c hc => hd c (List.mem_cons_of_mem _ hc))]
        rfl
  rw [ofDecimal, decimal, key _ 0 (fun c hc =>
    Nat.isDigit_of_mem_toDigits (by omega) (by omega) hc), Nat.ofDigitChars_ten_toDigits]

end Uri

/-! ## References -/

structure Uri where
  scheme : Option Bytes
  userinfo : Option Bytes
  host : Option Bytes
  port : Option Nat
  path : Bytes
  query : Option Bytes
  fragment : Option Bytes
  deriving DecidableEq, Repr

namespace Uri

/-- The path as it may stand after the components before it: empty or absolute after an
    authority, not beginning with `//` without one, no colon in the first segment of a
    relative reference. -/
def validPathStart (u : Uri) : Bool :=
  match u.host with
  | some _ => u.path.isEmpty || u.path.head? == some slash
  | none => !startsWith [slash, slash] u.path &&
      (u.scheme.isSome || !((cut slash u.path).1.contains colon))

/-- The grammar of the components. -/
def Valid (u : Uri) : Prop :=
  (∀ s ∈ u.scheme, validScheme s = true) ∧
  (∀ i ∈ u.userinfo, pctValid isUserinfoChar i = true ∧ u.host.isSome = true) ∧
  (∀ h ∈ u.host, validHost h = true) ∧
  (u.port.isSome = true → u.host.isSome = true) ∧
  pctValid isPathChar u.path = true ∧ u.validPathStart = true ∧
  (∀ q ∈ u.query, q.all isQueryChar = true) ∧
  (∀ f ∈ u.fragment, pctValid isFragmentChar f = true)

instance (u : Uri) : Decidable u.Valid := by unfold Valid; infer_instance

/-! ## Stored references -/

/-- Text after the scheme that is neither empty nor begins with a slash: the reference has no path. -/
def isOpaque (u : Uri) : Bool := u.scheme.isSome && !u.path.isEmpty && u.path.head? != some slash

theorem isOpaque_of_host {u : Uri} (hu : u.Valid) (hh : u.host.isSome = true) :
    u.isOpaque = false := by
  obtain ⟨h, hh⟩ := Option.isSome_iff_exists.1 hh
  have hstart := hu.2.2.2.2.2.1
  rw [validPathStart, hh] at hstart
  rcases Bool.or_eq_true_iff.1 hstart with hp | hp
  · simp [isOpaque, hp]
  · simp [isOpaque, beq_iff_eq.1 hp]

theorem isOpaque_of_scheme {u : Uri} (hs : u.scheme = none) : u.isOpaque = false := by
  simp [isOpaque, hs]

/-- The reference with its query as it is stored. -/
def store (u : Uri) : Uri :=
  { u with query := if u.isOpaque then u.query else u.query.map storeQuery }

theorem isOpaque_store (u : Uri) : u.store.isOpaque = u.isOpaque := rfl

theorem valid_store {u : Uri} (hu : u.Valid) : u.store.Valid := by
  obtain ⟨h1, h2, h3, h4, h5, h6, h7, h8⟩ := hu
  refine ⟨h1, h2, h3, h4, h5, h6, ?_, h8⟩
  intro q hq
  simp only [store] at hq
  split at hq
  · exact h7 q hq
  · obtain ⟨q', -, rfl⟩ := Option.map_eq_some_iff.1 hq
    exact List.all_eq_true.2 isQueryChar_of_mem_storeQuery

/-- A reference is stored where its query is, or where it has no path. -/
theorem store_eq_iff {u : Uri} :
    u.store = u ↔ u.isOpaque = true ∨ ∀ q ∈ u.query, storeQuery q = q := by
  cases u with
  | mk scheme userinfo host port path query fragment =>
      simp only [store, Uri.mk.injEq, true_and, and_true]
      split
      · next h => simp [h]
      · next h => cases query <;> simp [h]

/-- The query is written as it is stored. -/
def QueryStored (u : Uri) : Prop := ∀ q ∈ u.query, storeQuery q = q

instance (u : Uri) : Decidable u.QueryStored := by unfold QueryStored; infer_instance

theorem QueryStored.store_eq {u : Uri} (h : u.QueryStored) : u.store = u := store_eq_iff.2 (.inr h)

@[simp] theorem store_store (u : Uri) : u.store.store = u.store := by
  rw [store_eq_iff, isOpaque_store]
  by_cases h : u.isOpaque = true
  · exact .inl h
  · right
    intro q hq
    rw [store, if_neg h] at hq
    obtain ⟨q', -, rfl⟩ := Option.map_eq_some_iff.1 hq
    exact storeQuery_storeQuery q'

/-! ## Recomposition -/

def printScheme : Option Bytes → Bytes
  | none => []
  | some s => s ++ [colon]

def printUserinfo : Option Bytes → Bytes
  | none => []
  | some i => i ++ [at']

def printPort : Option Nat → Bytes
  | none => []
  | some p => colon :: decimal p

def printAuthority (u : Uri) : Bytes :=
  match u.host with
  | none => []
  | some h => [slash, slash] ++ (printUserinfo u.userinfo ++ (h ++ printPort u.port))

def printHierarchy (u : Uri) : Bytes := printScheme u.scheme ++ (printAuthority u ++ u.path)

/-- The text of a reference. -/
def print (u : Uri) : Bytes :=
  uncut sharp (uncut question (printHierarchy u, u.query), u.fragment)

/-! ## Parsing -/

/-- The scheme in front of the first colon, if what stands there is one. Case is folded, as the
    Ruby parser does. -/
def splitScheme (s : Bytes) : Option Bytes × Bytes :=
  match cut colon s with
  | (x, some rest) => if validScheme (downcase x) then (some (downcase x), rest) else (none, s)
  | (_, none) => (none, s)

def splitUserinfo (s : Bytes) : Option Bytes × Bytes :=
  match cut at' s with
  | (x, some rest) => (some x, rest)
  | (_, none) => (none, s)

/-- The port after a colon; an empty one counts as absent. -/
def readPort : Option Bytes → Option (Option Nat)
  | none => some none
  | some ds => if ds.all isDigit then some (if ds.isEmpty then none else some (ofDecimal ds)) else none

/-- Host and port; the colons inside a bracketed literal belong to the host. -/
def splitPort (s : Bytes) : Option (Bytes × Option Nat) :=
  match s with
  | [] => some ([], none)
  | b :: _ =>
    if b = lbracket then
      match cut rbracket s with
      | (h, some []) => some (h ++ [rbracket], none)
      | (h, some (c :: ds)) =>
        if c = colon then (readPort (some ds)).map (fun p => (h ++ [rbracket], p)) else none
      | (_, none) => none
    else (readPort (cut colon s).2).map (fun p => ((cut colon s).1, p))

/-- The components of scheme-less text: an authority after `//`, then the path. -/
def splitHierarchy (s : Bytes) : Option (Option Bytes × Option Bytes × Option Nat × Bytes) :=
  match s with
  | a :: b :: rest =>
    if a = slash ∧ b = slash then
      let authority := rest.takeWhile (· != slash)
      let path := rest.dropWhile (· != slash)
      (splitPort (splitUserinfo authority).2).map
        (fun hp => ((splitUserinfo authority).1, some hp.1, hp.2, path))
    else some (none, none, none, s)
  | _ => some (none, none, none, s)

/-- Split into components. -/
def split (s : Bytes) : Option Uri :=
  let front := (cut sharp s).1
  let hierarchy := (cut question front).1
  (splitHierarchy (splitScheme hierarchy).2).map (fun c =>
    { scheme := (splitScheme hierarchy).1
      userinfo := c.1
      host := c.2.1
      port := c.2.2.1
      path := c.2.2.2
      query := (cut question front).2
      fragment := (cut sharp s).2 })

/-- The reference a string denotes, with its query as it is written, if its components are valid. -/
def reference (s : Bytes) : Option Uri := (split s).filter (fun u => decide u.Valid)

/-- The reference a string denotes, with its query stored. -/
def parse (s : Bytes) : Option Uri := (reference s).map store

theorem valid_of_reference {s : Bytes} {u : Uri} (h : reference s = some u) : u.Valid := by
  simpa using (Option.filter_eq_some_iff.1 h).2

theorem parse_eq_some {s : Bytes} {u : Uri} :
    parse s = some u ↔ ∃ v, split s = some v ∧ v.Valid ∧ v.store = u := by
  simp [parse, reference, Option.filter_eq_some_iff, and_assoc]

theorem valid_of_parse {s : Bytes} {u : Uri} (h : parse s = some u) : u.Valid := by
  obtain ⟨v, -, hv, rfl⟩ := parse_eq_some.1 h
  exact valid_store hv

/-! ## Bytes kept out of the components -/

theorem not_mem_of_validScheme {s : Bytes} (h : validScheme s = true) {b : UInt8}
    (hb : isSchemeChar b = false) : b ∉ s := by
  cases s with
  | nil => simp
  | cons c rest =>
      simp only [validScheme, Bool.and_eq_true, List.all_eq_true] at h
      have hc : isSchemeChar c = true := by simp [isSchemeChar, h.1]
      rw [List.mem_cons, not_or]
      constructor
      · rintro rfl; simp [hb] at hc
      · intro hm; simp [h.2 b hm] at hb

theorem downcase_of_validScheme {s : Bytes} (h : validScheme s = true) : downcase s = s := by
  have hlow : ∀ b, isSchemeChar b = true → lower b = b := by decide +kernel
  refine (List.map_congr_left ?_).trans (List.map_id s)
  intro b hb
  by_cases hc : isSchemeChar b = true
  · exact hlow b hc
  · exact absurd hb (not_mem_of_validScheme h (by simpa using hc))

theorem not_mem_of_validHost {h : Bytes} (hv : validHost h = true) {b : UInt8}
    (hb : isUserinfoChar b = false) (hl : b ≠ lbracket) (hr : b ≠ rbracket) (hp : b ≠ percent)
    (hx : PercentCode.isHex b = false) : b ∉ h := by
  have hreg : isRegNameChar b = false := by
    simp only [isUserinfoChar, Bool.or_eq_false_iff] at hb
    exact hb.1
  cases h with
  | nil => simp
  | cons c rest =>
      rw [validHost] at hv
      by_cases hc : c = lbracket
      · rw [if_pos hc] at hv
        simp only [Bool.and_eq_true, beq_iff_eq, List.all_eq_true] at hv
        obtain ⟨⟨hlast, hall⟩, _⟩ := hv
        rw [List.mem_cons, not_or]
        refine ⟨fun he => hl (he.trans hc), fun hm => ?_⟩
        rw [← List.dropLast_append_getLast? _ hlast, List.mem_append, List.mem_singleton] at hm
        rcases hm with hm | hm
        · simp [hall b hm] at hb
        · exact hr hm
      · rw [if_neg hc] at hv
        exact not_mem_of_pctValid hv hreg hp hx

theorem not_mem_decimal {n : Nat} {b : UInt8} (hb : isDigit b = false) : b ∉ decimal n := by
  intro h
  simp [isDigit_decimal h] at hb

theorem not_mem_printPort {p : Option Nat} {b : UInt8} (hd : isDigit b = false) (hc : b ≠ colon) :
    b ∉ printPort p := by
  cases p with
  | none => simp [printPort]
  | some n => simp [printPort, hc, not_mem_decimal hd]

/-- What may stand nowhere before the query. -/
theorem not_mem_printHierarchy {u : Uri} (hu : u.Valid) {b : UInt8} (hb : isPathChar b = false)
    (hl : b ≠ lbracket) (hr : b ≠ rbracket) (hp : b ≠ percent)
    (hx : PercentCode.isHex b = false) : b ∉ printHierarchy u := by
  obtain ⟨hscheme, huser, hhost, _, hpath, _⟩ := hu
  have hcls : ∀ b, isPathChar b = false → isSchemeChar b = false ∧ isUserinfoChar b = false ∧
      isDigit b = false ∧ b ≠ colon ∧ b ≠ slash ∧ b ≠ at' := by decide +kernel
  obtain ⟨hsc, hui, hdg, hco, hsl, hat⟩ := hcls b hb
  rw [printHierarchy, List.mem_append, List.mem_append, not_or, not_or]
  refine ⟨?_, ?_, not_mem_of_pctValid hpath hb hp hx⟩
  · cases hs : u.scheme with
    | none => simp [printScheme]
    | some s => simp [printScheme, not_mem_of_validScheme (hscheme s hs) hsc, hco]
  · rw [printAuthority]
    cases hh : u.host with
    | none => simp
    | some h =>
        have hnot := not_mem_of_validHost (hhost h hh) hui hl hr hp hx
        have hport := not_mem_printPort (p := u.port) hdg hco
        cases hi : u.userinfo with
        | none => simp [printUserinfo, hsl, hnot, hport]
        | some i =>
            have hin := not_mem_of_pctValid (huser i hi).1 hui hp hx
            simp [printUserinfo, hsl, hnot, hport, hin, hat]

/-! ## What the first byte says -/

/-- What stands before query and fragment. -/
def front (s : Bytes) : Bytes := (cut question (cut sharp s).1).1

/-- The front of text that goes on with a query. -/
theorem front_of_query {s : Bytes} (hsharp : sharp ∉ s) (hquestion : question ∉ s) (t : Bytes) :
    front (s ++ question :: t) = s := by
  have hne : question ≠ sharp := by decide
  rw [front, cut_append_left hsharp, cut, if_neg hne]
  simp only [cut_append hquestion]

/-- The query as it is written. -/
def queryPart (s : Bytes) : Option Bytes := (cut question (cut sharp s).1).2

theorem components_of_split {s : Bytes} {u : Uri} (h : split s = some u) :
    u.scheme = (splitScheme (front s)).1 ∧
      splitHierarchy (splitScheme (front s)).2 = some (u.userinfo, u.host, u.port, u.path) ∧
      u.query = queryPart s ∧ u.fragment = (cut sharp s).2 := by
  rw [split, Option.map_eq_some_iff] at h
  obtain ⟨⟨i, g, p, t⟩, hc, rfl⟩ := h
  exact ⟨rfl, hc, rfl, rfl⟩

/-- The components of parsed text, from the front of it. -/
theorem components_of_parse {s : Bytes} {u : Uri} (h : parse s = some u) :
    u.scheme = (splitScheme (front s)).1 ∧
      splitHierarchy (splitScheme (front s)).2 = some (u.userinfo, u.host, u.port, u.path) ∧
      (u.query = if u.isOpaque then queryPart s else (queryPart s).map storeQuery) ∧
      u.fragment = (cut sharp s).2 := by
  obtain ⟨v, hv, -, rfl⟩ := parse_eq_some.1 h
  obtain ⟨hs, hh, hq, hf⟩ := components_of_split hv
  refine ⟨hs, hh, ?_, hf⟩
  rw [isOpaque_store, ← hq]
  rfl

/-- Text that begins with a slash has no scheme in front. -/
theorem splitScheme_of_slash {s : Bytes} (h : s.head? = some slash) :
    splitScheme s = (none, s) := by
  rw [splitScheme]
  cases hcut : cut colon s with
  | mk x rest =>
      cases rest with
      | none => rfl
      | some rest =>
          have hx : x.head? = some slash := by
            have hx := head?_cut_fst.2 ⟨h, show slash ≠ colon by decide⟩
            rwa [hcut] at hx
          have hmem : slash ∈ downcase x :=
            (mem_downcase_iff (by decide) x).2 (List.mem_of_mem_head? hx)
          have hno : validScheme (downcase x) = false := by
            by_contra hv
            rw [Bool.not_eq_false] at hv
            exact not_mem_of_validScheme hv (by decide) hmem
          simp [hno]

theorem head?_front {s : Bytes} : (front s).head? = some slash ↔ s.head? = some slash := by
  have h1 : slash ≠ sharp := by decide
  have h2 : slash ≠ question := by decide
  rw [front, head?_cut_fst, head?_cut_fst]
  simp [h1, h2]

theorem scheme_of_slash {s : Bytes} {u : Uri} (h : parse s = some u) (hs : s.head? = some slash) :
    u.scheme = none := by
  rw [(components_of_parse h).1, splitScheme_of_slash (head?_front.2 hs)]

/-- Without a scheme nothing is cut off. -/
theorem splitScheme_of_none {s : Bytes} (h : (splitScheme s).1 = none) : (splitScheme s).2 = s := by
  rw [splitScheme] at h ⊢
  split at h
  · split at h
    · simp at h
    · next hv => simp [hv]
  · rfl

/-- The path is the whole text, or what follows an authority. -/
theorem splitHierarchy_cases {s t : Bytes} {i h : Option Bytes} {p : Option Nat}
    (hs : splitHierarchy s = some (i, h, p, t)) :
    (h = none ∧ i = none ∧ p = none ∧ t = s ∧ startsWith [slash, slash] s = false) ∨
      ∃ authority host, s = slash :: slash :: (authority ++ t) ∧ h = some host ∧
        i = (splitUserinfo authority).1 ∧
        splitPort (splitUserinfo authority).2 = some (host, p) := by
  unfold splitHierarchy at hs
  split at hs
  · next a b rest =>
      split_ifs at hs with hab
      · right
        rw [Option.map_eq_some_iff] at hs
        obtain ⟨⟨g, q⟩, hg, heq⟩ := hs
        simp only [Prod.mk.injEq] at heq
        obtain ⟨hi, hh, hp, ht⟩ := heq
        refine ⟨rest.takeWhile (· != slash), g, ?_, hh.symm, hi.symm, hp ▸ hg⟩
        rw [hab.1, hab.2, ← ht, List.takeWhile_append_dropWhile]
      · left
        simp only [Option.some.injEq, Prod.mk.injEq] at hs
        obtain ⟨rfl, rfl, rfl, rfl⟩ := hs
        refine ⟨rfl, rfl, rfl, rfl, ?_⟩
        by_contra hc
        rw [Bool.not_eq_false, startsWith_iff, List.cons_prefix_cons, List.cons_prefix_cons] at hc
        exact hab ⟨hc.1.symm, hc.2.1.symm⟩
  · next hno =>
      left
      simp only [Option.some.injEq, Prod.mk.injEq] at hs
      obtain ⟨rfl, rfl, rfl, rfl⟩ := hs
      refine ⟨rfl, rfl, rfl, rfl, ?_⟩
      by_contra hc
      rw [Bool.not_eq_false, startsWith_iff] at hc
      obtain ⟨rest, hrest⟩ := hc
      exact hno _ _ _ hrest.symm

/-- The front of text without scheme: its path, or two slashes, an authority and its path. -/
theorem front_of_parse {s : Bytes} {u : Uri} (h : parse s = some u) (hs : u.scheme = none) :
    (u.host = none ∧ front s = u.path ∧ startsWith [slash, slash] (front s) = false) ∨
      ∃ authority, u.host.isSome = true ∧ front s = slash :: slash :: (authority ++ u.path) := by
  obtain ⟨hscheme, hhier, -, -⟩ := components_of_parse h
  rw [splitScheme_of_none (hscheme.symm.trans hs)] at hhier
  rcases splitHierarchy_cases hhier with ⟨hh, -, -, hp, hno⟩ | ⟨a, g, ha, hg, -, -⟩
  · exact .inl ⟨hh, hp.symm, hno⟩
  · exact .inr ⟨a, by simp [hg], ha⟩

/-- A host without a scheme stands after two slashes. -/
theorem slash_of_host {s : Bytes} {u : Uri} (h : parse s = some u) (hs : u.scheme = none)
    (hh : u.host.isSome = true) : s.head? = some slash := by
  rw [← head?_front]
  rcases front_of_parse h hs with ⟨hnone, -, -⟩ | ⟨a, -, hfront⟩
  · simp [hnone] at hh
  · rw [hfront, List.head?_cons]

/-- Text with a host has a slash. -/
theorem slash_mem_of_host {s : Bytes} {u : Uri} (h : parse s = some u) (hh : u.host.isSome = true) :
    slash ∈ s := by
  obtain ⟨-, hhier, -, -⟩ := components_of_parse h
  rcases splitHierarchy_cases hhier with ⟨hnone, -⟩ | ⟨authority, host, hrest, -⟩
  · simp [hnone] at hh
  · have hmem : slash ∈ (splitScheme (front s)).2 := by
      rw [hrest]
      exact List.mem_cons_self
    -- a scheme is cut off in front only
    have hfront : slash ∈ front s := by
      rw [splitScheme] at hmem
      split at hmem
      · next x rest hcut =>
          split at hmem
          · exact mem_of_mem_cut_snd (by rw [hcut]) hmem
          · exact hmem
      · exact hmem
    exact mem_of_mem_cut_fst (mem_of_mem_cut_fst hfront)

/-! ## Parsed text is visible ASCII -/

theorem not_mem_of_cut {sep b : UInt8} {s : Bytes} (hne : b ≠ sep) (h₁ : b ∉ (cut sep s).1)
    (h₂ : ∀ t ∈ (cut sep s).2, b ∉ t) : b ∉ s := by
  rw [← uncut_cut sep s]
  cases hcut : cut sep s with
  | mk x r =>
      rw [hcut] at h₁ h₂
      cases r with
      | none => exact h₁
      | some t =>
          have ht : b ∉ t := h₂ t rfl
          simp only [uncut, List.mem_append, List.mem_cons, not_or]
          exact ⟨h₁, hne, ht⟩

/-- A byte that is not visible ASCII is in no component, and no separator. -/
theorem classes_of_not_visible : ∀ b, isQueryChar b = false → b ≠ sharp →
    lower b = b ∧ isSchemeChar b = false ∧ isUserinfoChar b = false ∧ isPathChar b = false ∧
      isFragmentChar b = false ∧ isDigit b = false ∧ PercentCode.isHex b = false ∧ b ≠ percent ∧
      b ≠ colon ∧ b ≠ slash ∧ b ≠ at' ∧ b ≠ lbracket ∧ b ≠ rbracket ∧ b ≠ question := by
  decide +kernel

variable {b : UInt8}

theorem not_mem_of_splitScheme {s : Bytes} (hb : isQueryChar b = false) (hne : b ≠ sharp)
    (hrest : b ∉ (splitScheme s).2) : b ∉ s := by
  obtain ⟨hlow, hsc, -, -, -, -, -, -, hco, -⟩ := classes_of_not_visible b hb hne
  rw [splitScheme] at hrest
  cases hcut : cut colon s with
  | mk x r =>
      cases r with
      | none => simpa [hcut] using hrest
      | some rest =>
          by_cases hv : validScheme (downcase x) = true
          · simp only [hcut, hv, if_true] at hrest
            refine not_mem_of_cut hco ?_ (by simpa [hcut] using hrest)
            rw [hcut]
            exact fun hm => not_mem_of_validScheme hv hsc (List.mem_map.2 ⟨b, hm, hlow⟩)
          · simpa [hcut, hv] using hrest

theorem not_mem_of_readPort {ds : Bytes} {p : Option Nat} (hb : isDigit b = false)
    (h : readPort (some ds) = some p) : b ∉ ds := by
  rw [readPort] at h
  have hall : ds.all isDigit = true := by
    by_contra hno
    simp [hno] at h
  intro hm
  simp [List.all_eq_true.1 hall b hm] at hb

theorem not_mem_of_splitPort {s h : Bytes} {p : Option Nat} (hb : isQueryChar b = false)
    (hne : b ≠ sharp) (hs : splitPort s = some (h, p)) (hh : b ∉ h) : b ∉ s := by
  obtain ⟨-, -, -, -, -, hdig, -, -, hco, -, -, -, hrb, -⟩ := classes_of_not_visible b hb hne
  unfold splitPort at hs
  split at hs
  · simp
  · split_ifs at hs
    · -- a bracketed literal, and nothing or a port after it
      split at hs
      · next g hcut =>
          simp only [Option.some.injEq, Prod.mk.injEq] at hs
          refine not_mem_of_cut hrb ?_ (by simp [hcut])
          rw [hcut]
          exact fun hm => hh (hs.1 ▸ List.mem_append_left _ hm)
      · next g c ds hcut =>
          split_ifs at hs with hc
          rw [Option.map_eq_some_iff] at hs
          obtain ⟨q, hq, heq⟩ := hs
          rw [Prod.mk.injEq] at heq
          refine not_mem_of_cut hrb ?_ ?_
          · rw [hcut]
            exact fun hm => hh (heq.1 ▸ List.mem_append_left _ hm)
          · rw [hcut]
            simp [hc, hco, not_mem_of_readPort hdig hq]
      · simp at hs
    · rw [Option.map_eq_some_iff] at hs
      obtain ⟨q, hq, heq⟩ := hs
      rw [Prod.mk.injEq] at heq
      refine not_mem_of_cut hco (heq.1 ▸ hh) fun ds hds => ?_
      rw [hds] at hq
      exact not_mem_of_readPort hdig hq

/-- **Parsed text is visible ASCII.** -/
theorem not_mem_of_parse {s : Bytes} {u : Uri} (h : parse s = some u) (hb : isQueryChar b = false)
    (hne : b ≠ sharp) : b ∉ s := by
  obtain ⟨v, hsplit, hvalid, -⟩ := parse_eq_some.1 h
  obtain ⟨-, huser, hhost, -, hpath, -, hquery, hfrag⟩ := hvalid
  obtain ⟨-, hhier, hq, hf⟩ := components_of_split hsplit
  obtain ⟨-, -, hui, hpa, hfr, -, hhex, hpct, -, hsl, hat, hlb, hrb, hqu⟩ :=
    classes_of_not_visible b hb hne
  have hpath := not_mem_of_pctValid hpath hpa hpct hhex
  have hhier : b ∉ (splitScheme (front s)).2 := by
    rcases splitHierarchy_cases hhier with ⟨-, -, -, ht, -⟩ | ⟨a, g, ha, hg, hi, hp⟩
    · exact ht ▸ hpath
    · have hgb : b ∉ g := not_mem_of_validHost (hhost g hg) hui hlb hrb hpct hhex
      have hport := not_mem_of_splitPort hb hne hp hgb
      have hauth : b ∉ a := by
        rw [splitUserinfo] at hi hport
        cases hcut : cut at' a with
        | mk x r =>
            cases r with
            | none => simpa [hcut] using hport
            | some rest =>
                simp only [hcut] at hi hport
                refine not_mem_of_cut hat ?_ (by simpa [hcut] using hport)
                rw [hcut]
                exact not_mem_of_pctValid (huser x hi).1 hui hpct hhex
      rw [ha]
      simp [hsl, hauth, hpath]
  refine not_mem_of_cut hne (not_mem_of_cut hqu (not_mem_of_splitScheme hb hne hhier) ?_) ?_
  · intro q hqm
    rw [queryPart] at hq
    rw [← hq] at hqm
    intro hm
    simp [List.all_eq_true.1 (hquery q hqm) b hm] at hb
  · intro f hfm
    rw [← hf] at hfm
    exact not_mem_of_pctValid (hfrag f hfm) hfr hpct hhex

/-! ## Reading a valid reference back -/

theorem readPort_decimal (n : Nat) : readPort (some (decimal n)) = some (some n) := by
  have hall : (decimal n).all isDigit = true :=
    List.all_eq_true.2 (fun b hb => isDigit_decimal hb)
  have hne : (decimal n).isEmpty = false := by
    simpa [List.isEmpty_iff] using decimal_ne_nil n
  rw [readPort, if_pos hall, hne, ofDecimal_decimal]
  rfl

theorem splitPort_print {h : Bytes} (hv : validHost h = true) (p : Option Nat) :
    splitPort (h ++ printPort p) = some (h, p) := by
  cases h with
  | nil =>
      cases p with
      | none => rfl
      | some n =>
          rw [List.nil_append, printPort, splitPort, if_neg (by decide), cut, if_pos rfl,
            readPort_decimal]
          rfl
  | cons c rest =>
      rw [validHost] at hv
      rw [List.cons_append, splitPort]
      by_cases hc : c = lbracket
      · rw [if_pos hc] at hv ⊢
        simp only [Bool.and_eq_true, beq_iff_eq, List.all_eq_true] at hv
        obtain ⟨⟨hlast, hall⟩, _⟩ := hv
        have hrest : rest = rest.dropLast ++ [rbracket] :=
          (List.dropLast_append_getLast? _ hlast).symm
        have hnot : rbracket ∉ c :: rest.dropLast := by
          rw [List.mem_cons, not_or]
          refine ⟨by rw [hc]; decide, fun hm => ?_⟩
          exact absurd (hall _ hm) (by decide)
        have hcut : cut rbracket (c :: (rest ++ printPort p))
            = (c :: rest.dropLast, some (printPort p)) := by
          rw [hrest, List.dropLast_concat, List.append_assoc, List.singleton_append,
            ← List.cons_append]
          exact cut_append hnot _
        rw [hcut]
        cases p with
        | none => simp [printPort, ← hrest]
        | some n => simp [printPort, readPort_decimal, ← hrest]
      · rw [if_neg hc] at hv ⊢
        have hnot : colon ∉ c :: rest :=
          not_mem_of_pctValid hv (by decide) (by decide) (by decide)
        rw [← List.cons_append]
        cases p with
        | none => simp [printPort, cut_of_not_mem hnot, readPort]
        | some n => rw [printPort, cut_append hnot, readPort_decimal]; rfl

theorem splitUserinfo_print {i : Option Bytes} (hi : ∀ x ∈ i, pctValid isUserinfoChar x = true)
    {t : Bytes} (ht : at' ∉ t) : splitUserinfo (printUserinfo i ++ t) = (i, t) := by
  cases i with
  | none => simp [printUserinfo, splitUserinfo, cut_of_not_mem ht]
  | some x =>
      have hx := not_mem_of_pctValid (hi x rfl) (b := at') (by decide) (by decide) (by decide)
      simp [printUserinfo, splitUserinfo, cut_append hx]

theorem takeWhile_append_sep {sep : UInt8} {a p : Bytes} (ha : sep ∉ a)
    (hp : p = [] ∨ p.head? = some sep) :
    (a ++ p).takeWhile (· != sep) = a ∧ (a ++ p).dropWhile (· != sep) = p := by
  have hall : ∀ b ∈ a, (b != sep) = true := by
    intro b hb
    simp only [bne_iff_ne, ne_eq]
    rintro rfl
    exact ha hb
  rw [List.takeWhile_append_of_pos hall, List.dropWhile_append_of_pos hall]
  rcases hp with rfl | hp
  · simp
  · cases p with
    | nil => simp at hp
    | cons c rest =>
        simp only [List.head?_cons, Option.some.injEq] at hp
        subst hp
        simp

theorem splitHierarchy_print {u : Uri} (hu : u.Valid) :
    splitHierarchy (printAuthority u ++ u.path) = some (u.userinfo, u.host, u.port, u.path) := by
  obtain ⟨_, huser, hhost, hport, _, hstart, _⟩ := hu
  cases hh : u.host with
  | none =>
      have hi : u.userinfo = none := by
        cases hi : u.userinfo with
        | none => rfl
        | some i => simp [hh] at huser; exact absurd hi (huser i)
      have hp : u.port = none := by
        cases hp : u.port with
        | none => rfl
        | some p => simp [hh, hp] at hport
      rw [hi, hp, printAuthority, hh, List.nil_append]
      rw [validPathStart, hh] at hstart
      simp only [Bool.and_eq_true, Bool.not_eq_true'] at hstart
      match hpath : u.path with
      | [] => rfl
      | [_] => rfl
      | a :: b :: rest =>
          rw [splitHierarchy, if_neg]
          rintro ⟨rfl, rfl⟩
          rw [hpath] at hstart
          simp [startsWith] at hstart
  | some h =>
      rw [validPathStart, hh] at hstart
      have hpath : u.path = [] ∨ u.path.head? = some slash := by simpa using hstart
      have hv := hhost h hh
      have hA : slash ∉ printUserinfo u.userinfo ++ (h ++ printPort u.port) := by
        have h1 := not_mem_of_validHost hv (b := slash) (by decide) (by decide) (by decide)
          (by decide) (by decide)
        have h2 := not_mem_printPort (p := u.port) (b := slash) (by decide) (by decide)
        cases hi : u.userinfo with
        | none => simp [printUserinfo, h1, h2]
        | some i =>
            have h3 := not_mem_of_pctValid (huser i hi).1 (b := slash) (by decide) (by decide)
              (by decide)
            simp [printUserinfo, h1, h2, h3, show slash ≠ at' by decide]
      have hat : at' ∉ h ++ printPort u.port := by
        have h1 := not_mem_of_validHost hv (b := at') (by decide) (by decide) (by decide)
          (by decide) (by decide)
        have h2 := not_mem_printPort (p := u.port) (b := at') (by decide) (by decide)
        simp [h1, h2]
      obtain ⟨htake, hdrop⟩ := takeWhile_append_sep hA hpath
      rw [printAuthority, hh]
      simp only [List.cons_append, List.nil_append, splitHierarchy, and_self, if_true]
      rw [htake, hdrop, splitUserinfo_print (fun x hx => (huser x hx).1) hat,
        splitPort_print hv]
      rfl

theorem splitScheme_print {u : Uri} (hu : u.Valid) :
    splitScheme (printHierarchy u) = (u.scheme, printAuthority u ++ u.path) := by
  obtain ⟨hscheme, _, _, _, _, hstart, _⟩ := hu
  rw [printHierarchy]
  cases hs : u.scheme with
  | some s =>
      have hv := hscheme s hs
      have hnot : colon ∉ s := not_mem_of_validScheme hv (by decide)
      rw [printScheme, List.append_assoc, List.singleton_append, splitScheme, cut_append hnot]
      simp only [downcase_of_validScheme hv, hv, if_true]
  | none =>
      rw [printScheme, List.nil_append, splitScheme]
      -- what stands before a colon begins with or contains a slash, so it is no scheme
      have key : ∀ x rest, cut colon (printAuthority u ++ u.path) = (x, some rest) →
          slash ∈ x := by
        intro x rest hcut
        cases hh : u.host with
        | some h =>
            have hfront : ∃ t, printAuthority u ++ u.path = slash :: t :=
              ⟨_, by rw [printAuthority, hh, List.append_assoc]; rfl⟩
            obtain ⟨t, ht⟩ := hfront
            rw [ht, cut, if_neg (by decide)] at hcut
            have hx := congrArg Prod.fst hcut
            simp only at hx
            rw [← hx]
            exact List.mem_cons_self
        | none =>
            rw [printAuthority, hh, List.nil_append] at hcut
            rw [validPathStart, hh, hs] at hstart
            simp only [Bool.and_eq_true, Option.isSome_none, Bool.false_or,
              Bool.not_eq_true', List.contains_eq_mem, decide_eq_false_iff_not] at hstart
            by_contra hsl
            apply hstart.2
            have hp : u.path = x ++ colon :: rest := by
              rw [← uncut_cut colon u.path, hcut]; rfl
            rw [hp, cut_append_left hsl, List.mem_append]
            right
            rw [cut, if_neg (by decide)]
            exact List.mem_cons_self
      cases hcut : cut colon (printAuthority u ++ u.path) with
      | mk x rest =>
          cases rest with
          | none => rfl
          | some rest =>
              have hsl := key x rest hcut
              have hno : validScheme (downcase x) = false := by
                by_contra hv
                rw [Bool.not_eq_false] at hv
                exact not_mem_of_validScheme hv (b := slash) (by decide)
                  ((mem_downcase_iff (by decide) x).2 hsl)
              simp [hno]

/-- The text of a valid reference is split into its components. -/
theorem split_print {u : Uri} (hu : u.Valid) : split (print u) = some u := by
  have hh : sharp ∉ printHierarchy u :=
    not_mem_printHierarchy hu (by decide) (by decide) (by decide) (by decide) (by decide)
  have hq : question ∉ printHierarchy u :=
    not_mem_printHierarchy hu (by decide) (by decide) (by decide) (by decide) (by decide)
  have hfront : sharp ∉ uncut question (printHierarchy u, u.query) := by
    cases hquery : u.query with
    | none => exact hh
    | some q =>
        have hall := hu.2.2.2.2.2.2.1 q hquery
        rw [List.all_eq_true] at hall
        have hnq : sharp ∉ q := fun hm => absurd (hall _ hm) (by decide)
        simp [uncut, hh, hnq, show sharp ≠ question by decide]
  simp only [split, print]
  rw [cut_uncut hfront, cut_uncut hq, splitScheme_print hu, splitHierarchy_print hu]
  rfl

/-- **A valid reference is read back from its text**, its query as it is stored. -/
theorem parse_print {u : Uri} (hu : u.Valid) : parse (print u) = some u.store :=
  parse_eq_some.2 ⟨u, split_print hu, hu, rfl⟩

/-- A reference that is stored is read back as it is. -/
theorem parse_print_of_store {u : Uri} (hu : u.Valid) (hs : u.store = u) : parse (print u) = some u := by
  rw [parse_print hu, hs]

/-- Valid references with the same text are the same. -/
theorem print_inj {u v : Uri} (hu : u.Valid) (hv : v.Valid) : print u = print v ↔ u = v := by
  constructor
  · intro h
    have hsplit := split_print hu
    rw [h, split_print hv] at hsplit
    exact (Option.some.inj hsplit).symm
  · rintro rfl; rfl

end Uri
