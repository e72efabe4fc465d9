import Mathlib

set_option autoImplicit false

/-! # Byte strings

Program strings are lists of bytes: percent-encoding, sorting and splitting all work on bytes, and
two strings are compared byte for byte. `ascii` turns a source literal into its bytes; the named
byte constants keep the separators of the wire formats readable.

The order is the byte order of the list type (`Std.IsLinearOrder`), so sorting is
`List.insertionSort (· ≤ ·)`, which also computes in the kernel. -/

/-- A byte string. -/
abbrev Bytes := List UInt8

instance : LawfulBEq Bytes := inferInstance

/-- The bytes of an ASCII literal. -/
def ascii (s : String) : Bytes := s.toList.map (fun c => UInt8.ofNat c.toNat)

namespace Bytes

/-! ## Named bytes -/

abbrev newline : UInt8 := 10
abbrev space : UInt8 := 32
abbrev quote : UInt8 := 34
abbrev sharp : UInt8 := 35
abbrev percent : UInt8 := 37
abbrev ampersand : UInt8 := 38
abbrev plus : UInt8 := 43
abbrev comma : UInt8 := 44
abbrev minus : UInt8 := 45
abbrev dot : UInt8 := 46
abbrev slash : UInt8 := 47
abbrev colon : UInt8 := 58
abbrev semicolon : UInt8 := 59
abbrev equal : UInt8 := 61
abbrev question : UInt8 := 63
abbrev at' : UInt8 := 64
abbrev lbracket : UInt8 := 91
abbrev rbracket : UInt8 := 93
abbrev underscore : UInt8 := 95
abbrev tilde : UInt8 := 126

/-! ## Character classes -/

def isDigit (b : UInt8) : Bool := decide (48 ≤ b) && decide (b ≤ 57)

def isUpper (b : UInt8) : Bool := decide (65 ≤ b) && decide (b ≤ 90)

def isLower (b : UInt8) : Bool := decide (97 ≤ b) && decide (b ≤ 122)

def isAlpha (b : UInt8) : Bool := isUpper b || isLower b

def isAlnum (b : UInt8) : Bool := isAlpha b || isDigit b

/-- Null, tab, line feed, vertical tab, form feed, carriage return and space. -/
def isSpace (b : UInt8) : Bool := b == 0 || (decide (9 ≤ b) && decide (b ≤ 13)) || b == space

/-! ## Case folding -/

/-- The ASCII lower-case form of a byte. -/
def lower (b : UInt8) : UInt8 := if isUpper b then b + 32 else b

def downcase (s : Bytes) : Bytes := s.map lower

@[simp] theorem lower_lower (b : UInt8) : lower (lower b) = lower b := by
  revert b; decide +kernel

@[simp] theorem downcase_downcase (s : Bytes) : downcase (downcase s) = downcase s := by
  simp [downcase]

@[simp] theorem ne_nil_of_downcase {s t : Bytes} (h : downcase s = t) (ht : t ≠ []) : s ≠ [] := by
  rintro rfl
  exact ht h.symm

theorem isAlpha_of_lower_ne (b : UInt8) (h : lower b ≠ b) :
    isAlpha b = true ∧ isAlpha (lower b) = true := by
  revert b; decide +kernel

/-- Folding neither makes nor unmakes a byte outside the letters. -/
theorem lower_eq_iff {b c : UInt8} (hc : isAlpha c = false) : lower b = c ↔ b = c := by
  by_cases hb : lower b = b
  · rw [hb]
  · obtain ⟨h1, h2⟩ := isAlpha_of_lower_ne b hb
    constructor
    · rintro rfl; simp [h2] at hc
    · rintro rfl; simp [h1] at hc

theorem mem_downcase_iff {c : UInt8} (hc : isAlpha c = false) (s : Bytes) :
    c ∈ downcase s ↔ c ∈ s := by
  simp [downcase, lower_eq_iff hc]

/-! ## Cutting -/

/-- Drop white space at both ends. -/
def strip (s : Bytes) : Bytes :=
  ((s.dropWhile isSpace).reverse.dropWhile isSpace).reverse

/-- Cut at the first `sep`: what stands before it, and what stands after it if it occurs. -/
def cut (sep : UInt8) : Bytes → Bytes × Option Bytes
  | [] => ([], none)
  | b :: rest =>
    if b = sep then ([], some rest)
    else ((b :: (cut sep rest).1), (cut sep rest).2)

theorem cut_of_not_mem {sep : UInt8} {s : Bytes} (h : sep ∉ s) : cut sep s = (s, none) := by
  induction s with
  | nil => rfl
  | cons b rest ih =>
      rw [List.mem_cons, not_or] at h
      rw [cut, if_neg (fun he => h.1 he.symm), ih h.2]

theorem cut_append {sep : UInt8} {s : Bytes} (h : sep ∉ s) (t : Bytes) :
    cut sep (s ++ sep :: t) = (s, some t) := by
  induction s with
  | nil => simp [cut]
  | cons b rest ih =>
      rw [List.mem_cons, not_or] at h
      rw [List.cons_append, cut, if_neg (fun he => h.1 he.symm), ih h.2]

theorem not_mem_cut_fst (sep : UInt8) (s : Bytes) : sep ∉ (cut sep s).1 := by
  induction s with
  | nil => simp [cut]
  | cons b rest ih =>
      rw [cut]
      split
      · simp
      · next hne =>
          rw [List.mem_cons, not_or]
          exact ⟨fun he => hne he.symm, ih⟩

/-- Write the two sides of a cut back with the separator between them. -/
def uncut (sep : UInt8) : Bytes × Option Bytes → Bytes
  | (s, none) => s
  | (s, some t) => s ++ sep :: t

@[simp] theorem uncut_cut (sep : UInt8) (s : Bytes) : uncut sep (cut sep s) = s := by
  induction s with
  | nil => rfl
  | cons b rest ih =>
      rw [cut]
      split
      · next he => simp [uncut, he]
      · cases hc : cut sep rest with
        | mk a t => rw [hc] at ih; cases t <;> simp_all [uncut]

theorem cut_uncut {sep : UInt8} {s : Bytes} (h : sep ∉ s) (t : Option Bytes) :
    cut sep (uncut sep (s, t)) = (s, t) := by
  cases t with
  | none => exact cut_of_not_mem h
  | some t => exact cut_append h t

/-- Cutting the concatenation with a separator-free front only shifts the front. -/
theorem cut_append_left {sep : UInt8} {s : Bytes} (h : sep ∉ s) (t : Bytes) :
    cut sep (s ++ t) = (s ++ (cut sep t).1, (cut sep t).2) := by
  induction s with
  | nil => simp
  | cons b rest ih =>
      rw [List.mem_cons, not_or] at h
      rw [List.cons_append, cut, if_neg (fun he => h.1 he.symm), ih h.2]
      simp

theorem mem_of_mem_cut_fst {sep b : UInt8} {s : Bytes} (h : b ∈ (cut sep s).1) : b ∈ s := by
  rw [← uncut_cut sep s]
  cases hc : cut sep s with
  | mk a t => rw [hc] at h; cases t <;> simp_all [uncut]

theorem mem_of_mem_cut_snd {sep b : UInt8} {s t : Bytes} (ht : (cut sep s).2 = some t)
    (h : b ∈ t) : b ∈ s := by
  rw [← uncut_cut sep s]
  cases hc : cut sep s with
  | mk a t' => rw [hc] at ht; simp only at ht; subst ht; simp [uncut, h]

theorem head?_cut_fst {sep b : UInt8} {s : Bytes} :
    (cut sep s).1.head? = some b ↔ s.head? = some b ∧ b ≠ sep := by
  cases s with
  | nil => simp [cut]
  | cons a rest =>
      rw [cut]
      by_cases ha : a = sep
      · subst ha
        simp only [if_pos, List.head?_nil, List.head?_cons, Option.some.injEq]
        constructor
        · intro h; simp at h
        · rintro ⟨rfl, hne⟩; exact absurd rfl hne
      · simp only [if_neg ha, List.head?_cons, Option.some.injEq]
        constructor
        · rintro rfl; exact ⟨rfl, ha⟩
        · rintro ⟨rfl, -⟩; rfl

/-! ## Prefixes -/

/-- `s` begins with `p`. -/
def startsWith (p s : Bytes) : Bool := p.isPrefixOf s

theorem startsWith_iff {p s : Bytes} : startsWith p s = true ↔ p <+: s :=
  List.isPrefixOf_iff_prefix

end Bytes
