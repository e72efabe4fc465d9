import RubyOAuth.Lib.Bytes

set_option autoImplicit false

/-! # Base64 in lines

`encode64` writes three bytes as four characters, fifteen such groups to a line, and fills the last
group with `=`; every line ends with a newline. `decode64` is lenient: it passes over any byte that is
no digit of the code and stops at the first `=` that may stand for a missing byte. It undoes `encode64`
whatever the breaks between lines, and takes many texts to the same bytes. -/

namespace Base64

open Bytes

/-! ## Digits -/

/-- The character of a value below 64. -/
def digit (n : UInt8) : UInt8 :=
  if n < 26 then 65 + n
  else if n < 52 then 71 + n
  else if n < 62 then n - 4
  else if n = 62 then plus
  else slash

def value (b : UInt8) : Option UInt8 :=
  if isUpper b then some (b - 65)
  else if isLower b then some (b - 71)
  else if isDigit b then some (b + 4)
  else if b = plus then some 62
  else if b = slash then some 63
  else none

theorem value_digit {n : UInt8} (h : n < 64) : value (digit n) = some n := by
  revert n; decide +kernel

theorem digit_class (n : UInt8) :
    isAlnum (digit n) = true ∨ digit n = plus ∨ digit n = slash := by
  revert n; decide +kernel

theorem isAlnum_digit {n : UInt8} (h : n < 62) : isAlnum (digit n) = true := by
  revert n; decide +kernel

theorem value_equal : value equal = none := by decide

/-! ## The code -/

/-- The four characters of three bytes. -/
def group (a b c : UInt8) : Bytes :=
  [digit (a / 4), digit (a % 4 * 16 + b / 16), digit (b % 16 * 4 + c / 64), digit (c % 64)]

/-- The rest of the text, with `column` groups on the line already. -/
def encodeLines (column : Nat) : Bytes → Bytes
  | a :: b :: c :: rest =>
    if column = 14 then group a b c ++ newline :: encodeLines 0 rest
    else group a b c ++ encodeLines (column + 1) rest
  | [a, b] => [digit (a / 4), digit (a % 4 * 16 + b / 16), digit (b % 16 * 4), equal, newline]
  | [a] => [digit (a / 4), digit (a % 4 * 16), equal, equal, newline]
  | [] => if column = 0 then [] else [newline]

def encode64 (s : Bytes) : Bytes := encodeLines 0 s

/-- The whole bytes among two or three values. -/
def flush : List UInt8 → Bytes
  | [x, y] => [x * 4 + y / 16]
  | [x, y, z] => [x * 4 + y / 16, y * 16 + z / 4]
  | _ => []

/-- What is decoded of the rest of a text, with the values held of a group that is not complete. -/
def decodeFrom (held : List UInt8) : Bytes → Bytes
  | [] => flush held
  | b :: rest =>
    match value b with
    | some v =>
      match held with
      | [x, y, z] => (x * 4 + y / 16) :: (y * 16 + z / 4) :: (z * 64 + v) :: decodeFrom [] rest
      | _ => decodeFrom (held ++ [v]) rest
    | none => if b = equal ∧ 2 ≤ held.length then flush held else decodeFrom held rest

def decode64 (s : Bytes) : Bytes := decodeFrom [] s

/-! ## The bytes of a group -/

theorem first_byte (a b : UInt8) : a / 4 * 4 + (a % 4 * 16 + b / 16) / 16 = a := by
  rw [← UInt8.toNat_inj]
  have ha := a.toNat_lt
  have hb := b.toNat_lt
  simp only [UInt8.toNat_add, UInt8.toNat_mul, UInt8.toNat_div, UInt8.toNat_mod, UInt8.reduceToNat]
  omega

theorem second_byte (a b c : UInt8) :
    (a % 4 * 16 + b / 16) * 16 + (b % 16 * 4 + c / 64) / 4 = b := by
  rw [← UInt8.toNat_inj]
  have ha := a.toNat_lt
  have hb := b.toNat_lt
  have hc := c.toNat_lt
  simp only [UInt8.toNat_add, UInt8.toNat_mul, UInt8.toNat_div, UInt8.toNat_mod, UInt8.reduceToNat]
  omega

theorem third_byte (b c : UInt8) : (b % 16 * 4 + c / 64) * 64 + c % 64 = c := by
  rw [← UInt8.toNat_inj]
  have hb := b.toNat_lt
  have hc := c.toNat_lt
  simp only [UInt8.toNat_add, UInt8.toNat_mul, UInt8.toNat_div, UInt8.toNat_mod, UInt8.reduceToNat]
  omega

/-- The four values of a group are digits. -/
theorem group_values (a b c : UInt8) :
    a / 4 < 64 ∧ a % 4 * 16 + b / 16 < 64 ∧ b % 16 * 4 + c / 64 < 64 ∧ c % 64 < 64 := by
  have ha := a.toNat_lt
  have hb := b.toNat_lt
  have hc := c.toNat_lt
  simp only [UInt8.lt_iff_toNat_lt, UInt8.toNat_add, UInt8.toNat_mul, UInt8.toNat_div,
    UInt8.toNat_mod, UInt8.reduceToNat]
  omega

/-! ## Decoding -/

/-- A digit is held until the group has four. -/
theorem decodeFrom_digit {held : List UInt8} {n : UInt8} (hn : n < 64) (hlen : held.length < 3)
    (rest : Bytes) : decodeFrom held (digit n :: rest) = decodeFrom (held ++ [n]) rest := by
  rw [decodeFrom, value_digit hn]
  match held, hlen with
  | [], _ => rfl
  | [_], _ => rfl
  | [_, _], _ => rfl

theorem decodeFrom_last {x y z n : UInt8} (hn : n < 64) (rest : Bytes) :
    decodeFrom [x, y, z] (digit n :: rest)
      = (x * 4 + y / 16) :: (y * 16 + z / 4) :: (z * 64 + n) :: decodeFrom [] rest := by
  rw [decodeFrom, value_digit hn]

theorem decodeFrom_equal {held : List UInt8} (hlen : 2 ≤ held.length) (rest : Bytes) :
    decodeFrom held (equal :: rest) = flush held := by
  rw [decodeFrom, value_equal]
  exact if_pos ⟨rfl, hlen⟩

/-- A byte that is neither a digit nor `=` is passed over. -/
theorem decodeFrom_skip {held : List UInt8} {b : UInt8} (hv : value b = none) (he : b ≠ equal)
    (rest : Bytes) : decodeFrom held (b :: rest) = decodeFrom held rest := by
  rw [decodeFrom, hv]
  exact if_neg (fun h => he h.1)

theorem decodeFrom_group (a b c : UInt8) (rest : Bytes) :
    decodeFrom [] (group a b c ++ rest) = a :: b :: c :: decodeFrom [] rest := by
  obtain ⟨h0, h1, h2, h3⟩ := group_values a b c
  have hheld : decodeFrom [] (group a b c ++ rest)
      = decodeFrom [a / 4, a % 4 * 16 + b / 16, b % 16 * 4 + c / 64] (digit (c % 64) :: rest) := by
    show decodeFrom [] (digit _ :: digit _ :: digit _ :: digit _ :: rest) = _
    rw [decodeFrom_digit h0 (by decide), decodeFrom_digit h1 (by simp), decodeFrom_digit h2 (by simp)]
    rfl
  rw [hheld, decodeFrom_last h3, first_byte, second_byte, third_byte]

/-- Where the breaks between lines are does not matter. -/
theorem decodeFrom_filter (held : List UInt8) (s : Bytes) :
    decodeFrom held (s.filter (fun b => b != newline)) = decodeFrom held s := by
  induction s generalizing held with
  | nil => rfl
  | cons b rest ih =>
      by_cases hb : b = newline
      · rw [hb, List.filter_cons_of_neg (by simp), decodeFrom_skip (by decide) (by decide), ih]
      · rw [List.filter_cons_of_pos (by simpa using hb), decodeFrom, decodeFrom]
        cases value b with
        | none => simp only [ih]
        | some v =>
            match held with
            | [] | [_] | [_, _] | _ :: _ :: _ :: _ :: _ => exact ih _
            | [x, y, z] => simp only [ih]

theorem decodeFrom_encodeLines (column : Nat) (s : Bytes) :
    decodeFrom [] (encodeLines column s) = s := by
  induction column, s using encodeLines.induct with
  | case1 a b c rest ih =>
      rw [encodeLines, if_pos rfl, decodeFrom_group, decodeFrom_skip (by decide) (by decide), ih]
  | case2 column a b c rest hne ih =>
      rw [encodeLines, if_neg hne, decodeFrom_group, ih]
  | case3 column a b =>
      obtain ⟨h0, h1, h2, -⟩ := group_values a b 0
      have hz : b % 16 * 4 = b % 16 * 4 + 0 / 64 := by simp
      rw [encodeLines, decodeFrom_digit h0 (by decide), decodeFrom_digit h1 (by simp), hz,
        decodeFrom_digit h2 (by simp), decodeFrom_equal (by simp)]
      show [a / 4 * 4 + (a % 4 * 16 + b / 16) / 16, _] = _
      rw [first_byte, second_byte]
  | case4 column a =>
      obtain ⟨h0, h1, -, -⟩ := group_values a 0 0
      have hz : a % 4 * 16 = a % 4 * 16 + 0 / 16 := by simp
      rw [encodeLines, decodeFrom_digit h0 (by decide), hz, decodeFrom_digit h1 (by simp),
        decodeFrom_equal (by simp)]
      show [a / 4 * 4 + (a % 4 * 16 + 0 / 16) / 16] = _
      rw [first_byte]
  | case5 => rfl
  | case6 column hne =>
      rw [encodeLines, if_neg hne, decodeFrom_skip (by decide) (by decide)]
      rfl

/-- **`decode64` undoes `encode64`.** -/
@[simp] theorem decode64_encode64 (s : Bytes) : decode64 (encode64 s) = s :=
  decodeFrom_encodeLines 0 s

theorem decode64_filter (s : Bytes) :
    decode64 (s.filter (fun b => b != newline)) = decode64 s := decodeFrom_filter [] s

/-! ## What the text is made of -/

theorem mem_encodeLines {column : Nat} {s : Bytes} {b : UInt8} (h : b ∈ encodeLines column s) :
    isAlnum b = true ∨ b = plus ∨ b = slash ∨ b = equal ∨ b = newline := by
  have hdigit : ∀ n, b = digit n →
      isAlnum b = true ∨ b = plus ∨ b = slash ∨ b = equal ∨ b = newline := by
    rintro n rfl
    rcases digit_class n with h | h | h <;> simp [h]
  have hgroup : ∀ x y z, b ∈ group x y z →
      isAlnum b = true ∨ b = plus ∨ b = slash ∨ b = equal ∨ b = newline := by
    intro x y z hb
    simp only [group, List.mem_cons, List.not_mem_nil, or_false] at hb
    rcases hb with hb | hb | hb | hb <;> exact hdigit _ hb
  induction column, s using encodeLines.induct with
  | case1 x y z rest ih =>
      rw [encodeLines, if_pos rfl, List.mem_append, List.mem_cons] at h
      rcases h with h | h | h
      · exact hgroup _ _ _ h
      · simp [h]
      · exact ih h
  | case2 column x y z rest hne ih =>
      rw [encodeLines, if_neg hne, List.mem_append] at h
      exact h.elim (hgroup _ _ _) ih
  | case3 column x y =>
      simp only [encodeLines, List.mem_cons, List.not_mem_nil, or_false] at h
      rcases h with h | h | h | h | h
      · exact hdigit _ h
      · exact hdigit _ h
      · exact hdigit _ h
      · simp [h]
      · simp [h]
  | case4 column x =>
      simp only [encodeLines, List.mem_cons, List.not_mem_nil, or_false] at h
      rcases h with h | h | h | h | h
      · exact hdigit _ h
      · exact hdigit _ h
      · simp [h]
      · simp [h]
      · simp [h]
  | case5 => simp [encodeLines] at h
  | case6 column hne =>
      simp only [encodeLines, if_neg hne, List.mem_cons, List.not_mem_nil, or_false] at h
      simp [h]

/-- The last digit of an incomplete group has bits to spare, and is a letter or a decimal digit. -/
theorem exists_isAlnum_encodeLines {column : Nat} {s : Bytes} (h : s.length % 3 ≠ 0) :
    ∃ b ∈ encodeLines column s, isAlnum b = true := by
  induction column, s using encodeLines.induct with
  | case1 x y z rest ih =>
      obtain ⟨b, hb, halnum⟩ := ih (by simp only [List.length_cons] at h; omega)
      rw [encodeLines, if_pos rfl]
      exact ⟨b, List.mem_append_right _ (List.mem_cons_of_mem _ hb), halnum⟩
  | case2 column x y z rest hne ih =>
      obtain ⟨b, hb, halnum⟩ := ih (by simp only [List.length_cons] at h; omega)
      rw [encodeLines, if_neg hne]
      exact ⟨b, List.mem_append_right _ hb, halnum⟩
  | case3 column x y =>
      have hsmall : y % 16 * 4 < 62 := by
        rw [UInt8.lt_iff_toNat_lt]
        simp only [UInt8.toNat_mul, UInt8.toNat_mod, UInt8.reduceToNat]
        omega
      exact ⟨digit (y % 16 * 4), by simp [encodeLines], isAlnum_digit hsmall⟩
  | case4 column x =>
      have hsmall : x % 4 * 16 < 62 := by
        rw [UInt8.lt_iff_toNat_lt]
        simp only [UInt8.toNat_mul, UInt8.toNat_mod, UInt8.reduceToNat]
        omega
      exact ⟨digit (x % 4 * 16), by simp [encodeLines], isAlnum_digit hsmall⟩
  | case5 => simp at h
  | case6 column hne => simp at h

end Base64
