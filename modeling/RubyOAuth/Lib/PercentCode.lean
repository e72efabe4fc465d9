import RubyOAuth.Lib.Bytes

set_option autoImplicit false

/-! # Percent-encoding over a set of safe bytes

`encode safe` writes every safe byte as it is and every other byte as `%` and two upper-case
hexadecimal digits; `decode` is the single left-to-right pass that undoes it and copies what is no
escape. With `%` unsafe the two are inverse (`decode_encode`), so encoding is injective, and every
byte of an encoding is safe, `%` or an upper-case digit (`mem_encode`) — which is what keeps a
separator outside the code words. -/

namespace PercentCode

open Bytes

/-! ## Hexadecimal digits -/

/-- The upper-case hexadecimal digit of a value below 16. -/
def hexDigit (n : UInt8) : UInt8 := if n < 10 then 48 + n else 55 + n

/-- The value of a hexadecimal digit of either case. -/
def hexValue (b : UInt8) : Option UInt8 :=
  if 48 ≤ b ∧ b ≤ 57 then some (b - 48)
  else if 65 ≤ b ∧ b ≤ 70 then some (b - 55)
  else if 97 ≤ b ∧ b ≤ 102 then some (b - 87)
  else none

def isHex (b : UInt8) : Bool := (hexValue b).isSome

/-- A digit or one of the letters `A` to `F`. -/
def isUpperHex (b : UInt8) : Bool := isDigit b || (decide (65 ≤ b) && decide (b ≤ 70))

theorem hexValue_hexDigit_hi (b : UInt8) : hexValue (hexDigit (b / 16)) = some (b / 16) := by
  revert b; decide +kernel

theorem hexValue_hexDigit_lo (b : UInt8) : hexValue (hexDigit (b % 16)) = some (b % 16) := by
  revert b; decide +kernel

theorem div_mul_add_mod (b : UInt8) : 16 * (b / 16) + b % 16 = b := by
  revert b; decide +kernel

theorem isUpperHex_hexDigit (b : UInt8) :
    isUpperHex (hexDigit (b / 16)) = true ∧ isUpperHex (hexDigit (b % 16)) = true := by
  revert b; decide +kernel

/-! ## The code -/

/-- One byte as `%XX`. -/
def escapeByte (b : UInt8) : Bytes := [percent, hexDigit (b / 16), hexDigit (b % 16)]

def encodeByte (safe : UInt8 → Bool) (b : UInt8) : Bytes :=
  if safe b then [b] else escapeByte b

def encode (safe : UInt8 → Bool) (s : Bytes) : Bytes := s.flatMap (encodeByte safe)

/-- Replace every `%` followed by two hexadecimal digits by the byte they name. -/
def decode : Bytes → Bytes
  | [] => []
  | [a] => [a]
  | [a, b] => [a, b]
  | a :: b :: c :: rest =>
    match a == percent, hexValue b, hexValue c with
    | true, some x, some y => (16 * x + y) :: decode rest
    | _, _, _ => a :: decode (b :: c :: rest)

variable {safe : UInt8 → Bool}

@[simp] theorem encode_nil : encode safe [] = [] := rfl

@[simp] theorem encode_append (s t : Bytes) : encode safe (s ++ t) = encode safe s ++ encode safe t :=
  List.flatMap_append

theorem encode_cons (b : UInt8) (s : Bytes) :
    encode safe (b :: s) = encodeByte safe b ++ encode safe s := List.flatMap_cons

/-- A byte other than `%` is copied. -/
theorem decode_cons_of_ne {b : UInt8} (h : b ≠ percent) (s : Bytes) :
    decode (b :: s) = b :: decode s := by
  match s with
  | [] => rfl
  | [_] => rfl
  | _ :: _ :: _ => rw [decode]; simp [h]

/-- What is no part of an escape is still there. -/
theorem mem_decode {b : UInt8} (hp : b ≠ percent) (hh : isHex b = false) {s : Bytes} (h : b ∈ s) :
    b ∈ decode s := by
  induction s using decode.induct with
  | case1 => exact h
  | case2 a => exact h
  | case3 a c => exact h
  | case4 a c d rest x y hy hx ha ih =>
      rw [decode, ha, hx, hy]
      simp only [List.mem_cons] at h ⊢
      rcases h with rfl | rfl | rfl | h
      · exact absurd (beq_iff_eq.1 ha) hp
      · simp [isHex, hx] at hh
      · simp [isHex, hy] at hh
      · exact .inr (ih h)
  | case5 a c d rest hno ih =>
      have hcopy : decode (a :: c :: d :: rest) = a :: decode (c :: d :: rest) := by
        rw [decode]
        split
        · next x y ha hx hy => exact absurd hy (hno x y ha hx)
        · rfl
      rw [hcopy]
      rcases List.mem_cons.1 h with rfl | h
      · exact List.mem_cons_self
      · exact List.mem_cons_of_mem a (ih h)

theorem decode_escapeByte (b : UInt8) (s : Bytes) :
    decode (escapeByte b ++ s) = b :: decode s := by
  simp only [escapeByte, List.cons_append, List.nil_append, decode, beq_self_eq_true,
    hexValue_hexDigit_hi, hexValue_hexDigit_lo, div_mul_add_mod]

theorem decode_encode_append (hpct : safe percent = false) (s t : Bytes) :
    decode (encode safe s ++ t) = s ++ decode t := by
  induction s with
  | nil => rfl
  | cons b s ih =>
      rw [encode_cons, encodeByte]
      split
      · next hb =>
          have hne : b ≠ percent := by rintro rfl; simp [hpct] at hb
          rw [List.append_assoc, List.singleton_append, decode_cons_of_ne hne, ih,
            List.cons_append]
      · rw [List.append_assoc, decode_escapeByte, ih, List.cons_append]

/-- **Decoding undoes encoding.** -/
theorem decode_encode (hpct : safe percent = false) (s : Bytes) : decode (encode safe s) = s := by
  have h := decode_encode_append hpct s []
  rwa [List.append_nil, decode, List.append_nil] at h

/-- The text goes on with two hexadecimal digits. -/
def BeginsHex (s : Bytes) : Prop := ∃ c d t, s = c :: d :: t ∧ isHex c = true ∧ isHex d = true

/-- A `%` that begins no escape is copied. -/
theorem decode_percent_of_not {s : Bytes} (h : ¬ BeginsHex s) :
    decode (percent :: s) = percent :: decode s := by
  match s with
  | [] => rfl
  | [_] => rfl
  | c :: d :: t =>
      rw [decode]
      split
      · next x y _ hx hy =>
          refine absurd ⟨c, d, t, rfl, ?_, ?_⟩ h
          · rw [isHex, hx]; rfl
          · rw [isHex, hy]; rfl
      · rfl

/-- The single pass from left to right: an escape becomes the byte it names, and every other byte is
    copied. -/
inductive Decodes : Bytes → Bytes → Prop
  | nil : Decodes [] []
  | escape {c d x y : UInt8} {s t : Bytes} (hc : hexValue c = some x) (hd : hexValue d = some y)
      (hs : Decodes s t) : Decodes (percent :: c :: d :: s) ((16 * x + y) :: t)
  | copy {b : UInt8} {s t : Bytes} (hb : b = percent → ¬ BeginsHex s) (hs : Decodes s t) :
      Decodes (b :: s) (b :: t)

theorem decode_escape {c d x y : UInt8} (hc : hexValue c = some x) (hd : hexValue d = some y)
    (s : Bytes) : decode (percent :: c :: d :: s) = (16 * x + y) :: decode s := by
  rw [decode, beq_self_eq_true, hc, hd]

theorem decode_copy {b : UInt8} {s : Bytes} (h : b = percent → ¬ BeginsHex s) :
    decode (b :: s) = b :: decode s := by
  by_cases hb : b = percent
  · rw [hb, decode_percent_of_not (h hb)]
  · exact decode_cons_of_ne hb s

/-- **`decode` is the single pass.** -/
theorem decodes_iff {s t : Bytes} : Decodes s t ↔ decode s = t := by
  constructor
  · intro h
    induction h with
    | nil => rfl
    | escape hc hd _ ih => rw [decode_escape hc hd, ih]
    | copy hb _ ih => rw [decode_copy hb, ih]
  · rintro rfl
    induction hn : s.length using Nat.strong_induction_on generalizing s with
    | _ n ih =>
        cases s with
        | nil => exact .nil
        | cons b rest =>
            have hlen : rest.length < n := by
              rw [← hn, List.length_cons]
              omega
            by_cases hesc : b = percent ∧ BeginsHex rest
            · obtain ⟨rfl, c, d, u, rfl, hc, hd⟩ := hesc
              obtain ⟨x, hx⟩ := Option.isSome_iff_exists.1 hc
              obtain ⟨y, hy⟩ := Option.isSome_iff_exists.1 hd
              have hlen' : u.length < n := by
                rw [List.length_cons, List.length_cons] at hlen
                omega
              rw [decode_escape hx hy]
              exact .escape hx hy (ih _ hlen' rfl)
            · have hcopy : b = percent → ¬ BeginsHex rest := fun hb ht => hesc ⟨hb, ht⟩
              rw [decode_copy hcopy]
              exact .copy hcopy (ih _ hlen rfl)

/-- What follows a byte that is part of no escape is decoded by itself. -/
theorem decode_append_cons {c : UInt8} (hp : c ≠ percent) (hh : isHex c = false) (s t : Bytes) :
    decode (s ++ c :: t) = decode s ++ c :: decode t := by
  rw [← decodes_iff]
  generalize hu : decode s = u
  rw [← decodes_iff] at hu
  induction hu with
  | nil => exact .copy (fun hc => absurd hc hp) (decodes_iff.2 rfl)
  | escape hc hd _ ih => exact .escape hc hd ih
  | @copy b s u hb _ ih =>
      refine .copy (fun hpct hhex => hb hpct ?_) ih
      obtain ⟨x, y, v, heq, hx, hy⟩ := hhex
      rw [List.append_eq] at heq
      match s with
      | [] =>
          rw [List.nil_append, List.cons.injEq] at heq
          rw [heq.1, hx] at hh
          exact absurd hh (by decide)
      | [a] =>
          rw [List.cons_append, List.nil_append, List.cons.injEq, List.cons.injEq] at heq
          rw [heq.2.1, hy] at hh
          exact absurd hh (by decide)
      | a :: a' :: s =>
          rw [List.cons_append, List.cons_append, List.cons.injEq, List.cons.injEq] at heq
          exact ⟨a, a', s, rfl, heq.1 ▸ hx, heq.2.1 ▸ hy⟩

theorem encode_of_safe {b : UInt8} (hb : safe b = true) (s : Bytes) :
    encode safe (b :: s) = b :: encode safe s := by
  rw [encode_cons, encodeByte, if_pos hb, List.singleton_append]

theorem encode_of_forall_safe {s : Bytes} (h : ∀ b ∈ s, safe b = true) : encode safe s = s := by
  induction s with
  | nil => rfl
  | cons b t ih =>
      rw [encode_of_safe (h b List.mem_cons_self), ih (fun c hc => h c (List.mem_cons_of_mem b hc))]

/-- Encoding makes no digits: where an encoding goes on with two, the text does. -/
theorem beginsHex_of_encode {s : Bytes} (h : BeginsHex (encode safe s)) : BeginsHex s := by
  have hfirst : ∀ {b c : UInt8} {u v : Bytes}, encode safe (b :: u) = c :: v → isHex c = true →
      b = c ∧ encode safe u = v := by
    intro b c u v he hc
    by_cases hb : safe b = true
    · rw [encode_of_safe hb, List.cons.injEq] at he
      exact he
    · rw [encode_cons, encodeByte, if_neg hb, escapeByte, List.cons_append, List.cons.injEq] at he
      rw [← he.1] at hc
      exact absurd hc (by decide)
  obtain ⟨c, d, t, he, hc, hd⟩ := h
  match s with
  | [] => simp at he
  | [b] =>
      obtain ⟨-, hnil⟩ := hfirst he hc
      simp at hnil
  | b :: b' :: u =>
      obtain ⟨rfl, he'⟩ := hfirst he hc
      obtain ⟨rfl, -⟩ := hfirst he' hd
      exact ⟨b, b', u, rfl, hc, hd⟩

/-- **Encoding over escapes**: where `%` and the hexadecimal digits are safe, encoding leaves what is
    decoded as it is. -/
theorem decode_encode_of_safe (hpct : safe percent = true)
    (hhex : ∀ b, isHex b = true → safe b = true) (s : Bytes) : decode (encode safe s) = decode s := by
  induction hn : s.length using Nat.strong_induction_on generalizing s with
  | _ n ih =>
      cases s with
      | nil => rfl
      | cons b t =>
          have hlen : t.length < n := by
            rw [← hn, List.length_cons]
            omega
          have htail := ih t.length hlen t rfl
          by_cases hb : b = percent
          · subst hb
            rw [encode_of_safe hpct]
            by_cases ht : BeginsHex t
            · -- an escape of the text is one of the encoding
              obtain ⟨c, d, u, rfl, hc, hd⟩ := ht
              obtain ⟨x, hx⟩ := Option.isSome_iff_exists.1 hc
              obtain ⟨y, hy⟩ := Option.isSome_iff_exists.1 hd
              have hlen' : u.length < n := by
                rw [List.length_cons, List.length_cons] at hlen
                omega
              rw [encode_of_safe (hhex c hc), encode_of_safe (hhex d hd), decode_escape hx hy,
                decode_escape hx hy, ih u.length hlen' u rfl]
            · rw [decode_percent_of_not ht, decode_percent_of_not (fun h => ht (beginsHex_of_encode h)),
                htail]
          · by_cases hs : safe b = true
            · rw [encode_of_safe hs, decode_cons_of_ne hb, decode_cons_of_ne hb, htail]
            · rw [encode_cons, encodeByte, if_neg hs, decode_escapeByte, decode_cons_of_ne hb, htail]

/-- A safe separator cuts an encoding where it cuts the text. -/
theorem cut_encode {sep : UInt8} (hsafe : safe sep = true) (hp : sep ≠ percent)
    (hd : isUpperHex sep = false) (s : Bytes) :
    cut sep (encode safe s) = (encode safe (cut sep s).1, (cut sep s).2.map (encode safe)) := by
  induction s with
  | nil => rfl
  | cons b t ih =>
      by_cases hb : b = sep
      · subst hb
        rw [encode_of_safe hsafe, cut, cut, if_pos rfl, if_pos rfl]
        rfl
      · have hno : sep ∉ encodeByte safe b := by
          rw [encodeByte]
          split
          · exact fun h => hb (List.mem_singleton.1 h).symm
          · obtain ⟨h1, h2⟩ := isUpperHex_hexDigit b
            simp only [escapeByte, List.mem_cons, List.not_mem_nil, or_false, not_or]
            refine ⟨hp, ?_, ?_⟩
            · rintro rfl
              simp [hd] at h1
            · rintro rfl
              simp [hd] at h2
        rw [encode_cons, cut_append_left hno, ih, cut, if_neg hb, encode_cons]

/-- Encoding does not shorten, and keeps the length of safe text only. -/
theorem length_encode_le_iff (s : Bytes) :
    s.length ≤ (encode safe s).length ∧
      ((encode safe s).length = s.length ↔ ∀ b ∈ s, safe b = true) := by
  induction s with
  | nil => simp
  | cons b t ih =>
      rw [encode_cons, List.length_append, List.length_cons, List.forall_mem_cons, ← ih.2, encodeByte]
      by_cases hb : safe b = true
      · rw [if_pos hb, List.length_singleton]
        exact ⟨by omega, by simp only [hb, true_and]; omega⟩
      · rw [if_neg hb, escapeByte, List.length_cons, List.length_cons, List.length_singleton]
        exact ⟨by omega, iff_of_false (by omega) (fun hc => hb hc.1)⟩

theorem encode_injective (hpct : safe percent = false) : Function.Injective (encode safe) :=
  Function.LeftInverse.injective (decode_encode hpct)

/-- Every byte of an encoding is safe, `%` or an upper-case hexadecimal digit. -/
theorem mem_encode {s : Bytes} {b : UInt8} (h : b ∈ encode safe s) :
    safe b = true ∨ b = percent ∨ isUpperHex b = true := by
  obtain ⟨c, _, hc⟩ := List.mem_flatMap.1 h
  rw [encodeByte] at hc
  split at hc
  · next hs =>
      rw [List.mem_singleton] at hc
      subst hc
      exact Or.inl hs
  · obtain ⟨h1, h2⟩ := isUpperHex_hexDigit c
    simp only [escapeByte, List.mem_cons, List.not_mem_nil, or_false] at hc
    rcases hc with rfl | rfl | rfl
    · exact Or.inr (Or.inl rfl)
    · exact Or.inr (Or.inr h1)
    · exact Or.inr (Or.inr h2)

/-- A byte that is neither safe, `%` nor a digit stays out of every code word. -/
theorem not_mem_encode {b : UInt8} (hs : safe b = false) (hp : b ≠ percent)
    (hx : isUpperHex b = false) (s : Bytes) : b ∉ encode safe s := by
  intro h
  rcases mem_encode h with h | h | h
  · simp [hs] at h
  · exact hp h
  · simp [hx] at h

@[simp] theorem encode_eq_nil {s : Bytes} : encode safe s = [] ↔ s = [] := by
  cases s with
  | nil => simp
  | cons b s =>
      simp only [encode_cons, encodeByte, List.append_eq_nil_iff, reduceCtorEq, iff_false]
      split <;> simp [escapeByte]

/-- Where nothing is an escape, decoding changes nothing. -/
theorem decode_of_not_mem {s : Bytes} (h : percent ∉ s) : decode s = s := by
  induction s with
  | nil => rfl
  | cons b s ih =>
      rw [List.mem_cons, not_or] at h
      rw [decode_cons_of_ne (fun he => h.1 he.symm), ih h.2]

/-! ## Order -/

theorem hexDigit_lt : ∀ m : UInt8, m < 16 → ∀ n : UInt8, n < 16 → m < n →
    hexDigit m < hexDigit n := by
  decide +kernel

theorem append_lt_append_iff (l : Bytes) {s t : Bytes} : l ++ s < l ++ t ↔ s < t := by
  induction l with
  | nil => rfl
  | cons b rest ih =>
      rw [List.cons_append, List.cons_append, List.cons_lt_cons_iff, ih]
      exact ⟨fun h => h.resolve_left (UInt8.lt_irrefl b) |>.2, fun h => .inr ⟨rfl, h⟩⟩

/-- Escapes come in the order of their bytes. -/
theorem escapeByte_lt {x y : UInt8} (h : x < y) (s t : Bytes) :
    escapeByte x ++ s < escapeByte y ++ t := by
  have hdiv : ∀ b : UInt8, (b / 16).toNat = b.toNat / 16 := fun b => UInt8.toNat_div b 16
  have hmod : ∀ b : UInt8, (b % 16).toNat = b.toNat % 16 := fun b => UInt8.toNat_mod b 16
  have hhi : ∀ b : UInt8, b / 16 < 16 := by decide +kernel
  have hlo : ∀ b : UInt8, b % 16 < 16 := by decide +kernel
  have hnat := UInt8.lt_iff_toNat_lt.1 h
  simp only [escapeByte, List.cons_append, List.nil_append]
  refine List.cons_lt_cons_iff.2 (.inr ⟨rfl, ?_⟩)
  by_cases hq : x / 16 = y / 16
  · refine List.cons_lt_cons_iff.2 (.inr ⟨by rw [hq], List.cons_lt_cons_iff.2 (.inl ?_)⟩)
    refine hexDigit_lt _ (hlo x) _ (hlo y) (UInt8.lt_iff_toNat_lt.2 ?_)
    have hqn := congrArg UInt8.toNat hq
    rw [hdiv, hdiv] at hqn
    rw [hmod, hmod]
    omega
  · refine List.cons_lt_cons_iff.2
      (.inl (hexDigit_lt _ (hhi x) _ (hhi y) (UInt8.lt_iff_toNat_lt.2 ?_)))
    have hqn : (x / 16).toNat ≠ (y / 16).toNat := fun he => hq (UInt8.toNat_inj.1 he)
    rw [hdiv, hdiv] at hqn ⊢
    omega

/-- At the first byte where they differ, the first text has the smaller one, which stands for itself,
    and the second has one that is escaped. -/
def Swapped (safe : UInt8 → Bool) (a b : Bytes) : Prop :=
  ∃ pre x y s t, a = pre ++ x :: s ∧ b = pre ++ y :: t ∧ x < y ∧ safe x = true ∧ safe y = false

theorem lt_of_swapped {a b : Bytes} (h : Swapped safe a b) : a < b := by
  obtain ⟨pre, x, y, s, t, rfl, rfl, hlt, -, -⟩ := h
  rw [append_lt_append_iff]
  exact List.cons_lt_cons_iff.2 (.inl hlt)

theorem swapped_cons_iff {x : UInt8} {a b : Bytes} :
    Swapped safe (x :: a) (x :: b) ↔ Swapped safe a b := by
  constructor
  · rintro ⟨pre, y, z, s, t, ha, hb, hlt, hy, hz⟩
    cases pre with
    | nil =>
        rw [List.nil_append, List.cons.injEq] at ha hb
        rw [← ha.1, ← hb.1] at hlt
        exact absurd hlt (UInt8.lt_irrefl x)
    | cons c pre =>
        rw [List.cons_append, List.cons.injEq] at ha hb
        exact ⟨pre, y, z, s, t, ha.2, hb.2, hlt, hy, hz⟩
  · rintro ⟨pre, y, z, s, t, rfl, rfl, hlt, hy, hz⟩
    exact ⟨x :: pre, y, z, s, t, rfl, rfl, hlt, hy, hz⟩

/-- The first byte where texts differ decides whether they are swapped. -/
theorem swapped_of_lt {x y : UInt8} {a b : Bytes} (h : x < y) :
    Swapped safe (x :: a) (y :: b) ↔ safe x = true ∧ safe y = false := by
  constructor
  · rintro ⟨pre, x', y', s, t, ha, hb, -, hx, hy⟩
    cases pre with
    | nil =>
        rw [List.nil_append, List.cons.injEq] at ha hb
        exact ⟨ha.1 ▸ hx, hb.1 ▸ hy⟩
    | cons c pre =>
        rw [List.cons_append, List.cons.injEq] at ha hb
        rw [ha.1, hb.1] at h
        exact absurd h (UInt8.lt_irrefl c)
  · rintro ⟨hx, hy⟩
    exact ⟨[], x, y, a, b, rfl, rfl, h, hx, hy⟩

/-- **Encoding keeps the order of two texts unless they are swapped**, where all that stands for itself
    comes after `%`. -/
theorem encode_lt_iff (hpct : ∀ b, safe b = true → percent < b) {a b : Bytes} (hab : a < b) :
    encode safe a < encode safe b ↔ ¬ Swapped safe a b := by
  induction a generalizing b with
  | nil =>
      cases b with
      | nil => exact absurd hab (List.lt_irrefl [])
      | cons y b =>
          have hne : encode safe (y :: b) ≠ [] := by
            rw [ne_eq, encode_eq_nil]
            exact List.cons_ne_nil y b
          have hno : ¬ Swapped safe [] (y :: b) := by
            rintro ⟨pre, x, y', s, t, ha, -⟩
            simp at ha
          obtain ⟨c, rest, hc⟩ := List.exists_cons_of_ne_nil hne
          rw [hc, encode_nil]
          exact iff_of_true (List.nil_lt_cons c rest) hno
  | cons x a ih =>
      cases b with
      | nil => exact absurd hab (List.not_lt_nil _)
      | cons y b =>
          rw [encode_cons, encode_cons]
          rcases List.cons_lt_cons_iff.1 hab with hxy | ⟨rfl, hlt⟩
          · rw [swapped_of_lt hxy]
            by_cases hx : safe x = true
            · by_cases hy : safe y = true
              · rw [encodeByte, encodeByte, if_pos hx, if_pos hy]
                exact iff_of_true (List.cons_lt_cons_iff.2 (.inl hxy)) (by simp [hy])
              · -- the escape of `y` begins with `%`, before anything that stands for itself
                rw [encodeByte, encodeByte, if_pos hx, if_neg hy]
                refine iff_of_false (fun h => ?_) (by simp [hx, hy])
                rcases List.cons_lt_cons_iff.1 h with h | ⟨h, -⟩
                · exact UInt8.lt_irrefl x (UInt8.lt_trans h (hpct x hx))
                · exact UInt8.lt_irrefl percent (h ▸ hpct x hx)
            · refine iff_of_true ?_ (by simp [hx])
              rw [encodeByte, encodeByte, if_neg hx]
              by_cases hy : safe y = true
              · rw [if_pos hy]
                exact List.cons_lt_cons_iff.2 (.inl (hpct y hy))
              · rw [if_neg hy]
                exact escapeByte_lt hxy _ _
          · rw [swapped_cons_iff, ← ih hlt]
            exact append_lt_append_iff _
end PercentCode
