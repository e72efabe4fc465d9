import RubyOAuth.Lib.Bytes

set_option autoImplicit false

/-! # UTF-8

Which byte strings are UTF-8, as a reader that goes over the bytes once: outside a character, or with the
ranges still ahead that the next bytes have to be in. -/

namespace Bytes

/-- A continuation byte. -/
def tailRange : UInt8 × UInt8 := (0x80, 0xBF)

/-- The ranges of the bytes that follow a first byte. The second byte is bounded where an overlong form,
    a surrogate or a code point past the last would begin. -/
def utf8Tails (b : UInt8) : Option (List (UInt8 × UInt8)) :=
  if b ≤ 0x7F then some []
  else if b < 0xC2 then none
  else if b ≤ 0xDF then some [tailRange]
  else if b = 0xE0 then some [(0xA0, 0xBF), tailRange]
  else if b = 0xED then some [(0x80, 0x9F), tailRange]
  else if b ≤ 0xEF then some [tailRange, tailRange]
  else if b = 0xF0 then some [(0x90, 0xBF), tailRange, tailRange]
  else if b ≤ 0xF3 then some [tailRange, tailRange, tailRange]
  else if b = 0xF4 then some [(0x80, 0x8F), tailRange, tailRange]
  else none

/-- Read one byte. -/
def utf8Step (ahead : List (UInt8 × UInt8)) (b : UInt8) : Option (List (UInt8 × UInt8)) :=
  match ahead with
  | [] => utf8Tails b
  | r :: rest => if r.1 ≤ b ∧ b ≤ r.2 then some rest else none

/-- The bytes are whole characters of UTF-8. -/
def validUtf8 (s : Bytes) : Bool := s.foldlM utf8Step [] == some []

@[simp] theorem validUtf8_nil : validUtf8 [] = true := rfl

theorem validUtf8_cons_of_ascii {b : UInt8} (hb : b ≤ 0x7F) (s : Bytes) :
    validUtf8 (b :: s) = validUtf8 s := by
  rw [validUtf8, List.foldlM_cons, utf8Step, utf8Tails, if_pos hb]
  rfl

/-- ASCII is UTF-8. -/
theorem validUtf8_of_ascii {s : Bytes} (h : ∀ b ∈ s, b ≤ 0x7F) : validUtf8 s = true := by
  induction s with
  | nil => rfl
  | cons b rest ih =>
      rw [validUtf8_cons_of_ascii (h b List.mem_cons_self)]
      exact ih fun c hc => h c (List.mem_cons_of_mem b hc)

/-- Text that is ASCII in lower case is ASCII. -/
theorem validUtf8_of_downcase {s t : Bytes} (h : downcase s = t) (ht : ∀ b ∈ t, b ≤ 0x7F) :
    validUtf8 s = true := by
  have hlower : ∀ b, lower b ≤ 0x7F → b ≤ 0x7F := by decide +kernel
  refine validUtf8_of_ascii fun b hb => hlower b (ht _ ?_)
  rw [← h]
  exact List.mem_map.2 ⟨b, hb, rfl⟩

/-- An e with an acute accent is a character, its first byte alone is none, and no byte 255 is in one. -/
example : validUtf8 [0xC3, 0xA9] = true ∧ validUtf8 [0xC3] = false ∧ validUtf8 [0xFF] = false := by
  decide

end Bytes
