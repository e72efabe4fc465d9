import RubyOAuth.Model.Helper
import RubyOAuth.Lib.Uri

set_option autoImplicit false

/-! # The code of `escape` and `unescape`

`escape` writes bytes as units of one or three characters. `unescape` first writes `+` as `%2B` and then
reads the escapes: the two passes come to one, since what the first one inserts is complete and never
joins with a `%` before it. -/

namespace RubyOAuth

open Bytes

/-- An unreserved byte, or `%` and two upper-case hexadecimal digits. -/
def EscapeUnit (u : Bytes) : Prop :=
  (∃ b, Uri.isUnreserved b = true ∧ u = [b]) ∨
    ∃ c d, PercentCode.isUpperHex c = true ∧ PercentCode.isUpperHex d = true ∧ u = [percent, c, d]

theorem escapeUnit_encodeByte (b : UInt8) :
    EscapeUnit (PercentCode.encodeByte (fun b => !reservedCharacter b) b) := by
  rw [PercentCode.encodeByte]
  split
  · next hb =>
      rw [reservedCharacter, Bool.not_not] at hb
      exact .inl ⟨b, hb, rfl⟩
  · obtain ⟨hhi, hlo⟩ := PercentCode.isUpperHex_hexDigit b
    exact .inr ⟨_, _, hhi, hlo, rfl⟩

/-- An escaped text is a sequence of units. -/
theorem escapeBytes_units (s : Bytes) :
    ∃ units : List Bytes, escapeBytes s = units.flatten ∧ ∀ u ∈ units, EscapeUnit u := by
  refine ⟨s.map (PercentCode.encodeByte (fun b => !reservedCharacter b)), rfl, ?_⟩
  intro u hu
  obtain ⟨b, -, rfl⟩ := List.mem_map.1 hu
  exact escapeUnit_encodeByte b

/-- The first pass of `unescape` encodes `+` and leaves the rest, escapes and all. -/
theorem unescape_eq_decode (t : Bytes) : unescape t = PercentCode.decode t := by
  have hfirst : t.flatMap (fun b => if b = plus then ascii "%2B" else [b])
      = PercentCode.encode (fun b => decide (b ≠ plus)) t := by
    refine List.flatMap_congr fun b _ => ?_
    rw [PercentCode.encodeByte]
    by_cases hb : b = plus
    · subst hb
      rfl
    · simp [hb]
  rw [unescape, hfirst]
  refine PercentCode.decode_encode_of_safe rfl ?_ t
  decide +kernel

/-- **`escape` is a code of unreserved bytes and escapes, `unescape` undoes it, and `unescape` is the
    single pass that reads escapes and copies the rest.** -/
theorem escape_code (rt : Runtime) :
    (∀ s, ∃ units : List Bytes, escape rt (.str s) = units.flatten ∧ ∀ u ∈ units, EscapeUnit u) ∧
      (∀ s, unescape (escape rt (.str s)) = s) ∧
      (∀ s t, escape rt (.str s) = escape rt (.str t) → s = t) ∧
      ∀ t u, unescape t = u ↔ PercentCode.Decodes t u := by
  refine ⟨escapeBytes_units, unescape_escapeBytes, fun s t h => ?_, fun t u => ?_⟩
  · rw [escape_str, escape_str] at h
    exact escapeBytes_inj.1 h
  · rw [unescape_eq_decode, PercentCode.decodes_iff]

end RubyOAuth
