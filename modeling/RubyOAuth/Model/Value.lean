import RubyOAuth.Lib.OrderedHash
import RubyOAuth.Lib.Pairs

set_option autoImplicit false

/-! # Ruby values, errors and the runtime

Parameter values are what the decoders of a request produce: strings, `nil`, booleans, arrays and
hashes, nested to any depth. A Ruby call that can raise is an `Except RubyError`.

`Runtime` gathers what the library calls and does not define: OpenSSL's digests and HMAC, Base64,
and the text `Array#to_s` and `Hash#to_s` give for a collection. Every result is about any runtime;
the interesting ones quantify over it. -/

namespace RubyOAuth

/-- What a call raises, with the message where the library chooses it. -/
inductive RubyError where
  | argumentError
  | unknownHttpMethod (name : Bytes)
  | noMethodError
  | typeError
  | invalidUri
  | badUri
  | problem (message : String)
  | reportedProblem (problem : Option Bytes)
  | unauthorized
  | unknownSignatureMethod (name : Option Bytes)
  | notImplemented
  | pkeyError
  | certificateError
  | httpError
  | network
  deriving DecidableEq, Repr

/-- A parameter value. -/
inductive Value where
  | nil
  | bool (b : Bool)
  | str (s : Bytes)
  | arr (vs : List Value)
  | hash (es : List (Bytes × Value))
  deriving Repr

/-- A parameter hash: string names, values of any shape. -/
abbrev Params := OrderedHash Bytes Value

/-- A key of a hash that is not built from strings alone. -/
inductive Key where
  | nil
  | str (s : Bytes)
  | sym (s : Bytes)
  deriving DecidableEq, Repr

/-- `to_s` of a key. -/
def Key.toS : Key → Bytes
  | .nil => []
  | .str s => s
  | .sym s => s

/-- The foreign functions the library relies on: digests of a key and a text, and RSA on the PEM text
    of a key or certificate. -/
structure Crypto where
  hmacSha1 : Bytes → Bytes → Bytes
  hmacSha256 : Bytes → Bytes → Bytes
  sha1 : Bytes → Bytes
  sha256 : Bytes → Bytes
  encode64 : Bytes → Bytes
  decode64 : Bytes → Bytes
  rsaSign : Bytes → Bytes → Except RubyError Bytes
  rsaVerify : Bytes → Bytes → Bytes → Except RubyError Bool

structure Runtime extends Crypto where
  inspect : Value → Bytes
  readFile : Bytes → Except RubyError Bytes

/-- Digests that give back the text they are of, and no keys: enough to run the model. -/
def echoRuntime : Runtime where
  hmacSha1 key text := key ++ text
  hmacSha256 key text := key ++ text
  sha1 text := text
  sha256 text := text
  encode64 text := text
  decode64 text := text
  rsaSign _ _ := .error .pkeyError
  rsaVerify _ _ _ := .error .pkeyError
  inspect _ := []
  readFile _ := .error .argumentError

namespace Value

def isHash : Value → Bool
  | .hash _ => true
  | _ => false

/-- `to_s`; a collection prints as the runtime's `inspect` does. -/
def toS (rt : Runtime) : Value → Bytes
  | .nil => []
  | .bool true => ascii "true"
  | .bool false => ascii "false"
  | .str s => s
  | v => rt.inspect v

/-! ## Equality and comparison -/

mutual

/-- Ruby's `==`: hashes are compared without regard to the order of their entries. -/
def eqv : Value → Value → Bool
  | .nil, .nil => true
  | .bool a, .bool b => a == b
  | .str a, .str b => a == b
  | .arr vs, .arr ws => eqvList vs ws
  | .hash es, .hash fs => es.length == fs.length && eqvEntries es fs
  | _, _ => false

def eqvList : List Value → List Value → Bool
  | [], [] => true
  | v :: vs, w :: ws => eqv v w && eqvList vs ws
  | _, _ => false

def eqvEntries : List (Bytes × Value) → List (Bytes × Value) → Bool
  | [], _ => true
  | (k, v) :: es, fs =>
    (match OrderedHash.findEntry k fs with
      | some w => eqv v w
      | none => false) && eqvEntries es fs

end

/-- `String#<=>`. -/
def strCmp (a b : Bytes) : Ordering := if a < b then .lt else if a = b then .eq else .gt

mutual

/-- Ruby's `<=>`, `none` where it answers `nil`: values of different kinds and unequal hashes do
    not compare. -/
def cmp : Value → Value → Option Ordering
  | .nil, .nil => some .eq
  | .bool a, .bool b => if a = b then some .eq else none
  | .str a, .str b => some (strCmp a b)
  | .arr vs, .arr ws => cmpList vs ws
  | .hash es, .hash fs => if eqv (.hash es) (.hash fs) then some .eq else none
  | _, _ => none

/-- Arrays compare at the first place they differ, then by length. -/
def cmpList : List Value → List Value → Option Ordering
  | [], [] => some .eq
  | [], _ :: _ => some .lt
  | _ :: _, [] => some .gt
  | v :: vs, w :: ws =>
    match cmp v w with
    | some .eq => cmpList vs ws
    | o => o

end

def Le (v w : Value) : Prop := cmp v w ≠ some .gt

instance : DecidableRel Le := fun v w => inferInstanceAs (Decidable (cmp v w ≠ some .gt))

/-- Any two elements compare. -/
def comparable : List Value → Bool
  | [] => true
  | v :: vs => vs.all (fun w => (cmp v w).isSome) && comparable vs

/-- `Array#sort`: it raises as soon as a comparison answers `nil`, and a sort cannot avoid
    comparing two elements it cannot order otherwise. -/
def sort (vs : List Value) : Except RubyError (List Value) :=
  if comparable vs then .ok (vs.insertionSort Le) else .error .argumentError

/-! ## Sorting strings -/

theorem strCmp_ne_gt {a b : Bytes} : strCmp a b ≠ .gt ↔ a ≤ b := by
  rw [strCmp]
  by_cases hlt : a < b
  · simp [hlt, Std.le_of_lt hlt]
  · by_cases heq : a = b
    · simp [heq, Std.le_refl]
    · rw [if_neg hlt, if_neg heq]
      simp only [ne_eq, not_true_eq_false, false_iff]
      intro hle
      exact hlt (Std.lt_of_le_of_ne hle heq)

theorem le_str_iff {a b : Bytes} : Le (.str a) (.str b) ↔ a ≤ b := by
  rw [Le, cmp, ← strCmp_ne_gt]
  simp

theorem comparable_map_str (ss : List Bytes) : comparable (ss.map Value.str) = true := by
  induction ss with
  | nil => rfl
  | cons s rest ih =>
      have hall : ∀ v ∈ rest.map Value.str, (cmp (.str s) v).isSome = true := by
        intro v hv
        obtain ⟨t, _, rfl⟩ := List.mem_map.1 hv
        rw [cmp]; rfl
      rw [List.map_cons, comparable, List.all_eq_true.2 hall, ih]
      rfl

/-- Strings always sort, and they sort as byte strings. -/
theorem sort_map_str (ss : List Bytes) :
    sort (ss.map Value.str) = .ok ((ss.insertionSort (· ≤ ·)).map Value.str) := by
  rw [sort, if_pos (comparable_map_str ss),
    List.map_insertionSort (fun a b : Bytes => a ≤ b) Le Value.str ss
      (fun a _ b _ => le_str_iff.symm)]

@[simp] theorem sort_singleton (v : Value) : sort [v] = .ok [v] := by
  simp [sort, comparable]

end Value

end RubyOAuth
