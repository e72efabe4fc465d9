import RubyOAuth.Lib.PercentCode
import RubyOAuth.Model.Value

set_option autoImplicit false

/-! # `OAuth::Helper`

Escaping, parameter normalization and the parser of `Authorization` headers, as `helper.rb` computes
them. The segments of a normalized string are grouped by parameter: `normalizeEntry` is the list of
segments of one parameter, and a group is joined with the same `&` as the groups are, which is what
`Array#*` does with nested arrays (an empty group leaves an empty segment). -/

namespace RubyOAuth

open Bytes

/-! ## Escaping -/

/-- `OAuth::RESERVED_CHARACTERS`. -/
def reservedCharacter (b : UInt8) : Bool :=
  !(isAlnum b || b == minus || b == dot || b == underscore || b == tilde)

/-- `_escape`: percent-encode by byte. -/
def escapeBytes (s : Bytes) : Bytes := PercentCode.encode (fun b => !reservedCharacter b) s

/-- `escape`: `nil` is the empty string. -/
def escape (rt : Runtime) (value : Value) : Bytes := escapeBytes (value.toS rt)

/-- `unescape`: a literal `+` stays one. -/
def unescape (value : Bytes) : Bytes :=
  PercentCode.decode (value.flatMap (fun b => if b = plus then ascii "%2B" else [b]))

@[simp] theorem escape_str (rt : Runtime) (s : Bytes) : escape rt (.str s) = escapeBytes s := rfl

@[simp] theorem escape_nil (rt : Runtime) : escape rt .nil = [] := rfl

@[simp] theorem escapeBytes_nil : escapeBytes [] = [] := rfl

theorem escapeBytes_injective : Function.Injective escapeBytes :=
  PercentCode.encode_injective (by decide)

@[simp] theorem escapeBytes_inj {s t : Bytes} : escapeBytes s = escapeBytes t ↔ s = t :=
  escapeBytes_injective.eq_iff

/-- A reserved byte other than `%` never shows in an escaped string. -/
theorem not_mem_escapeBytes {b : UInt8} (hr : reservedCharacter b = true) (hp : b ≠ percent)
    (s : Bytes) : b ∉ escapeBytes s := by
  have hdigit : ∀ c, PercentCode.isUpperHex c = true → reservedCharacter c = false := by
    decide +kernel
  refine PercentCode.not_mem_encode (by simpa using hr) hp ?_ s
  by_contra hx
  rw [Bool.not_eq_false] at hx
  simp [hdigit b hx] at hr

theorem mem_escapeBytes {s : Bytes} {b : UInt8} (h : b ∈ escapeBytes s) :
    reservedCharacter b = false ∨ b = percent := by
  by_contra hn
  rw [not_or] at hn
  exact not_mem_escapeBytes (by simpa using hn.1) hn.2 s h

theorem unescape_of_not_mem {s : Bytes} (h : plus ∉ s) : unescape s = PercentCode.decode s := by
  have hid : s.flatMap (fun b => if b = plus then ascii "%2B" else [b]) = s := by
    induction s with
    | nil => rfl
    | cons b rest ih =>
        rw [List.mem_cons, not_or] at h
        rw [List.flatMap_cons, if_neg (fun he => h.1 he.symm), ih h.2]
        rfl
  rw [unescape, hid]

/-- **`unescape` undoes `_escape`.** -/
@[simp] theorem unescape_escapeBytes (s : Bytes) : unescape (escapeBytes s) = s := by
  rw [unescape_of_not_mem (not_mem_escapeBytes (by decide) (by decide) s)]
  exact PercentCode.decode_encode (by decide) s

/-! ## Segments -/

/-- `name=value`, both escaped. -/
def segment (name value : Bytes) : Bytes := escapeBytes name ++ equal :: escapeBytes value

theorem segment_inj {n v n' v' : Bytes} : segment n v = segment n' v' ↔ n = n' ∧ v = v' := by
  constructor
  · intro h
    have hcut := congrArg (cut equal) h
    have hno := not_mem_escapeBytes (b := equal) (by decide) (by decide)
    rw [segment, segment, cut_append (hno n), cut_append (hno n')] at hcut
    simpa using hcut
  · rintro ⟨rfl, rfl⟩; rfl

theorem ampersand_not_mem_segment (n v : Bytes) : ampersand ∉ segment n v := by
  have hno := not_mem_escapeBytes (b := ampersand) (by decide) (by decide)
  simp [segment, hno, show ampersand ≠ equal by decide]

theorem segment_ne_nil (n v : Bytes) : segment n v ≠ [] := by
  simp [segment]

/-! ## Normalization -/

/-- The byte order of segments, as `Array#sort` uses it. -/
def sortSegments (ss : List Bytes) : List Bytes := ss.insertionSort (· ≤ ·)

mutual

/-- `normalize_nested_query`: the segments under a prefix, sorted at every level. -/
def normalizeNestedQuery (rt : Runtime) (pre : Option Bytes) : Value → List Bytes
  | .arr vs => sortSegments (nestedArray rt pre vs)
  | .hash es => sortSegments (nestedHash rt pre es)
  | v => [escapeBytes (pre.getD []) ++ equal :: escape rt v]

def nestedArray (rt : Runtime) (pre : Option Bytes) : List Value → List Bytes
  | [] => []
  | v :: vs =>
    normalizeNestedQuery rt (some (pre.getD [] ++ ascii "[]")) v ++ nestedArray rt pre vs

def nestedHash (rt : Runtime) (pre : Option Bytes) : List (Bytes × Value) → List Bytes
  | [] => []
  | (k, v) :: es =>
    normalizeNestedQuery rt
      (some (match pre with
        | some p => p ++ [lbracket] ++ k ++ [rbracket]
        | none => k)) v ++ nestedHash rt pre es

end

/-- The segments of one parameter. An empty array counts as `[nil]`; whether an array is walked or
    sorted is decided by its first element. -/
def normalizeEntry (rt : Runtime) (k : Bytes) : Value → Except RubyError (List Bytes)
  | .arr vs =>
    let values := if vs.isEmpty then [.nil] else vs
    if (values.head?.map Value.isHash).getD false then
      .ok (normalizeNestedQuery rt (some k) (.arr values))
    else do
      let sorted ← Value.sort values
      .ok (sorted.map (fun v => segment k (v.toS rt)))
  | .hash es => .ok (normalizeNestedQuery rt (some k) (.hash es))
  | v => .ok [segment k (v.toS rt)]

/-- `normalize`: parameters in the order of their names. -/
def normalize (rt : Runtime) (params : Params) : Except RubyError Bytes := do
  let items ← params.sortedEntries.mapM (fun e => normalizeEntry rt e.1 e.2)
  .ok (joinWith ampersand (items.map (joinWith ampersand)))

/-! ## Header parsing -/

/-- `String#split` with a pattern: trailing empty strings are dropped. -/
def splitFields (p : UInt8 → Bool) (s : Bytes) : List Bytes :=
  ((s.splitOnP p).reverse.dropWhile List.isEmpty).reverse

/-- A line that begins and ends with a quote, without the two. -/
def unquoteLine (line : Bytes) : Option Bytes :=
  match line with
  | [] => none
  | b :: rest =>
    if b = quote ∧ rest.getLast? = some quote then some rest.dropLast else none

def unquoteLines : List Bytes → List Bytes
  | [] => []
  | l :: ls =>
    match unquoteLine l with
    | some l' => l' :: ls
    | none => l :: unquoteLines ls

/-- `sub(/^"(.*)"$/, '\1')`: `^` and `$` match at line ends and `.` stops at a newline, so the first
    line in quotes loses them. -/
def stripQuotes (s : Bytes) : Bytes := joinWith newline (unquoteLines (s.splitOn newline))

/-- `Hash[*list]`: names and values alternate. -/
def pairUp : List Bytes → List (Bytes × Bytes)
  | k :: v :: rest => (k, v) :: pairUp rest
  | _ => []

/-- `parse_header`. -/
def parseHeader (header : Bytes) : Except RubyError (OrderedHash Bytes Bytes) :=
  if header.length < 6 then .error .noMethodError
  else
    let fields := splitFields (fun b => b == comma || b == equal || b == ampersand) (header.drop 6)
    if fields.length % 2 = 1 then .error (.problem "Invalid authorization header")
    else .ok (OrderedHash.ofList (pairUp (fields.map (fun v => stripQuotes (unescape (strip v))))))

/-- `OAuth::PARAMETERS`. -/
def oauthParameterNames : List Bytes :=
  ["oauth_callback", "oauth_consumer_key", "oauth_token", "oauth_signature_method",
    "oauth_timestamp", "oauth_nonce", "oauth_verifier", "oauth_version", "oauth_signature",
    "oauth_body_hash"].map ascii

end RubyOAuth
