import RubyOAuth.Lib.Fallible
import RubyOAuth.Model.Helper

set_option autoImplicit false

/-! # Parameters under keys of any kind

`parameters` gives whatever the request's library and the caller's options hold: names may be symbols,
and a proxy that splits a body itself may leave `nil` as a name. Sorting compares the keys, filtering
compares them with the unsigned names, which are strings. -/

namespace RubyOAuth

open Bytes

/-- A parameter hash with keys of any kind. -/
abbrev KeyedParams := OrderedHash Key Value

namespace Key

/-- `<=>`: keys of different kinds do not compare. -/
def cmp : Key → Key → Option Ordering
  | .nil, .nil => some .eq
  | .str a, .str b => some (Value.strCmp a b)
  | .sym a, .sym b => some (Value.strCmp a b)
  | _, _ => none

def Le (k l : Key) : Prop := cmp k l ≠ some .gt

instance : DecidableRel Le := fun k l => inferInstanceAs (Decidable (cmp k l ≠ some .gt))

/-- Any two keys compare. -/
def comparable : List Key → Bool
  | [] => true
  | k :: ks => ks.all (fun l => (cmp k l).isSome) && comparable ks

/-- The order of entries by key. -/
def EntryLe (a b : Key × Value) : Prop := Le a.1 b.1

instance : DecidableRel EntryLe := fun a b => inferInstanceAs (Decidable (Le a.1 b.1))

theorem le_str_iff {a b : Bytes} : Le (.str a) (.str b) ↔ a ≤ b := by
  rw [Le, cmp, ← Value.strCmp_ne_gt]
  simp

theorem comparable_map_str (ks : List Bytes) : comparable (ks.map Key.str) = true := by
  induction ks with
  | nil => rfl
  | cons k rest ih =>
      have hall : ∀ l ∈ rest.map Key.str, (cmp (.str k) l).isSome = true := by
        intro l hl
        obtain ⟨t, _, rfl⟩ := List.mem_map.1 hl
        rfl
      rw [List.map_cons, comparable, List.all_eq_true.2 hall, ih]
      rfl

end Key

/-- String names as keys. -/
def Params.keyed (params : Params) : KeyedParams :=
  ⟨params.entries.map (fun e => (.str e.1, e.2)), by
    have hmap : (params.entries.map (fun e => ((.str e.1, e.2) : Key × Value))).map Prod.fst
        = (params.entries.map Prod.fst).map Key.str := by simp
    rw [hmap]
    exact params.nodup.map (fun a b h => Key.str.inj h)⟩

namespace KeyedParams

/-- `params.sort`: no two entries have one key, so only keys are compared. -/
def sort (params : KeyedParams) : Except RubyError (List (Key × Value)) :=
  if Key.comparable params.keys then .ok (params.entries.insertionSort Key.EntryLe)
  else .error .argumentError

/-- The segments of one parameter. A hash under `nil` has no prefix. -/
def normalizeEntry (rt : Runtime) : Key → Value → Except RubyError (List Bytes)
  | .nil, .hash es => .ok (normalizeNestedQuery rt none (.hash es))
  | k, v => RubyOAuth.normalizeEntry rt k.toS v

/-- `normalize`. -/
def normalize (rt : Runtime) (params : KeyedParams) : Except RubyError Bytes := do
  let es ← params.sort
  let items ← es.mapM (fun e => normalizeEntry rt e.1 e.2)
  .ok (joinWith ampersand (items.map (joinWith ampersand)))

/-- `!signature_and_unsigned_parameters.include?(k)`. -/
def isSigned (unsignedParameters : List Bytes) : Key → Bool
  | .str k => !(unsignedParameters ++ [ascii "oauth_signature"]).contains k
  | _ => true

/-- `normalized_parameters` over `parameters_for_signature`. -/
def normalizedParameters (rt : Runtime) (unsignedParameters : List Bytes) (params : KeyedParams) :
    Except RubyError Bytes :=
  normalize rt (params.select (isSigned unsignedParameters))

end KeyedParams

/-! ## String names -/

theorem KeyedParams.sort_keyed (params : Params) :
    KeyedParams.sort params.keyed
      = .ok (params.sortedEntries.map (fun e => ((.str e.1, e.2) : Key × Value))) := by
  have hkeys : OrderedHash.keys params.keyed = params.keys.map Key.str := by
    simp [OrderedHash.keys, Params.keyed]
  rw [KeyedParams.sort, hkeys, if_pos (Key.comparable_map_str _), OrderedHash.sortedEntries,
    List.map_insertionSort OrderedHash.KeyLe Key.EntryLe _ params.entries
      (fun a _ b _ => Key.le_str_iff.symm)]
  rfl

/-- **On string names the two normal forms are one.** -/
theorem KeyedParams.normalize_keyed (rt : Runtime) (params : Params) :
    KeyedParams.normalize rt params.keyed = RubyOAuth.normalize rt params := by
  rw [KeyedParams.normalize, KeyedParams.sort_keyed, Except.ok_bind, List.mapM_map]
  rfl

theorem Params.select_keyed (p : Key → Bool) (params : Params) :
    params.keyed.select p = Params.keyed (params.select (fun k => p (.str k))) := by
  simp only [OrderedHash.select, Params.keyed, List.filter_map, OrderedHash.mk.injEq]
  rfl

end RubyOAuth
