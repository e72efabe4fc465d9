import RubyOAuth.Lib.OrderedHash

set_option autoImplicit false

/-! # Dispatch tables

A table of classes in which a class that is not registered is served by an ancestor that is, the one
registered first; under a class the last registration counts. What a lookup gives can depend on the
order of the registrations in two ways, then: a class registered twice, and two registered ancestors. -/

namespace Dispatch

variable {κ γ : Type} [DecidableEq κ] {isA : κ → κ → Bool}

def dispatch (isA : κ → κ → Bool) (t : OrderedHash κ γ) (k : κ) : Option γ :=
  match t.lookup k with
  | some v => some v
  | none => (t.keys.find? (isA k)).bind t.lookup

/-- Registrations keep the place of a key, so the first key that qualifies is the first registered. -/
theorem find?_keys_ofList (p : κ → Bool) (es : List (κ × γ)) :
    (OrderedHash.ofList es).keys.find? p = (es.map Prod.fst).find? p := by
  induction es using List.reverseRecOn with
  | nil => rfl
  | append_singleton rest e ih =>
      have hkeys : (OrderedHash.ofList (rest ++ [e])).keys
          = if e.1 ∈ (OrderedHash.ofList rest).keys then (OrderedHash.ofList rest).keys
            else (OrderedHash.ofList rest).keys ++ [e.1] := by
        rw [OrderedHash.ofList, List.foldl_append]
        exact OrderedHash.keys_setEntry e.1 e.2 _
      rw [hkeys, List.map_append, List.find?_append, ← ih]
      split
      · next hmem =>
          -- where the key is there already, it is found among the earlier ones
          rw [List.map_singleton, List.find?_singleton]
          split
          · next hp =>
              obtain ⟨a, ha⟩ := Option.isSome_iff_exists.1 (List.find?_isSome.2 ⟨e.1, hmem, hp⟩)
              rw [ha]
              rfl
          · rw [Option.or_none]
      · rw [List.find?_append]
        rfl

/-- **What is dispatched to after any registrations**: the last one for the class itself, else the last
    one for the ancestor registered first. -/
theorem dispatch_ofList (es : List (κ × γ)) (k : κ) :
    dispatch isA (OrderedHash.ofList es) k
      = (OrderedHash.findEntry k es.reverse).or
        (((es.map Prod.fst).find? (isA k)).bind (fun a => OrderedHash.findEntry a es.reverse)) := by
  rw [dispatch, OrderedHash.lookup_ofList, find?_keys_ofList]
  cases OrderedHash.findEntry k es.reverse with
  | some v => rfl
  | none =>
      have hlookup : (OrderedHash.ofList es).lookup = fun a => OrderedHash.findEntry a es.reverse :=
        funext (OrderedHash.lookup_ofList es)
      rw [Option.none_or, ← hlookup]

/-- The class, or the ancestor of one that is not registered. -/
def ServedBy (isA : κ → κ → Bool) (registered : List κ) (k a : κ) : Prop :=
  if k ∈ registered then a = k else isA k a = true

/-- What is dispatched to has been registered under a class that serves. -/
theorem exists_of_dispatch {es : List (κ × γ)} {k : κ} {v : γ}
    (h : dispatch isA (OrderedHash.ofList es) k = some v) :
    ∃ a, ServedBy isA (es.map Prod.fst) k a ∧ (a, v) ∈ es := by
  rw [dispatch_ofList, Option.or_eq_some_iff] at h
  rcases h with h | ⟨hnone, h⟩
  · have hmem := List.mem_reverse.1 (OrderedHash.mem_of_findEntry h)
    exact ⟨k, by rw [ServedBy, if_pos (List.mem_map.2 ⟨_, hmem, rfl⟩)], hmem⟩
  · rw [OrderedHash.findEntry_eq_none, List.map_reverse, List.mem_reverse] at hnone
    obtain ⟨a, hfind, hv⟩ := Option.bind_eq_some_iff.1 h
    refine ⟨a, ?_, List.mem_reverse.1 (OrderedHash.mem_of_findEntry hv)⟩
    rw [ServedBy, if_neg hnone]
    exact List.find?_some hfind

theorem dispatch_isSome_iff {es : List (κ × γ)} {k : κ} :
    (dispatch isA (OrderedHash.ofList es) k).isSome = true
      ↔ ∃ a, ServedBy isA (es.map Prod.fst) k a ∧ a ∈ es.map Prod.fst := by
  constructor
  · intro h
    obtain ⟨v, hv⟩ := Option.isSome_iff_exists.1 h
    obtain ⟨a, hserved, hmem⟩ := exists_of_dispatch hv
    exact ⟨a, hserved, List.mem_map.2 ⟨_, hmem, rfl⟩⟩
  · rintro ⟨a, hserved, hmem⟩
    have hlast : ∀ b ∈ es.map Prod.fst, (OrderedHash.findEntry b es.reverse).isSome = true := by
      intro b hb
      rw [← OrderedHash.lookup_ofList]
      exact OrderedHash.lookup_ofList_isSome.2 hb
    rw [dispatch_ofList, Option.isSome_or, Bool.or_eq_true]
    rw [ServedBy] at hserved
    split at hserved
    · next hk => exact .inl (hlast k hk)
    · right
      obtain ⟨b, hb⟩ := Option.isSome_iff_exists.1 (List.find?_isSome.2 ⟨a, hmem, hserved⟩)
      rw [hb, Option.bind_some]
      exact hlast b (List.mem_of_find?_eq_some hb)

end Dispatch
