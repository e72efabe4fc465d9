import RubyOAuth.Model.Registries

set_option autoImplicit false

/-! # What the order of loading decides

The class bodies run in the order in which a program loads their files. A proxy class is looked up by the
request's ancestors too: the order matters for a request exactly where two of the loaded classes serve
it. Orders are counted whatever the files require; a file that requires another one, as that of
`ActionDispatchRequest` does that of `RackRequest`, is loaded after it in a program. -/

namespace RubyOAuth

open Dispatch

/-- The class has an entry for the requests of class `k`. -/
def ProxyClass.Serves (isA : Bytes → Bytes → Bool) (loaded : List ProxyClass) (k : Bytes)
    (p : ProxyClass) : Prop :=
  ∃ a ∈ p.proxied, ServedBy isA ((proxiesLines loaded).map Prod.fst) k a

variable {isA : Bytes → Bytes → Bool} {loaded loaded' : List ProxyClass} {k a : Bytes}
  {p q : ProxyClass}

theorem mem_proxiesLines : (a, p) ∈ proxiesLines loaded ↔ p ∈ loaded ∧ a ∈ p.proxied := by
  rw [proxiesLines, List.mem_flatMap]
  constructor
  · rintro ⟨p', hp', hmem⟩
    obtain ⟨a', ha', heq⟩ := List.mem_map.1 hmem
    obtain ⟨rfl, rfl⟩ := Prod.mk.inj heq
    exact ⟨hp', ha'⟩
  · rintro ⟨hp, ha⟩
    exact ⟨p, hp, List.mem_map.2 ⟨a, ha, rfl⟩⟩

theorem mem_proxied_iff :
    a ∈ (proxiesLines loaded).map Prod.fst ↔ ∃ p ∈ loaded, a ∈ p.proxied := by
  rw [List.mem_map]
  constructor
  · rintro ⟨⟨a', p⟩, hmem, rfl⟩
    exact ⟨p, mem_proxiesLines.1 hmem⟩
  · rintro ⟨p, hp⟩
    exact ⟨(a, p), mem_proxiesLines.2 hp, rfl⟩

theorem mem_proxied_congr (hperm : loaded'.Perm loaded) :
    a ∈ (proxiesLines loaded').map Prod.fst ↔ a ∈ (proxiesLines loaded).map Prod.fst := by
  simp only [mem_proxied_iff, hperm.mem_iff]

theorem ProxyClass.serves_congr (hperm : loaded'.Perm loaded) :
    p.Serves isA loaded' k ↔ p.Serves isA loaded k := by
  have hserved : ∀ a, ServedBy isA ((proxiesLines loaded').map Prod.fst) k a ↔
      ServedBy isA ((proxiesLines loaded).map Prod.fst) k a := by
    intro a
    by_cases hk : k ∈ (proxiesLines loaded).map Prod.fst
    · rw [ServedBy, if_pos ((mem_proxied_congr hperm).2 hk), ServedBy, if_pos hk]
    · rw [ServedBy, if_neg (fun h => hk ((mem_proxied_congr hperm).1 h)), ServedBy, if_neg hk]
  simp only [Serves, hserved]

/-- What `proxy` takes is a loaded class that serves. -/
theorem serves_of_dispatch (h : dispatch isA (availableProxies loaded) k = some p) :
    p ∈ loaded ∧ p.Serves isA loaded k := by
  obtain ⟨a, hserved, hmem⟩ := exists_of_dispatch h
  obtain ⟨hp, ha⟩ := mem_proxiesLines.1 hmem
  exact ⟨hp, a, ha, hserved⟩

theorem isSome_dispatch_iff :
    (dispatch isA (availableProxies loaded) k).isSome = true ↔ ∃ p ∈ loaded, p.Serves isA loaded k := by
  rw [availableProxies, dispatch_isSome_iff]
  constructor
  · rintro ⟨a, hserved, hmem⟩
    obtain ⟨p, hp, ha⟩ := mem_proxied_iff.1 hmem
    exact ⟨p, hp, a, ha, hserved⟩
  · rintro ⟨p, hp, a, ha, hserved⟩
    exact ⟨a, hserved, mem_proxied_iff.2 ⟨p, hp, ha⟩⟩

/-- Loaded last, a class has the entries it proxies. -/
theorem findEntry_of_last (ha : a ∈ p.proxied) :
    OrderedHash.findEntry a (proxiesLines (loaded ++ [p])).reverse = some p := by
  have hsome : ((OrderedHash.ofList (p.proxied.map (fun k => (k, p)))).lookup a).isSome = true := by
    rw [OrderedHash.lookup_ofList_isSome, List.map_map]
    exact List.mem_map.2 ⟨a, ha, rfl⟩
  obtain ⟨q, hq⟩ := Option.isSome_iff_exists.1 hsome
  rw [OrderedHash.lookup_ofList] at hq
  obtain ⟨a', -, heq⟩ := List.mem_map.1 (List.mem_reverse.1 (OrderedHash.mem_of_findEntry hq))
  obtain rfl := (Prod.mk.inj heq).2
  have happend : ∀ es fs : List (Bytes × ProxyClass), OrderedHash.findEntry a es = some p →
      OrderedHash.findEntry a (es ++ fs) = some p := by
    intro es fs h
    induction es with
    | nil => simp [OrderedHash.findEntry] at h
    | cons e rest ih =>
        rw [List.cons_append, OrderedHash.findEntry]
        rw [OrderedHash.findEntry] at h
        split
        · next he => rwa [if_pos he] at h
        · next he =>
            rw [if_neg he] at h
            exact ih h
  rw [proxiesLines, List.flatMap_append, List.reverse_append, List.flatMap_singleton]
  exact happend _ _ hq

/-- Loaded first, a class has the first entry that a request of no entry of its own is found by. -/
theorem find?_of_first (hp : ∃ a ∈ p.proxied, isA k a = true) :
    ∃ a ∈ p.proxied, isA k a = true ∧
      ∀ loaded, ((proxiesLines (p :: loaded)).map Prod.fst).find? (isA k) = some a := by
  obtain ⟨a, ha⟩ := Option.isSome_iff_exists.1 (List.find?_isSome.2 hp)
  refine ⟨a, List.mem_of_find?_eq_some ha, List.find?_some ha, fun loaded => ?_⟩
  have hkeys : (p.proxied.map (fun k => (k, p))).map Prod.fst = p.proxied := by
    rw [List.map_map]
    exact List.map_id p.proxied
  rw [proxiesLines, List.flatMap_cons, List.map_append, hkeys, List.find?_append, ha]
  rfl

/-- Two classes share an entry only where it is all they proxy. -/
theorem proxied_disjoint (p q : ProxyClass) :
    p = q ∨ (∀ a ∈ p.proxied, a ∉ q.proxied) ∨ ∃ a, p.proxied = [a] ∧ q.proxied = [a] := by
  cases p <;> cases q <;>
    first
    | exact .inl rfl
    | exact .inr (.inl (by decide))
    | exact .inr (.inr ⟨_, rfl, rfl⟩)

theorem eq_of_proxied {r : ProxyClass} {b : Bytes} (hpq : p ≠ q) (hp : a ∈ p.proxied)
    (hq : b ∈ q.proxied) (hpr : a ∈ r.proxied) (hqr : b ∈ r.proxied) : a = b := by
  rcases proxied_disjoint p r with rfl | hno | ⟨c, hc, hc'⟩
  · rcases proxied_disjoint q p with rfl | hno | ⟨c, hc, hc'⟩
    · exact absurd rfl hpq
    · exact absurd hqr (hno b hq)
    · rw [hc', List.mem_singleton] at hpr hqr
      rw [hpr, hqr]
  · exact absurd hpr (hno a hp)
  · rw [hc', List.mem_singleton] at hpr hqr
    rw [hpr, hqr]

/-- Where two loaded classes serve, some order gives the one and some other order another. -/
theorem dispatch_ne_of_serves {rest : List ProxyClass} (hpq : p ≠ q)
    (hloaded : loaded.Perm (p :: q :: rest)) (hp : p.Serves isA loaded k) (hq : q.Serves isA loaded k) :
    ∃ l l' : List ProxyClass, l.Perm loaded ∧ l'.Perm loaded ∧
      dispatch isA (availableProxies l) k ≠ dispatch isA (availableProxies l') k := by
  -- each of the two first and the other one last
  have hl : (p :: (rest ++ [q])).Perm loaded :=
    ((List.perm_append_singleton q rest).cons p).trans hloaded.symm
  have hl' : (q :: (rest ++ [p])).Perm loaded :=
    ((List.perm_append_singleton p rest).cons q).trans ((List.Perm.swap p q rest).trans hloaded.symm)
  refine ⟨_, _, hl, hl', ?_⟩
  by_cases hk : k ∈ (proxiesLines loaded).map Prod.fst
  · -- the entry of the class itself is the last one's
    have hown : ∀ r : ProxyClass, r.Serves isA loaded k → k ∈ r.proxied := by
      rintro r ⟨a, ha, hserved⟩
      rw [ServedBy, if_pos hk] at hserved
      exact hserved ▸ ha
    rw [availableProxies, dispatch_ofList, ← List.cons_append, findEntry_of_last (hown q hq),
      availableProxies, dispatch_ofList, ← List.cons_append, findEntry_of_last (hown p hp)]
    exact fun h => hpq (Option.some.inj h).symm
  · have hnone : ∀ l : List ProxyClass, l.Perm loaded →
        OrderedHash.findEntry k (proxiesLines l).reverse = none := by
      intro l hl
      rw [OrderedHash.findEntry_eq_none, List.map_reverse, List.mem_reverse]
      exact fun hmem => hk ((mem_proxied_congr hl).1 hmem)
    have hancestor : ∀ r : ProxyClass, r.Serves isA loaded k → ∃ a ∈ r.proxied, isA k a = true := by
      rintro r ⟨a, ha, hserved⟩
      rw [ServedBy, if_neg hk] at hserved
      exact ⟨a, ha, hserved⟩
    obtain ⟨a, ha, -, hfirst⟩ := find?_of_first (hancestor p hp)
    obtain ⟨b, hb, -, hfirst'⟩ := find?_of_first (hancestor q hq)
    intro heq
    rw [availableProxies, dispatch_ofList, hnone _ hl, hfirst, Option.none_or, Option.bind_some,
      availableProxies, dispatch_ofList, hnone _ hl', hfirst', Option.none_or, Option.bind_some] at heq
    by_cases hab : a = b
    · subst hab
      rw [← List.cons_append, findEntry_of_last hb, ← List.cons_append, findEntry_of_last ha] at heq
      exact hpq (Option.some.inj heq).symm
    · -- one class would have to have both entries
      have hsome : (OrderedHash.findEntry a (proxiesLines (p :: (rest ++ [q]))).reverse).isSome = true := by
        rw [← OrderedHash.lookup_ofList, OrderedHash.lookup_ofList_isSome]
        exact mem_proxied_iff.2 ⟨p, List.mem_cons_self, ha⟩
      obtain ⟨r, hr⟩ := Option.isSome_iff_exists.1 hsome
      have hra : a ∈ r.proxied :=
        (mem_proxiesLines.1 (List.mem_reverse.1 (OrderedHash.mem_of_findEntry hr))).2
      have hrb : b ∈ r.proxied :=
        (mem_proxiesLines.1 (List.mem_reverse.1 (OrderedHash.mem_of_findEntry (heq ▸ hr)))).2
      exact hab (eq_of_proxied hpq ha hb hra hrb)

/-- **The order of loading matters exactly where two loaded classes serve a request**: for any classes
    of the program, every order gives it the same proxy class, or the same error, if and only if no two
    of the loaded ones have an entry for it. All orders count, with `ActionDispatchRequest` before
    `RackRequest` too, which its `require` keeps out. -/
theorem proxyClass_perm_iff (isA : Bytes → Bytes → Bool) (loaded : List ProxyClass) (k : Bytes) :
    (∀ loaded' : List ProxyClass, loaded'.Perm loaded →
        proxyClass isA (availableProxies loaded') k = proxyClass isA (availableProxies loaded) k) ↔
      ∀ p ∈ loaded, ∀ q ∈ loaded, p.Serves isA loaded k → q.Serves isA loaded k → p = q := by
  have hclass : ∀ l l' : List ProxyClass,
      proxyClass isA (availableProxies l) k = proxyClass isA (availableProxies l') k ↔
        dispatch isA (availableProxies l) k = dispatch isA (availableProxies l') k := by
    intro l l'
    rw [proxyClass, proxyClass]
    cases dispatch isA (availableProxies l) k <;> cases dispatch isA (availableProxies l') k <;> simp
  constructor
  · intro hsame p hp q hq hps hqs
    by_contra hpq
    obtain ⟨rest, hrest⟩ : ∃ rest, loaded.Perm (p :: q :: rest) :=
      ⟨(loaded.erase p).erase q, (List.perm_cons_erase hp).trans
        ((List.perm_cons_erase ((List.mem_erase_of_ne (Ne.symm hpq)).2 hq)).cons p)⟩
    obtain ⟨l, l', hl, hl', hne⟩ := dispatch_ne_of_serves hpq hrest hps hqs
    exact hne (((hclass _ _).1 (hsame l hl)).trans ((hclass _ _).1 (hsame l' hl')).symm)
  · intro hone loaded' hperm
    rw [hclass]
    cases h : dispatch isA (availableProxies loaded) k with
    | none =>
        by_contra hsome
        obtain ⟨p, hp, hserved⟩ := isSome_dispatch_iff.1 (Option.isSome_iff_ne_none.2 hsome)
        have := isSome_dispatch_iff.2 ⟨p, hperm.mem_iff.1 hp, (ProxyClass.serves_congr hperm).1 hserved⟩
        rw [h] at this
        simp at this
    | some p =>
        obtain ⟨hp, hps⟩ := serves_of_dispatch h
        have hsome : (dispatch isA (availableProxies loaded') k).isSome = true :=
          isSome_dispatch_iff.2 ⟨p, hperm.mem_iff.2 hp, (ProxyClass.serves_congr hperm).2 hps⟩
        obtain ⟨q, hq⟩ := Option.isSome_iff_exists.1 hsome
        obtain ⟨hql, hqs⟩ := serves_of_dispatch hq
        rw [hq, hone q (hperm.mem_iff.1 hql) p hp ((ProxyClass.serves_congr hperm).1 hqs) hps]

end RubyOAuth
