import Mathlib

set_option autoImplicit false

/-! # Computations that can fail

When a chain of `Except` computations succeeds, and what mapping a fallible function over a list
gives. -/

namespace Except

variable {ε α β : Type}

@[simp] theorem ok_bind (a : α) (f : α → Except ε β) : ((.ok a : Except ε α) >>= f) = f a := rfl

@[simp] theorem error_bind (e : ε) (f : α → Except ε β) :
    ((.error e : Except ε α) >>= f) = .error e := rfl

/-- A chain succeeds where its first part does and the rest does on that result. -/
theorem bind_eq_ok {x : Except ε α} {f : α → Except ε β} {b : β} :
    (x >>= f) = .ok b ↔ ∃ a, x = .ok a ∧ f a = .ok b := by
  cases x <;> simp

theorem bind_eq_error {x : Except ε α} {f : α → Except ε β} {e : ε} :
    (x >>= f) = .error e ↔ x = .error e ∨ ∃ a, x = .ok a ∧ f a = .error e := by
  cases x <;> simp

/-! ## Mapping over a list -/

theorem mapM_of_ok {f : α → Except ε β} {g : α → β} {l : List α} (h : ∀ a ∈ l, f a = .ok (g a)) :
    l.mapM f = .ok (l.map g) := by
  induction l with
  | nil => rfl
  | cons a rest ih =>
      rw [List.mapM_cons, h a List.mem_cons_self, ok_bind,
        ih (fun b hb => h b (List.mem_cons_of_mem _ hb)), ok_bind]
      rfl

theorem mapM_cons_eq_ok {f : α → Except ε β} {a : α} {l : List α} {bs : List β} :
    (a :: l).mapM f = .ok bs ↔ ∃ b cs, f a = .ok b ∧ l.mapM f = .ok cs ∧ bs = b :: cs := by
  rw [List.mapM_cons, bind_eq_ok]
  constructor
  · rintro ⟨b, hb, h⟩
    obtain ⟨cs, hcs, h⟩ := bind_eq_ok.1 h
    exact ⟨b, cs, hb, hcs, (Except.ok.inj h).symm⟩
  · rintro ⟨b, cs, hb, hcs, rfl⟩
    exact ⟨b, hb, bind_eq_ok.2 ⟨cs, hcs, rfl⟩⟩

/-- What a map gives depends on what is computed of each element only. -/
theorem mapM_congr_map {α' : Type} {f : α → Except ε β} {g : α' → Except ε β} {l : List α}
    {m : List α'} (h : l.map f = m.map g) : l.mapM f = m.mapM g :=
  calc l.mapM f = (l.map f).mapM id := by rw [List.mapM_map, Function.id_comp]
    _ = (m.map g).mapM id := by rw [h]
    _ = m.mapM g := by rw [List.mapM_map, Function.id_comp]

/-- Where the map succeeds, it succeeded on every element. -/
theorem ok_of_mapM {f : α → Except ε β} {l : List α} {bs : List β} (h : l.mapM f = .ok bs) :
    ∀ a ∈ l, ∃ b, f a = .ok b := by
  induction l generalizing bs with
  | nil => simp
  | cons a rest ih =>
      obtain ⟨b, cs, hb, hcs, -⟩ := mapM_cons_eq_ok.1 h
      intro x hx
      rcases List.mem_cons.1 hx with rfl | hx
      · exact ⟨b, hb⟩
      · exact ih hcs x hx

/-- What the map gives it gave for an element. -/
theorem mem_of_mapM {f : α → Except ε β} {l : List α} {bs : List β} (h : l.mapM f = .ok bs) {b : β}
    (hb : b ∈ bs) : ∃ a ∈ l, f a = .ok b := by
  induction l generalizing bs with
  | nil =>
      rw [List.mapM_nil] at h
      have hnil : bs = [] := (Except.ok.inj h).symm
      simp [hnil] at hb
  | cons a rest ih =>
      obtain ⟨c, cs, hc, hcs, rfl⟩ := mapM_cons_eq_ok.1 h
      rcases List.mem_cons.1 hb with rfl | hb
      · exact ⟨a, List.mem_cons_self, hc⟩
      · obtain ⟨x, hx, hfx⟩ := ih hcs hb
        exact ⟨x, List.mem_cons_of_mem _ hx, hfx⟩

/-- What the map raises it raised on an element. -/
theorem error_of_mapM {f : α → Except ε β} {l : List α} {e : ε} (h : l.mapM f = .error e) :
    ∃ a ∈ l, f a = .error e := by
  induction l with
  | nil => simp [pure, Except.pure] at h
  | cons a rest ih =>
      rw [List.mapM_cons] at h
      cases ha : f a with
      | error e' =>
          rw [ha, error_bind, Except.error.injEq] at h
          exact ⟨a, List.mem_cons_self, h ▸ ha⟩
      | ok b =>
          rw [ha, ok_bind] at h
          cases hr : rest.mapM f with
          | error e' =>
              rw [hr, error_bind, Except.error.injEq] at h
              obtain ⟨x, hx, hfx⟩ := ih (h ▸ hr)
              exact ⟨x, List.mem_cons_of_mem _ hx, hfx⟩
          | ok bs => rw [hr] at h; simp [pure, Except.pure] at h

theorem exists_mapM {f : α → Except ε β} {l : List α} (h : ∀ a ∈ l, ∃ b, f a = .ok b) :
    ∃ bs, l.mapM f = .ok bs := by
  induction l with
  | nil => exact ⟨[], rfl⟩
  | cons a rest ih =>
      obtain ⟨b, hb⟩ := h a List.mem_cons_self
      obtain ⟨cs, hcs⟩ := ih (fun x hx => h x (List.mem_cons_of_mem _ hx))
      exact ⟨b :: cs, mapM_cons_eq_ok.2 ⟨b, cs, hb, hcs, rfl⟩⟩

theorem mapM_append_eq_ok {f : α → Except ε β} {l m : List α} {bs : List β} :
    (l ++ m).mapM f = .ok bs ↔ ∃ cs ds, l.mapM f = .ok cs ∧ m.mapM f = .ok ds ∧ bs = cs ++ ds := by
  induction l generalizing bs with
  | nil => simp [pure, Except.pure]
  | cons a rest ih =>
      rw [List.cons_append, mapM_cons_eq_ok]
      constructor
      · rintro ⟨b, es, hb, hes, rfl⟩
        obtain ⟨cs, ds, hcs, hds, rfl⟩ := ih.1 hes
        exact ⟨b :: cs, ds, mapM_cons_eq_ok.2 ⟨b, cs, hb, hcs, rfl⟩, hds, rfl⟩
      · rintro ⟨cs', ds, hcs', hds, rfl⟩
        obtain ⟨b, cs, hb, hcs, rfl⟩ := mapM_cons_eq_ok.1 hcs'
        exact ⟨b, cs ++ ds, hb, ih.2 ⟨cs, ds, hcs, hds, rfl⟩, rfl⟩

/-! ## Two computations side by side -/

/-- Both succeed, with related results, or both raise the same. -/
inductive Agree (R : α → β → Prop) : Except ε α → Except ε β → Prop
  | ok {a : α} {b : β} (h : R a b) : Agree R (.ok a) (.ok b)
  | error (e : ε) : Agree R (.error e) (.error e)

theorem Agree.refl {R : α → α → Prop} (hR : ∀ a, R a a) (x : Except ε α) : Agree R x x := by
  cases x with
  | error e => exact .error e
  | ok a => exact .ok (hR a)

theorem Agree.imp {R S : α → β → Prop} {x : Except ε α} {y : Except ε β} (h : Agree R x y)
    (hRS : ∀ a b, R a b → S a b) : Agree S x y := by
  cases h with
  | error e => exact .error e
  | ok h => exact .ok (hRS _ _ h)

theorem Agree.bind {γ δ : Type} {R : α → β → Prop} {S : γ → δ → Prop} {x : Except ε α}
    {y : Except ε β} {f : α → Except ε γ} {g : β → Except ε δ} (h : Agree R x y)
    (hfg : ∀ a b, R a b → Agree S (f a) (g b)) : Agree S (x >>= f) (y >>= g) := by
  cases h with
  | error e => exact .error e
  | ok h => exact hfg _ _ h

end Except
