import Mathlib

set_option autoImplicit false

/-! # Delegated access

The shape of a flow in which a party first gets a temporary token, exchanges it for one that grants
access, and then uses that one. What is held is two sets of tokens; an event is possible where the token
it needs is held. In a run from nothing every use of a token therefore has a history: the token was
granted before in exchange for a temporary one, and that one was issued before. -/

namespace Delegation

variable {τ : Type}

inductive Event (τ : Type) where
  | issue (t : τ)
  | present (r : τ)
  | grant (r t : τ)
  | use (t : τ)

structure Holdings (τ : Type) where
  temporary : Set τ
  granted : Set τ

/-- Nothing is held. -/
def nothing : Holdings τ := ⟨∅, ∅⟩

inductive Step : Holdings τ → Event τ → Holdings τ → Prop
  | issue (h : Holdings τ) (t : τ) : Step h (.issue t) { h with temporary := insert t h.temporary }
  | present {h : Holdings τ} {r : τ} (hr : r ∈ h.temporary) : Step h (.present r) h
  | grant {h : Holdings τ} {r : τ} (hr : r ∈ h.temporary) (t : τ) :
    Step h (.grant r t) { h with granted := insert t h.granted }
  | use {h : Holdings τ} {t : τ} (ht : t ∈ h.granted) : Step h (.use t) h

inductive Run : Holdings τ → List (Event τ) → Holdings τ → Prop
  | nil (h : Holdings τ) : Run h [] h
  | cons {h h' h'' : Holdings τ} {e : Event τ} {es : List (Event τ)} (he : Step h e h')
    (hes : Run h' es h'') : Run h (e :: es) h''

theorem Run.single {h h' : Holdings τ} {e : Event τ} (he : Step h e h') : Run h [e] h' :=
  .cons he (.nil h')

theorem Run.append {h h' h'' : Holdings τ} {es fs : List (Event τ)} (hes : Run h es h')
    (hfs : Run h' fs h'') : Run h (es ++ fs) h'' := by
  induction hes with
  | nil h => exact hfs
  | cons he _ ih => exact .cons he (ih hfs)

/-- A run can be cut anywhere. -/
theorem Run.split {h h'' : Holdings τ} {es fs : List (Event τ)} (hrun : Run h (es ++ fs) h'') :
    ∃ h', Run h es h' ∧ Run h' fs h'' := by
  induction es generalizing h with
  | nil => exact ⟨h, .nil h, hrun⟩
  | cons e rest ih =>
      obtain _ | ⟨he, hes⟩ := hrun
      obtain ⟨h', hrest, hfs⟩ := ih hes
      exact ⟨h', .cons he hrest, hfs⟩

/-- A temporary token that is held was held from the start or has been issued. -/
theorem Run.mem_temporary {h h' : Holdings τ} {es : List (Event τ)} (hrun : Run h es h') {t : τ} :
    t ∈ h'.temporary ↔ t ∈ h.temporary ∨ Event.issue t ∈ es := by
  induction hrun with
  | nil h => simp
  | cons he _ ih =>
      rw [ih]
      cases he with
      | issue t' =>
          simp only [Set.mem_insert_iff, List.mem_cons, Event.issue.injEq]
          tauto
      | present hr => simp
      | grant hr t' => simp
      | use ht => simp

theorem Run.mem_granted {h h' : Holdings τ} {es : List (Event τ)} (hrun : Run h es h') {t : τ} :
    t ∈ h'.granted ↔ t ∈ h.granted ∨ ∃ r, Event.grant r t ∈ es := by
  induction hrun with
  | nil h => simp
  | cons he _ ih =>
      rw [ih]
      cases he with
      | issue t' => simp
      | present hr => simp
      | grant hr t' =>
          simp only [Set.mem_insert_iff, List.mem_cons, Event.grant.injEq]
          constructor
          · rintro ((rfl | ht) | ⟨r, hr⟩)
            · exact .inr ⟨_, .inl ⟨rfl, rfl⟩⟩
            · exact .inl ht
            · exact .inr ⟨r, .inr hr⟩
          · rintro (ht | ⟨r, ⟨-, rfl⟩ | hr⟩)
            · exact .inl (.inr ht)
            · exact .inl (.inl rfl)
            · exact .inr ⟨r, hr⟩
      | use ht => simp

variable {h : Holdings τ} {pre post : List (Event τ)} {r t : τ}

/-- **What is presented was issued before.** -/
theorem Run.issued_before_present (hrun : Run nothing (pre ++ .present r :: post) h) :
    Event.issue r ∈ pre := by
  obtain ⟨h', hpre, hpost⟩ := hrun.split
  obtain _ | ⟨he, -⟩ := hpost
  cases he with
  | present hr => exact (hpre.mem_temporary.1 hr).resolve_left (Set.notMem_empty r)

/-- **What is used was granted before.** -/
theorem Run.granted_before_use (hrun : Run nothing (pre ++ .use t :: post) h) :
    ∃ r, Event.grant r t ∈ pre := by
  obtain ⟨h', hpre, hpost⟩ := hrun.split
  obtain _ | ⟨he, -⟩ := hpost
  cases he with
  | use ht => exact (hpre.mem_granted.1 ht).resolve_left (Set.notMem_empty t)

end Delegation
