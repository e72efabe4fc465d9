import Mathlib

set_option autoImplicit false

/-! # Runs of a deterministic machine

A machine takes inputs one after the other, changes its state and emits outputs. An invariant that
every step keeps holds after every run, and an output that is allowed whenever the invariant holds is
allowed throughout. Where a step is good only under a condition on state and input, `Along` says that
the condition is met at every step of a run. -/

namespace Machine

variable {σ ι ω : Type}

/-- The state after the inputs, and everything emitted on the way. -/
def run (step : σ → ι → σ × List ω) : σ → List ι → σ × List ω
  | s, [] => (s, [])
  | s, i :: is =>
    let next := step s i
    let rest := run step next.1 is
    (rest.1, next.2 ++ rest.2)

/-- The condition holds at every step of the run, in the state the step is taken in. -/
def Along (step : σ → ι → σ × List ω) (cond : σ → ι → Prop) : σ → List ι → Prop
  | _, [] => True
  | s, i :: is => cond s i ∧ Along step cond (step s i).1 is

variable {step : σ → ι → σ × List ω}

theorem along_of_forall {cond : σ → ι → Prop} {is : List ι} (h : ∀ s, ∀ i ∈ is, cond s i) (s : σ) :
    Along step cond s is := by
  induction is generalizing s with
  | nil => trivial
  | cons i rest ih =>
      exact ⟨h s i List.mem_cons_self, ih (fun t j hj => h t j (List.mem_cons_of_mem _ hj)) _⟩

/-- **Invariant and allowed outputs, from one step to the run.** -/
theorem run_safe {inv : σ → Prop} {allowed : ω → Prop} {cond : σ → ι → Prop}
    (hstep : ∀ s i, inv s → cond s i → inv (step s i).1 ∧ ∀ w ∈ (step s i).2, allowed w)
    {s : σ} {is : List ι} (hs : inv s) (hcond : Along step cond s is) :
    inv (run step s is).1 ∧ ∀ w ∈ (run step s is).2, allowed w := by
  induction is generalizing s with
  | nil => exact ⟨hs, by simp [run]⟩
  | cons i rest ih =>
      obtain ⟨hinv, hout⟩ := hstep s i hs hcond.1
      obtain ⟨hinv', hout'⟩ := ih hinv hcond.2
      refine ⟨hinv', fun w hw => ?_⟩
      rw [run, List.mem_append] at hw
      rcases hw with hw | hw
      · exact hout w hw
      · exact hout' w hw

/-- What the inputs emit in whatever state, the run emits. -/
theorem run_allowed {allowed : ω → Prop} {is : List ι}
    (hstep : ∀ s, ∀ i ∈ is, ∀ w ∈ (step s i).2, allowed w) (s : σ) :
    ∀ w ∈ (run step s is).2, allowed w := by
  induction is generalizing s with
  | nil => simp [run]
  | cons i rest ih =>
      rw [run]
      exact List.forall_mem_append.2 ⟨hstep s i List.mem_cons_self,
        ih (fun t j hj => hstep t j (List.mem_cons_of_mem _ hj)) _⟩

/-- **Where each step is good exactly under its condition, so is the run**, over the runs whose outputs
    are all made. -/
theorem run_allowed_iff {inv : σ → Prop} {made allowed : ω → Prop} {cond : σ → ι → Prop}
    (hinv : ∀ s i, inv s → inv (step s i).1)
    (hstep : ∀ s i, inv s → (∀ w ∈ (step s i).2, made w) →
      ((∀ w ∈ (step s i).2, allowed w) ↔ cond s i))
    {s : σ} {is : List ι} (hs : inv s) (hmade : ∀ w ∈ (run step s is).2, made w) :
    (∀ w ∈ (run step s is).2, allowed w) ↔ Along step cond s is := by
  induction is generalizing s with
  | nil => simp [run, Along]
  | cons i rest ih =>
      simp only [run, List.forall_mem_append] at hmade ⊢
      rw [Along, hstep s i hs hmade.1, ih (hinv s i hs) hmade.2]

/-- **What every step draws from its own source, in order, the run draws from the sources together.** -/
theorem run_sublistForall₂ {α β : Type} {emit : ω → List β} {source : ι → List α} {R : β → α → Prop}
    {is : List ι}
    (hstep : ∀ s, ∀ i ∈ is, List.SublistForall₂ R ((step s i).2.flatMap emit) (source i)) (s : σ) :
    List.SublistForall₂ R ((run step s is).2.flatMap emit) (is.flatMap source) := by
  induction is generalizing s with
  | nil => exact .nil
  | cons i rest ih =>
      have hfirst := hstep s i List.mem_cons_self
      have hrest := ih (fun t j hj => hstep t j (List.mem_cons_of_mem _ hj)) (step s i).1
      obtain ⟨used, hused, hsub⟩ := List.sublistForall₂_iff.1 hfirst
      obtain ⟨later, hlater, hsub'⟩ := List.sublistForall₂_iff.1 hrest
      rw [run, List.flatMap_append, List.flatMap_cons]
      exact List.sublistForall₂_iff.2 ⟨used ++ later, List.rel_append hused hlater, hsub.append hsub'⟩

/-- **Two machines whose steps stay related run alike**: related states and inputs give related states
    and outputs. -/
theorem run_forall₂ {σ' ι' ω' : Type} {step' : σ' → ι' → σ' × List ω'} {S : σ → σ' → Prop}
    {I : ι → ι' → Prop} {R : ω → ω' → Prop}
    (hstep : ∀ s s' i i', S s s' → I i i' →
      S (step s i).1 (step' s' i').1 ∧ List.Forall₂ R (step s i).2 (step' s' i').2)
    {s : σ} {s' : σ'} {is : List ι} {is' : List ι'} (hs : S s s') (his : List.Forall₂ I is is') :
    S (run step s is).1 (run step' s' is').1 ∧
      List.Forall₂ R (run step s is).2 (run step' s' is').2 := by
  induction his generalizing s s' with
  | nil => exact ⟨hs, .nil⟩
  | cons hi _ ih =>
      obtain ⟨hnext, hout⟩ := hstep s s' _ _ hs hi
      obtain ⟨hend, hrest⟩ := ih hnext
      exact ⟨hend, List.rel_append hout hrest⟩

end Machine
