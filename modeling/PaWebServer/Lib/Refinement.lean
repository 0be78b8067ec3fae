import PaWebServer.Lib.Transition
import Mathlib.Data.List.Induction

/-!
# Refinement mappings

A system refines an abstract one when a mapping of its states takes each of its steps to a run of
the abstract system: one step, several, or none.  Then it takes whole runs to runs, and what the
abstract system guarantees on its runs holds of the concrete one.
-/

namespace Transition

variable {σ ℓ σ' ℓ' β : Type*} {step : σ → ℓ → Option σ} {astep : σ' → ℓ' → Option σ'}
  {guard : σ → ℓ → Prop} {I : σ → Prop} {f : σ → σ'} {emit : σ → ℓ → List ℓ'}

theorem run_append (s : σ) (as bs : List ℓ) :
    run step s (as ++ bs) = (run step s as).bind fun t => run step t bs := by
  induction as generalizing s with
  | nil => rfl
  | cons a as ih =>
    rw [List.cons_append, run, run, Option.bind_assoc]
    exact congrArg _ (funext ih)

/-- A run in rounds, one for each element of a list; `st` gives the state after the rounds of the
elements before. -/
theorem run_flatMap {α : Type*} {round : α → List ℓ} (st : List α → σ) {l : List α}
    (h : ∀ front a rest, l = front ++ a :: rest →
      run step (st front) (round a) = some (st (front ++ [a]))) :
    run step (st []) (l.flatMap round) = some (st l) := by
  induction l using List.reverseRecOn with
  | nil => rfl
  | append_singleton l a ih =>
    have hfront : ∀ front b rest, l = front ++ b :: rest →
        run step (st front) (round b) = some (st (front ++ [b])) :=
      fun front b rest hl => h front b (rest ++ [a]) (by simp [hl])
    rw [List.flatMap_append, run_append, ih hfront, List.flatMap_singleton]
    exact h l a [] rfl

/-- A run maps to the run of the labels that its steps stand for. -/
theorem run_refines
    (hstep : ∀ s a s', I s → guard s a → step s a = some s' →
      I s' ∧ run astep (f s) (emit s a) = some (f s'))
    {s t : σ} {as : List ℓ} (hs : I s) (hm : Meets step guard s as) (h : run step s as = some t) :
    run astep (f s) (trace step emit s as) = some (f t) := by
  induction as generalizing s with
  | nil =>
    obtain rfl := Option.some.inj h
    rfl
  | cons a as ih =>
    obtain ⟨s', hs', ht⟩ := run_cons_iff.1 h
    obtain ⟨hI, hmap⟩ := hstep s a s' hs hm.1 hs'
    rw [trace_cons as hs', run_append, hmap]
    exact ih hI (hm.2 s' hs') ht

theorem trace_append {s t : σ} {as : List ℓ} (h : run step s as = some t) (bs : List ℓ)
    (emit : σ → ℓ → List β) :
    trace step emit s (as ++ bs) = trace step emit s as ++ trace step emit t bs := by
  induction as generalizing s with
  | nil =>
    obtain rfl := Option.some.inj h
    rfl
  | cons a as ih =>
    obtain ⟨s', hs', ht⟩ := run_cons_iff.1 h
    rw [List.cons_append, trace_cons _ hs', trace_cons _ hs', ih ht, List.append_assoc]

theorem meets_append {s t : σ} {as : List ℓ} (h : run step s as = some t) {bs : List ℓ} :
    Meets step guard s (as ++ bs) ↔ Meets step guard s as ∧ Meets step guard t bs := by
  induction as generalizing s with
  | nil =>
    obtain rfl := Option.some.inj h
    simp [Meets]
  | cons a as ih =>
    obtain ⟨s', hs', ht⟩ := run_cons_iff.1 h
    rw [List.cons_append, meets_cons_iff _ hs', meets_cons_iff _ hs', ih ht, and_assoc]

/-- The labels that the steps of a run stand for meet a guard of the abstract system. -/
theorem meets_refines {aguard : σ' → ℓ' → Prop}
    (hstep : ∀ s a s', I s → guard s a → step s a = some s' →
      I s' ∧ run astep (f s) (emit s a) = some (f s') ∧ Meets astep aguard (f s) (emit s a))
    {s t : σ} {as : List ℓ} (hs : I s) (hm : Meets step guard s as) (h : run step s as = some t) :
    Meets astep aguard (f s) (trace step emit s as) := by
  induction as generalizing s with
  | nil => trivial
  | cons a as ih =>
    obtain ⟨s', hs', ht⟩ := run_cons_iff.1 h
    obtain ⟨hI, hmap, hmeets⟩ := hstep s a s' hs hm.1 hs'
    rw [trace_cons as hs']
    exact (meets_append hmap).2 ⟨hmeets, ih hI (hm.2 s' hs') ht⟩

/-- When each abstract step can be done from each state of the invariant, each abstract run is the
image of a run. -/
theorem exists_run_of_run {aguard : σ' → ℓ' → Prop}
    (hstep : ∀ s b t, I s → aguard (f s) b → astep (f s) b = some t →
      ∃ as s', Meets step guard s as ∧ run step s as = some s' ∧ trace step emit s as = [b] ∧
        f s' = t ∧ I s')
    {s : σ} {t : σ'} {bs : List ℓ'} (hs : I s) (hm : Meets astep aguard (f s) bs)
    (h : run astep (f s) bs = some t) :
    ∃ as s', Meets step guard s as ∧ run step s as = some s' ∧ trace step emit s as = bs ∧
      f s' = t := by
  induction bs generalizing s with
  | nil => exact ⟨[], s, trivial, rfl, rfl, Option.some.inj h⟩
  | cons b bs ih =>
    obtain ⟨t₁, ht₁, ht⟩ := run_cons_iff.1 h
    obtain ⟨as, s₁, hmeets, hrun, htrace, rfl, hs₁⟩ := hstep s b t₁ hs hm.1 ht₁
    obtain ⟨as', s', hmeets', hrun', htrace', hmap⟩ := ih hs₁ (hm.2 _ ht₁) ht
    refine ⟨as ++ as', s', (meets_append hrun).2 ⟨hmeets, hmeets'⟩, ?_, ?_, hmap⟩
    · rw [run_append, hrun]
      exact hrun'
    · rw [trace_append hrun, htrace, htrace']
      rfl

end Transition
