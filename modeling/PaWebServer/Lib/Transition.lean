import Mathlib.Data.Option.Basic
import Mathlib.Data.List.Basic
import Mathlib.Data.Nat.Init

/-!
# Runs of a transition system

A system is a partial step function `step : σ → ℓ → Option σ`: the label says which thread or
which environment event moves, and `none` says that the move is not enabled.  This file gives the
finite runs of such a system, the induction rules for invariants (over all runs, and over the runs
whose steps all meet a guard), when a property tells that some step was against a guard, the lists
that the steps of a run emit, and the existence of a run to a state where nothing is enabled when a
measure decreases.
-/

namespace Transition

variable {σ ℓ β : Type*} {step : σ → ℓ → Option σ} {guard : σ → ℓ → Prop} {I : σ → Prop}

/-- The state after a list of labels, when each of its steps is enabled. -/
def run (step : σ → ℓ → Option σ) : σ → List ℓ → Option σ
  | s, [] => some s
  | s, a :: as => (step s a).bind fun s' => run step s' as

theorem run_cons_iff {s t : σ} {a : ℓ} {as : List ℓ} :
    run step s (a :: as) = some t ↔ ∃ s', step s a = some s' ∧ run step s' as = some t :=
  Option.bind_eq_some_iff

/-! ## Guarded runs -/

/-- Each label of the run meets the guard in the state before it. -/
def Meets (step : σ → ℓ → Option σ) (guard : σ → ℓ → Prop) : σ → List ℓ → Prop
  | _, [] => True
  | s, a :: as => guard s a ∧ ∀ s', step s a = some s' → Meets step guard s' as

instance decidableMeets [∀ s a, Decidable (guard s a)] :
    (s : σ) → (as : List ℓ) → Decidable (Meets step guard s as)
  | _, [] => isTrue trivial
  | s, a :: as =>
    match h : step s a with
    | none => decidable_of_iff (guard s a) (by simp [Meets, h])
    | some s' =>
      have := decidableMeets s' as
      decidable_of_iff (guard s a ∧ Meets step guard s' as) (by simp [Meets, h])

theorem meets_cons_iff {s s' : σ} {a : ℓ} (as : List ℓ) (h : step s a = some s') :
    Meets step guard s (a :: as) ↔ guard s a ∧ Meets step guard s' as := by
  simp [Meets, h]

/-- A guard that every label of the list meets in every state. -/
theorem meets_of_forall_mem {s : σ} {as : List ℓ} (h : ∀ a ∈ as, ∀ s, guard s a) :
    Meets step guard s as := by
  induction as generalizing s with
  | nil => trivial
  | cons a as ih =>
    exact ⟨h a List.mem_cons_self s, fun _ _ => ih fun b hb => h b (List.mem_cons_of_mem a hb)⟩

theorem Meets.and {guard' : σ → ℓ → Prop} {s : σ} {as : List ℓ} (h : Meets step guard s as)
    (h' : Meets step guard' s as) : Meets step (fun s a => guard s a ∧ guard' s a) s as := by
  induction as generalizing s with
  | nil => trivial
  | cons a as ih => exact ⟨⟨h.1, h'.1⟩, fun s' hs' => ih (h.2 s' hs') (h'.2 s' hs')⟩

/-! ## Invariants -/

/-- What the steps that meet the guard preserve holds at the end of a guarded run. -/
theorem guarded_run_invariant
    (hstep : ∀ s a s', I s → guard s a → step s a = some s' → I s') {s t : σ} {as : List ℓ}
    (hs : I s) (hm : Meets step guard s as) (h : run step s as = some t) : I t := by
  induction as generalizing s with
  | nil =>
    obtain rfl := Option.some.inj h
    exact hs
  | cons a as ih =>
    obtain ⟨s', hs', ht⟩ := run_cons_iff.1 h
    exact ih (hstep s a s' hs hm.1 hs') (hm.2 s' hs') ht

/-- What every step preserves holds at the end of every run. -/
theorem run_invariant (hstep : ∀ s a s', I s → step s a = some s' → I s') {s t : σ}
    {as : List ℓ} (hs : I s) (h : run step s as = some t) : I t :=
  @guarded_run_invariant σ ℓ step (fun _ _ => True) I (fun s a s' hs _ h => hstep s a s' hs h)
    s t as hs (meets_of_forall_mem fun _ _ _ => trivial) h

/-- A property that each step carries over, and that else only a step against the guard brings
about: it holds at the end exactly when it held at the start or some step was against the guard. -/
theorem iff_not_meets {ok : σ → ℓ → Prop} {P : σ → Prop}
    (hstep : ∀ s a s', I s → ok s a → step s a = some s' →
      I s' ∧ (P s' ↔ P s ∨ ¬ guard s a))
    {s t : σ} {as : List ℓ} (hs : I s) (hok : Meets step ok s as) (h : run step s as = some t) :
    P t ↔ P s ∨ ¬ Meets step guard s as := by
  induction as generalizing s with
  | nil =>
    obtain rfl := Option.some.inj h
    simp [Meets]
  | cons a as ih =>
    obtain ⟨s', hs', ht⟩ := run_cons_iff.1 h
    obtain ⟨hI, hP⟩ := hstep s a s' hs hok.1 hs'
    rw [ih hI (hok.2 s' hs') ht, hP, meets_cons_iff as hs', not_and_or, or_assoc]

/-! ## What a run emits -/

/-- The concatenation of what the steps of a run emit. -/
def trace (step : σ → ℓ → Option σ) (emit : σ → ℓ → List β) : σ → List ℓ → List β
  | _, [] => []
  | s, a :: as => emit s a ++ ((step s a).map fun s' => trace step emit s' as).getD []

theorem trace_cons {emit : σ → ℓ → List β} {s s' : σ} {a : ℓ} (as : List ℓ)
    (h : step s a = some s') :
    trace step emit s (a :: as) = emit s a ++ trace step emit s' as := by
  simp [trace, h]

/-- What relates a state to all that has been emitted, when each step keeps it. -/
theorem trace_invariant {R : List β → σ → Prop} {emit : σ → ℓ → List β}
    (hstep : ∀ out s a s', R out s → guard s a → step s a = some s' → R (out ++ emit s a) s')
    {out : List β} {s t : σ} {as : List ℓ} (hs : R out s) (hm : Meets step guard s as)
    (h : run step s as = some t) : R (out ++ trace step emit s as) t := by
  induction as generalizing s out with
  | nil =>
    obtain rfl := Option.some.inj h
    simpa [trace] using hs
  | cons a as ih =>
    obtain ⟨s', hs', ht⟩ := run_cons_iff.1 h
    rw [trace_cons as hs', ← List.append_assoc]
    exact ih (hstep out s a s' hs hm.1 hs') (hm.2 s' hs') ht

/-- A queue that each step extends at its end and shortens at its front: over a whole run, what
was in the queue and what came in is what went out and what is left. -/
theorem trace_conservation (queue : σ → List β) {input output : σ → ℓ → List β}
    (hstep : ∀ s a s', I s → guard s a → step s a = some s' → I s')
    (hqueue : ∀ s a s', I s → guard s a → step s a = some s' →
      queue s ++ input s a = output s a ++ queue s')
    {s t : σ} {as : List ℓ} (hs : I s) (hm : Meets step guard s as)
    (h : run step s as = some t) :
    queue s ++ trace step input s as = trace step output s as ++ queue t := by
  induction as generalizing s with
  | nil =>
    obtain rfl := Option.some.inj h
    simp [trace]
  | cons a as ih =>
    obtain ⟨s', hs', ht⟩ := run_cons_iff.1 h
    have hrest := ih (hstep s a s' hs hm.1 hs') (hm.2 s' hs') ht
    rw [trace_cons as hs', trace_cons as hs', ← List.append_assoc,
      hqueue s a s' hs hm.1 hs', List.append_assoc, hrest, List.append_assoc]

/-! ## Runs that end -/

/-- When each step lowers a measure, a run is no longer than the measure at its start. -/
theorem length_add_le_of_run (μ : σ → ℕ)
    (hstep : ∀ s a s', I s → step s a = some s' → I s' ∧ μ s' < μ s) {s t : σ} {as : List ℓ}
    (hs : I s) (h : run step s as = some t) : as.length + μ t ≤ μ s := by
  induction as generalizing s with
  | nil =>
    obtain rfl := Option.some.inj h
    simp
  | cons a as ih =>
    obtain ⟨s', hs', ht⟩ := run_cons_iff.1 h
    obtain ⟨hI, hlt⟩ := hstep s a s' hs hs'
    have := ih hI ht
    rw [List.length_cons]
    omega

/-- When each guarded step lowers a measure, some guarded run ends where no guarded step is
enabled. -/
theorem exists_run_to_stuck (μ : σ → ℕ)
    (hstep : ∀ s a s', I s → guard s a → step s a = some s' → I s' ∧ μ s' < μ s) (s : σ)
    (hs : I s) :
    ∃ as t, Meets step guard s as ∧ run step s as = some t ∧ I t ∧
      ∀ a, guard t a → step t a = none := by
  induction hn : μ s using Nat.strongRecOn generalizing s with
  | _ n ih =>
    by_cases hstuck : ∀ a, guard s a → step s a = none
    · exact ⟨[], s, trivial, rfl, hs, hstuck⟩
    · push Not at hstuck
      obtain ⟨a, hg, ha⟩ := hstuck
      obtain ⟨s', hs'⟩ := Option.ne_none_iff_exists'.1 ha
      obtain ⟨hI, hlt⟩ := hstep s a s' hs hg hs'
      obtain ⟨as, t, hm, hrun, ht, hend⟩ := ih (μ s') (hn ▸ hlt) s' hI rfl
      refine ⟨a :: as, t, ⟨hg, fun s'' hs'' => ?_⟩, run_cons_iff.2 ⟨s', hs', hrun⟩, ht, hend⟩
      obtain rfl : s' = s'' := Option.some.inj (hs'.symm.trans hs'')
      exact hm

/-- When the runs from a state are bounded in length, some guarded run ends where no guarded step
is enabled. -/
theorem exists_run_to_stuck_of_bounded {n : ℕ} {s : σ}
    (h : ∀ as t, run step s as = some t → as.length ≤ n) :
    ∃ as t, Meets step guard s as ∧ run step s as = some t ∧ ∀ a, guard t a → step t a = none := by
  induction n generalizing s with
  | zero =>
    refine ⟨[], s, trivial, rfl, fun a _ => ?_⟩
    by_contra hne
    obtain ⟨s', hs'⟩ := Option.ne_none_iff_exists'.1 hne
    have := h [a] s' (run_cons_iff.2 ⟨s', hs', rfl⟩)
    simp at this
  | succ n ih =>
    by_cases hstuck : ∀ a, guard s a → step s a = none
    · exact ⟨[], s, trivial, rfl, hstuck⟩
    · push Not at hstuck
      obtain ⟨a, hg, ha⟩ := hstuck
      obtain ⟨s', hs'⟩ := Option.ne_none_iff_exists'.1 ha
      obtain ⟨as, t, hm, hrun, hend⟩ := ih fun as t ht => by
        have := h (a :: as) t (run_cons_iff.2 ⟨s', hs', ht⟩)
        rw [List.length_cons] at this
        omega
      exact ⟨a :: as, t, (meets_cons_iff as hs').2 ⟨hg, hm⟩, run_cons_iff.2 ⟨s', hs', hrun⟩, hend⟩

end Transition
