import PaWebServer.LogAccounting

/-!
# The shutdown hooks

Every `LogsHandler` registers a shutdown hook of its own, and the hooks run side by side.
`closeLogs` tests the flag `closed`, appends the trailer and only then sets the flag: a hook that
tests it in between goes on to close the log again.  The log is closed once exactly when no hook
tests the unset flag while another one is between its test and its setting (`closes_once_iff`).
-/

namespace LogQueue

open LogsHandler Transition Tally

variable {cfg : Config} {s s' : State} {a : Action}

/-! ## Trailers -/

/-- How many trailers the file has. -/
def trailers (file : List Block) : ℕ := file.count .trailer

@[simp] theorem trailers_append_trailer (file : List Block) :
    trailers (file ++ [.trailer]) = trailers file + 1 := by
  simp [trailers]

@[simp] theorem trailers_append_entry (file : List Block) (e : Text) :
    trailers (file ++ [.entry e]) = trailers file := by
  simp [trailers]

/-- The trailer that the hook is about to append. -/
def Hook.appends : Hook → ℕ
  | .appending => 1
  | _ => 0

/-- The trailer that the hook has appended, with the flag still to set. -/
def Hook.unset : Hook → ℕ
  | .setting => 1
  | _ => 0

/-- The hooks that have found the flag unset: their trailers are in the file, or will be. -/
def started (cfg : Config) (s : State) : ℕ :=
  trailers s.file + total cfg.hooks Hook.appends s.hook

theorem started_of_eq (hh : s'.hook = s.hook) (hf : trailers s'.file = trailers s.file) :
    started cfg s' = started cfg s := by
  unfold started
  rw [hh, hf]

/-- A hook moves: it starts, or the trailer that it was about to append is in the file. -/
theorem started_of_move {k n : ℕ} (hk : k < cfg.hooks) {p : Hook}
    (hh : s'.hook = Function.update s.hook k p)
    (hf : trailers s'.file + p.appends = trailers s.file + (s.hook k).appends + n) :
    started cfg s' = started cfg s + n := by
  have := total_update hk Hook.appends s.hook p
  unfold started
  rw [hh]
  omega

/-- What the file and the flag say about the hooks. -/
structure Closing (cfg : Config) (s : State) : Prop where
  open_ : s.closed = false → trailers s.file = total cfg.hooks Hook.unset s.hook
  closed : s.closed = true → 0 < trailers s.file
  past : ∀ k, s.hook k = .finished ∨ (∃ n, s.hook k = .adding n) → s.closed = true

theorem Closing.init : Closing cfg State.init where
  open_ _ := by simp [State.init, trailers, total, Hook.unset]
  closed h := by cases h
  past _ h := by rcases h with h | ⟨_, h⟩ <;> cases h

theorem Closing.of_eq (h : Closing cfg s) (hh : s'.hook = s.hook) (hc : s'.closed = s.closed)
    (hf : trailers s'.file = trailers s.file) : Closing cfg s' where
  open_ := by
    rw [hc, hf, hh]
    exact h.open_
  closed := by
    rw [hc, hf]
    exact h.closed
  past := by
    rw [hc, hh]
    exact h.past

/-- A hook moves without setting the flag. -/
theorem Closing.move (h : Closing cfg s) {k : ℕ} (hk : k < cfg.hooks) {p : Hook}
    (hh : s'.hook = Function.update s.hook k p) (hc : s'.closed = s.closed)
    (hf : trailers s'.file + (s.hook k).unset = trailers s.file + p.unset)
    (hle : trailers s.file ≤ trailers s'.file)
    (hp : p = .finished ∨ (∃ n, p = .adding n) → s.closed = true) : Closing cfg s' where
  open_ hopen := by
    have htotal := total_update hk Hook.unset s.hook p
    have := h.open_ (hc ▸ hopen)
    rw [hh]
    omega
  closed hclosed := (h.closed (hc ▸ hclosed)).trans_le hle
  past := by
    rw [hc, hh]
    exact (Function.forall_update_iff _ fun _ (q : Hook) =>
      q = .finished ∨ (∃ n, q = .adding n) → s.closed = true).2 ⟨hp, fun m _ => h.past m⟩

theorem Closing.of_step (h : Closing cfg s) (ha : Succeeds s a) (hs : step cfg s a = some s') :
    Closing cfg s' := by
  cases step_cases hs with
  | test hk at_ =>
    refine h.move hk rfl rfl ?_ le_rfl fun hp => ?_
    · rw [at_, State.setHook_file]
      split_ifs <;> rfl
    · by_contra hopen
      rw [if_neg hopen] at hp
      simp at hp
  | append hk at_ =>
    exact h.move hk rfl rfl (by simp [at_, Hook.unset]) (by simp) (by simp)
  | @setClosed k hk at_ =>
    have hone : 0 < trailers s.file := by
      cases hclosed : s.closed with
      | true => exact h.closed hclosed
      | false =>
        rw [h.open_ hclosed]
        exact lt_of_lt_of_le (by simp [at_, Hook.unset]) (weight_le_total hk Hook.unset s.hook)
    exact ⟨fun hopen => Bool.noConfusion hopen, fun _ => hone, fun _ _ => rfl⟩
  | @addEof k n hk at_ =>
    have hclosed := h.past k (Or.inr ⟨n + 1, at_⟩)
    exact h.move hk rfl rfl (by simp [at_, Hook.unset]) le_rfl fun _ => hclosed
  | @exit k hk at_ =>
    have hclosed := h.past k (Or.inr ⟨0, at_⟩)
    exact h.move hk rfl rfl (by simp [at_, Hook.unset]) le_rfl fun _ => hclosed
  | write => exact h.of_eq rfl rfl (by simp)
  | openFails | writeFails | appendFails => exact ha.elim
  | _ => exact h.of_eq rfl rfl rfl

/-! ## The test of the flag -/

/-- A hook that finds the flag unset is alone: no other one is between its test of the flag and its
setting of it. -/
def TestsAlone (cfg : Config) (s : State) : Action → Prop
  | .hook k =>
    s.hook k = .testing → s.closed = false →
      ∀ m < cfg.hooks, s.hook m ≠ .appending ∧ s.hook m ≠ .setting
  | _ => True

instance : (a : Action) → Decidable (TestsAlone cfg s a)
  | .hook k =>
    inferInstanceAs (Decidable (s.hook k = .testing → s.closed = false →
      ∀ m < cfg.hooks, s.hook m ≠ .appending ∧ s.hook m ≠ .setting))
  | .producer _ | .consumer _ | .ioError _ => isTrue trivial

/-- While the flag is unset, no hook is between test and setting exactly when none has started. -/
theorem Closing.started_eq_zero_iff (h : Closing cfg s) (hopen : s.closed = false) :
    started cfg s = 0 ↔ ∀ m < cfg.hooks, s.hook m ≠ .appending ∧ s.hook m ≠ .setting := by
  unfold started
  rw [h.open_ hopen, Nat.add_eq_zero_iff, total_eq_zero_iff, total_eq_zero_iff]
  constructor
  · rintro ⟨hunset, happends⟩ m hm
    constructor
    · intro hp
      have := happends m hm
      simp [hp, Hook.appends] at this
    · intro hp
      have := hunset m hm
      simp [hp, Hook.unset] at this
  · intro hall
    constructor
    · intro m hm
      have hne := (hall m hm).2
      cases hp : s.hook m with
      | setting => exact absurd hp hne
      | _ => rfl
    · intro m hm
      have hne := (hall m hm).1
      cases hp : s.hook m with
      | appending => exact absurd hp hne
      | _ => rfl

/-- A second hook starts with the step exactly when the step tests the flag and is not alone. -/
theorem two_started_iff (h : Closing cfg s) (ha : Succeeds s a) (hs : step cfg s a = some s') :
    2 ≤ started cfg s' ↔ 2 ≤ started cfg s ∨ ¬ TestsAlone cfg s a := by
  have hsame (heq : started cfg s' = started cfg s) (halone : TestsAlone cfg s a) :
      2 ≤ started cfg s' ↔ 2 ≤ started cfg s ∨ ¬ TestsAlone cfg s a := by
    rw [heq]
    exact ⟨Or.inl, fun h => h.resolve_right (not_not_intro halone)⟩
  cases step_cases hs with
  | @test k hk at_ =>
    by_cases hclosed : s.closed = true
    · refine hsame (started_of_move (n := 0) hk rfl ?_) fun _ hopen => ?_
      · simp [hclosed, at_, Hook.appends]
      · rw [hclosed] at hopen
        cases hopen
    · have hopen : s.closed = false := by simpa using hclosed
      have halone : TestsAlone cfg s (.hook k) ↔ started cfg s = 0 := by
        rw [h.started_eq_zero_iff hopen]
        exact ⟨fun h => h at_ hopen, fun h _ _ => h⟩
      have hone : started cfg (s.setHook k (if s.closed then .finished else .appending)) =
          started cfg s + 1 := by
        refine started_of_move hk rfl ?_
        simp [hopen, at_, Hook.appends]
      rw [halone, hone]
      omega
  | append hk at_ | setClosed hk at_ | addEof hk at_ | exit hk at_ =>
    refine hsame (started_of_move (n := 0) hk rfl ?_) fun htesting => ?_
    · simp [at_, Hook.appends]
    · rw [at_] at htesting
      cases htesting
  | write => exact hsame (started_of_eq rfl (by simp)) trivial
  | openFails | writeFails | appendFails => exact ha.elim
  | _ => exact hsame rfl trivial

/-! ## The elements that end the consumers -/

/-- The elements that the step adds to the queue. -/
def added (cfg : Config) (s : State) : Action → List Text
  | .producer i => enqueued cfg s (.producer i)
  | .hook k =>
    match s.hook k with
    | .adding (_ + 1) => [eof]
    | _ => []
  | .consumer _ | .ioError _ => []

/-- The `EOF` elements that the hook has still to add for the trailer that it has appended. -/
def Hook.owed : Hook → ℕ
  | .setting => numConsumers
  | .adding n => n
  | _ => 0

/-- Each trailer in the file stands for the elements that have been added, or will be. -/
def EofsPaired (cfg : Config) (out : List Text) (s : State) : Prop :=
  out.count eof + total cfg.hooks Hook.owed s.hook = numConsumers * trailers s.file

theorem count_added_producer (cfg : Config) (s : State) (i : ℕ) :
    (added cfg s (.producer i)).count eof = 0 := by
  rw [List.count_eq_zero]
  intro hmem
  simp only [added, enqueued] at hmem
  split_ifs at hmem
  · obtain ⟨c, -, hc⟩ := Option.map_eq_some_iff.1 (Option.mem_toList.1 hmem)
    exact logEntry_ne_eof c hc
  · cases hmem

theorem EofsPaired.of_eq {out new : List Text} (h : EofsPaired cfg out s)
    (hnew : new.count eof = 0) (hh : s'.hook = s.hook) (hf : trailers s'.file = trailers s.file) :
    EofsPaired cfg (out ++ new) s' := by
  unfold EofsPaired at h ⊢
  rw [List.count_append, hnew, hh, hf]
  exact h

theorem EofsPaired.move {out new : List Text} (h : EofsPaired cfg out s) {k : ℕ}
    (hk : k < cfg.hooks) {p : Hook} (hh : s'.hook = Function.update s.hook k p)
    (hnew : new.count eof + p.owed + numConsumers * trailers s.file =
      (s.hook k).owed + numConsumers * trailers s'.file) :
    EofsPaired cfg (out ++ new) s' := by
  have := total_update hk Hook.owed s.hook p
  unfold EofsPaired at h ⊢
  rw [List.count_append, hh]
  omega

theorem EofsPaired.of_step {out : List Text} (h : EofsPaired cfg out s) (ha : Succeeds s a)
    (hs : step cfg s a = some s') : EofsPaired cfg (out ++ added cfg s a) s' := by
  cases step_cases hs with
  | test hk at_ =>
    refine h.move hk rfl ?_
    simp only [added, at_, State.setHook_file]
    split_ifs <;> rfl
  | append hk at_ | setClosed hk at_ | exit hk at_ =>
    refine h.move hk rfl ?_
    simp [added, at_, Hook.owed, Nat.mul_add, Nat.add_comm]
  | addEof hk at_ =>
    refine h.move hk rfl ?_
    simp [added, at_, Hook.owed, Nat.add_comm]
  | call | lockProducer | add | release | unlockProducer | unlockProducerIllegal =>
    exact h.of_eq (count_added_producer _ _ _) rfl rfl
  | write => exact h.of_eq rfl rfl (by simp)
  | openFails | writeFails | appendFails => exact ha.elim
  | _ => exact h.of_eq rfl rfl rfl

/-! ## Closing once -/

/-- The trailer is in the file once, and `NUM_CONSUMERS` elements `EOF` have been added. -/
def ClosedOnce (cfg : Config) (as : List Action) (s : State) : Prop :=
  trailers s.file = 1 ∧
    (trace (step cfg) (added cfg) State.init as).count eof = numConsumers

theorem closing_of_run {as : List Action} (hm : Meets (step cfg) Succeeds State.init as)
    (h : run (step cfg) State.init as = some s) : Closing cfg s :=
  guarded_run_invariant (fun _ _ _ h ha hs => h.of_step ha hs) Closing.init hm h

theorem eofsPaired_of_run {as : List Action} (hm : Meets (step cfg) Succeeds State.init as)
    (h : run (step cfg) State.init as = some s) :
    EofsPaired cfg (trace (step cfg) (added cfg) State.init as) s := by
  have hinit : EofsPaired cfg [] State.init := by
    simp [EofsPaired, State.init, total, Hook.owed, trailers]
  exact trace_invariant (fun _ _ _ _ h ha hs => EofsPaired.of_step h ha hs) hinit hm h

/-- Some hook did not test the flag alone exactly when a second one has started. -/
theorem two_started_iff_of_run {as : List Action}
    (hm : Meets (step cfg) Succeeds State.init as)
    (h : run (step cfg) State.init as = some s) :
    2 ≤ started cfg s ↔ ¬ Meets (step cfg) (TestsAlone cfg) State.init as := by
  have hnone : ¬ 2 ≤ started cfg State.init := by
    simp [started, State.init, trailers, total, Hook.appends]
  have hiff := iff_not_meets (P := fun s => 2 ≤ started cfg s)
    (fun _ _ _ h ha hs => ⟨Closing.of_step h ha hs, two_started_iff h ha hs⟩) Closing.init hm h
  rw [hiff, or_iff_right hnone]

/-- Over any number of hooks and every order of their steps: if each hook that finds the flag unset
is alone, then there is never a second trailer nor more than `NUM_CONSUMERS` elements `EOF`; and
when all hooks have finished, the log has been closed once exactly in that case. -/
theorem closes_once_iff (cfg : Config) (as : List Action) (s : State)
    (hm : Meets (step cfg) Succeeds State.init as) (h : run (step cfg) State.init as = some s) :
    (Meets (step cfg) (TestsAlone cfg) State.init as →
        trailers s.file ≤ 1 ∧
          (trace (step cfg) (added cfg) State.init as).count eof ≤ numConsumers) ∧
      (0 < cfg.hooks → (∀ k < cfg.hooks, s.hook k = .finished) →
        (ClosedOnce cfg as s ↔ Meets (step cfg) (TestsAlone cfg) State.init as)) := by
  have hclosing := closing_of_run hm h
  have hpaired := eofsPaired_of_run hm h
  have hstarted : 2 ≤ started cfg s ↔ _ := two_started_iff_of_run hm h
  have hle : trailers s.file ≤ started cfg s := Nat.le_add_right _ _
  unfold EofsPaired at hpaired
  refine ⟨fun halone => ?_, fun hpos hfinished => ?_⟩
  · have hone : trailers s.file ≤ 1 := by
      by_contra htwo
      exact hstarted.1 (by omega) halone
    have := Nat.mul_le_mul_left numConsumers hone
    exact ⟨hone, by omega⟩
  · have hnone (weight : Hook → ℕ) (hw : weight .finished = 0) :
        total cfg.hooks weight s.hook = 0 :=
      total_eq_zero_iff.2 fun k hk => by rw [hfinished k hk, hw]
    have hsame : started cfg s = trailers s.file := by
      rw [started, hnone Hook.appends rfl, Nat.add_zero]
    have hsome := hclosing.closed (hclosing.past 0 (Or.inl (hfinished 0 hpos)))
    rw [hnone Hook.owed rfl, Nat.add_zero] at hpaired
    rw [← not_iff_not, ← hstarted, hsame, ClosedOnce, hpaired]
    constructor
    · intro honce
      by_contra htwo
      have hone : trailers s.file = 1 := by omega
      exact honce ⟨hone, by rw [hone, Nat.mul_one]⟩
    · rintro htwo ⟨hone, -⟩
      omega

/-- The second hook tests the flag when the first one has finished. -/
def closedInTurn : List Action := List.replicate 5 (.hook 0) ++ [.hook 1]

theorem closes_once_iff_closedInTurn :
    ∃ s, run (step ⟨[], 2, 2⟩) State.init closedInTurn = some s ∧
      (trailers s.file ≤ 1 ∧
        (trace (step ⟨[], 2, 2⟩) (added ⟨[], 2, 2⟩) State.init closedInTurn).count eof ≤
          numConsumers) ∧
      (ClosedOnce ⟨[], 2, 2⟩ closedInTurn s ↔
        Meets (step ⟨[], 2, 2⟩) (TestsAlone ⟨[], 2, 2⟩) State.init closedInTurn) := by
  obtain ⟨s, hs⟩ : ∃ s, run (step ⟨[], 2, 2⟩) State.init closedInTurn = some s := ⟨_, rfl⟩
  have halone : Meets (step ⟨[], 2, 2⟩) (TestsAlone ⟨[], 2, 2⟩) State.init closedInTurn := by decide
  have hboth : ∀ k < 2, s.hook k = .finished := by
    obtain rfl := Option.some.inj hs
    decide
  obtain ⟨hle, hiff⟩ := closes_once_iff ⟨[], 2, 2⟩ closedInTurn s (by decide) hs
  exact ⟨s, hs, hle halone, hiff (by decide) hboth⟩

/-- Two hooks test the flag before either has set it. -/
def closedTwice : List Action :=
  [.hook 0, .hook 1] ++ List.replicate 4 (.hook 0) ++ List.replicate 4 (.hook 1)

theorem two_hooks_close_twice :
    ¬ ∀ cfg as s, Meets (step cfg) Succeeds State.init as →
      run (step cfg) State.init as = some s → 0 < cfg.hooks →
      (∀ k < cfg.hooks, s.hook k = .finished) → ClosedOnce cfg as s := by
  intro h
  have honce := h ⟨[], 2, 2⟩ closedTwice _ (by decide) rfl (by decide) (by decide)
  exact absurd honce.1 (by decide)

end LogQueue
