import PaWebServer.LogAccounting

/-!
# Consumers that have ended

A consumer polls the queue under the shared lock.  When it polls an `EOF` it leaves its loop by a
`break` between `lock()` and `unlock()`, and ends as the owner of the lock; no other way out of
`run` leaves it the lock.  The consumers that are at `lock()` then, or come there later, stay there
(`terminated_owner_iff`).
-/

namespace LogQueue

open LogsHandler Transition

variable {cfg : Config} {s s' : State} {a : Action} {j m : ℕ}

/-- The threads are where they start, with any elements in the queue and any permits. -/
def State.initWith (logQueue : List Text) (permits : ℕ) : State :=
  { State.init with logQueue := logQueue, permits := permits }

/-- The consumer has ended, at an `EOF` or after an exception. -/
def Consumer.Terminated (c : Consumer) : Prop := c = .stopped ∨ c = .failed

instance : DecidablePred Consumer.Terminated := fun c =>
  inferInstanceAs (Decidable (c = .stopped ∨ c = .failed))

/-- The consumer owns the shared lock. -/
def Owns (s : State) (j : ℕ) : Prop := (s.locks .passed).owner = some (.consumer j)

/-- The step does not take an `EOF` from the queue. -/
def PollsNoEof (s : State) : Action → Prop
  | .consumer j => s.consumer j = .polling → s.logQueue.head? ≠ some eof
  | _ => True

instance : (a : Action) → Decidable (PollsNoEof s a)
  | .consumer j =>
    inferInstanceAs (Decidable (s.consumer j = .polling → s.logQueue.head? ≠ some eof))
  | .producer _ | .hook _ | .ioError _ => isTrue trivial

/-- The consumer is at `lock()` and does not get out of it, whatever happens next. -/
def StuckForever (cfg : Config) (s : State) (j : ℕ) : Prop :=
  ∀ as t, run (step cfg) s as = some t → t.consumer j = .locking

/-! ## The owner of the lock -/

theorem PassedLock.owns_iff (h : PassedLock s) : Owns s j ↔ (s.consumer j).holds := by
  constructor
  · intro howns
    by_cases hsome : ∃ m, (s.consumer m).holds
    · obtain ⟨m, hm⟩ := hsome
      have hheld : some (Thread.consumer m) = some (.consumer j) := by
        rw [← howns, h.held m hm]
        rfl
      obtain rfl : m = j := by simpa using hheld
      exact hm
    · have hfree := h.free fun m hm => hsome ⟨m, hm⟩
      rw [Owns, hfree] at howns
      cases howns
  · intro hj
    rw [Owns, h.held j hj]
    rfl

/-- A consumer has ended as the owner of the lock exactly when one has polled an `EOF`. -/
theorem PassedLock.terminated_owns_iff (h : PassedLock s) :
    (∃ j, (s.consumer j).Terminated ∧ Owns s j) ↔ ∃ j, s.consumer j = .stopped := by
  refine exists_congr fun j => ?_
  rw [h.owns_iff]
  constructor
  · rintro ⟨hstopped | hfailed, hholds⟩
    · exact hstopped
    · simp [hfailed, Consumer.holds] at hholds
  · intro hstopped
    exact ⟨Or.inl hstopped, by simp [hstopped, Consumer.holds]⟩

/-- A consumer that is not in its place at the `EOF` moves: the same ones have stopped. -/
theorem stopped_move_iff {c : Consumer} (hc : s'.consumer = Function.update s.consumer j c)
    (hnew : c ≠ .stopped) (hold : s.consumer j ≠ .stopped) :
    (∃ m, s'.consumer m = .stopped) ↔ ∃ m, s.consumer m = .stopped := by
  refine exists_congr fun m => ?_
  rw [hc]
  by_cases hm : m = j
  · subst hm
    simp [hnew, hold]
  · rw [Function.update_of_ne hm]

theorem stopped_iff_of_step (hs : step cfg s a = some s') :
    (∃ j, s'.consumer j = .stopped) ↔ (∃ j, s.consumer j = .stopped) ∨ ¬ PollsNoEof s a := by
  cases step_cases hs with
  | @pollEof j q hj at_ queue =>
    refine iff_of_true ⟨j, by simp⟩ (Or.inr fun hno => ?_)
    exact hno at_ (by rw [queue]; rfl)
  | pollNull hj at_ queue =>
    rw [stopped_move_iff (s := s) rfl (by simp) (by simp [at_])]
    simp [PollsNoEof, queue]
  | poll hj at_ queue he =>
    rw [stopped_move_iff (s := s) rfl (by simp) (by simp [at_])]
    simp [PollsNoEof, queue, he]
  | open_ hj at_ | acquire hj at_ | lockConsumer hj at_ | unlockNull hj at_ | unlockEntry hj at_
  | unlockConsumerIllegal hj at_ | write hj at_ | openFails hj at_ | writeFails hj at_ =>
    rw [stopped_move_iff (s := s) rfl (by simp) (by simp [at_])]
    simp [PollsNoEof, at_]
  | _ => exact ⟨Or.inl, fun h => h.resolve_right (not_not_intro trivial)⟩

/-! ## Who gets past the lock -/

/-- The consumer has left its loop at an `EOF`, or is about to. -/
def Ending (s : State) (m : ℕ) : Prop :=
  s.consumer m = .stopped ∨ s.consumer m = .polling ∧ s.logQueue.head? = some eof

theorem Ending.holds (h : Ending s m) : (s.consumer m).holds := by
  rcases h with h | ⟨h, -⟩ <;> simp [h, Consumer.holds]

theorem Ending.of_eq (h : Ending s m) (hc : s'.consumer m = s.consumer m)
    (hq : s.logQueue.head? = some eof → s'.logQueue.head? = some eof) : Ending s' m := by
  unfold Ending
  rw [hc]
  exact h.imp_right fun h => ⟨h.1, hq h.2⟩

/-- Nobody but the consumer itself takes an element while it has the lock, and what it takes is the
`EOF`. -/
theorem Ending.of_step (h : Ending s m) (hlock : PassedLock s) (hs : step cfg s a = some s') :
    Ending s' m := by
  have hmove {k : ℕ} {c : Consumer} (hk : m ≠ k)
      (hc : s'.consumer = Function.update s.consumer k c)
      (hq : s'.logQueue = s.logQueue) : Ending s' m :=
    h.of_eq (by rw [hc, Function.update_of_ne hk]) fun he => hq ▸ he
  have hpoll {k : ℕ} (hk : s.consumer k = .polling) : m = k :=
    (hlock.unlock (by simp [hk, Consumer.holds])).2 m h.holds
  have hqueue (e : Text) (he : s.logQueue.head? = some eof) :
      (s.logQueue ++ [e]).head? = some eof := by
    rw [List.head?_append, he]
    rfl
  cases step_cases hs with
  | @open_ k hk at_ | @acquire k hk at_ | @lockConsumer k _ hk at_ | @unlockNull k _ hk at_
  | @unlockEntry k _ _ hk at_ | @unlockConsumerIllegal k _ hk at_ | @write k _ hk at_
  | @openFails k hk at_ | @writeFails k _ hk at_ =>
    refine hmove (k := k) ?_ rfl rfl
    rintro rfl
    rcases h with h | ⟨h, -⟩ <;> rw [h] at at_ <;> cases at_
  | pollNull hk at_ queue =>
    obtain rfl := hpoll at_
    simp [Ending, at_, queue] at h
  | poll hk at_ queue he =>
    obtain rfl := hpoll at_
    simp [Ending, at_, queue, he] at h
  | pollEof hk at_ =>
    obtain rfl := hpoll at_
    exact Or.inl (by simp)
  | add => exact h.of_eq rfl (hqueue _)
  | addEof => exact h.of_eq rfl (hqueue _)
  | _ => exact h.of_eq rfl id

/-- What keeps a consumer at `lock()`: another one has the lock and is ending. -/
structure Blocked (s : State) (m j : ℕ) : Prop where
  lock : PassedLock s
  ending : Ending s m
  waiting : s.consumer j = .locking

theorem Blocked.of_step (h : Blocked s m j) (hs : step cfg s a = some s') : Blocked s' m j where
  lock := h.lock.of_step hs
  ending := h.ending.of_step h.lock hs
  waiting := by
    have hstay {k : ℕ} {c : Consumer} (hk : s.consumer k ≠ .locking)
        (hc : s'.consumer = Function.update s.consumer k c) : s'.consumer j = .locking := by
      have hj : j ≠ k := by
        rintro rfl
        exact hk h.waiting
      rw [hc, Function.update_of_ne hj, h.waiting]
    cases step_cases hs with
    | lockConsumer _ at_ acquired =>
      have hout := (h.lock.acquire (by simp [at_, Consumer.holds]) acquired).1
      exact absurd h.ending.holds (hout m)
    | open_ _ at_ | acquire _ at_ | pollNull _ at_ | pollEof _ at_ | poll _ at_ | unlockNull _ at_
    | unlockEntry _ at_ | unlockConsumerIllegal _ at_ | write _ at_ | openFails _ at_
    | writeFails _ at_ => exact hstay (by simp [at_]) rfl
    | _ => exact h.waiting

theorem Blocked.stuckForever (h : Blocked s m j) : StuckForever cfg s j := fun _ _ hrun =>
  (run_invariant (fun _ _ _ h hs => Blocked.of_step h hs) h hrun).waiting

/-! ## The way past the lock -/

/-- Some run takes the consumer past `lock()`. -/
def Passes (cfg : Config) (s : State) (j : ℕ) : Prop :=
  ∃ as t, run (step cfg) s as = some t ∧ t.consumer j = .polling

theorem Passes.of_step (h : Passes cfg s' j) (hs : step cfg s a = some s') : Passes cfg s j := by
  obtain ⟨as, t, hrun, ht⟩ := h
  exact ⟨a :: as, t, run_cons_iff.2 ⟨s', hs, hrun⟩, ht⟩

theorem passes_of_free (hj : j < cfg.consumers) (at_ : s.consumer j = .locking)
    (hfree : s.locks .passed = .free) : Passes cfg s j := by
  have hacquire : (s.locks .passed).acquire (.consumer j) =
      some (.heldBy (.consumer j) 0 []) := by
    rw [hfree]
    exact ReentrantLock.acquire_of_owner_none rfl _
  have hs : step cfg s (.consumer j) =
      some ((s.setLock .passed (.heldBy (.consumer j) 0 [])).setConsumer j .polling) := by
    simp [step, hj, State.stepConsumer, at_, consumerLock, hacquire]
  exact ⟨[.consumer j], _, by rw [run, hs]; rfl, by simp⟩

/-- The consumer that has the lock unlocks it. -/
theorem passes_of_unlocking (hlock : PassedLock s) (hj : j < cfg.consumers)
    (hm : m < cfg.consumers) (at_ : s.consumer j = .locking) {e : Option Text}
    (hat : s.consumer m = .unlocking e) : Passes cfg s j := by
  have hne : j ≠ m := ne_of_apply_ne s.consumer (by simp [at_, hat])
  have hunlock := (hlock.unlock (j := m) (by simp [hat, Consumer.holds])).1
  obtain ⟨c, hs⟩ : ∃ c, step cfg s (.consumer m) =
      some ((s.setLock .passed .free).setConsumer m c) := by
    cases e <;> simp [step, hm, State.stepConsumer, hat, consumerLock, hunlock]
  refine Passes.of_step (passes_of_free hj ?_ ?_) hs
  · simpa [Function.update_of_ne hne] using at_
  · simp

/-- The consumer that has the lock polls something else than an `EOF`. -/
theorem passes_of_polling (hlock : PassedLock s) (hj : j < cfg.consumers)
    (hm : m < cfg.consumers) (at_ : s.consumer j = .locking) (hat : s.consumer m = .polling)
    (hhead : s.logQueue.head? ≠ some eof) : Passes cfg s j := by
  have hne : j ≠ m := ne_of_apply_ne s.consumer (by simp [at_, hat])
  obtain ⟨q, e, hs⟩ : ∃ q e, step cfg s (.consumer m) =
      some ({ s with logQueue := q }.setConsumer m (.unlocking e)) := by
    cases hq : s.logQueue with
    | nil =>
      refine ⟨s.logQueue, none, ?_⟩
      show step cfg s (.consumer m) = some (s.setConsumer m (.unlocking none))
      simp only [step, if_pos hm, State.stepConsumer, hat, hq]
    | cons x q =>
      have hx : x ≠ eof := by simpa [hq] using hhead
      exact ⟨q, some x, by simp [step, hm, State.stepConsumer, hat, hq, hx]⟩
  refine Passes.of_step (passes_of_unlocking (hlock.of_step hs) hj hm (e := e) ?_ ?_) hs
  · simpa [Function.update_of_ne hne] using at_
  · simp

/-- A consumer gets past `lock()` unless the one that has the lock is ending. -/
theorem passes_of_not_ending (hlock : PassedLock s) (habsent : Absent cfg s)
    (at_ : s.consumer j = .locking) (hno : ∀ m, ¬ Ending s m) : Passes cfg s j := by
  have hbound {m : ℕ} (hm : s.consumer m ≠ .opening) : m < cfg.consumers := by
    by_contra hge
    exact hm (habsent.consumers m (by omega))
  have hj : j < cfg.consumers := hbound (by simp [at_])
  by_cases hsome : ∃ m, (s.consumer m).holds
  · obtain ⟨m, hholds⟩ := hsome
    cases hat : s.consumer m with
    | polling =>
      exact passes_of_polling hlock hj (hbound (by simp [hat])) at_ hat
        fun hhead => hno m (Or.inr ⟨hat, hhead⟩)
    | unlocking e => exact passes_of_unlocking hlock hj (hbound (by simp [hat])) at_ hat
    | stopped => exact absurd (Or.inl hat) (hno m)
    | _ => simp [hat, Consumer.holds] at hholds
  · exact passes_of_free hj at_ (hlock.free fun m hm => hsome ⟨m, hm⟩)

/-- A consumer at `lock()` stays there for ever exactly when another one has ended at an `EOF`, or
is about to. -/
theorem stuckForever_iff (hlock : PassedLock s) (habsent : Absent cfg s)
    (at_ : s.consumer j = .locking) : StuckForever cfg s j ↔ ∃ m, Ending s m := by
  constructor
  · intro hstuck
    by_contra hno
    obtain ⟨as, t, hrun, ht⟩ :=
      passes_of_not_ending hlock habsent at_ fun m hm => hno ⟨m, hm⟩
    rw [hstuck as t hrun] at ht
    cases ht
  · rintro ⟨m, hm⟩
    exact Blocked.stuckForever ⟨hlock, hm, at_⟩

theorem exists_ending_iff :
    (∃ m, Ending s m) ↔
      (∃ m, s.consumer m = .stopped) ∨ ¬ ∀ m, PollsNoEof s (.consumer m) := by
  simp only [Ending, PollsNoEof, exists_or]
  push Not
  rfl

/-! ## Runs -/

theorem PassedLock.initWith (q : List Text) (permits : ℕ) :
    PassedLock (State.initWith q permits) :=
  PassedLock.init.of_eq rfl rfl

theorem Absent.initWith (q : List Text) (permits : ℕ) : Absent cfg (State.initWith q permits) :=
  ⟨fun _ _ => rfl, fun _ _ => rfl, fun _ _ => rfl⟩

theorem stopped_iff_of_run {q : List Text} {permits : ℕ} {as : List Action}
    (h : run (step cfg) (State.initWith q permits) as = some s) :
    (∃ j, s.consumer j = .stopped) ↔
      ¬ Meets (step cfg) PollsNoEof (State.initWith q permits) as := by
  have hnone : ¬ ∃ j, (State.initWith q permits).consumer j = .stopped := by
    rintro ⟨j, hj⟩
    cases hj
  have hiff := @iff_not_meets State Action (step cfg) PollsNoEof (fun _ => True) (fun _ _ => True)
    (fun s => ∃ j, s.consumer j = .stopped)
    (fun _ _ _ _ _ hs => ⟨trivial, stopped_iff_of_step hs⟩) _ s as trivial
    (meets_of_forall_mem fun _ _ _ => trivial) h
  rw [hiff, or_iff_right hnone]

/-- For any number of consumers and of producers, any elements in the queue, any permits and every
order of the steps, I/O failures among them: a consumer that has failed never owns the lock; no
consumer that has ended owns it exactly when no step has polled an `EOF`; and a consumer at `lock()`
gets out of it in some continuation exactly when no step has polled an `EOF` and no consumer at
`poll()` is about to. -/
theorem terminated_owner_iff (cfg : Config) (q : List Text) (permits : ℕ) (as : List Action)
    (s : State) (h : run (step cfg) (State.initWith q permits) as = some s) :
    (∀ j, s.consumer j = .failed → ¬ Owns s j) ∧
      ((∀ j, (s.consumer j).Terminated → ¬ Owns s j) ↔
        Meets (step cfg) PollsNoEof (State.initWith q permits) as) ∧
      ∀ j, s.consumer j = .locking →
        (¬ StuckForever cfg s j ↔
          Meets (step cfg) PollsNoEof (State.initWith q permits) as ∧
            ∀ m, PollsNoEof s (.consumer m)) := by
  have hlock : PassedLock s :=
    run_invariant (fun _ _ _ h hs => h.of_step hs) (PassedLock.initWith q permits) h
  have habsent : Absent cfg s :=
    run_invariant (fun _ _ _ h hs => h.of_step hs) (Absent.initWith q permits) h
  have hstopped := stopped_iff_of_run h
  refine ⟨fun j hj howns => ?_, ?_, fun j at_ => ?_⟩
  · rw [hlock.owns_iff, hj] at howns
    exact howns
  · rw [← not_iff_not, ← hstopped, ← hlock.terminated_owns_iff]
    push Not
    rfl
  · rw [stuckForever_iff hlock habsent at_, exists_ending_iff, hstopped, not_or, not_not, not_not]

/-- The first consumer cannot write its entry, and the second one comes to `lock()`. -/
def failedWriteRun : List Action :=
  List.replicate 5 (.consumer 0) ++ [.ioError (.consumer 0)] ++ List.replicate 2 (.consumer 1)

theorem terminated_owner_iff_failedWriteRun :
    ∃ s, run (step ⟨[], 2, 0⟩) (State.initWith [logEntry sampleCall, eof] 2)
        failedWriteRun = some s ∧
      s.consumer 0 = .failed ∧ ¬ Owns s 0 ∧ ¬ StuckForever ⟨[], 2, 0⟩ s 1 := by
  obtain ⟨s, hs⟩ : ∃ s, run (step ⟨[], 2, 0⟩) (State.initWith [logEntry sampleCall, eof] 2)
      failedWriteRun = some s := ⟨_, rfl⟩
  have hmain := terminated_owner_iff _ _ _ _ s hs
  obtain rfl := Option.some.inj hs
  refine ⟨_, rfl, rfl, hmain.1 0 rfl, (hmain.2.2 1 rfl).2 ⟨by decide, fun m hm => ?_⟩⟩
  rcases m with _ | _ | m <;> cases hm

/-- Two consumers have acquired their permits, and the first one polls its `EOF`. -/
def eofRun : List Action :=
  [.consumer 0, .consumer 1, .consumer 0, .consumer 1, .consumer 0, .consumer 0]

theorem consumer_stuck_after_eof :
    ∃ s, run (step ⟨[], 2, 0⟩) (State.initWith [eof, eof] 2) eofRun = some s ∧
      (s.consumer 0).Terminated ∧ Owns s 0 ∧
      s.consumer 1 = .locking ∧ StuckForever ⟨[], 2, 0⟩ s 1 := by
  obtain ⟨s, hs⟩ : ∃ s, run (step ⟨[], 2, 0⟩) (State.initWith [eof, eof] 2) eofRun = some s :=
    ⟨_, rfl⟩
  have hlock : PassedLock s :=
    run_invariant (fun _ _ _ h hs => h.of_step hs) (PassedLock.initWith _ _) hs
  obtain ⟨hstopped, howns, hwaiting⟩ :
      s.consumer 0 = .stopped ∧ Owns s 0 ∧ s.consumer 1 = .locking := by
    obtain rfl := Option.some.inj hs
    exact ⟨rfl, rfl, rfl⟩
  have hblocked : Blocked s 0 1 := ⟨hlock, Or.inl hstopped, hwaiting⟩
  exact ⟨s, hs, Or.inl hstopped, howns, hwaiting, hblocked.stuckForever⟩

end LogQueue
