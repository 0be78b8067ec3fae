import PaWebServer.LogClosing

/-!
# Where the entries are

Each call of `logRequest` makes one entry.  At every moment the entry is at one place: its producer
has still to add it, it is in the queue, in the hand of a consumer, or in the file; or it is lost,
because the write of it has failed (`entries_conserved`).  The entries of the queue are as many as
the permits, the consumers that have one for the queue, the producers that owe one, and the
consumers that have ended on an `EOF`, for which an entry has paid.  So when no thread can go on,
everything has been written exactly when no consumer has ended (`shutdown_outcome`).
-/

namespace LogQueue

open LogsHandler Transition Tally

variable {cfg : Config} {s s' : State} {a : Action}

/-! ## The places of an entry -/

/-- The entries in the queue. -/
def queuedEntries (s : State) : List Text := s.logQueue.filter (· ≠ eof)

/-- What the consumers have in their hands. -/
def hands (cfg : Config) (s : State) : List Text :=
  gather cfg.consumers fun j => (s.consumer j).hand

/-- The producer has still to add its entry. -/
def Producer.pending : Producer → Bool
  | .uncalled | .locking | .adding => true
  | _ => false

/-- The entries that the producers have still to add. -/
def pendingEntries (cfg : Config) (s : State) : List Text :=
  gather cfg.calls.length fun i =>
    if (s.producer i).pending then (cfg.calls[i]?).map logEntry else none

/-- The entry whose write fails with the step. -/
def lost (s : State) : Action → List Text
  | .ioError (.consumer j) => (s.consumer j).hand.toList
  | _ => []

/-- The consumer has left its loop on an `EOF`. -/
def Consumer.ended : Consumer → ℕ
  | .stopped => 1
  | _ => 0

/-- How many consumers have left their loops. -/
def stoppedConsumers (cfg : Config) (s : State) : ℕ :=
  total cfg.consumers Consumer.ended s.consumer

/-- How many consumers have acquired a permit and polled nothing for it yet. -/
def claimedPermits (cfg : Config) (s : State) : ℕ :=
  total cfg.consumers Consumer.claimed s.consumer

/-- How many producers have added their entry and not released its permit yet. -/
def owedPermits (cfg : Config) (s : State) : ℕ :=
  total cfg.calls.length Producer.owed s.producer

/-! ## The invariant -/

/-- The `n`-th copy of a text is at one place. -/
structure Delivery (cfg : Config) (out : List Text) (s : State) : Prop where
  lock : PassedLock s
  once : ∀ e, (writtenEntries s.file).count e + (hands cfg s).count e +
    (queuedEntries s).count e + (pendingEntries cfg s).count e + out.count e =
      (cfg.calls.map logEntry).count e
  balanced : (queuedEntries s).length =
    s.permits + claimedPermits cfg s + owedPermits cfg s + stoppedConsumers cfg s

theorem pendingEntries_init (cfg : Config) :
    pendingEntries cfg State.init = cfg.calls.map logEntry := by
  have hsame : ∀ i < cfg.calls.length,
      (if (State.init.producer i).pending then (cfg.calls[i]?).map logEntry else none) =
        (cfg.calls.map logEntry)[i]? := fun i _ => by
    simp [State.init, Producer.pending]
  have hall := gather_getElem? (cfg.calls.map logEntry)
  rw [List.length_map] at hall
  rw [pendingEntries, gather_congr hsame, hall]

theorem Delivery.init : Delivery cfg [] State.init where
  lock := .init
  once e := by
    have hhands : hands cfg State.init = [] := gather_eq_nil fun _ _ => rfl
    rw [pendingEntries_init, hhands]
    simp [State.init, writtenEntries, queuedEntries]
  balanced := by
    simp [State.init, queuedEntries, claimedPermits, owedPermits, stoppedConsumers, total,
      Consumer.claimed, Producer.owed, Consumer.ended]

/-- A producer moves: what it no longer has to add is in the queue, and what the queue has gained
is a permit or is owed. -/
theorem Delivery.move_producer {out : List Text} (h : Delivery cfg out s) {i : ℕ}
    (hi : i < cfg.calls.length) {p : Producer}
    (hp : s'.producer = Function.update s.producer i p) (hc : s'.consumer = s.consumer)
    (hf : s'.file = s.file) (hl : s'.locks .passed = s.locks .passed)
    (honce : ∀ e, (queuedEntries s').count e +
        (if p.pending then (cfg.calls[i]?).map logEntry else none).toList.count e =
      (queuedEntries s).count e +
        (if (s.producer i).pending then (cfg.calls[i]?).map logEntry else none).toList.count e)
    (hbalanced : (queuedEntries s').length + s.permits + (s.producer i).owed =
      (queuedEntries s).length + s'.permits + p.owed) : Delivery cfg out s' where
  lock := h.lock.of_eq hc hl
  once e := by
    have hhands : hands cfg s' = hands cfg s := by rw [hands, hands, hc]
    have hpending : ∀ k < cfg.calls.length, k ≠ i →
        (if (s'.producer k).pending then (cfg.calls[k]?).map logEntry else none) =
          if (s.producer k).pending then (cfg.calls[k]?).map logEntry else none :=
      fun k _ hk => by rw [hp, Function.update_of_ne hk]
    have hcount := count_gather hi hpending e
    have hsame := honce e
    have := h.once e
    simp only [hp, Function.update_self] at hcount
    rw [hf, hhands]
    unfold pendingEntries at this ⊢
    rw [hp]
    omega
  balanced := by
    have := total_update hi Producer.owed s.producer p
    have := h.balanced
    unfold claimedPermits owedPermits stoppedConsumers at this ⊢
    rw [hp, hc]
    omega

/-- A consumer moves: what it takes from the queue it has in its hand, in the file, or loses. -/
theorem Delivery.move_consumer {out new : List Text} (h : Delivery cfg out s) {j : ℕ}
    (hj : j < cfg.consumers) {c : Consumer} (hc : s'.consumer = Function.update s.consumer j c)
    (hp : s'.producer = s.producer) (hlock : PassedLock s')
    (honce : ∀ e, (writtenEntries s'.file).count e + c.hand.toList.count e +
        (queuedEntries s').count e + new.count e =
      (writtenEntries s.file).count e + (s.consumer j).hand.toList.count e +
        (queuedEntries s).count e)
    (hbalanced : (queuedEntries s').length + s.permits + (s.consumer j).claimed +
        (s.consumer j).ended =
      (queuedEntries s).length + s'.permits + c.claimed + c.ended) :
    Delivery cfg (out ++ new) s' where
  lock := hlock
  once e := by
    have hpending : pendingEntries cfg s' = pendingEntries cfg s := by
      rw [pendingEntries, pendingEntries, hp]
    have hothers : ∀ k < cfg.consumers, k ≠ j → (s'.consumer k).hand = (s.consumer k).hand :=
      fun k _ hk => by rw [hc, Function.update_of_ne hk]
    have hcount := count_gather hj hothers e
    have hsame := honce e
    have := h.once e
    simp only [hc, Function.update_self] at hcount
    rw [hpending, List.count_append]
    unfold hands at this ⊢
    rw [hc]
    omega
  balanced := by
    have := total_update hj Consumer.claimed s.consumer c
    have := total_update hj Consumer.ended s.consumer c
    have := h.balanced
    unfold claimedPermits owedPermits stoppedConsumers at this ⊢
    rw [hp, hc]
    omega

/-- A hook moves, and adds at most an `EOF`. -/
theorem Delivery.of_eq {out : List Text} (h : Delivery cfg out s) (hp : s'.producer = s.producer)
    (hc : s'.consumer = s.consumer) (hl : s'.locks = s.locks) (hpermits : s'.permits = s.permits)
    (hf : writtenEntries s'.file = writtenEntries s.file)
    (hq : queuedEntries s' = queuedEntries s) : Delivery cfg out s' where
  lock := h.lock.of_eq hc (by rw [hl])
  once e := by
    have := h.once e
    unfold hands pendingEntries at this ⊢
    rwa [hf, hq, hc, hp]
  balanced := by
    have := h.balanced
    unfold claimedPermits owedPermits stoppedConsumers at this ⊢
    rwa [hq, hpermits, hc, hp]

/-- A consumer that polls finds an entry or an `EOF`. -/
theorem Delivery.queue_ne_nil {out : List Text} (h : Delivery cfg out s) {j : ℕ}
    (hj : j < cfg.consumers) (at_ : s.consumer j = .polling) : s.logQueue ≠ [] := by
  have hone := weight_le_total hj Consumer.claimed s.consumer
  rw [at_] at hone
  intro hempty
  have := h.balanced
  simp only [queuedEntries, hempty, List.filter_nil, List.length_nil, claimedPermits,
    Consumer.claimed] at this hone
  omega

theorem Delivery.of_step {out : List Text} (h : Delivery cfg out s)
    (hs : step cfg s a = some s') : Delivery cfg (out ++ lost s a) s' := by
  have hlock := h.lock.of_step hs
  cases step_cases hs with
  | release hi at_ =>
    rw [show lost s (.producer _) = [] from rfl, List.append_nil]
    refine h.move_producer hi rfl rfl rfl rfl (fun e => ?_) ?_
    · simp [at_, Producer.pending, queuedEntries, State.setProducer]
    · simp [at_, Producer.owed, queuedEntries, State.setProducer]
      omega
  | call hi at_ | lockProducer hi at_ | unlockProducer hi at_ | unlockProducerIllegal hi at_ =>
    rw [show lost s (.producer _) = [] from rfl, List.append_nil]
    refine h.move_producer hi rfl rfl rfl (by simp [State.setProducer]) (fun e => ?_) ?_
    · simp [at_, Producer.pending, queuedEntries, State.setProducer, State.setLock]
    · simp [at_, Producer.owed, queuedEntries, State.setProducer, State.setLock]
  | @add i c hi hc at_ =>
    rw [show lost s (.producer i) = [] from rfl, List.append_nil]
    refine h.move_producer hi rfl rfl rfl rfl (fun e => ?_) ?_
    · simp [at_, Producer.pending, hc, queuedEntries, State.setProducer, logEntry_ne_eof]
    · simp [at_, Producer.owed, queuedEntries, State.setProducer, logEntry_ne_eof]
      omega
  | acquire hj at_ permit =>
    refine h.move_consumer hj rfl rfl hlock (fun e => ?_) ?_
    · simp [at_, lost, Consumer.hand, queuedEntries, State.setConsumer]
    · simp [at_, Consumer.claimed, Consumer.ended, queuedEntries, State.setConsumer]
      omega
  | pollNull hj at_ empty => exact absurd empty (h.queue_ne_nil hj at_)
  | pollEof hj at_ queue =>
    refine h.move_consumer hj rfl rfl hlock (fun e => ?_) ?_
    · simp [at_, lost, Consumer.hand, queuedEntries, State.setConsumer, queue]
    · simp [at_, Consumer.claimed, Consumer.ended, queuedEntries, State.setConsumer, queue]
  | poll hj at_ queue he =>
    refine h.move_consumer hj rfl rfl hlock (fun d => ?_) ?_
    · simp [at_, lost, Consumer.hand, queuedEntries, State.setConsumer, queue, he, List.count_cons]
      omega
    · simp [at_, Consumer.claimed, Consumer.ended, queuedEntries, State.setConsumer, queue, he]
      omega
  | unlockConsumerIllegal hj at_ illegal =>
    exact absurd illegal (h.lock.unlock_ne_none (by simp [at_, Consumer.holds]))
  | open_ hj at_ | lockConsumer hj at_ | unlockNull hj at_ | unlockEntry hj at_
  | openFails hj at_ =>
    refine h.move_consumer hj rfl rfl hlock (fun e => ?_) ?_
    · simp [at_, lost, Consumer.hand, queuedEntries, State.setConsumer, State.setLock]
    · simp [at_, Consumer.claimed, Consumer.ended, queuedEntries, State.setConsumer, State.setLock]
  | writeFails hj at_ =>
    refine h.move_consumer hj rfl rfl hlock (fun e => ?_) ?_
    · simp [at_, lost, Consumer.hand, queuedEntries, State.setConsumer]
      omega
    · simp [at_, Consumer.claimed, Consumer.ended, queuedEntries, State.setConsumer]
  | write hj at_ =>
    refine h.move_consumer hj rfl rfl hlock (fun e => ?_) ?_
    · simp [at_, lost, Consumer.hand, queuedEntries, State.setConsumer, writtenEntries_append_entry]
    · simp [at_, Consumer.claimed, Consumer.ended, queuedEntries, State.setConsumer]
  | test | append | setClosed | addEof | exit | appendFails =>
    rw [show lost s _ = [] from rfl, List.append_nil]
    exact h.of_eq rfl rfl rfl rfl (by simp [writtenEntries]) (by simp [queuedEntries])

/-! ## Runs -/

theorem delivery_of_run {as : List Action} (h : run (step cfg) State.init as = some s) :
    Delivery cfg (trace (step cfg) lost State.init as) s :=
  have hall : Meets (step cfg) (fun _ _ => True) State.init as :=
    meets_of_forall_mem fun _ _ _ => trivial
  trace_invariant (fun _ _ _ _ h _ hs => h.of_step hs) Delivery.init hall h

/-- No entry is in the file more often than it has been logged. -/
theorem writtenEntries_subperm {as : List Action} (h : run (step cfg) State.init as = some s) :
    (writtenEntries s.file).Subperm (cfg.calls.map logEntry) := by
  refine List.subperm_ext_iff.2 fun e _ => ?_
  have := (delivery_of_run h).once e
  omega

/-- In every run, with any numbers of consumers and hooks and any I/O failures: the entries of the
file, of the consumers' hands, of the queue and of the producers that have still to add theirs, with
those whose write has failed, are the entries of the calls, each as often as it was submitted; and
the queue has as many entries as there are permits, consumers with a permit for the queue, producers
that owe one, and consumers that have ended on an `EOF`. -/
theorem entries_conserved (cfg : Config) (as : List Action) (s : State)
    (h : run (step cfg) State.init as = some s) :
    (writtenEntries s.file ++ hands cfg s ++ queuedEntries s ++ pendingEntries cfg s ++
        trace (step cfg) lost State.init as).Perm (cfg.calls.map logEntry) ∧
      (queuedEntries s).length =
        s.permits + claimedPermits cfg s + owedPermits cfg s + stoppedConsumers cfg s := by
  have hdelivery := delivery_of_run h
  refine ⟨List.perm_iff_count.2 fun e => ?_, hdelivery.balanced⟩
  have := hdelivery.once e
  simp only [List.count_append]
  omega

/-- The write of the first entry fails while the second one is in the queue. -/
def lostEntryRun : List Action :=
  List.replicate 5 (.producer 0) ++ List.replicate 5 (.consumer 0) ++
    List.replicate 3 (.producer 1) ++ [.ioError (.consumer 0)]

theorem entries_conserved_lostEntryRun :
    ∃ s, run (step (serverConfig [sampleCall, sampleCall])) State.init lostEntryRun = some s ∧
      (writtenEntries s.file ++ hands (serverConfig [sampleCall, sampleCall]) s ++
        queuedEntries s ++ pendingEntries (serverConfig [sampleCall, sampleCall]) s ++
          trace (step (serverConfig [sampleCall, sampleCall])) lost State.init
            lostEntryRun).Perm [logEntry sampleCall, logEntry sampleCall] := by
  obtain ⟨s, hs⟩ :
      ∃ s, run (step (serverConfig [sampleCall, sampleCall])) State.init lostEntryRun = some s :=
    ⟨_, rfl⟩
  exact ⟨s, hs, (entries_conserved _ lostEntryRun s hs).1⟩

/-! ## When nothing can go on -/

/-- A consumer that cannot go on waits for a permit, waits for the lock, or has ended. -/
theorem Quiescent.consumer (hq : Quiescent cfg s) (hacc : Accounted cfg s) {j : ℕ}
    (hj : j < cfg.consumers) :
    s.consumer j = .acquiring ∧ s.permits = 0 ∨
      s.consumer j = .locking ∧ (s.locks .passed).acquire (.consumer j) = none ∨
        s.consumer j = .stopped := by
  have hnone := hq.stuck (.consumer j) trivial
  simp only [step, if_pos hj, State.stepConsumer] at hnone
  split at hnone
  case h_1 => cases hnone
  case h_2 at_ =>
    refine Or.inl ⟨at_, ?_⟩
    split_ifs at hnone
    omega
  case h_3 at_ => exact Or.inr (Or.inl ⟨at_, by simpa [consumerLock] using hnone⟩)
  case h_4 =>
    split at hnone
    · cases hnone
    · split_ifs at hnone
  case h_5 =>
    split at hnone
    · split at hnone <;> cases hnone
    · cases hnone
  case h_6 => cases hnone
  case h_7 at_ => exact Or.inr (Or.inr at_)
  case h_8 at_ => exact absurd at_ (hacc.neverFailed j)

theorem quiescent_of_ends (hproducers : ∀ i < cfg.calls.length, s.producer i = .finished)
    (hhooks : ∀ k < cfg.hooks, s.hook k = .finished)
    (hconsumers : ∀ j < cfg.consumers,
      s.consumer j = .stopped ∨ s.consumer j = .acquiring ∧ s.permits = 0) : Quiescent cfg s := by
  refine ⟨hproducers, hhooks, fun a ha => ?_⟩
  cases a with
  | producer i =>
    by_cases hi : i < cfg.calls.length
    · simp [step, List.getElem?_eq_getElem hi, State.stepProducer, hproducers i hi]
    · simp [step, List.getElem?_eq_none (Nat.le_of_not_lt hi)]
  | consumer j =>
    by_cases hj : j < cfg.consumers
    · rcases hconsumers j hj with hstop | ⟨hwait, hpermits⟩
      · simp [step, hj, State.stepConsumer, hstop]
      · simp [step, hj, State.stepConsumer, hwait, hpermits]
    · simp [step, hj]
  | hook k =>
    by_cases hk : k < cfg.hooks
    · simp [step, hk, State.stepHook, hhooks k hk]
    · simp [step, hk]
  | ioError t => exact ha.elim

theorem work_lt_of_ioError {t : Thread} (hs : step cfg s (.ioError t) = some s') :
    work cfg s' < work cfg s := by
  cases step_cases hs with
  | openFails hj at_ | writeFails hj at_ =>
    exact work_lt_of_consumer hj rfl rfl rfl (by simp [at_, Consumer.work])
  | appendFails hk at_ =>
    exact work_lt_of_hook hk rfl rfl rfl rfl (by simp [at_, Hook.work])

theorem work_lt_of_any_step (hs : step cfg s a = some s') : work cfg s' < work cfg s := by
  cases a with
  | ioError t => exact work_lt_of_ioError hs
  | producer | consumer | hook =>
    refine work_lt_of_step ?_ hs
    exact trivial

theorem work_init (cfg : Config) : work cfg State.init =
    11 * cfg.calls.length + cfg.consumers + (numConsumers + 5) * cfg.hooks := by
  simp [work, State.init, total, Producer.work, Consumer.work, Hook.work, Nat.mul_comm]

/-- Every run of the log threads, with I/O failures or without, has a bounded number of steps. -/
theorem length_le_of_run {as : List Action} (h : run (step cfg) State.init as = some s) :
    as.length ≤ 11 * cfg.calls.length + cfg.consumers + (numConsumers + 5) * cfg.hooks := by
  have hlength : as.length + work cfg s ≤ work cfg State.init :=
    length_add_le_of_run (I := fun _ => True) (work cfg)
      (fun _ _ _ _ hs => ⟨trivial, work_lt_of_any_step hs⟩) trivial h
  rw [work_init] at hlength
  omega

end LogQueue
