import PaWebServer.LogGrammar

/-!
# Accounting of the log queue

Every permit stands for an element that is in the queue: a producer releases its permit after it
has added its entry, and a consumer acquires one before it polls (`Covered`).  With one consumer
the file, the consumer's hand and the queue hold the entries in the order in which they came in,
and a consumer finds an `EOF` only after `closeLogs` has set `closed` (`ClosedFirst`).
-/

namespace LogQueue

open LogsHandler Transition Tally

variable {cfg : Config} {s s' : State} {a : Action}

/-! ## Permits and elements -/

/-- The element that the producer has added without having released its permit. -/
def Producer.owed : Producer → ℕ
  | .releasing => 1
  | _ => 0

/-- The permit that the consumer has acquired for what it is about to poll. -/
def Consumer.claimed : Consumer → ℕ
  | .locking | .polling => 1
  | _ => 0

/-- Each permit, each consumer about to poll and each producer about to release has an element of
the queue for itself. -/
def Covered (cfg : Config) (s : State) : Prop :=
  s.permits + total cfg.consumers Consumer.claimed s.consumer +
    total cfg.calls.length Producer.owed s.producer ≤ s.logQueue.length

theorem Covered.init : Covered cfg State.init := by
  simp [Covered, State.init, total, Consumer.claimed, Producer.owed]

theorem Covered.move_producer (h : Covered cfg s) {i : ℕ} (hi : i < cfg.calls.length)
    {p : Producer} (hp : s'.producer = Function.update s.producer i p)
    (hc : s'.consumer = s.consumer)
    (hle : s'.permits + p.owed + s.logQueue.length ≤
      s.permits + (s.producer i).owed + s'.logQueue.length) : Covered cfg s' := by
  have := total_update hi Producer.owed s.producer p
  unfold Covered at h ⊢
  rw [hp, hc]
  omega

theorem Covered.move_consumer (h : Covered cfg s) {j : ℕ} (hj : j < cfg.consumers)
    {c : Consumer} (hc : s'.consumer = Function.update s.consumer j c)
    (hp : s'.producer = s.producer)
    (hle : s'.permits + c.claimed + s.logQueue.length ≤
      s.permits + (s.consumer j).claimed + s'.logQueue.length) : Covered cfg s' := by
  have := total_update hj Consumer.claimed s.consumer c
  unfold Covered at h ⊢
  rw [hp, hc]
  omega

theorem Covered.of_step (h : Covered cfg s) (hs : step cfg s a = some s') : Covered cfg s' := by
  cases step_cases hs with
  | call hi at_ | lockProducer hi at_ | unlockProducer hi at_ | unlockProducerIllegal hi at_ =>
    refine h.move_producer hi rfl rfl ?_
    simp [at_, Producer.owed, State.setProducer, State.setLock]
  | add hi _ at_ | release hi at_ =>
    refine h.move_producer hi rfl rfl ?_
    simp only [at_, Producer.owed, State.setProducer, List.length_append, List.length_singleton]
    omega
  | acquire hj at_ permit =>
    refine h.move_consumer hj rfl rfl ?_
    simp only [at_, Consumer.claimed, State.setConsumer]
    omega
  | pollEof hj at_ queue | poll hj at_ queue =>
    refine h.move_consumer hj rfl rfl ?_
    simp only [at_, Consumer.claimed, State.setConsumer, queue, List.length_cons]
    omega
  | open_ hj at_ | lockConsumer hj at_ | pollNull hj at_ | unlockNull hj at_ | unlockEntry hj at_
  | unlockConsumerIllegal hj at_ | write hj at_ | openFails hj at_ | writeFails hj at_ =>
    refine h.move_consumer hj rfl rfl ?_
    simp [at_, Consumer.claimed, State.setConsumer, State.setLock]
  | test | append | setClosed | exit | appendFails => simpa [Covered] using h
  | addEof =>
    have hle : Covered cfg s := h
    simp only [Covered, State.setHook_permits, State.setHook_consumer, State.setHook_producer,
      State.setHook_logQueue, List.length_append] at hle ⊢
    omega

/-- A consumer that is about to poll finds an element. -/
theorem Covered.queue_ne_nil (h : Covered cfg s) {j : ℕ} (hj : j < cfg.consumers)
    (at_ : s.consumer j = .polling) : s.logQueue ≠ [] := by
  have hone := weight_le_total hj Consumer.claimed s.consumer
  rw [at_] at hone
  intro hempty
  simp only [Covered, hempty, List.length_nil, Consumer.claimed] at h hone
  omega

/-- No consumer is at that place. -/
def Avoids (c : Consumer) (s : State) : Prop := ∀ j, s.consumer j ≠ c

theorem Avoids.move {d : Consumer} (h : Avoids d s) {j : ℕ} {c : Consumer}
    (hc : s'.consumer = Function.update s.consumer j c) (hne : c ≠ d) : Avoids d s' := by
  unfold Avoids
  rw [hc]
  exact (Function.forall_update_iff _ fun _ p => p ≠ d).2 ⟨hne, fun m _ => h m⟩

theorem neverNull_of_step (h : Avoids (.unlocking none) s) (hcov : Covered cfg s)
    (hs : step cfg s a = some s') : Avoids (.unlocking none) s' := by
  cases step_cases hs with
  | pollNull hj at_ empty => exact absurd empty (hcov.queue_ne_nil hj at_)
  | open_ | acquire | lockConsumer | pollEof | poll | unlockNull | unlockEntry
  | unlockConsumerIllegal | write | openFails | writeFails => exact h.move rfl (by simp)
  | _ => exact h

/-! ## The lock of the consumers -/

/-- The consumer has its lock: it is between `lock()` and `unlock()`, or it has left its loop, which
it does without `unlock()`. -/
def Consumer.holds : Consumer → Prop
  | .polling | .unlocking _ | .stopped => True
  | _ => False

/-- The lock of the consumers belongs to the only one that has it, and is free otherwise. -/
structure PassedLock (s : State) : Prop where
  held : ∀ j, (s.consumer j).holds → s.locks .passed = .heldBy (.consumer j) 0 []
  free : (∀ j, ¬ (s.consumer j).holds) → s.locks .passed = .free

theorem PassedLock.init : PassedLock State.init := by
  exact ⟨fun j h => h.elim, fun _ => rfl⟩

theorem PassedLock.of_eq (h : PassedLock s) (hc : s'.consumer = s.consumer)
    (hl : s'.locks .passed = s.locks .passed) : PassedLock s' := by
  constructor
  · intro j hj
    rw [hl]
    exact h.held j (hc ▸ hj)
  · intro hj
    rw [hl]
    exact h.free (hc ▸ hj)

/-- A step of a consumer inside or outside its section. -/
theorem PassedLock.stay (h : PassedLock s) {j : ℕ} {c : Consumer}
    (hc : s'.consumer = Function.update s.consumer j c) (hl : s'.locks = s.locks)
    (hsame : c.holds ↔ (s.consumer j).holds) : PassedLock s' := by
  have hholds : ∀ m, (s'.consumer m).holds ↔ (s.consumer m).holds := by
    rw [hc]
    exact (Function.forall_update_iff _ fun m (p : Consumer) => p.holds ↔ (s.consumer m).holds).2
      ⟨hsame, fun _ _ => Iff.rfl⟩
  constructor
  · intro m hm
    rw [hl]
    exact h.held m ((hholds m).1 hm)
  · intro hm
    rw [hl]
    exact h.free fun m hm' => hm m ((hholds m).2 hm')

theorem PassedLock.acquire (h : PassedLock s) {j : ℕ} {lk : ReentrantLock Thread}
    (hout : ¬ (s.consumer j).holds)
    (acquired : (s.locks .passed).acquire (.consumer j) = some lk) :
    (∀ m, ¬ (s.consumer m).holds) ∧ lk = .heldBy (.consumer j) 0 [] := by
  have hnone : ∀ m, ¬ (s.consumer m).holds := by
    intro m hm
    have hne : m ≠ j := by
      rintro rfl
      exact hout hm
    rw [h.held m hm] at acquired
    simp [ReentrantLock.acquire, ReentrantLock.heldBy, hne] at acquired
  refine ⟨hnone, ?_⟩
  rw [h.free hnone, ReentrantLock.acquire_of_owner_none rfl] at acquired
  exact (Option.some.inj acquired).symm

theorem PassedLock.unlock (h : PassedLock s) {j : ℕ} (hin : (s.consumer j).holds) :
    (s.locks .passed).unlock (.consumer j) = some .free ∧
      ∀ m, (s.consumer m).holds → m = j := by
  have hheld := h.held j hin
  constructor
  · rw [hheld]
    exact ReentrantLock.unlock_heldBy_zero _ _
  · intro m hm
    have howner := congrArg ReentrantLock.owner ((h.held m hm).symm.trans hheld)
    simpa [ReentrantLock.heldBy] using howner

theorem PassedLock.unlock_ne_none (h : PassedLock s) {j : ℕ} (hin : (s.consumer j).holds) :
    (s.locks .passed).unlock (.consumer j) ≠ none := by
  rw [(h.unlock hin).1]
  exact Option.some_ne_none _

theorem PassedLock.leave (h : PassedLock s) {j : ℕ} {c : Consumer} {lk : ReentrantLock Thread}
    (hin : (s.consumer j).holds) (hout : ¬ c.holds)
    (unlocked : (s.locks .passed).unlock (.consumer j) = some lk) :
    PassedLock ((s.setLock .passed lk).setConsumer j c) := by
  obtain ⟨hfree, hj⟩ := h.unlock hin
  obtain rfl := Option.some.inj (hfree.symm.trans unlocked)
  refine ⟨fun m hm => ?_, fun _ => by simp⟩
  by_cases hmj : m = j
  · subst hmj
    exact absurd hm (by simpa using hout)
  · rw [State.setConsumer_consumer, Function.update_of_ne hmj] at hm
    exact absurd (hj m hm) hmj

theorem PassedLock.of_step (h : PassedLock s) (hs : step cfg s a = some s') :
    PassedLock s' := by
  cases step_cases hs with
  | lockProducer | unlockProducer =>
    refine h.of_eq rfl ?_
    simp [State.setProducer]
  | @lockConsumer j lk hj at_ acquired =>
    have hout : ¬ (s.consumer j).holds := by simp [at_, Consumer.holds]
    obtain ⟨hnone, rfl⟩ := h.acquire hout acquired
    constructor
    · intro m hm
      by_cases hmj : m = j
      · subst hmj
        simp
      · rw [State.setConsumer_consumer, Function.update_of_ne hmj] at hm
        exact absurd hm (hnone m)
    · intro hm
      exact absurd trivial (by simpa [Consumer.holds] using hm j)
  | unlockNull hj at_ unlocked | unlockEntry hj at_ unlocked =>
    exact h.leave (by simp [at_, Consumer.holds]) (by simp [Consumer.holds]) unlocked
  | unlockConsumerIllegal hj at_ illegal =>
    exact absurd illegal (h.unlock_ne_none (by simp [at_, Consumer.holds]))
  | open_ hj at_ | acquire hj at_ | pollNull hj at_ | pollEof hj at_ | poll hj at_ | write hj at_
  | openFails hj at_ | writeFails hj at_ =>
    exact h.stay rfl rfl (by simp [at_, Consumer.holds])
  | _ => exact h.of_eq rfl rfl

/-- The unlocking of a consumer is never illegal, so no exception ends one. -/
theorem neverFailed_of_step (h : Avoids .failed s) (hlock : PassedLock s) (ha : Succeeds s a)
    (hs : step cfg s a = some s') : Avoids .failed s' := by
  cases step_cases hs with
  | unlockConsumerIllegal hj at_ illegal =>
    exact absurd illegal (hlock.unlock_ne_none (by simp [at_, Consumer.holds]))
  | open_ | acquire | lockConsumer | pollNull | pollEof | poll | unlockNull | unlockEntry
  | write => exact h.move rfl (by simp)
  | openFails | writeFails | appendFails => exact ha.elim
  | _ => exact h

/-! ## The order of the entries -/

/-- The entries in the file, then the one in the hand of the first consumer, then those in the
queue. -/
def entriesInOrder (s : State) : List Text :=
  writtenEntries s.file ++ (s.consumer 0).hand.toList ++ s.logQueue.filter (· ≠ eof)

/-- The entry that the step adds to the queue. -/
def enqueued (cfg : Config) (s : State) : Action → List Text
  | .producer i =>
    if s.producer i = .adding then (cfg.calls[i]?.map logEntry).toList else []
  | _ => []

/-- Whatever a client sends, its entry is not the `EOF`. -/
theorem logEntry_ne_eof (c : LogCall) : logEntry c ≠ eof := by
  intro h
  have hhead : (logEntry c).head? = some ' ' := rfl
  rw [h] at hhead
  exact absurd hhead (by decide)

theorem entriesInOrder_of_step (hone : cfg.consumers = 1) (hlock : PassedLock s)
    (ha : Succeeds s a) (hs : step cfg s a = some s') :
    entriesInOrder s ++ enqueued cfg s a = entriesInOrder s' := by
  cases step_cases hs with
  | call _ at_ | lockProducer _ at_ | release _ at_ | unlockProducer _ at_
  | unlockProducerIllegal _ at_ =>
    simp [enqueued, at_, entriesInOrder, State.setProducer, State.setLock]
  | add _ hc at_ =>
    simp [enqueued, at_, hc, entriesInOrder, State.setProducer, logEntry_ne_eof]
  | open_ hj at_ | acquire hj at_ | lockConsumer hj at_ | pollNull hj at_ | unlockNull hj at_
  | unlockEntry hj at_ =>
    obtain rfl := Nat.lt_one_iff.1 (hone ▸ hj)
    simp [enqueued, at_, entriesInOrder, Consumer.hand, State.setConsumer, State.setLock]
  | pollEof hj at_ queue =>
    obtain rfl := Nat.lt_one_iff.1 (hone ▸ hj)
    simp [enqueued, at_, queue, entriesInOrder, Consumer.hand, State.setConsumer]
  | poll hj at_ queue he =>
    obtain rfl := Nat.lt_one_iff.1 (hone ▸ hj)
    simp [enqueued, at_, queue, he, entriesInOrder, Consumer.hand, State.setConsumer]
  | unlockConsumerIllegal hj at_ illegal =>
    exact absurd illegal (hlock.unlock_ne_none (by simp [at_, Consumer.holds]))
  | write hj at_ =>
    obtain rfl := Nat.lt_one_iff.1 (hone ▸ hj)
    simp [enqueued, at_, entriesInOrder, Consumer.hand, State.setConsumer,
      writtenEntries_append_entry]
  | append =>
    simp [enqueued, entriesInOrder, writtenEntries_append_trailer]
  | test | setClosed | addEof | exit => simp [enqueued, entriesInOrder]
  | openFails | writeFails | appendFails => exact ha.elim

/-! ## The `EOF` -/

/-- What comes after the setting of `closed` in `closeLogs`, or from it. -/
structure ClosedFirst (s : State) : Prop where
  hooks : ∀ k n, s.hook k = .adding n → s.closed = true
  queued : eof ∈ s.logQueue → s.closed = true
  consumers : ∀ j, s.consumer j = .stopped → s.closed = true

theorem ClosedFirst.init : ClosedFirst State.init where
  hooks _ _ h := by cases h
  queued h := by cases h
  consumers _ h := by cases h

theorem ClosedFirst.move_consumer (h : ClosedFirst s) {j : ℕ} {c : Consumer}
    (hc : s'.consumer = Function.update s.consumer j c) (hh : s'.hook = s.hook)
    (hq : ∀ e ∈ s'.logQueue, e ∈ s.logQueue) (hclosed : s'.closed = s.closed)
    (hstop : c = .stopped → s.closed = true) : ClosedFirst s' := by
  constructor
  · rw [hh, hclosed]
    exact h.hooks
  · rw [hclosed]
    exact fun he => h.queued (hq _ he)
  · rw [hc, hclosed]
    exact (Function.forall_update_iff _ fun _ (p : Consumer) => p = .stopped → s.closed = true).2
      ⟨hstop, fun m _ => h.consumers m⟩

theorem ClosedFirst.move_hook (h : ClosedFirst s) {k : ℕ} {p : Hook}
    (hh : s'.hook = Function.update s.hook k p) (hc : s'.consumer = s.consumer)
    (hclosed : s.closed = true → s'.closed = true)
    (hq : eof ∈ s'.logQueue → eof ∈ s.logQueue ∨ s'.closed = true)
    (hadding : ∀ n, p = .adding n → s'.closed = true) : ClosedFirst s' := by
  constructor
  · rw [hh]
    exact (Function.forall_update_iff _ fun _ (q : Hook) => ∀ n, q = .adding n → s'.closed = true).2
      ⟨hadding, fun m _ n hm => hclosed (h.hooks m n hm)⟩
  · intro he
    exact (hq he).elim (fun he => hclosed (h.queued he)) id
  · rw [hc]
    exact fun j hj => hclosed (h.consumers j hj)

theorem ClosedFirst.of_step (h : ClosedFirst s) (hs : step cfg s a = some s') :
    ClosedFirst s' := by
  cases step_cases hs with
  | call | lockProducer | release | unlockProducer | unlockProducerIllegal =>
    exact ⟨h.hooks, h.queued, h.consumers⟩
  | @add i c _ _ at_ =>
    refine ⟨h.hooks, fun he => ?_, h.consumers⟩
    rcases List.mem_append.1 he with he | he
    · exact h.queued he
    · exact absurd (List.mem_singleton.1 he).symm (logEntry_ne_eof c)
  | open_ | acquire | lockConsumer | pollNull | unlockNull | unlockEntry | unlockConsumerIllegal
  | write | openFails | writeFails =>
    exact h.move_consumer rfl rfl (fun _ he => he) rfl (by simp)
  | poll _ _ queue =>
    exact h.move_consumer rfl rfl (fun _ he => queue ▸ List.mem_cons_of_mem _ he) rfl (by simp)
  | pollEof _ _ queue =>
    have hmem : eof ∈ s.logQueue := queue ▸ List.mem_cons_self
    exact h.move_consumer rfl rfl (fun _ he => queue ▸ List.mem_cons_of_mem _ he) rfl
      fun _ => h.queued hmem
  | test =>
    refine h.move_hook rfl rfl id Or.inl fun n hn => ?_
    split_ifs at hn
  | append | appendFails | exit => exact h.move_hook rfl rfl id Or.inl (by simp)
  | setClosed => exact h.move_hook rfl rfl (fun _ => rfl) Or.inl fun _ _ => rfl
  | @addEof k n _ at_ =>
    have hclosed := h.hooks k (n + 1) at_
    exact h.move_hook rfl rfl id (fun _ => Or.inr hclosed) fun _ _ => hclosed

/-! ## Runs -/

/-- What holds of the queue, the permits and the consumers at every moment. -/
structure Accounted (cfg : Config) (s : State) : Prop where
  covered : Covered cfg s
  neverNull : Avoids (.unlocking none) s
  lock : PassedLock s
  neverFailed : Avoids .failed s
  closed : ClosedFirst s

theorem Accounted.init : Accounted cfg State.init where
  covered := .init
  neverNull _ h := by cases h
  lock := .init
  neverFailed _ h := by cases h
  closed := .init

theorem Accounted.of_step (h : Accounted cfg s) (ha : Succeeds s a)
    (hs : step cfg s a = some s') : Accounted cfg s' where
  covered := h.covered.of_step hs
  neverNull := neverNull_of_step h.neverNull h.covered hs
  lock := h.lock.of_step hs
  neverFailed := neverFailed_of_step h.neverFailed h.lock ha hs
  closed := h.closed.of_step hs

theorem accounted_of_run {as : List Action} (hm : Meets (step cfg) Succeeds State.init as)
    (h : run (step cfg) State.init as = some s) : Accounted cfg s :=
  guarded_run_invariant (fun _ _ _ h ha hs => h.of_step ha hs) Accounted.init hm h

theorem entriesInOrder_of_run {as : List Action} (hone : cfg.consumers = 1)
    (hm : Meets (step cfg) Succeeds State.init as)
    (h : run (step cfg) State.init as = some s) :
    entriesInOrder s = trace (step cfg) (enqueued cfg) State.init as := by
  have hinit : PassedLock State.init ∧ entriesInOrder State.init = [] := ⟨PassedLock.init, rfl⟩
  refine (trace_invariant (R := fun out s => PassedLock s ∧ entriesInOrder s = out)
    (fun out s a s' hR ha hs => ?_) hinit hm h).2
  obtain ⟨hlock, rfl⟩ := hR
  exact ⟨hlock.of_step hs, (entriesInOrder_of_step hone hlock ha hs).symm⟩

/-- In every state of a run without I/O failures the permits and the consumers that have acquired
but not polled are no more than the elements of the queue, so that no consumer polls null; a single
consumer has written, has in its hand and has before it in the queue the entries in the order in
which they came in; and a consumer has left its loop only when `closeLogs` has set `closed`. -/
theorem queue_accounting (cfg : Config) (as : List Action) (s : State)
    (hm : Meets (step cfg) Succeeds State.init as)
    (h : run (step cfg) State.init as = some s) :
    (s.permits + total cfg.consumers Consumer.claimed s.consumer ≤ s.logQueue.length ∧
        (∀ j < cfg.consumers, s.consumer j = .polling → s.logQueue ≠ []) ∧
        ∀ j, s.consumer j ≠ .unlocking none) ∧
      (cfg.consumers = 1 →
        entriesInOrder s = trace (step cfg) (enqueued cfg) State.init as) ∧
      ∀ j, s.consumer j = .stopped ∨ s.consumer j = .failed → s.closed = true := by
  have hacc := accounted_of_run hm h
  refine ⟨⟨?_, fun j hj => hacc.covered.queue_ne_nil hj, hacc.neverNull⟩, fun hone => ?_, ?_⟩
  · have hcovered := hacc.covered
    unfold Covered at hcovered
    omega
  · exact entriesInOrder_of_run hone hm h
  · rintro j (hj | hj)
    · exact hacc.closed.consumers j hj
    · exact absurd hj (hacc.neverFailed j)

/-- Two requests are logged and `closeLogs` runs while the consumer has the first entry in its
hand. -/
def accountedRun : List Action :=
  List.replicate 5 (.producer 0) ++ List.replicate 4 (.consumer 0) ++
    List.replicate 3 (.producer 1) ++ List.replicate 5 (.hook 0)

theorem queue_accounting_accountedRun :
    ∃ s, run (step (serverConfig [sampleCall, sampleCall])) State.init accountedRun = some s ∧
      entriesInOrder s =
        trace (step (serverConfig [sampleCall, sampleCall]))
          (enqueued (serverConfig [sampleCall, sampleCall])) State.init accountedRun := by
  obtain ⟨s, hs⟩ :
      ∃ s, run (step (serverConfig [sampleCall, sampleCall])) State.init accountedRun = some s :=
    ⟨_, rfl⟩
  exact ⟨s, hs, (queue_accounting _ accountedRun s (by decide) hs).2.1 rfl⟩

end LogQueue
