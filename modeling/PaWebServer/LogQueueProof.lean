import PaWebServer.LogQueueSteps
import PaWebServer.Lib.Tally
import Mathlib.Tactic.Common

/-!
# What the log threads guarantee

`closeLogs` adds its `EOF` element without a permit, so there are never enough permits for all
entries and the `EOF`: in no run does the consumer write every entry and leave its loop
(`closeLogs_never_drains`).  A producer locks a lock of its own, so its queue access excludes
nobody (`mutualExclusion_iff`).
-/

namespace LogQueue

open LogsHandler Transition Tally

variable {cfg : Config} {s s' : State} {a : Action}

/-- The server's log: the given calls of `logRequest`, its consumers, and one shutdown hook. -/
def serverConfig (calls : List LogCall) : Config := ⟨calls, numConsumers, 1⟩

/-! ## The threads of the run -/

/-- The threads that the run does not have are where they start. -/
structure Absent (cfg : Config) (s : State) : Prop where
  producers : ∀ i, cfg.calls.length ≤ i → s.producer i = .uncalled
  consumers : ∀ j, cfg.consumers ≤ j → s.consumer j = .opening
  hooks : ∀ k, cfg.hooks ≤ k → s.hook k = .testing

theorem Absent.init : Absent cfg State.init := ⟨fun _ _ => rfl, fun _ _ => rfl, fun _ _ => rfl⟩

theorem Absent.of_step (h : Absent cfg s) (hs : step cfg s a = some s') : Absent cfg s' := by
  cases step_cases hs with
  | call hi | lockProducer hi | add hi | release hi | unlockProducer hi
  | unlockProducerIllegal hi =>
    refine ⟨fun m hm => ?_, h.consumers, h.hooks⟩
    exact (Function.update_of_ne (by omega) _ _).trans (h.producers m hm)
  | open_ hj | acquire hj | lockConsumer hj | pollNull hj | pollEof hj | poll hj | unlockNull hj
  | unlockEntry hj | unlockConsumerIllegal hj | write hj | openFails hj | writeFails hj =>
    refine ⟨h.producers, fun m hm => ?_, h.hooks⟩
    exact (Function.update_of_ne (by omega) _ _).trans (h.consumers m hm)
  | test hk | append hk | setClosed hk | addEof hk | exit hk | appendFails hk =>
    refine ⟨h.producers, h.consumers, fun m hm => ?_⟩
    exact (Function.update_of_ne (by omega) _ _).trans (h.hooks m hm)

theorem absent_of_run {as : List Action} (h : run (step cfg) State.init as = some s) :
    Absent cfg s :=
  run_invariant (fun _ _ _ h hs => h.of_step hs) Absent.init h

/-! ## Permits -/

/-- The permit that the producer has released. -/
def Producer.released : Producer → ℕ
  | .unlocking | .finished => 1
  | _ => 0

/-- The permit that the consumer has used for what it is about to poll, holds, or stopped on. -/
def Consumer.used : Consumer → ℕ
  | .locking | .polling | .unlocking (some _) | .writing _ | .stopped => 1
  | _ => 0

/-- Every permit was released by a producer, and every entry in the file has used one. -/
def PermitsBounded (cfg : Config) (s : State) : Prop :=
  s.permits + total cfg.consumers Consumer.used s.consumer + (writtenEntries s.file).length ≤
    total cfg.calls.length Producer.released s.producer

theorem writtenEntries_append_entry (file : List Block) (e : Text) :
    writtenEntries (file ++ [.entry e]) = writtenEntries file ++ [e] := by
  simp [writtenEntries]

theorem writtenEntries_append_trailer (file : List Block) :
    writtenEntries (file ++ [.trailer]) = writtenEntries file := by
  simp [writtenEntries]

theorem PermitsBounded.init : PermitsBounded cfg State.init := by
  simp [PermitsBounded, State.init, total, writtenEntries, Consumer.used]

/-- A producer moves: the permits grow by no more than what it has newly released. -/
theorem PermitsBounded.move_producer (h : PermitsBounded cfg s) {i : ℕ} (hi : i < cfg.calls.length)
    {p : Producer} (hp : s'.producer = Function.update s.producer i p)
    (hc : s'.consumer = s.consumer) (hf : s'.file = s.file)
    (hle : s'.permits + (s.producer i).released ≤ s.permits + p.released) :
    PermitsBounded cfg s' := by
  have := total_update hi Producer.released s.producer p
  unfold PermitsBounded at h ⊢
  rw [hp, hc, hf]
  omega

/-- A consumer moves: what it gives up of its permit goes back to the semaphore or to the file. -/
theorem PermitsBounded.move_consumer (h : PermitsBounded cfg s) {j : ℕ} (hj : j < cfg.consumers)
    {c : Consumer} (hc : s'.consumer = Function.update s.consumer j c)
    (hp : s'.producer = s.producer)
    (hle : s'.permits + c.used + (writtenEntries s'.file).length ≤
      s.permits + (s.consumer j).used + (writtenEntries s.file).length) :
    PermitsBounded cfg s' := by
  have := total_update hj Consumer.used s.consumer c
  unfold PermitsBounded at h ⊢
  rw [hp, hc]
  omega

theorem PermitsBounded.of_step (h : PermitsBounded cfg s) (hs : step cfg s a = some s') :
    PermitsBounded cfg s' := by
  cases step_cases hs with
  | call hi at_ | lockProducer hi at_ | add hi _ at_ | release hi at_ | unlockProducer hi at_
  | unlockProducerIllegal hi at_ =>
    exact h.move_producer hi rfl rfl rfl (by simp [at_, Producer.released])
  | acquire hj at_ permit =>
    exact h.move_consumer hj rfl rfl (by simp [at_, Consumer.used]; omega)
  | open_ hj at_ | lockConsumer hj at_ | pollNull hj at_ | pollEof hj at_ | poll hj at_
  | unlockNull hj at_ | unlockEntry hj at_ | openFails hj at_ | writeFails hj at_ =>
    exact h.move_consumer hj rfl rfl (by simp [at_, Consumer.used])
  | unlockConsumerIllegal hj at_ =>
    exact h.move_consumer hj rfl rfl (by simp [Consumer.used])
  | write hj at_ =>
    exact h.move_consumer hj rfl rfl
      (by simp [at_, Consumer.used, writtenEntries_append_entry]; omega)
  | test | setClosed | addEof | exit | appendFails => simpa [PermitsBounded] using h
  | append => simpa [PermitsBounded, writtenEntries_append_trailer] using h

/-- The consumers never use, for entries and for the `EOF` on which they stop, more permits than
there are calls of `logRequest`. -/
theorem PermitsBounded.used_le (h : PermitsBounded cfg s) :
    total cfg.consumers Consumer.used s.consumer + (writtenEntries s.file).length ≤
      cfg.calls.length := by
  have := total_le (n := cfg.calls.length)
    (fun p : Producer => show p.released ≤ 1 by cases p <;> simp [Producer.released]) s.producer
  unfold PermitsBounded at h
  omega

/-! ## Every run ends -/

def Producer.work : Producer → ℕ
  | .uncalled => 11
  | .locking => 10
  | .adding => 9
  | .releasing => 8
  | .unlocking => 1
  | .finished => 0

def Consumer.work : Consumer → ℕ
  | .opening => 1
  | .acquiring => 0
  | .locking => 4
  | .polling => 3
  | .unlocking _ => 2
  | .writing _ => 1
  | .stopped => 0
  | .failed => 0

def Hook.work : Hook → ℕ
  | .testing => numConsumers + 5
  | .appending => numConsumers + 4
  | .setting => numConsumers + 3
  | .adding n => n + 1
  | .finished => 0

/-- A bound on the steps that are left: a permit pays for one turn of a consumer's loop. -/
def work (cfg : Config) (s : State) : ℕ :=
  total cfg.calls.length Producer.work s.producer + total cfg.consumers Consumer.work s.consumer +
    total cfg.hooks Hook.work s.hook + 5 * s.permits

theorem work_lt_of_producer {i : ℕ} (hi : i < cfg.calls.length) {p : Producer}
    (hp : s'.producer = Function.update s.producer i p) (hc : s'.consumer = s.consumer)
    (hh : s'.hook = s.hook)
    (hlt : p.work + 5 * s'.permits < (s.producer i).work + 5 * s.permits) :
    work cfg s' < work cfg s := by
  have := total_update hi Producer.work s.producer p
  unfold work
  rw [hp, hc, hh]
  omega

theorem work_lt_of_consumer {j : ℕ} (hj : j < cfg.consumers) {c : Consumer}
    (hc : s'.consumer = Function.update s.consumer j c) (hp : s'.producer = s.producer)
    (hh : s'.hook = s.hook)
    (hlt : c.work + 5 * s'.permits < (s.consumer j).work + 5 * s.permits) :
    work cfg s' < work cfg s := by
  have := total_update hj Consumer.work s.consumer c
  unfold work
  rw [hp, hc, hh]
  omega

theorem work_lt_of_hook {k : ℕ} (hk : k < cfg.hooks) {h : Hook}
    (hh : s'.hook = Function.update s.hook k h) (hp : s'.producer = s.producer)
    (hc : s'.consumer = s.consumer) (hs : s'.permits = s.permits)
    (hlt : h.work < (s.hook k).work) : work cfg s' < work cfg s := by
  have := total_update hk Hook.work s.hook h
  unfold work
  rw [hp, hc, hh, hs]
  omega

theorem work_lt_of_step (ha : Succeeds s a) (hs : step cfg s a = some s') :
    work cfg s' < work cfg s := by
  cases step_cases hs with
  | call hi at_ | lockProducer hi at_ | add hi _ at_ | unlockProducer hi at_
  | unlockProducerIllegal hi at_ =>
    exact work_lt_of_producer hi rfl rfl rfl (by simp [at_, Producer.work])
  | release hi at_ => exact work_lt_of_producer hi rfl rfl rfl (by simp [at_, Producer.work]; omega)
  | acquire hj at_ permit =>
    exact work_lt_of_consumer hj rfl rfl rfl (by simp [at_, Consumer.work]; omega)
  | open_ hj at_ | lockConsumer hj at_ | pollNull hj at_ | pollEof hj at_ | poll hj at_
  | unlockNull hj at_ | unlockEntry hj at_ | unlockConsumerIllegal hj at_ | write hj at_ =>
    exact work_lt_of_consumer hj rfl rfl rfl (by simp [at_, Consumer.work])
  | test hk at_ =>
    refine work_lt_of_hook hk rfl rfl rfl rfl ?_
    rw [at_]
    split_ifs <;> simp [Hook.work]
  | append hk at_ | setClosed hk at_ | addEof hk at_ | exit hk at_ =>
    exact work_lt_of_hook hk rfl rfl rfl rfl (by simp [at_, Hook.work])
  | openFails | writeFails | appendFails => exact ha.elim

/-! ## The locks of the producers -/

/-- The producer is between its `lock()` and its `unlock()`. -/
def Producer.holds (p : Producer) : Prop := p = .adding ∨ p = .releasing ∨ p = .unlocking

/-- Nobody but the producer itself ever takes the lock that its constructor made. -/
def OwnLocks (s : State) : Prop :=
  ∀ i, ((s.producer i).holds → s.locks (.own i) = .heldBy (.producer i) 0 []) ∧
    (¬ (s.producer i).holds → s.locks (.own i) = .free)

theorem OwnLocks.init : OwnLocks State.init := by
  intro i
  refine ⟨fun h => ?_, fun _ => rfl⟩
  rcases h with h | h | h <;> cases h

theorem OwnLocks.move (h : OwnLocks s) {i : ℕ} {p : Producer} {lk : ReentrantLock Thread}
    (hp : s'.producer = Function.update s.producer i p)
    (hl : s'.locks = Function.update s.locks (.own i) lk)
    (hheld : p.holds → lk = .heldBy (.producer i) 0 []) (hfree : ¬ p.holds → lk = .free) :
    OwnLocks s' := by
  intro m
  by_cases hm : m = i
  · subst hm
    rw [hp, hl, Function.update_self, Function.update_self]
    exact ⟨hheld, hfree⟩
  · rw [hp, hl, Function.update_of_ne hm, Function.update_of_ne (by simpa using hm)]
    exact h m

theorem OwnLocks.of_eq (h : OwnLocks s) (hp : s'.producer = s.producer)
    (hl : ∀ i, s'.locks (.own i) = s.locks (.own i)) : OwnLocks s' := by
  intro i
  rw [hp, hl]
  exact h i

/-- A step of a producer that leaves its lock alone, inside or outside its section. -/
theorem OwnLocks.stay (h : OwnLocks s) {i : ℕ} {p : Producer}
    (hp : s'.producer = Function.update s.producer i p) (hl : s'.locks = s.locks)
    (hsame : p.holds ↔ (s.producer i).holds) : OwnLocks s' :=
  h.move hp (by rw [hl, Function.update_eq_self]) (fun hh => (h i).1 (hsame.1 hh))
    fun hh => (h i).2 fun hh' => hh (hsame.2 hh')

theorem OwnLocks.of_step (h : OwnLocks s) (hs : step cfg s a = some s') : OwnLocks s' := by
  cases step_cases hs with
  | call _ at_ | add _ _ at_ | release _ at_ =>
    exact h.stay rfl rfl (by simp [at_, Producer.holds])
  | @lockProducer i lk hi at_ acquired =>
    have hfree := (h i).2 (by simp [at_, Producer.holds])
    rw [hfree, ReentrantLock.acquire_of_owner_none rfl] at acquired
    obtain rfl := Option.some.inj acquired
    exact h.move rfl rfl (fun _ => rfl) (by simp [Producer.holds])
  | @unlockProducer i lk hi at_ unlocked =>
    have hheld := (h i).1 (by simp [at_, Producer.holds])
    rw [hheld, ReentrantLock.unlock_heldBy_zero] at unlocked
    obtain rfl := Option.some.inj unlocked
    exact h.move rfl rfl (by simp [Producer.holds]) fun _ => rfl
  | @unlockProducerIllegal i hi at_ illegal =>
    have hheld := (h i).1 (by simp [at_, Producer.holds])
    rw [hheld, ReentrantLock.unlock_heldBy_zero] at illegal
    cases illegal
  | lockConsumer | unlockNull | unlockEntry =>
    refine h.of_eq rfl fun i => ?_
    rw [State.setConsumer_locks, State.setLock_locks, Function.update_of_ne (by simp)]
  | _ => exact h.of_eq rfl fun _ => rfl

/-! ## No run drains the queue and ends the consumer -/

/-- `closeLogs` has completed, the producers have finished, and no thread can do anything. -/
structure Quiescent (cfg : Config) (s : State) : Prop where
  producers : ∀ i < cfg.calls.length, s.producer i = .finished
  hooks : ∀ k < cfg.hooks, s.hook k = .finished
  stuck : ∀ a, Succeeds s a → step cfg s a = none

/-- Where no thread can do anything, the producers and the hooks have come to their ends: nothing
but the semaphore and the consumers' lock makes a thread wait. -/
theorem quiescent_of_stuck (h : OwnLocks s) (hs : ∀ a, Succeeds s a → step cfg s a = none) :
    Quiescent cfg s where
  producers i hi := by
    have hnone := hs (.producer i) trivial
    simp only [step, List.getElem?_eq_getElem hi, Option.bind_some, State.stepProducer] at hnone
    split at hnone
    case h_2 hp =>
      have hfree := (h i).2 (by simp [hp, Producer.holds])
      simp only [producerLock, hfree,
        ReentrantLock.acquire_of_owner_none ReentrantLock.free_owner] at hnone
      cases hnone
    case h_5 => split at hnone <;> cases hnone
    case h_6 hp => exact hp
    all_goals cases hnone
  hooks k hk := by
    have hnone := hs (.hook k) trivial
    simp only [step, if_pos hk, State.stepHook] at hnone
    split at hnone
    case h_6 hp => exact hp
    all_goals cases hnone
  stuck := hs

/-- From the start some run without I/O failure ends in a quiescent state. -/
theorem exists_quiescent (cfg : Config) :
    ∃ as s, Meets (step cfg) Succeeds State.init as ∧ run (step cfg) State.init as = some s ∧
      Quiescent cfg s := by
  obtain ⟨as, s, hm, hrun, hown, hstuck⟩ := exists_run_to_stuck (work cfg)
    (fun _ _ _ h ha hs => ⟨OwnLocks.of_step h hs, work_lt_of_step ha hs⟩) State.init OwnLocks.init
  exact ⟨as, s, hm, hrun, quiescent_of_stuck hown hstuck⟩

theorem permitsBounded_of_run {as : List Action} (h : run (step cfg) State.init as = some s) :
    PermitsBounded cfg s :=
  run_invariant (fun _ _ _ h hs => h.of_step hs) PermitsBounded.init h

/-- The consumer has left its loop, and the file holds every entry that was submitted, once. -/
def Drained (cfg : Config) (s : State) : Prop :=
  (∀ j < cfg.consumers, s.consumer j = .stopped) ∧
    (writtenEntries s.file).Perm (cfg.calls.map logEntry)

/-- A consumer that has stopped has used a permit which one of the entries now lacks. -/
theorem not_drained {as : List Action} (hc : 0 < cfg.consumers)
    (h : run (step cfg) State.init as = some s) : ¬ Drained cfg s := by
  rintro ⟨hstopped, hperm⟩
  have hused := (permitsBounded_of_run h).used_le
  have hone := weight_le_total hc Consumer.used s.consumer
  rw [hstopped 0 hc] at hone
  have hlen := hperm.length_eq
  rw [List.length_map] at hlen
  simp only [Consumer.used] at hone
  omega

/-- Whatever is logged, the run comes to a state where `closeLogs` has completed, the producers
have finished and nothing is enabled; and in no such state has the consumer left its loop with
every entry in the file. -/
theorem closeLogs_never_drains (calls : List LogCall) :
    (∃ as s, Meets (step (serverConfig calls)) Succeeds State.init as ∧
      run (step (serverConfig calls)) State.init as = some s ∧ Quiescent (serverConfig calls) s) ∧
    ∀ as s, Meets (step (serverConfig calls)) Succeeds State.init as →
      run (step (serverConfig calls)) State.init as = some s → Quiescent (serverConfig calls) s →
      ¬ Drained (serverConfig calls) s :=
  ⟨exists_quiescent _, fun _ _ _ hrun _ => not_drained Nat.one_pos hrun⟩

/-- Nothing is logged and the server is shut down. -/
theorem closeLogs_leaves_consumer_waiting :
    ¬ ∀ as s, Meets (step (serverConfig [])) Succeeds State.init as →
      run (step (serverConfig [])) State.init as = some s → Quiescent (serverConfig []) s →
      Drained (serverConfig []) s := by
  intro h
  obtain ⟨as, s, hm, hrun, hq⟩ := exists_quiescent (serverConfig [])
  exact not_drained Nat.one_pos hrun (h as s hm hrun hq)

/-! ## Mutual exclusion -/

/-- In every reachable state at most one thread is in its queue-access section. -/
def MutualExclusion (cfg : Config) : Prop :=
  ∀ as s, run (step cfg) State.init as = some s → ∀ t u, InSection s t → InSection s u → t = u

/-- There is no permit, and no consumer has got past its semaphore. -/
structure Idle (s : State) : Prop where
  permits : s.permits = 0
  consumers : ∀ j, s.consumer j = .opening ∨ s.consumer j = .acquiring ∨ s.consumer j = .failed

theorem Idle.init : Idle State.init := ⟨rfl, fun _ => Or.inl rfl⟩

theorem Idle.move_consumer (h : Idle s) {j : ℕ} {c : Consumer}
    (hc : c = .opening ∨ c = .acquiring ∨ c = .failed) : Idle (s.setConsumer j c) where
  permits := h.permits
  consumers m := by
    by_cases hm : m = j
    · simpa [hm] using hc
    · simpa [Function.update_of_ne hm] using h.consumers m

/-- Without a call there is nothing for a consumer to do but to open its file. -/
theorem Idle.of_step (h : Idle s) (hc : cfg.calls = []) (hs : step cfg s a = some s') :
    Idle s' := by
  have hno : ∀ i, ¬ i < cfg.calls.length := by simp [hc]
  cases step_cases hs with
  | call hi | lockProducer hi | add hi | release hi | unlockProducer hi
  | unlockProducerIllegal hi => exact absurd hi (hno _)
  | open_ | openFails => exact h.move_consumer (by simp)
  | acquire _ _ permit => exact absurd permit (by simp [h.permits])
  | @lockConsumer j _ _ at_ | @pollNull j _ at_ | @pollEof j _ _ at_ | @poll j _ _ _ at_
  | @write j _ _ at_ | @writeFails j _ _ at_ | @unlockConsumerIllegal j _ _ at_
  | @unlockNull j _ _ at_ | @unlockEntry j _ _ _ at_ =>
    have := h.consumers j
    simp [at_] at this
  | test | append | setClosed | addEof | exit | appendFails => exact ⟨h.permits, h.consumers⟩

/-- In a run without calls only a hook is ever in its section. -/
theorem hook_of_inSection (hi : Idle s) (ha : Absent cfg s) (hc : cfg.calls = []) {t : Thread}
    (ht : InSection s t) : ∃ k < cfg.hooks, t = .hook k := by
  cases t with
  | producer i =>
    have := ha.producers i (by simp [hc])
    simp [InSection, this] at ht
  | consumer j => rcases hi.consumers j with hj | hj | hj <;> simp [InSection, hj] at ht
  | hook k =>
    refine ⟨k, ?_, rfl⟩
    by_contra hk
    simp [InSection, ha.hooks k (by omega)] at ht

/-- A producer comes to its `unlock()`, and the consumer, which its permit has woken, to its
`poll()`. -/
def bothInSection : List Action :=
  [.producer 0, .producer 0, .producer 0, .producer 0, .consumer 0, .consumer 0, .consumer 0]

theorem exists_bothInSection (c : LogCall) (calls : List LogCall) :
    ∃ s, run (step (serverConfig (c :: calls))) State.init bothInSection = some s ∧
      InSection s (.producer 0) ∧ InSection s (.consumer 0) :=
  ⟨_, rfl, Or.inr (Or.inr rfl), Or.inl rfl⟩

/-- The threads exclude each other from the queue exactly when nothing is ever logged: the first
producer already can meet the consumer there. -/
theorem mutualExclusion_iff (calls : List LogCall) :
    MutualExclusion (serverConfig calls) ↔ calls = [] := by
  constructor
  · intro h
    cases calls with
    | nil => rfl
    | cons c calls =>
      obtain ⟨s, hrun, hp, hc⟩ := exists_bothInSection c calls
      cases h _ s hrun _ _ hp hc
  · rintro rfl as s hrun t u ht hu
    have hidle : Idle s := run_invariant (fun _ _ _ h hs => h.of_step rfl hs) Idle.init hrun
    obtain ⟨k, hk, rfl⟩ := hook_of_inSection hidle (absent_of_run hrun) rfl ht
    obtain ⟨m, hm, rfl⟩ := hook_of_inSection hidle (absent_of_run hrun) rfl hu
    rw [Nat.lt_one_iff.1 hk, Nat.lt_one_iff.1 hm]

/-- One request is logged. -/
theorem producer_meets_consumer : ¬ MutualExclusion (serverConfig [sampleCall]) := by
  intro h
  obtain ⟨s, hrun, hp, hc⟩ := exists_bothInSection sampleCall []
  cases h _ s hrun _ _ hp hc

end LogQueue
