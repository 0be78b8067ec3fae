import PaWebServer.LogQueue
import Mathlib.Tactic.SplitIfs

/-!
# The steps of the log threads

One rule for each thing that a step of `LogQueue.step` can do, with the test that lets it happen
(`Step`, `step_cases`).
-/

namespace LogQueue

open LogsHandler

/-! ## Fields after a step -/

namespace State

variable (s : State) (i : ℕ) (p : Producer) (c : Consumer) (h : Hook) (l : LockRef)
  (lk : ReentrantLock Thread)

@[simp] theorem setProducer_permits : (s.setProducer i p).permits = s.permits := rfl

@[simp] theorem setProducer_logQueue : (s.setProducer i p).logQueue = s.logQueue := rfl

@[simp] theorem setConsumer_consumer :
    (s.setConsumer i c).consumer = Function.update s.consumer i c := rfl

@[simp] theorem setConsumer_locks : (s.setConsumer i c).locks = s.locks := rfl

@[simp] theorem setConsumer_permits : (s.setConsumer i c).permits = s.permits := rfl

@[simp] theorem setConsumer_file : (s.setConsumer i c).file = s.file := rfl

@[simp] theorem setHook_hook : (s.setHook i h).hook = Function.update s.hook i h := rfl

@[simp] theorem setHook_producer : (s.setHook i h).producer = s.producer := rfl

@[simp] theorem setHook_consumer : (s.setHook i h).consumer = s.consumer := rfl

@[simp] theorem setHook_permits : (s.setHook i h).permits = s.permits := rfl

@[simp] theorem setHook_logQueue : (s.setHook i h).logQueue = s.logQueue := rfl

@[simp] theorem setHook_file : (s.setHook i h).file = s.file := rfl

@[simp] theorem setLock_locks : (s.setLock l lk).locks = Function.update s.locks l lk := rfl

@[simp] theorem setLock_consumer : (s.setLock l lk).consumer = s.consumer := rfl

@[simp] theorem setLock_permits : (s.setLock l lk).permits = s.permits := rfl

@[simp] theorem setLock_file : (s.setLock l lk).file = s.file := rfl

end State

/-! ## The steps, one rule for each -/

/-- What each step does, with the test that lets it happen. -/
inductive Step (cfg : Config) (s : State) : Action → State → Prop
  | call {i} (hi : i < cfg.calls.length) (at_ : s.producer i = .uncalled) :
      Step cfg s (.producer i) (s.setProducer i .locking)
  | lockProducer {i lk} (hi : i < cfg.calls.length) (at_ : s.producer i = .locking)
      (acquired : (s.locks (.own i)).acquire (.producer i) = some lk) :
      Step cfg s (.producer i) ((s.setLock (.own i) lk).setProducer i .adding)
  | add {i c} (hi : i < cfg.calls.length) (hc : cfg.calls[i]? = some c)
      (at_ : s.producer i = .adding) :
      Step cfg s (.producer i)
        ({ s with logQueue := s.logQueue ++ [logEntry c] }.setProducer i .releasing)
  | release {i} (hi : i < cfg.calls.length) (at_ : s.producer i = .releasing) :
      Step cfg s (.producer i) ({ s with permits := s.permits + 1 }.setProducer i .unlocking)
  | unlockProducer {i lk} (hi : i < cfg.calls.length) (at_ : s.producer i = .unlocking)
      (unlocked : (s.locks (.own i)).unlock (.producer i) = some lk) :
      Step cfg s (.producer i) ((s.setLock (.own i) lk).setProducer i .finished)
  | unlockProducerIllegal {i} (hi : i < cfg.calls.length) (at_ : s.producer i = .unlocking)
      (illegal : (s.locks (.own i)).unlock (.producer i) = none) :
      Step cfg s (.producer i) (s.setProducer i .finished)
  | open_ {j} (hj : j < cfg.consumers) (at_ : s.consumer j = .opening) :
      Step cfg s (.consumer j) (s.setConsumer j .acquiring)
  | acquire {j} (hj : j < cfg.consumers) (at_ : s.consumer j = .acquiring)
      (permit : 0 < s.permits) :
      Step cfg s (.consumer j) ({ s with permits := s.permits - 1 }.setConsumer j .locking)
  | lockConsumer {j lk} (hj : j < cfg.consumers) (at_ : s.consumer j = .locking)
      (acquired : (s.locks .passed).acquire (.consumer j) = some lk) :
      Step cfg s (.consumer j) ((s.setLock .passed lk).setConsumer j .polling)
  | pollNull {j} (hj : j < cfg.consumers) (at_ : s.consumer j = .polling)
      (empty : s.logQueue = []) :
      Step cfg s (.consumer j) (s.setConsumer j (.unlocking none))
  | pollEof {j q} (hj : j < cfg.consumers) (at_ : s.consumer j = .polling)
      (queue : s.logQueue = eof :: q) :
      Step cfg s (.consumer j) ({ s with logQueue := q }.setConsumer j .stopped)
  | poll {j e q} (hj : j < cfg.consumers) (at_ : s.consumer j = .polling)
      (queue : s.logQueue = e :: q) (he : e ≠ eof) :
      Step cfg s (.consumer j) ({ s with logQueue := q }.setConsumer j (.unlocking (some e)))
  | unlockNull {j lk} (hj : j < cfg.consumers) (at_ : s.consumer j = .unlocking none)
      (unlocked : (s.locks .passed).unlock (.consumer j) = some lk) :
      Step cfg s (.consumer j) ((s.setLock .passed lk).setConsumer j .acquiring)
  | unlockEntry {j e lk} (hj : j < cfg.consumers) (at_ : s.consumer j = .unlocking (some e))
      (unlocked : (s.locks .passed).unlock (.consumer j) = some lk) :
      Step cfg s (.consumer j) ((s.setLock .passed lk).setConsumer j (.writing e))
  | unlockConsumerIllegal {j e} (hj : j < cfg.consumers) (at_ : s.consumer j = .unlocking e)
      (illegal : (s.locks .passed).unlock (.consumer j) = none) :
      Step cfg s (.consumer j) (s.setConsumer j .failed)
  | write {j e} (hj : j < cfg.consumers) (at_ : s.consumer j = .writing e) :
      Step cfg s (.consumer j)
        ({ s with file := s.file ++ [Block.entry e] }.setConsumer j .acquiring)
  | test {k} (hk : k < cfg.hooks) (at_ : s.hook k = .testing) :
      Step cfg s (.hook k) (s.setHook k (if s.closed then .finished else .appending))
  | append {k} (hk : k < cfg.hooks) (at_ : s.hook k = .appending) :
      Step cfg s (.hook k) ({ s with file := s.file ++ [Block.trailer] }.setHook k .setting)
  | setClosed {k} (hk : k < cfg.hooks) (at_ : s.hook k = .setting) :
      Step cfg s (.hook k) ({ s with closed := true }.setHook k (.adding numConsumers))
  | addEof {k n} (hk : k < cfg.hooks) (at_ : s.hook k = .adding (n + 1)) :
      Step cfg s (.hook k) ({ s with logQueue := s.logQueue ++ [eof] }.setHook k (.adding n))
  | exit {k} (hk : k < cfg.hooks) (at_ : s.hook k = .adding 0) :
      Step cfg s (.hook k) (s.setHook k .finished)
  | openFails {j} (hj : j < cfg.consumers) (at_ : s.consumer j = .opening) :
      Step cfg s (.ioError (.consumer j)) (s.setConsumer j .failed)
  | writeFails {j e} (hj : j < cfg.consumers) (at_ : s.consumer j = .writing e) :
      Step cfg s (.ioError (.consumer j)) (s.setConsumer j .failed)
  | appendFails {k} (hk : k < cfg.hooks) (at_ : s.hook k = .appending) :
      Step cfg s (.ioError (.hook k)) (s.setHook k .finished)

theorem stepProducer_cases {cfg : Config} {s s' : State} {i : ℕ} {c : LogCall}
    (hc : cfg.calls[i]? = some c) (h : s.stepProducer i (logEntry c) = some s') :
    Step cfg s (.producer i) s' := by
  have hi : i < cfg.calls.length := (List.getElem?_eq_some_iff.1 hc).1
  unfold State.stepProducer at h
  split at h
  case h_1 hp =>
    obtain rfl := Option.some.inj h
    exact .call hi hp
  case h_2 hp =>
    obtain ⟨lk, hlk, rfl⟩ := Option.map_eq_some_iff.1 h
    exact .lockProducer hi hp hlk
  case h_3 hp =>
    obtain rfl := Option.some.inj h
    exact .add hi hc hp
  case h_4 hp =>
    obtain rfl := Option.some.inj h
    exact .release hi hp
  case h_5 hp =>
    simp only at h
    split at h <;> obtain rfl := Option.some.inj h
    · exact .unlockProducer hi hp ‹_›
    · exact .unlockProducerIllegal hi hp ‹_›
  case h_6 => cases h

theorem stepConsumer_cases {cfg : Config} {s s' : State} {j : ℕ} (hj : j < cfg.consumers)
    (h : s.stepConsumer j = some s') : Step cfg s (.consumer j) s' := by
  unfold State.stepConsumer at h
  split at h
  case h_1 hp =>
    obtain rfl := Option.some.inj h
    exact .open_ hj hp
  case h_2 hp =>
    split_ifs at h with hpos
    obtain rfl := Option.some.inj h
    exact .acquire hj hp hpos
  case h_3 hp =>
    obtain ⟨lk, hlk, rfl⟩ := Option.map_eq_some_iff.1 h
    exact .lockConsumer hj hp hlk
  case h_4 hp =>
    split at h
    · obtain rfl := Option.some.inj h
      exact .pollNull hj hp ‹_›
    · rename_i e q hq
      split_ifs at h with he <;> obtain rfl := Option.some.inj h
      · exact .pollEof hj hp (he ▸ hq)
      · exact .poll hj hp hq he
  case h_5 hp =>
    simp only at h
    split at h
    · split at h <;> obtain rfl := Option.some.inj h
      · exact .unlockNull hj hp ‹_›
      · exact .unlockEntry hj hp ‹_›
    · obtain rfl := Option.some.inj h
      exact .unlockConsumerIllegal hj hp ‹_›
  case h_6 hp =>
    obtain rfl := Option.some.inj h
    exact .write hj hp
  case h_7 => cases h
  case h_8 => cases h

theorem stepHook_cases {cfg : Config} {s s' : State} {k : ℕ} (hk : k < cfg.hooks)
    (h : s.stepHook k = some s') : Step cfg s (.hook k) s' := by
  unfold State.stepHook at h
  split at h
  case h_6 => cases h
  all_goals obtain rfl := Option.some.inj h
  · exact .test hk ‹_›
  · exact .append hk ‹_›
  · exact .setClosed hk ‹_›
  · exact .addEof hk ‹_›
  · exact .exit hk ‹_›

theorem ioError_cases {cfg : Config} {s s' : State} {t : Thread} (ht : cfg.exists t = true)
    (h : s.ioError t = some s') : Step cfg s (.ioError t) s' := by
  cases t with
  | producer i => cases h
  | consumer j =>
    have hj : j < cfg.consumers := by simpa [Config.exists] using ht
    simp only [State.ioError] at h
    split at h
    · obtain rfl := Option.some.inj h
      exact .openFails hj ‹_›
    · obtain rfl := Option.some.inj h
      exact .writeFails hj ‹_›
    · cases h
  | hook k =>
    have hk : k < cfg.hooks := by simpa [Config.exists] using ht
    simp only [State.ioError] at h
    split at h
    · obtain rfl := Option.some.inj h
      exact .appendFails hk ‹_›
    · cases h

theorem step_cases {cfg : Config} {s s' : State} {a : Action} (h : step cfg s a = some s') :
    Step cfg s a s' := by
  cases a with
  | producer i =>
    obtain ⟨c, hc, h⟩ := Option.bind_eq_some_iff.1 h
    exact stepProducer_cases hc h
  | consumer j =>
    simp only [step] at h
    split_ifs at h with hj
    exact stepConsumer_cases hj h
  | hook k =>
    simp only [step] at h
    split_ifs at h with hk
    exact stepHook_cases hk h
  | ioError t =>
    simp only [step] at h
    split_ifs at h with ht
    exact ioError_cases ht h

end LogQueue
