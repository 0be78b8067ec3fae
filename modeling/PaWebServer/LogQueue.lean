import PaWebServer.Lib.ReentrantLock
import PaWebServer.Lib.Transition
import PaWebServer.LogsHandler
import Mathlib.Logic.Function.Basic

/-!
# The log queue and its threads

Each call of `logRequest` starts a producer thread, which adds its entry to the queue and releases
the semaphore; the consumer threads acquire the semaphore, poll the queue and append what they got
to the log file; the shutdown hooks run `closeLogs`.  A step is one atomic action of one thread.
The lock that a thread takes is the one that its constructor stored.

`add` and `poll` are each one step, although the queue is a plain `LinkedList` and the lock of a
producer its own.  A write with its flush is one step too: it reaches the file whole, or fails and
leaves nothing, as for a text that fits into the 8192 bytes of the writer's buffer.
-/

namespace LogQueue

open LogsHandler

inductive Thread where
  | producer (i : ℕ)
  | consumer (j : ℕ)
  | hook (k : ℕ)
  deriving DecidableEq

/-- A reference to a `ReentrantLock` object: the one passed to the `LogsHandler` constructor, or
the one that the constructor of the `i`-th producer makes. -/
inductive LockRef where
  | passed
  | own (i : ℕ)
  deriving DecidableEq

/-- The field `lock` of the `i`-th producer: its constructor stores `new ReentrantLock()` and drops
its argument. -/
def producerLock (i : ℕ) (_lock : LockRef) : LockRef := .own i

/-- The field `lock` of a consumer: its constructor stores its argument. -/
def consumerLock (lock : LockRef) : LockRef := lock

/-- Where a producer is: `logRequest` has not been called yet, or the next line of `run`. -/
inductive Producer where
  | uncalled
  | locking
  | adding
  | releasing
  | unlocking
  | finished
  deriving DecidableEq

/-- Where a consumer is; `unlocking` and `writing` carry what it has polled.  It ends as `stopped`
when it has left its loop, and as `failed` after an exception. -/
inductive Consumer where
  | opening
  | acquiring
  | locking
  | polling
  | unlocking (logEntry : Option Text)
  | writing (logEntry : Text)
  | stopped
  | failed
  deriving DecidableEq

/-- Where a shutdown hook is in `closeLogs`; `adding` carries how many `EOF` elements it still has
to add. -/
inductive Hook where
  | testing
  | appending
  | setting
  | adding (left : ℕ)
  | finished
  deriving DecidableEq

/-- One completed write to the log file. -/
inductive Block where
  | header
  | entry (text : Text)
  | trailer
  deriving DecidableEq

/-- The calls of `logRequest` in the run, and the numbers of consumers and of shutdown hooks. -/
structure Config where
  calls : List LogCall
  consumers : ℕ
  hooks : ℕ

structure State where
  logQueue : List Text
  permits : ℕ
  locks : LockRef → ReentrantLock Thread
  closed : Bool
  file : List Block
  producer : ℕ → Producer
  consumer : ℕ → Consumer
  hook : ℕ → Hook

/-- The constructor of `LogsHandler` has opened a new file and started the consumers. -/
def State.init : State where
  logQueue := []
  permits := 0
  locks _ := .free
  closed := false
  file := [.header]
  producer _ := .uncalled
  consumer _ := .opening
  hook _ := .testing

namespace State

variable (s : State)

def setProducer (i : ℕ) (p : Producer) : State :=
  { s with producer := Function.update s.producer i p }

def setConsumer (j : ℕ) (c : Consumer) : State :=
  { s with consumer := Function.update s.consumer j c }

def setHook (k : ℕ) (h : Hook) : State := { s with hook := Function.update s.hook k h }

def setLock (l : LockRef) (lk : ReentrantLock Thread) : State :=
  { s with locks := Function.update s.locks l lk }

/-- The next step of the `i`-th producer, whose entry is `entry`.  No other access to the queue
overlaps with its `add`. -/
def stepProducer (i : ℕ) (entry : Text) : Option State :=
  match s.producer i with
  | .uncalled => some (s.setProducer i .locking)
  | .locking =>
    let l := producerLock i .passed
    ((s.locks l).acquire (.producer i)).map fun lk => (s.setLock l lk).setProducer i .adding
  | .adding => some ({ s with logQueue := s.logQueue ++ [entry] }.setProducer i .releasing)
  | .releasing => some ({ s with permits := s.permits + 1 }.setProducer i .unlocking)
  | .unlocking =>
    let l := producerLock i .passed
    match (s.locks l).unlock (.producer i) with
    | some lk => some ((s.setLock l lk).setProducer i .finished)
    | none => some (s.setProducer i .finished)
  | .finished => none

/-- The next step of the `j`-th consumer.  No other access to the queue overlaps with its `poll`,
and its write is whole. -/
def stepConsumer (j : ℕ) : Option State :=
  match s.consumer j with
  | .opening => some (s.setConsumer j .acquiring)
  | .acquiring =>
    if 0 < s.permits then some ({ s with permits := s.permits - 1 }.setConsumer j .locking)
    else none
  | .locking =>
    let l := consumerLock .passed
    ((s.locks l).acquire (.consumer j)).map fun lk => (s.setLock l lk).setConsumer j .polling
  | .polling =>
    match s.logQueue with
    | [] => some (s.setConsumer j (.unlocking none))
    | e :: q =>
      -- `break` leaves the loop without `unlock`.
      if e = eof then some ({ s with logQueue := q }.setConsumer j .stopped)
      else some ({ s with logQueue := q }.setConsumer j (.unlocking (some e)))
  | .unlocking e =>
    let l := consumerLock .passed
    match (s.locks l).unlock (.consumer j) with
    | some lk =>
      match e with
      | none => some ((s.setLock l lk).setConsumer j .acquiring)
      | some e => some ((s.setLock l lk).setConsumer j (.writing e))
    | none => some (s.setConsumer j .failed)
  | .writing e => some ({ s with file := s.file ++ [Block.entry e] }.setConsumer j .acquiring)
  | .stopped => none
  | .failed => none

/-- The next step of the `k`-th hook. -/
def stepHook (k : ℕ) : Option State :=
  match s.hook k with
  | .testing => some (s.setHook k (if s.closed then .finished else .appending))
  | .appending => some ({ s with file := s.file ++ [Block.trailer] }.setHook k .setting)
  | .setting => some ({ s with closed := true }.setHook k (.adding numConsumers))
  | .adding (n + 1) => some ({ s with logQueue := s.logQueue ++ [eof] }.setHook k (.adding n))
  | .adding 0 => some (s.setHook k .finished)
  | .finished => none

/-- An IOException in the file operation that the thread is about to do, which leaves the file as
it was. -/
def ioError : Thread → Option State
  | .producer _ => none
  | .consumer j =>
    match s.consumer j with
    | .opening | .writing _ => some (s.setConsumer j .failed)
    | _ => none
  | .hook k =>
    match s.hook k with
    | .appending => some (s.setHook k .finished)
    | _ => none

end State

inductive Action where
  | producer (i : ℕ)
  | consumer (j : ℕ)
  | hook (k : ℕ)
  | ioError (t : Thread)

/-- The thread exists in the run. -/
def Config.exists (cfg : Config) : Thread → Bool
  | .producer i => i < cfg.calls.length
  | .consumer j => j < cfg.consumers
  | .hook k => k < cfg.hooks

def step (cfg : Config) (s : State) : Action → Option State
  | .producer i => cfg.calls[i]?.bind fun c => s.stepProducer i (logEntry c)
  | .consumer j => if j < cfg.consumers then s.stepConsumer j else none
  | .hook k => if k < cfg.hooks then s.stepHook k else none
  | .ioError t => if cfg.exists t then s.ioError t else none

/-- The step is not an I/O failure. -/
def Succeeds (_ : State) : Action → Prop
  | .ioError _ => False
  | _ => True

instance (s : State) : (a : Action) → Decidable (Succeeds s a)
  | .ioError _ => isFalse id
  | .producer _ | .consumer _ | .hook _ => isTrue trivial

/-- The thread is in its queue-access section: between `lock()` and `unlock()`, or adding `EOF`. -/
def InSection (s : State) : Thread → Prop
  | .producer i =>
    s.producer i = .adding ∨ s.producer i = .releasing ∨ s.producer i = .unlocking
  | .consumer j => s.consumer j = .polling ∨ ∃ e, s.consumer j = .unlocking e
  | .hook k => ∃ n, s.hook k = .adding (n + 1)

/-- The entries in the file, in the order in which they were written. -/
def writtenEntries (file : List Block) : List Text :=
  file.filterMap fun
    | .entry e => some e
    | _ => none

end LogQueue
