import PaWebServer.Lib.Refinement
import PaWebServer.ServerFailures

/-!
# The threads of the pool

`ThreadPool` is a `ThreadPoolExecutor` whose core and maximum size are the number of connections.
It has no threads at the start; a task gets a new one as long as fewer than that many are running,
also when others wait, and else it is queued.  A thread that an exception has ended is counted out,
and replaced later.  This pool does what the server does with all its threads from the start
(`pool_refines`), as long as no task overtakes others: one that comes between the end of a thread
and its replacement gets a new thread before those in the queue.
-/

namespace Server

open Transition
open RequestThread (Client)

variable {cfg : Config} {s s' : State} {a : Action} {t : ℕ}

/-! ## A thread among other threads -/

/-- The same server with other threads. -/
def State.withThreads (s : State) (stage : ℕ → Stage) (spawned : ℕ) : State :=
  { s with stage := stage, spawned := spawned }

/-- What a thread does depends on the other threads only through what they share. -/
theorem Step.withThreads (h : Step cfg s a s') (hthread : a.thread? = some t)
    {stage : ℕ → Stage} (hstage : stage t = s.stage t) (n : ℕ) :
    (∃ st, s'.stage = Function.update s.stage t st ∧ s'.spawned = s.spawned ∧
        Step cfg (s.withThreads stage n) a (s'.withThreads (Function.update stage t st) n)) ∨
      s' = s.die t ∧ Step cfg (s.withThreads stage n) a ((s.withThreads stage n).die t) := by
  cases h with
  | accept => cases hthread
  | take at_ queue =>
    obtain rfl := Option.some.inj hthread
    exact Or.inl ⟨_, rfl, rfl, .take (hstage.trans at_) queue⟩
  | giveUp at_ read =>
    obtain rfl := Option.some.inj hthread
    exact Or.inl ⟨_, rfl, rfl, .giveUp (hstage.trans at_) read⟩
  | readNull at_ read =>
    obtain rfl := Option.some.inj hthread
    exact Or.inr ⟨rfl, .readNull (hstage.trans at_) read⟩
  | parsed at_ read parse =>
    obtain rfl := Option.some.inj hthread
    exact Or.inl ⟨_, rfl, rfl, .parsed (hstage.trans at_) read parse⟩
  | resolved at_ res call =>
    obtain rfl := Option.some.inj hthread
    exact Or.inl ⟨_, rfl, rfl, .resolved (hstage.trans at_) res call⟩
  | unresolved at_ res =>
    obtain rfl := Option.some.inj hthread
    exact Or.inr ⟨rfl, .unresolved (hstage.trans at_) res⟩
  | locked at_ returned =>
    obtain rfl := Option.some.inj hthread
    exact Or.inl ⟨_, rfl, rfl, .locked (hstage.trans at_) returned⟩
  | unlocked at_ returned =>
    obtain rfl := Option.some.inj hthread
    exact Or.inl ⟨_, rfl, rfl, .unlocked (hstage.trans at_) returned⟩
  | advance at_ call =>
    obtain rfl := Option.some.inj hthread
    refine Or.inl ⟨_, (Function.update_eq_self _ s.stage).symm, rfl, ?_⟩
    rw [← hstage, Function.update_eq_self]
    exact .advance (at_.imp hstage.trans hstage.trans) call
  | threw at_ threw =>
    obtain rfl := Option.some.inj hthread
    exact Or.inr ⟨rfl, .threw (at_.imp hstage.trans hstage.trans) threw⟩
  | loaded at_ read =>
    obtain rfl := Option.some.inj hthread
    exact Or.inl ⟨_, rfl, rfl, .loaded (hstage.trans at_) read⟩
  | unreadable at_ read =>
    obtain rfl := Option.some.inj hthread
    exact Or.inr ⟨rfl, .unreadable (hstage.trans at_) read⟩
  | send at_ =>
    obtain rfl := Option.some.inj hthread
    exact Or.inl ⟨_, rfl, rfl, .send (hstage.trans at_)⟩
  | flush at_ call =>
    obtain rfl := Option.some.inj hthread
    exact Or.inl ⟨_, rfl, rfl, .flush (hstage.trans at_) call⟩
  | log at_ =>
    obtain rfl := Option.some.inj hthread
    exact Or.inl ⟨_, rfl, rfl, .log (hstage.trans at_)⟩
  | readFails at_ =>
    obtain rfl := Option.some.inj hthread
    exact Or.inl ⟨_, rfl, rfl, .readFails (hstage.trans at_)⟩
  | sendFails at_ =>
    obtain rfl := Option.some.inj hthread
    exact Or.inl ⟨_, rfl, rfl, .sendFails (hstage.trans at_)⟩
  | loadFails at_ =>
    obtain rfl := Option.some.inj hthread
    exact Or.inr ⟨rfl, .loadFails (hstage.trans at_)⟩

theorem stage_ne_absent (hs : step cfg s a = some s') (hthread : a.thread? = some t) :
    s.stage t ≠ .absent := by
  intro hstage
  cases a with
  | accept => cases hthread
  | worker u =>
    obtain rfl := Option.some.inj hthread
    simp [step, State.work, hstage] at hs
  | ioError u =>
    obtain rfl := Option.some.inj hthread
    simp [step, State.ioError, hstage] at hs
  | readError u =>
    obtain rfl := Option.some.inj hthread
    simp [step, State.readError, hstage] at hs

theorem queue_of_thread (h : Step cfg s a s') (hthread : a.thread? = some t)
    (hqueue : s.workQueue = []) : s'.workQueue = [] := by
  cases h with
  | accept => cases hthread
  | take _ queue =>
    rw [hqueue] at queue
    cases queue
  | _ => exact hqueue

/-! ## The pool -/

/-- The server with the threads that its pool has started.  The first threads have the names below
the number of connections, of which `started` are in use; `ended` threads have been counted out and
are not yet replaced. -/
structure Pool where
  server : State
  started : ℕ
  ended : ℕ

namespace Pool

inductive Action where
  | server (a : Server.Action)
  | replace

def init (cfg : Config) : Pool :=
  ⟨(State.init cfg).withThreads (fun _ => .absent) cfg.maxConnections, 0, 0⟩

section

variable (p : Pool)

/-- A thread is started that is not a replacement. -/
def startFirst (st : Stage) : Pool := ⟨p.server.setStage p.started st, p.started + 1, p.ended⟩

/-- A thread is started for one that has been counted out. -/
def startNext (st : Stage) : Pool :=
  ⟨{ p.server with spawned := p.server.spawned + 1 }.setStage p.server.spawned st, p.started,
    p.ended - 1⟩

/-- `execute`: a new thread for the task when fewer are running than there are connections. -/
def execute (cfg : Config) (task : Task) : Pool :=
  if p.started < cfg.maxConnections then p.startFirst (.reading task)
  else if 0 < p.ended then p.startNext (.reading task)
  else { p with server := { p.server with workQueue := p.server.workQueue ++ [task] } }

/-- One more client is counted. -/
def count : Pool := { p with server := { p.server with accepted := p.server.accepted + 1 } }

/-- The main thread accepts the next client and gives it to the pool. -/
def accept (cfg : Config) : Option Pool :=
  cfg.clients[p.server.accepted]?.map fun c => p.count.execute cfg ⟨p.server.accepted, c⟩

/-- The step has ended its thread, which is counted out; the thread that `die` starts for it is not
there yet. -/
def countOut (s : State) : Pool :=
  ⟨s.withThreads (Function.update s.stage p.server.spawned .absent) p.server.spawned, p.started,
    p.ended + 1⟩

/-- The pool after a step of a thread. -/
def settle (s : State) : Pool :=
  if s.spawned = p.server.spawned then { p with server := s } else p.countOut s

end

def step (cfg : Config) (p : Pool) : Action → Option Pool
  | .server .accept => p.accept cfg
  | .server a => (Server.step cfg p.server a).map p.settle
  | .replace => if 0 < p.ended then some (p.startNext .idle) else none

/-- A task that gets a new thread has no other waiting before it. -/
def InOrder (cfg : Config) (p : Pool) : Action → Prop
  | .server .accept => cfg.maxConnections ≤ p.started → 0 < p.ended → p.server.workQueue = []
  | _ => True

/-- No worker fails while it holds the lock of a page. -/
def KeepsLocks (p : Pool) : Action → Prop
  | .server a => Server.KeepsLocks p.server a
  | .replace => True

/-- The step is not a failure. -/
def NoFailure (p : Pool) : Action → Prop
  | .server a => Server.NoFailure p.server a
  | .replace => True

/-! ## The server with all its threads -/

/-- The thread has not been started yet. -/
def Waits (cfg : Config) (p : Pool) (t : ℕ) : Prop :=
  p.started ≤ t ∧ t < cfg.maxConnections ∨
    p.server.spawned ≤ t ∧ t < p.server.spawned + p.ended

instance (cfg : Config) (p : Pool) (t : ℕ) : Decidable (p.Waits cfg t) :=
  inferInstanceAs (Decidable (_ ∨ _))

/-- The same server when the threads that have not been started yet wait for a task. -/
def full (cfg : Config) (p : Pool) : State :=
  p.server.withThreads (fun t => if p.Waits cfg t then .idle else p.server.stage t)
    (p.server.spawned + p.ended)

/-- What the step is for the server with all its threads: a task that gets a new thread is queued
and taken, and a replacement is there already. -/
def shown (cfg : Config) (p : Pool) : Action → List Server.Action
  | .server .accept =>
    if p.started < cfg.maxConnections then [.accept, .worker p.started]
    else if 0 < p.ended then [.accept, .worker p.server.spawned]
    else [.accept]
  | .server a => [a]
  | .replace => []

/-- The names of threads that have not been started are free, and no task is queued as long as there
is a first thread to start. -/
structure Ready (cfg : Config) (p : Pool) : Prop where
  started_le : p.started ≤ cfg.maxConnections
  le_spawned : cfg.maxConnections ≤ p.server.spawned
  absent : ∀ t, p.started ≤ t ∧ t < cfg.maxConnections ∨ p.server.spawned ≤ t →
    p.server.stage t = .absent
  queue : p.started < cfg.maxConnections → p.server.workQueue = []

variable {p : Pool}

theorem Ready.init : Ready cfg (Pool.init cfg) where
  started_le := Nat.zero_le _
  le_spawned := le_refl _
  absent _ _ := rfl
  queue _ := rfl

/-- A server that differs from that of the pool only in the threads that wait. -/
theorem full_eq {s : State} (hshared : s = p.server.withThreads s.stage s.spawned)
    (hstage : ∀ t, s.stage t = if p.Waits cfg t then .idle else p.server.stage t)
    (hspawned : s.spawned = p.server.spawned + p.ended) : p.full cfg = s := by
  rw [full, ← funext hstage, ← hspawned]
  exact hshared.symm

theorem full_init : (Pool.init cfg).full cfg = State.init cfg := by
  refine full_eq rfl (fun t => ?_) rfl
  have hwaits : (Pool.init cfg).Waits cfg t ↔ t < cfg.maxConnections := by
    simp only [Waits, Pool.init, State.withThreads]
    omega
  simp only [hwaits, State.init]
  rfl

theorem Ready.full_stage (h : Ready cfg p) (ht : p.server.stage t ≠ .absent) :
    (p.full cfg).stage t = p.server.stage t := by
  refine if_neg fun hwaits => ht (h.absent t ?_)
  exact hwaits.imp_right And.left

/-- The stages when one of the waiting threads has been given a place. -/
theorem full_stage_of_started {q : Pool} {st : Stage}
    (hwaits : ∀ u, q.Waits cfg u ↔ p.Waits cfg u ∧ u ≠ t)
    (hstage : q.server.stage = Function.update p.server.stage t st) (u : ℕ) :
    Function.update (p.full cfg).stage t st u =
      if q.Waits cfg u then .idle else q.server.stage u := by
  rw [hstage]
  by_cases hu : u = t
  · subst hu
    rw [Function.update_self, Function.update_self, if_neg fun h => ((hwaits u).1 h).2 rfl]
  · rw [Function.update_of_ne hu, Function.update_of_ne hu]
    exact if_congr (by simp [hwaits, hu]) rfl rfl

theorem full_startFirst (h : Ready cfg p) (hlt : p.started < cfg.maxConnections) (st : Stage) :
    (p.startFirst st).full cfg = (p.full cfg).setStage p.started st := by
  have hle := h.le_spawned
  refine full_eq rfl (full_stage_of_started (fun u => ?_) rfl) rfl
  simp only [Waits, startFirst, State.setStage]
  omega

theorem full_startNext (h : Ready cfg p) (hended : 0 < p.ended) (st : Stage) :
    (p.startNext st).full cfg = (p.full cfg).setStage p.server.spawned st := by
  have hle := h.le_spawned
  refine full_eq rfl (full_stage_of_started (fun u => ?_) rfl) ?_
  · simp only [Waits, startNext, State.setStage]
    omega
  · show p.server.spawned + p.ended = p.server.spawned + 1 + (p.ended - 1)
    omega

theorem Ready.count (h : Ready cfg p) : Ready cfg p.count :=
  ⟨h.started_le, h.le_spawned, h.absent, h.queue⟩

/-- A task that no other waits before is queued and taken by a thread that waits. -/
theorem run_accept_take {c : Client} (next : cfg.clients[p.server.accepted]? = some c)
    (hqueue : p.server.workQueue = []) (hwaits : p.Waits cfg t) :
    run (Server.step cfg) (p.full cfg) [.accept, .worker t] =
      some ((p.count.full cfg).setStage t (.reading ⟨p.server.accepted, c⟩)) := by
  have haccept : Step cfg (p.full cfg) .accept
      { p.full cfg with
        accepted := p.server.accepted + 1, workQueue := [⟨p.server.accepted, c⟩] } := by
    have hstep := @Step.accept cfg (p.full cfg) c next
    rwa [show (p.full cfg).workQueue = [] from hqueue] at hstep
  refine run_cons_iff.2 ⟨_, step_of_rule haccept, run_cons_iff.2 ⟨_,
    step_of_rule (.take (if_pos hwaits) rfl), ?_⟩⟩
  simp only [full, count, State.withThreads, State.setStage, hqueue]
  rfl

theorem Ready.startFirst (h : Ready cfg p) (hlt : p.started < cfg.maxConnections) (st : Stage) :
    Ready cfg (p.startFirst st) where
  started_le := hlt
  le_spawned := h.le_spawned
  absent u hu := by
    have hle := h.le_spawned
    have hu' : p.started + 1 ≤ u ∧ u < cfg.maxConnections ∨ p.server.spawned ≤ u := hu
    have hne : u ≠ p.started := by omega
    exact (Function.update_of_ne hne _ _).trans (h.absent u (by omega))
  queue _ := h.queue hlt

theorem Ready.startNext (h : Ready cfg p) (st : Stage) : Ready cfg (p.startNext st) where
  started_le := h.started_le
  le_spawned := h.le_spawned.trans (Nat.le_succ _)
  absent u hu := by
    have hle := h.le_spawned
    have hu' : p.started ≤ u ∧ u < cfg.maxConnections ∨ p.server.spawned + 1 ≤ u := hu
    have hne : u ≠ p.server.spawned := by omega
    exact (Function.update_of_ne hne _ _).trans (h.absent u (by omega))
  queue := h.queue

/-- The main thread accepts a client, and its task does not overtake another. -/
theorem accept_refines (h : Ready cfg p) (hin : p.InOrder cfg (.server .accept)) {p' : Pool}
    (hs : p.accept cfg = some p') :
    Ready cfg p' ∧
      run (Server.step cfg) (p.full cfg) (p.shown cfg (.server .accept)) = some (p'.full cfg) := by
  obtain ⟨c, next, rfl⟩ := Option.map_eq_some_iff.1 hs
  unfold execute shown
  by_cases hlt : p.started < cfg.maxConnections
  · have hlt' : p.count.started < cfg.maxConnections := hlt
    have hwaits : p.Waits cfg p.started := Or.inl ⟨le_refl _, hlt⟩
    rw [if_pos hlt', if_pos hlt, run_accept_take next (h.queue hlt) hwaits]
    exact ⟨h.count.startFirst hlt' _, congrArg some (full_startFirst h.count hlt' _).symm⟩
  · have hlt' : ¬ p.count.started < cfg.maxConnections := hlt
    rw [if_neg hlt', if_neg hlt]
    by_cases hended : 0 < p.ended
    · have hended' : 0 < p.count.ended := hended
      have hqueue := hin (not_lt.1 hlt) hended
      have hwaits : p.Waits cfg p.server.spawned := Or.inr ⟨le_refl _, by omega⟩
      rw [if_pos hended', if_pos hended, run_accept_take next hqueue hwaits]
      exact ⟨h.count.startNext _, congrArg some (full_startNext h.count hended' _).symm⟩
    · have hended' : ¬ 0 < p.count.ended := hended
      rw [if_neg hended', if_neg hended]
      refine ⟨⟨h.started_le, h.le_spawned, h.absent, fun hlt' => absurd hlt' hlt⟩, ?_⟩
      exact run_cons_iff.2 ⟨_, step_of_rule (.accept next), rfl⟩

theorem settle_die (p : Pool) (t : ℕ) : p.settle (p.server.die t) = p.countOut (p.server.die t) :=
  if_neg (Nat.succ_ne_self _)

theorem countOut_stage (p : Pool) (t : ℕ) {u : ℕ} (hu : u ≠ p.server.spawned) :
    (p.countOut (p.server.die t)).server.stage u = Function.update p.server.stage t .dead u := by
  show Function.update (p.server.die t).stage p.server.spawned .absent u = _
  rw [Function.update_of_ne hu, die_stage, Function.update_of_ne hu]

/-- The replacement of a thread that has ended waits. -/
theorem full_countOut (hlt : t < p.server.spawned)
    (hnot : ¬ (p.started ≤ t ∧ t < cfg.maxConnections)) :
    (p.countOut (p.server.die t)).full cfg = (p.full cfg).die t := by
  have hwaits : ∀ u, (p.countOut (p.server.die t)).Waits cfg u ↔
      p.Waits cfg u ∨ u = p.server.spawned + p.ended := by
    intro u
    simp only [Waits, countOut, State.withThreads]
    omega
  refine full_eq rfl (fun u => ?_) (Nat.add_assoc _ _ _)
  show Function.update (Function.update (p.full cfg).stage t .dead) (p.server.spawned + p.ended)
    .idle u = _
  by_cases hlast : u = p.server.spawned + p.ended
  · rw [if_pos ((hwaits u).2 (Or.inr hlast)), hlast, Function.update_self]
  · rw [Function.update_of_ne hlast]
    by_cases hin : p.Waits cfg u
    · have hu : u ≠ t := by
        rintro rfl
        unfold Waits at hin
        omega
      rw [if_pos ((hwaits u).2 (Or.inl hin)), Function.update_of_ne hu]
      exact if_pos hin
    · have hspawned : u ≠ p.server.spawned := by
        unfold Waits at hin
        omega
      rw [if_neg fun h => ((hwaits u).1 h).elim hin hlast, countOut_stage p t hspawned]
      by_cases hu : u = t
      · subst hu
        rw [Function.update_self, Function.update_self]
      · rw [Function.update_of_ne hu, Function.update_of_ne hu]
        exact if_neg hin

/-- The step of a thread, and what is left when it has ended. -/
theorem settle_refines (h : Ready cfg p) {a : Server.Action} {s : State}
    (hs : Server.step cfg p.server a = some s) (hthread : a.thread? = some t) :
    Ready cfg (p.settle s) ∧ Server.step cfg (p.full cfg) a = some ((p.settle s).full cfg) := by
  have hpresent := stage_ne_absent hs hthread
  have hnot : ¬ (p.started ≤ t ∧ t < cfg.maxConnections ∨ p.server.spawned ≤ t) :=
    fun hwaits => hpresent (h.absent t hwaits)
  have hqueue := fun hlt => queue_of_thread (step_cases hs) hthread (h.queue hlt)
  rcases (step_cases hs).withThreads hthread (h.full_stage hpresent)
      (p.server.spawned + p.ended) with ⟨st, hst, hspawned, hstep⟩ | ⟨rfl, hstep⟩
  · rw [settle, if_pos hspawned]
    refine ⟨⟨h.started_le, hspawned ▸ h.le_spawned, fun u hu => ?_, hqueue⟩,
      (step_of_rule hstep).trans (congrArg some (full_eq rfl ?_ ?_).symm)⟩
    · rw [hspawned] at hu
      have hne : u ≠ t := by
        rintro rfl
        exact hnot hu
      rw [hst, Function.update_of_ne hne, h.absent u hu]
    · refine full_stage_of_started (fun u => ?_) hst
      simp only [Waits, hspawned]
      omega
    · rw [hspawned]
      rfl
  · rw [settle_die]
    refine ⟨⟨h.started_le, h.le_spawned, fun u hu => ?_, hqueue⟩,
      (step_of_rule hstep).trans (congrArg some (full_countOut ?_ ?_).symm)⟩
    · have hne : u ≠ t := by
        rintro rfl
        exact hnot hu
      by_cases hu' : u = p.server.spawned
      · exact hu' ▸ Function.update_self _ _ _
      · rw [countOut_stage p t hu', Function.update_of_ne hne, h.absent u hu]
    · omega
    · omega

theorem step_refines (h : Ready cfg p) {a : Action} (hin : p.InOrder cfg a) {p' : Pool}
    (hs : p.step cfg a = some p') :
    Ready cfg p' ∧ run (Server.step cfg) (p.full cfg) (p.shown cfg a) = some (p'.full cfg) := by
  cases a with
  | server a =>
    cases a with
    | accept => exact accept_refines h hin hs
    | worker t | ioError t | readError t =>
      obtain ⟨s, hstep, rfl⟩ := Option.map_eq_some_iff.1 hs
      obtain ⟨hready, hfull⟩ := settle_refines h hstep rfl
      exact ⟨hready, run_cons_iff.2 ⟨_, hfull, rfl⟩⟩
  | replace =>
    unfold step at hs
    split_ifs at hs with hended
    obtain rfl := Option.some.inj hs
    have hwaits : p.Waits cfg p.server.spawned := Or.inr ⟨le_refl _, by omega⟩
    refine ⟨h.startNext _, congrArg some ?_⟩
    rw [full_startNext h hended, State.setStage, Function.update_eq_self_iff.2 (if_pos hwaits).symm]

theorem shown_keepsLocks (h : Ready cfg p) {a : Action} (hkeeps : p.KeepsLocks a) {p' : Pool}
    (hs : p.step cfg a = some p') :
    Meets (Server.step cfg) Server.KeepsLocks (p.full cfg) (p.shown cfg a) := by
  cases a with
  | server a =>
    cases a with
    | accept =>
      unfold shown
      split_ifs
      · exact ⟨trivial, fun _ _ => ⟨trivial, fun _ _ => trivial⟩⟩
      · exact ⟨trivial, fun _ _ => ⟨trivial, fun _ _ => trivial⟩⟩
      · exact ⟨trivial, fun _ _ => trivial⟩
    | worker t => exact ⟨trivial, fun _ _ => trivial⟩
    | ioError t | readError t =>
      obtain ⟨s, hstep, -⟩ := Option.map_eq_some_iff.1 hs
      have hserving : (p.full cfg).serving t = p.server.serving t :=
        congrArg (Stage.page? _) (h.full_stage (stage_ne_absent hstep rfl))
      refine ⟨?_, fun _ _ => trivial⟩
      show ((p.full cfg).serving t).all PageHandler.exempt = true
      rw [hserving]
      exact hkeeps
  | replace => trivial

/-- Where the threads of the pool cannot go on, those that have not been started have no task to
take. -/
theorem Ready.stuck_full (h : Ready cfg p) (hstuck : ∀ a, p.NoFailure a → p.step cfg a = none)
    {a : Server.Action} (ha : Server.NoFailure (p.full cfg) a) :
    Server.step cfg (p.full cfg) a = none := by
  have hended : p.ended = 0 := by
    by_contra hne
    have hreplace := hstuck .replace trivial
    rw [step, if_pos (Nat.pos_of_ne_zero hne)] at hreplace
    cases hreplace
  cases a with
  | accept =>
    have haccept := hstuck (.server .accept) trivial
    have hnone := Option.map_eq_none_iff.1 (show p.accept cfg = none from haccept)
    exact Option.map_eq_none_iff.2 hnone
  | worker t =>
    by_contra hne
    obtain ⟨s, hs⟩ := Option.ne_none_iff_exists'.1 hne
    by_cases hwaits : p.Waits cfg t
    · have hidle : (p.full cfg).stage t = .idle := if_pos hwaits
      have hqueue : (p.full cfg).workQueue = [] := by
        refine h.queue ?_
        unfold Waits at hwaits
        omega
      simp [Server.step, State.work, hidle, hqueue] at hs
    · have hstage : p.server.stage t = (p.full cfg).stage t := (if_neg hwaits).symm
      have hthread := hstuck (.server (.worker t)) trivial
      have hnone := Option.map_eq_none_iff.1 (show (Server.step cfg p.server _).map _ = none from
        hthread)
      rcases (step_cases hs).withThreads rfl hstage p.server.spawned with ⟨st, -, -, hstep⟩ |
        ⟨-, hstep⟩
      · rw [show (p.full cfg).withThreads p.server.stage p.server.spawned = p.server from rfl]
          at hstep
        rw [step_of_rule hstep] at hnone
        cases hnone
      · rw [show (p.full cfg).withThreads p.server.stage p.server.spawned = p.server from rfl]
          at hstep
        rw [step_of_rule hstep] at hnone
        cases hnone
  | ioError | readError => exact ha.elim

/-- The steps of the server with all its threads. -/
def serverActions (cfg : Config) (as : List Action) : List Server.Action :=
  trace (step cfg) (shown cfg) (init cfg) as

instance (cfg : Config) (p : Pool) : (a : Action) → Decidable (p.InOrder cfg a)
  | .server .accept => inferInstanceAs (Decidable (_ → _ → _))
  | .server (.worker _) | .server (.ioError _) | .server (.readError _) | .replace => isTrue trivial

end Pool

/-- A pool that starts its threads as it needs them, replaces the threads that have ended at any
later time, and lets no task overtake another: in every run, with any clients and any failures, the
server has done what it does with all its threads from the start, without a failure of a worker that
holds the lock of a page when the pool has none; and where the threads of the pool can not go on, it
can not go on with all its threads either. -/
theorem pool_refines (cfg : Config) (as : List Pool.Action) (p : Pool)
    (hm : Meets (Pool.step cfg) (Pool.InOrder cfg) (Pool.init cfg) as)
    (h : run (Pool.step cfg) (Pool.init cfg) as = some p) :
    run (step cfg) (State.init cfg) (Pool.serverActions cfg as) = some (p.full cfg) ∧
      (Meets (Pool.step cfg) Pool.KeepsLocks (Pool.init cfg) as →
        Meets (step cfg) KeepsLocks (State.init cfg) (Pool.serverActions cfg as)) ∧
      ((∀ a, p.NoFailure a → p.step cfg a = none) →
        ∀ a, NoFailure (p.full cfg) a → step cfg (p.full cfg) a = none) := by
  have hrun : run (step cfg) ((Pool.init cfg).full cfg) (Pool.serverActions cfg as) =
      some (p.full cfg) :=
    run_refines (f := Pool.full cfg) (fun p a p' hp hin hs => Pool.step_refines hp hin hs)
      Pool.Ready.init hm h
  have hready : Pool.Ready cfg p :=
    guarded_run_invariant (fun p a p' hp hin hs => (Pool.step_refines hp hin hs).1)
      Pool.Ready.init hm h
  rw [Pool.full_init] at hrun
  refine ⟨hrun, fun hkeeps => ?_, fun hstuck a ha => hready.stuck_full hstuck ha⟩
  have hmeets : Meets (step cfg) KeepsLocks ((Pool.init cfg).full cfg)
      (Pool.serverActions cfg as) :=
    meets_refines (f := Pool.full cfg)
      (fun p a p' hp hg hs =>
        have hstep := Pool.step_refines hp hg.1 hs
        ⟨hstep.1, hstep.2, Pool.shown_keepsLocks hp hg.2 hs⟩)
      Pool.Ready.init (hm.and hkeeps) h
  rwa [Pool.full_init] at hmeets

/-- A client that sends nothing, and two that ask for the root; one thread serves them. -/
def silentFirst : Config := ⟨sampleFiles, [⟨[], .endOfStream, []⟩, getRoot, getRoot], 1⟩

/-- The first request ends its thread, and the replacement answers the second one. -/
def replacedRun : List Pool.Action :=
  [.server .accept, .server (.worker 0), .replace, .server .accept] ++
    List.replicate 22 (.server (.worker 1))

theorem pool_refines_replacedRun :
    ∃ p, run (Pool.step silentFirst) (Pool.init silentFirst) replacedRun = some p ∧
      run (step silentFirst) (State.init silentFirst)
        (Pool.serverActions silentFirst replacedRun) = some (p.full silentFirst) ∧
      (p.full silentFirst).sent 1 = (alone sampleFiles getRoot).sent := by
  have hrun : (run (Pool.step silentFirst) (Pool.init silentFirst) replacedRun).any (fun p =>
      (p.full silentFirst).sent 1 = (alone sampleFiles getRoot).sent) = true := by
    decide +kernel
  obtain ⟨p, hp, hsent⟩ := (Option.any_eq_true _ _).1 hrun
  exact ⟨p, hp, (pool_refines silentFirst replacedRun p (by decide +kernel) hp).1,
    of_decide_eq_true hsent⟩

/-- The third client comes when the only thread has ended: its task gets the new thread, and the
second one still waits. -/
def overtakingRun : List Pool.Action :=
  [.server .accept, .server .accept, .server (.worker 0), .server .accept]

example : ((run (Pool.step silentFirst) (Pool.init silentFirst) overtakingRun).map fun p =>
    ((p.server.stage 1).number?, p.server.workQueue.map Task.number)) = some (some 2, [1]) := by
  decide +kernel

end Server
