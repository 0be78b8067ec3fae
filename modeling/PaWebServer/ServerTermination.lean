import PaWebServer.Lib.Tally
import PaWebServer.ServerInvariant

/-!
# Every run of the server ends

Each step of the server, a failure or not, leaves less to do (`work_lt_of_step`), so that a run
serves its clients in a bounded number of steps (`length_le_of_run`).
-/

namespace Server

open FileTree RequestHandler RequestThread PageHandler Transition Tally

variable {cfg : Config} {s s' : State} {a : Action} {t : ℕ}

/-! ## What is left to do -/

/-- A bound on the steps of a thread at this stage, without those of a call of the page handler. -/
def Stage.work : Stage → ℕ
  | .absent | .idle | .dead => 0
  | .reading _ => 21
  | .resolving _ _ _ => 20
  | .locking _ => 15
  | .loading _ => 14
  | .sending _ rest => rest.length + 5
  | .unlocking _ => 2
  | .logging _ => 1

/-- The steps that are left in a call of the page handler. -/
def callWork : Call → ℕ
  | .idle | .threw => 0
  | .putIfAbsent _ => 4
  | .getToLock _ => 3
  | .lock _ _ => 2
  | .parked _ _ => 1
  | .getToUnlock _ => 2
  | .unlock _ _ => 1

/-- A bound on the steps that are left. -/
def work (cfg : Config) (s : State) : ℕ :=
  23 * (cfg.clients.length - s.accepted) + 22 * s.workQueue.length +
    total s.spawned Stage.work s.stage + total s.spawned callWork s.pages.call

theorem callWork_lt_of_advance {p p' : PageHandler.State ℕ} (h : p.advance t = some p') :
    callWork (p'.call t) < callWork (p.call t) := by
  cases PageHandler.step_cases (a := .advance t) h with
  | putIfAbsent at_ | getToLock at_ | getToLockNull at_ | reenter at_ | park at_ | grant at_
  | getToUnlock at_ | getToUnlockNull at_ | unlock at_ | unlockIllegal at_ =>
    simp [at_, callWork]

/-- A thread goes on, in its own code or in a call of the page handler. -/
theorem work_lt_of_stage (hlt : t < s.spawned) {st : Stage}
    (hstage : s'.stage = Function.update s.stage t st) (hspawned : s'.spawned = s.spawned)
    (haccepted : s'.accepted = s.accepted) (hqueue : s'.workQueue = s.workQueue)
    (hcalls : ∀ u, u ≠ t → s'.pages.call u = s.pages.call u)
    (hless : st.work + callWork (s'.pages.call t) <
      (s.stage t).work + callWork (s.pages.call t)) : work cfg s' < work cfg s := by
  have hcall : s'.pages.call = Function.update s.pages.call t (s'.pages.call t) := by
    funext u
    by_cases hu : u = t
    · rw [hu, Function.update_self]
    · rw [hcalls u hu, Function.update_of_ne hu]
  have hstages := total_update hlt Stage.work s.stage st
  have hcallsum := total_update hlt callWork s.pages.call (s'.pages.call t)
  unfold work
  rw [hstage, hspawned, haccepted, hqueue, hcall]
  omega

/-- A thread goes on in its own code. -/
theorem work_lt_of_stage_only (hlt : t < s.spawned) {st : Stage}
    (hstage : s'.stage = Function.update s.stage t st) (hspawned : s'.spawned = s.spawned)
    (haccepted : s'.accepted = s.accepted) (hqueue : s'.workQueue = s.workQueue)
    (hpages : s'.pages = s.pages) (hless : st.work < (s.stage t).work) :
    work cfg s' < work cfg s :=
  work_lt_of_stage hlt hstage hspawned haccepted hqueue (fun u _ => by rw [hpages])
    (by rw [hpages]; omega)

/-- The thread that takes the place of an ended one has nothing to do yet. -/
theorem work_lt_of_die (hc : Coordinated cfg s) (hlt : t < s.spawned)
    (hpos : 0 < (s.stage t).work) : work cfg (s.die t) < work cfg s := by
  have hidle : s.pages.call s.spawned = .idle := by
    simpa [hc.absent _ le_rfl, Stage.Fits] using hc.fits s.spawned
  have hstages : total (s.spawned + 1) Stage.work (s.die t).stage + (s.stage t).work =
      total s.spawned Stage.work s.stage + 0 + 0 :=
    total_update_succ hlt Stage.work s.stage .dead .idle
  have hcalls : total (s.spawned + 1) callWork s.pages.call =
      total s.spawned callWork s.pages.call := by
    unfold total
    rw [Finset.sum_range_succ, hidle]
    rfl
  show 23 * (cfg.clients.length - s.accepted) + 22 * s.workQueue.length +
    total (s.spawned + 1) Stage.work (s.die t).stage +
      total (s.spawned + 1) callWork s.pages.call < work cfg s
  unfold work
  omega

theorem work_lt_of_step (hc : Coordinated cfg s) (hs : step cfg s a = some s') :
    work cfg s' < work cfg s := by
  have hlt {t : ℕ} (h : s.stage t ≠ .absent) : t < s.spawned := by
    by_contra hge
    exact h (hc.absent t (by omega))
  cases step_cases hs with
  | @accept c next =>
    have : s.accepted < cfg.clients.length := (List.getElem?_eq_some_iff.1 next).1
    show 23 * (cfg.clients.length - (s.accepted + 1)) +
      22 * (s.workQueue ++ [(⟨s.accepted, c⟩ : Task)]).length + total s.spawned Stage.work s.stage +
        total s.spawned callWork s.pages.call < work cfg s
    unfold work
    rw [List.length_append, List.length_singleton]
    omega
  | @take t task q at_ queue =>
    have hstages := total_update (hlt (t := t) (by simp [at_])) Stage.work s.stage (.reading task)
    have hold : (s.stage t).work = 0 := by rw [at_]; rfl
    have hnew : Stage.work (.reading task) = 21 := rfl
    show 23 * (cfg.clients.length - s.accepted) + 22 * q.length +
      total s.spawned Stage.work (Function.update s.stage t (.reading task)) +
        total s.spawned callWork s.pages.call < work cfg s
    unfold work
    rw [queue, List.length_cons]
    omega
  | giveUp at_ | parsed at_ | log at_ | readFails at_ | sendFails at_ | loaded at_ | send at_ =>
    refine work_lt_of_stage_only (hlt (by simp [at_])) rfl rfl rfl rfl rfl ?_
    simp [at_, Stage.work, responseChunks]
  | locked at_ | unlocked at_ =>
    exact work_lt_of_stage_only (hlt (by simp [at_])) rfl rfl rfl rfl rfl
      (by simp [at_, Stage.work])
  | readNull at_ | unresolved at_ | unreadable at_ | loadFails at_ =>
    exact work_lt_of_die hc (hlt (by simp [at_])) (by simp [at_, Stage.work])
  | threw at_ =>
    rcases at_ with at_ | at_ <;>
      exact work_lt_of_die hc (hlt (by simp [at_])) (by simp [at_, Stage.work])
  | @advance t j p at_ call =>
    have hne : s.stage t ≠ .absent := by rcases at_ with at_ | at_ <;> simp [at_]
    have hsame : s.stage = Function.update s.stage t (s.stage t) := by simp
    refine work_lt_of_stage (hlt hne) hsame rfl rfl rfl
      (fun u hu => (step_frame (a := .advance t) call hu).1) ?_
    have := callWork_lt_of_advance call
    simp only [State.setPages]
    omega
  | @resolved t task method route url error404 p at_ res call =>
    refine work_lt_of_stage (hlt (by simp [at_])) rfl rfl rfl rfl
      (fun u hu => (step_frame (a := .lockAccessPage t url) call hu).1) ?_
    have hcall : callWork (p.call t) ≤ 4 := by
      rcases hp : p.call t <;> simp [callWork]
    simp only [at_, Stage.work, State.setStage, State.setPages]
    omega
  | @flush t j p at_ call =>
    refine work_lt_of_stage (hlt (by simp [at_])) rfl rfl rfl rfl
      (fun u hu => (step_frame (a := .unlockAccessPage t j.httpUrl) call hu).1) ?_
    have hcall : callWork (p.call t) ≤ 2 := by
      rcases unlockAccessPage_cases call with ⟨hidle, -⟩ | ⟨hunlock, -⟩
      · simp [hidle, callWork]
      · rcases hp : p.call t <;> simp_all [callWork, Call.unlocking?]
    simp only [at_, Stage.work, State.setStage, State.setPages, List.length_nil]
    omega

theorem work_init (cfg : Config) : work cfg (State.init cfg) = 23 * cfg.clients.length := by
  have hstages : total (State.init cfg).spawned Stage.work (State.init cfg).stage = 0 := by
    refine total_eq_zero_iff.2 fun t _ => ?_
    simp only [State.init]
    split_ifs <;> rfl
  have hcalls : total (State.init cfg).spawned callWork (State.init cfg).pages.call = 0 :=
    total_eq_zero_iff.2 fun _ _ => rfl
  unfold work
  rw [hstages, hcalls]
  rfl

/-- However the threads are scheduled, whatever the clients send and whatever fails: the steps that
have been made and those that are left are at most 23 for each client. -/
theorem length_add_work_le_of_run {as : List Action}
    (h : run (step cfg) (State.init cfg) as = some s) :
    as.length + work cfg s ≤ 23 * cfg.clients.length := by
  have := length_add_le_of_run (work cfg)
    (fun _ _ _ hc hs => ⟨Coordinated.of_step hc hs, work_lt_of_step hc hs⟩) Coordinated.init h
  rwa [work_init] at this

theorem length_le_of_run {as : List Action} (h : run (step cfg) (State.init cfg) as = some s) :
    as.length ≤ 23 * cfg.clients.length :=
  (Nat.le_add_right _ _).trans (length_add_work_le_of_run h)

/-- A run of the greatest length leaves nothing to do. -/
theorem step_eq_none_of_length {as : List Action}
    (h : run (step cfg) (State.init cfg) as = some s)
    (hlength : as.length = 23 * cfg.clients.length) (a : Action) : step cfg s a = none := by
  have hle := length_add_work_le_of_run h
  cases hs : step cfg s a with
  | none => rfl
  | some s' =>
    have := work_lt_of_step (coordinated_of_run h) hs
    omega

end Server
