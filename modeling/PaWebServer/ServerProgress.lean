import PaWebServer.ServerLocks
import PaWebServer.ServerTermination

/-!
# The server answers every request as if it were alone

When nothing fails, a worker that waits for a page waits behind one that can go on
(`exists_enabled`), each request is at one place (`Progress`), and its client receives the bytes
that it would receive from a run of its own.
-/

namespace Server

open FileTree RequestHandler RequestThread PageHandler Transition Tally

variable {cfg : Config} {s s' : State} {a : Action} {t u : ℕ}

/-! ## A worker that can go on -/

/-- A call of the page handler waits only in the queue of a lock. -/
theorem advance_ne_none {p : PageHandler.State ℕ} (hidle : p.call t ≠ .idle)
    (hthrew : p.call t ≠ .threw) (hparked : ∀ page l, p.call t ≠ .parked page l) :
    p.advance t ≠ none := by
  unfold PageHandler.State.advance
  split <;> (try split) <;> simp_all

theorem inCall_ne_none {next : Stage} (hparked : ∀ page l, s.pages.call t ≠ .parked page l) :
    s.inCall t next ≠ none := by
  unfold State.inCall
  split
  · simp
  · simp
  · simpa using advance_ne_none ‹_› ‹_› hparked

/-- A worker with a request can go on when it does not wait for a lock. -/
theorem work_ne_none (h : Coordinated cfg s) (hst : ¬ (s.stage t = .absent ∨ s.stage t = .dead ∨
    s.stage t = .idle)) (hparked : ∀ page l, s.pages.call t ≠ .parked page l) :
    s.work t cfg.fs ≠ none := by
  have hfits := h.fits t
  unfold State.work
  cases hstage : s.stage t with
  | absent | dead | idle => simp [hstage] at hst
  | reading task =>
    simp only
    split <;> (try split) <;> simp
  | resolving task method route =>
    simp only
    split
    · rw [hstage] at hfits
      have hidle : s.pages.call t = .idle := hfits
      unfold PageHandler.State.lockAccessPage
      rw [if_pos hidle]
      split_ifs <;> simp
    · simp
    · simp
  | locking j => exact inCall_ne_none hparked
  | loading j =>
    simp only
    split <;> simp
  | sending j rest =>
    cases rest with
    | nil =>
      rw [hstage] at hfits
      have hidle : s.pages.call t = .idle := hfits
      unfold PageHandler.State.unlockAccessPage
      simp only
      rw [if_pos hidle]
      split_ifs <;> simp
    | cons b bs => simp
  | unlocking j => exact inCall_ne_none hparked
  | logging j => simp

/-- A thread that serves a page has a request and does not wait for a lock. -/
theorem work_ne_none_of_serving (h : Coordinated cfg s) {page : Page}
    (hserving : s.serving t = some page) : s.work t cfg.fs ≠ none := by
  have hfits := h.fits t
  apply work_ne_none h
  · rintro (hst | hst | hst) <;> simp [State.serving, hst, Stage.page?] at hserving
  · intro q l hcall
    cases hst : s.stage t <;> simp_all [State.serving, Stage.page?, Stage.Fits, Call.unlocking?]

/-- A thread that waits for a page waits behind a thread that can go on: the one that is serving
the page, or the first one of the queue. -/
theorem exists_work_of_parked (h : Coordinated cfg s) (hexact : Exact s) {page : Page} {l : LockId}
    (hcall : s.pages.call t = .parked page l) : ∃ u, s.work u cfg.fs ≠ none := by
  have hbound : s.pages.lockConcurrentHashMap page = some l :=
    h.pages.call_target (by rw [hcall]; rfl)
  cases howner : (s.pages.locks l).owner with
  | some u =>
    obtain ⟨q, -, hserving⟩ :=
      hexact.serving_of_holdCount h (ReentrantLock.getHoldCount_pos_iff.2 howner)
    exact ⟨u, work_ne_none_of_serving h hserving⟩
  | none =>
    have hmem : t ∈ (s.pages.lockOf page).waiting := h.pages.mem_waiting_iff.2 ⟨l, hcall⟩
    obtain ⟨u, q, hqueue⟩ := List.exists_cons_of_ne_nil (List.ne_nil_of_mem hmem)
    obtain ⟨m, hu⟩ := h.pages.mem_waiting_iff.1 (hqueue ▸ List.mem_cons_self : u ∈ _)
    have hm : s.pages.lockConcurrentHashMap page = some m :=
      h.pages.call_target (by rw [hu]; rfl)
    obtain rfl : l = m := Option.some.inj (hbound.symm.trans hm)
    rw [State.lockOf_bound hbound] at hqueue
    have hadvance : s.pages.advance u ≠ none := by
      simp [PageHandler.State.advance, hu, ReentrantLock.grant_isSome_of_head howner hqueue]
    have hfits := h.fits u
    refine ⟨u, ?_⟩
    unfold State.work State.inCall
    cases hst : s.stage u <;> simp_all [Stage.Fits, Call.unlocking?]

/-! ## Each request is at one place -/

/-- The request of the client is handled alone, and nothing fails. -/
def alone (fs : FileSystem) (c : Client) : World :=
  (exec (RequestThread.run ⟨fs, c, false, false, fun _ => false⟩) World.init).2

/-- What the client of a number gets and logs when its request is handled alone. -/
def aloneAt (cfg : Config) (i : ℕ) : World :=
  match cfg.clients[i]? with
  | some c => alone cfg.fs c
  | none => World.init

/-- The handler gives a page for the request of the client. -/
def Answered (fs : FileSystem) (c : Client) : Prop :=
  ∃ method route url error404, resolve fs c = some (method, route, ⟨some url, error404⟩)

/-- The number of the request that the thread has. -/
def Stage.number? : Stage → Option ℕ
  | .reading task | .resolving task _ _ => some task.number
  | .locking j | .loading j | .sending j _ | .unlocking j | .logging j => some j.task.number
  | .absent | .idle | .dead => none

def Stage.has (i : ℕ) (st : Stage) : ℕ := if st.number? = some i then 1 else 0

/-- What the thread has still to send to its client. -/
def Stage.unsent (cfg : Config) : Stage → Bytes
  | .reading task | .resolving task _ _ => (aloneAt cfg task.number).sent
  | .locking j | .loading j => (aloneAt cfg j.task.number).sent
  | .sending _ rest => rest.flatten
  | .unlocking _ | .logging _ | .absent | .idle | .dead => []

/-- The requests in `done` have been answered; the others that have been accepted are in the queue
or with one worker each, and with what is unsent each client gets what it would get alone. -/
structure Progress (cfg : Config) (s : State) (done : List ℕ) : Prop where
  spawned : s.spawned = cfg.maxConnections
  alive : ∀ t < cfg.maxConnections, s.stage t ≠ .absent ∧ s.stage t ≠ .dead
  accepted : s.accepted ≤ cfg.clients.length
  once : ∀ i, done.count i + (s.workQueue.map Task.number).count i +
    total cfg.maxConnections (Stage.has i) s.stage = if i < s.accepted then 1 else 0
  waiting : ∀ i, s.accepted ≤ i ∨ i ∈ s.workQueue.map Task.number → s.sent i = []
  working : ∀ t i, (s.stage t).number? = some i →
    s.sent i ++ (s.stage t).unsent cfg = (aloneAt cfg i).sent
  answered : ∀ i ∈ done, s.sent i = (aloneAt cfg i).sent
  logged : s.logged = done.flatMap fun i => (aloneAt cfg i).logged

theorem Progress.init : Progress cfg (State.init cfg) [] where
  spawned := rfl
  alive t ht := by simp [State.init, ht]
  accepted := Nat.zero_le _
  once i := by
    have hzero : total cfg.maxConnections (Stage.has i) (State.init cfg).stage = 0 := by
      refine Finset.sum_eq_zero fun t _ => ?_
      simp only [State.init]
      split_ifs <;> rfl
    rw [hzero]
    simp [State.init]
  waiting _ _ := rfl
  working t i h := by
    simp only [State.init] at h
    split_ifs at h <;> cases h
  answered i h := by cases h
  logged := rfl

/-- A worker's request has been accepted, is in nobody else's hands, and is not done. -/
theorem Progress.owns {done : List ℕ} (h : Progress cfg s done) (hc : Coordinated cfg s) {i : ℕ}
    (hi : (s.stage t).number? = some i) :
    t < cfg.maxConnections ∧ i < s.accepted ∧ i ∉ done ∧ i ∉ s.workQueue.map Task.number ∧
      ∀ u, u ≠ t → (s.stage u).number? ≠ some i := by
  have hlt : ∀ u, (s.stage u).number? = some i → u < cfg.maxConnections := by
    intro u hu
    by_contra hge
    rw [hc.absent u (by rw [h.spawned]; omega)] at hu
    cases hu
  have hhas : Stage.has i (s.stage t) = 1 := if_pos hi
  have honce := h.once i
  have hsplit := total_update (hlt t hi) (Stage.has i) s.stage .idle
  rw [hhas] at hsplit
  have hle := weight_le_total (hlt t hi) (Stage.has i) s.stage
  rw [hhas] at hle
  have hacc : i < s.accepted := by
    by_contra hge
    rw [if_neg hge] at honce
    omega
  rw [if_pos hacc] at honce
  have hidle : Stage.has i .idle = 0 := rfl
  refine ⟨hlt t hi, hacc, ?_, ?_, fun u hu hui => ?_⟩
  · rw [← List.count_eq_zero]
    omega
  · rw [← List.count_eq_zero]
    omega
  · have hother := weight_le_total (hlt u hui) (Stage.has i) (Function.update s.stage t .idle)
    rw [Function.update_of_ne hu, Stage.has, if_pos hui] at hother
    omega

theorem Task.Genuine.aloneAt {task : Task} (h : task.Genuine cfg) :
    aloneAt cfg task.number = alone cfg.fs task.client := by
  unfold Task.Genuine at h
  simp [Server.aloneAt, h]

theorem Job.Genuine.resolve {j : Job} (h : j.Genuine cfg) :
    resolve cfg.fs j.task.client = some (j.method, j.route, ⟨some j.httpUrl, j.error404⟩) := by
  obtain ⟨request, hread, hparse⟩ := h.asks
  simp [RequestThread.resolve, hread, hparse, h.resolved]

theorem Job.Genuine.alone {j : Job} (h : j.Genuine cfg) {content : Bytes}
    (hread : RequestHandler.readBinaryFile cfg.fs j.httpUrl = .ok content) :
    Server.aloneAt cfg j.task.number =
      ⟨fun _ => 0, (responseChunks content).flatten, [j.submission]⟩ := by
  rw [h.task.aloneAt, Server.alone, exec_run_succeeds rfl ⟨rfl, fun _ _ => rfl⟩ h.resolve hread]
  rfl

theorem Task.Genuine.mem {task : Task} (h : task.Genuine cfg) : task.client ∈ cfg.clients :=
  List.mem_of_getElem? h

/-- A thread that goes on to another stage does not end. -/
theorem alive_update {n : ℕ} {stage : ℕ → Stage} {st : Stage}
    (h : ∀ u < n, stage u ≠ .absent ∧ stage u ≠ .dead) (hst : st ≠ .absent ∧ st ≠ .dead) (u : ℕ)
    (hu : u < n) :
    Function.update stage t st u ≠ .absent ∧ Function.update stage t st u ≠ .dead := by
  by_cases hut : u = t
  · subst hut
    rwa [Function.update_self]
  · rw [Function.update_of_ne hut]
    exact h u hu

/-- A worker goes on with its request. -/
theorem Progress.stay {done : List ℕ} (h : Progress cfg s done) (hc : Coordinated cfg s) {i : ℕ}
    {st : Stage} (hi : (s.stage t).number? = some i) (hst : st.number? = some i)
    (hstage : s'.stage = Function.update s.stage t st) (hspawned : s'.spawned = s.spawned)
    (haccepted : s'.accepted = s.accepted) (hqueue : s'.workQueue = s.workQueue)
    (hlogged : s'.logged = s.logged) (hsent : ∀ k, k ≠ i → s'.sent k = s.sent k)
    (hunsent : s'.sent i ++ st.unsent cfg = (aloneAt cfg i).sent) : Progress cfg s' done := by
  obtain ⟨hlt, hacc, hdone, hnot, hother⟩ := h.owns hc hi
  refine ⟨hspawned.trans h.spawned, fun u hu => ?_, haccepted ▸ h.accepted, fun k => ?_,
    fun k hk => ?_, fun u k hk => ?_, fun k hk => ?_, hlogged.trans h.logged⟩
  · rw [hstage]
    have hlive : st ≠ .absent ∧ st ≠ .dead := by
      constructor <;> rintro rfl <;> cases hst
    exact alive_update h.alive hlive u hu
  · have htotal := total_update hlt (Stage.has k) s.stage st
    have hsame : Stage.has k st = Stage.has k (s.stage t) := by rw [Stage.has, hst, Stage.has, hi]
    have honce := h.once k
    rw [hstage, haccepted, hqueue]
    omega
  · rw [haccepted, hqueue] at hk
    have hki : k ≠ i := by
      rintro rfl
      rcases hk with hk | hk
      · omega
      · exact hnot hk
    rw [hsent k hki]
    exact h.waiting k hk
  · by_cases hut : u = t
    · subst hut
      rw [hstage, Function.update_self] at hk ⊢
      obtain rfl := Option.some.inj (hst.symm.trans hk)
      exact hunsent
    · rw [hstage, Function.update_of_ne hut] at hk ⊢
      have hki : k ≠ i := by
        rintro rfl
        exact hother u hut hk
      rw [hsent k hki]
      exact h.working u k hk
  · have hki : k ≠ i := by
      rintro rfl
      exact hdone hk
    rw [hsent k hki]
    exact h.answered k hk

theorem Progress.accept {done : List ℕ} (h : Progress cfg s done) {c : Client}
    (next : cfg.clients[s.accepted]? = some c) :
    Progress cfg { s with
      accepted := s.accepted + 1, workQueue := s.workQueue ++ [⟨s.accepted, c⟩] } done := by
  have hlt : s.accepted < cfg.clients.length := (List.getElem?_eq_some_iff.1 next).1
  refine ⟨h.spawned, h.alive, hlt, fun i => ?_, fun i hi => ?_, h.working, h.answered, h.logged⟩
  · have honce := h.once i
    have hcount : ((s.workQueue ++ [(⟨s.accepted, c⟩ : Task)]).map Task.number).count i =
        (s.workQueue.map Task.number).count i + if s.accepted = i then 1 else 0 := by
      simp [List.count_singleton]
    show done.count i + ((s.workQueue ++ [(⟨s.accepted, c⟩ : Task)]).map Task.number).count i +
      total cfg.maxConnections (Stage.has i) s.stage = if i < s.accepted + 1 then 1 else 0
    rw [hcount]
    by_cases hi : s.accepted = i
    · subst hi
      rw [if_neg (lt_irrefl _)] at honce
      rw [if_pos rfl, if_pos (Nat.lt_succ_self _)]
      omega
    · rw [if_neg hi]
      split_ifs at honce ⊢ <;> omega
  · apply h.waiting
    simp only [List.map_append, List.map_cons, List.map_nil, List.mem_append,
      List.mem_singleton] at hi
    rcases hi with hi | hi | hi
    · exact Or.inl (by omega)
    · exact Or.inr hi
    · exact Or.inl (by omega)

theorem Progress.take {done : List ℕ} (h : Progress cfg s done) (hc : Coordinated cfg s)
    {task : Task} {q : List Task} (at_ : s.stage t = .idle) (queue : s.workQueue = task :: q) :
    Progress cfg ({ s with workQueue := q }.setStage t (.reading task)) done := by
  have hlt : t < cfg.maxConnections := by
    by_contra hge
    have := hc.absent t (by rw [h.spawned]; omega)
    simp [at_] at this
  have hmap : s.workQueue.map Task.number = task.number :: q.map Task.number := by rw [queue]; rfl
  refine ⟨h.spawned, fun u hu => ?_, h.accepted, fun k => ?_, fun k hk => ?_, fun u k hk => ?_,
    h.answered, h.logged⟩
  · exact alive_update h.alive ⟨by simp, by simp⟩ u hu
  · have htotal := total_update hlt (Stage.has k) s.stage (.reading task)
    have hidle : Stage.has k (s.stage t) = 0 := by rw [at_]; rfl
    have honce := h.once k
    rw [hmap, List.count_cons] at honce
    have hhas : Stage.has k (.reading task) = if task.number == k then 1 else 0 := by
      simp [Stage.has, Stage.number?]
    show done.count k + (q.map Task.number).count k + total cfg.maxConnections (Stage.has k)
      (Function.update s.stage t (.reading task)) = if k < s.accepted then 1 else 0
    omega
  · apply h.waiting
    rcases hk with hk | hk
    · exact Or.inl hk
    · exact Or.inr (hmap ▸ List.mem_cons_of_mem _ hk)
  · by_cases hut : u = t
    · subst hut
      simp only [State.setStage, Function.update_self, Stage.number?] at hk ⊢
      obtain rfl := Option.some.inj hk
      have hempty : s.sent task.number = [] := h.waiting _ (Or.inr (hmap ▸ List.mem_cons_self))
      simp [Stage.unsent, hempty]
    · simp only [State.setStage, Function.update_of_ne hut] at hk ⊢
      exact h.working u k hk

theorem Progress.log {done : List ℕ} (h : Progress cfg s done) (hc : Coordinated cfg s) {j : Job}
    (at_ : s.stage t = .logging j) :
    Progress cfg ({ s with logged := s.logged ++ [j.submission] }.setStage t .idle)
      (done ++ [j.task.number]) := by
  have hi : (s.stage t).number? = some j.task.number := by rw [at_]; rfl
  obtain ⟨hlt, -, -, -, -⟩ := h.owns hc hi
  have hgenuine : j.Genuine cfg := by simpa [at_, Stage.Genuine] using hc.genuine t
  obtain ⟨content, hread⟩ := exists_content hgenuine.resolved rfl
  refine ⟨h.spawned, fun u hu => ?_, h.accepted, fun k => ?_, h.waiting, fun u k hk => ?_,
    fun k hk => ?_, ?_⟩
  · exact alive_update h.alive ⟨by simp, by simp⟩ u hu
  · have htotal := total_update hlt (Stage.has k) s.stage .idle
    have hidle : Stage.has k .idle = 0 := rfl
    have hhas : Stage.has k (s.stage t) = if j.task.number == k then 1 else 0 := by
      simp [Stage.has, hi]
    have honce := h.once k
    show (done ++ [j.task.number]).count k + (s.workQueue.map Task.number).count k +
      total cfg.maxConnections (Stage.has k) (Function.update s.stage t .idle) =
        if k < s.accepted then 1 else 0
    rw [List.count_append, List.count_singleton]
    omega
  · by_cases hut : u = t
    · subst hut
      simp [State.setStage, Stage.number?] at hk
    · simp only [State.setStage, Function.update_of_ne hut] at hk ⊢
      exact h.working u k hk
  · rcases List.mem_append.1 hk with hk | hk
    · exact h.answered k hk
    · obtain rfl := List.mem_singleton.1 hk
      have := h.working t _ hi
      rwa [at_, Stage.unsent, List.append_nil] at this
  · rw [List.flatMap_append, ← h.logged, List.flatMap_singleton, hgenuine.alone hread]
    rfl

/-- A worker goes on with its request and sends nothing. -/
theorem Progress.silent {done : List ℕ} (h : Progress cfg s done) (hc : Coordinated cfg s) {i : ℕ}
    {st : Stage} (hi : (s.stage t).number? = some i) (hst : st.number? = some i)
    (hunsent : st.unsent cfg = (s.stage t).unsent cfg)
    (hstage : s'.stage = Function.update s.stage t st) (hspawned : s'.spawned = s.spawned)
    (haccepted : s'.accepted = s.accepted) (hqueue : s'.workQueue = s.workQueue)
    (hlogged : s'.logged = s.logged) (hsent : s'.sent = s.sent) : Progress cfg s' done := by
  refine h.stay hc hi hst hstage hspawned haccepted hqueue hlogged (fun k _ => by rw [hsent]) ?_
  rw [hsent, hunsent]
  exact h.working t i hi

/-- Every client's request is one that a page answers. -/
def AllAnswered (cfg : Config) : Prop := ∀ c ∈ cfg.clients, Answered cfg.fs c

/-- The request of a task is read, parsed and resolved. -/
theorem Task.Genuine.answered {task : Task} (h : task.Genuine cfg) (hans : AllAnswered cfg) :
    ∃ request method route url error404,
      readRequest task.client.ending task.client.lines = .ok request ∧
      parse request = some (method, route) ∧
      (handleRequest cfg.fs serverRoot route).2 = .ok ⟨some url, error404⟩ := by
  obtain ⟨method, route, url, error404, hres⟩ := hans _ h.mem
  obtain ⟨request, hread, hparse, hhandle⟩ := resolve_eq_some hres
  exact ⟨request, method, route, url, error404, hread, hparse, hhandle⟩

theorem Progress.of_step {done : List ℕ} (h : Progress cfg s done) (hc : Coordinated cfg s)
    (hans : AllAnswered cfg) (ha : NoFailure s a) (hs : step cfg s a = some s') :
    ∃ done', Progress cfg s' done' := by
  cases step_cases hs with
  | accept next => exact ⟨done, h.accept next⟩
  | take at_ queue => exact ⟨done, h.take hc at_ queue⟩
  | @giveUp t task at_ read =>
    have htask : task.Genuine cfg := by simpa [at_, Stage.Genuine] using hc.genuine t
    obtain ⟨request, method, route, url, error404, hread, hparse, -⟩ := htask.answered hans
    rcases read with read | ⟨request', read, hnone⟩
    · cases read.symm.trans hread
    · obtain rfl := Except.ok.inj (read.symm.trans hread)
      cases hnone.symm.trans hparse
  | @readNull t task at_ read =>
    have htask : task.Genuine cfg := by simpa [at_, Stage.Genuine] using hc.genuine t
    obtain ⟨request, method, route, url, error404, hread, -, -⟩ := htask.answered hans
    cases read.symm.trans hread
  | @parsed t task request method route at_ =>
    have hi : (s.stage t).number? = some task.number := by rw [at_]; rfl
    exact ⟨done, h.silent hc hi rfl (by rw [at_]; rfl) rfl rfl rfl rfl rfl rfl⟩
  | @resolved t task method route url error404 p at_ =>
    have hi : (s.stage t).number? = some task.number := by rw [at_]; rfl
    exact ⟨done, h.silent hc hi rfl (by rw [at_]; rfl) rfl rfl rfl rfl rfl rfl⟩
  | @unresolved t task method route at_ res =>
    have hgenuine := hc.genuine t
    rw [at_] at hgenuine
    obtain ⟨htask, request', hread', hparse'⟩ := hgenuine
    obtain ⟨request, method', route', url, error404, hread, hparse, hhandle⟩ :=
      htask.answered hans
    obtain rfl := Except.ok.inj (hread'.symm.trans hread)
    obtain ⟨-, rfl⟩ := Prod.mk.inj (Option.some.inj (hparse'.symm.trans hparse))
    exact absurd hhandle (res url error404)
  | @locked t j at_ | @unlocked t j at_ =>
    have hi : (s.stage t).number? = some j.task.number := by rw [at_]; rfl
    exact ⟨done, h.silent hc hi rfl (by rw [at_]; rfl) rfl rfl rfl rfl rfl rfl⟩
  | @advance t j p at_ =>
    have hi : (s.stage t).number? = some j.task.number := by
      rcases at_ with at_ | at_ <;> rw [at_] <;> rfl
    exact ⟨done, h.silent hc hi hi rfl (by simp [State.setPages]) rfl rfl rfl rfl rfl⟩
  | @threw t _ _ threw => exact absurd threw (hc.pages.not_threw t)
  | @loaded t j content at_ read =>
    have hi : (s.stage t).number? = some j.task.number := by rw [at_]; rfl
    have hgenuine : j.Genuine cfg := by simpa [at_, Stage.Genuine] using hc.genuine t
    refine ⟨done, h.silent hc hi rfl ?_ rfl rfl rfl rfl rfl rfl⟩
    rw [at_]
    simp only [Stage.unsent]
    rw [hgenuine.alone read]
  | @unreadable t j e at_ read =>
    have hgenuine : j.Genuine cfg := by simpa [at_, Stage.Genuine] using hc.genuine t
    obtain ⟨content, hread⟩ := exists_content hgenuine.resolved rfl
    cases read.symm.trans hread
  | @send t j b bs at_ =>
    have hi : (s.stage t).number? = some j.task.number := by rw [at_]; rfl
    refine ⟨done, h.stay hc hi rfl rfl rfl rfl rfl rfl (fun k hk => ?_) ?_⟩
    · exact Function.update_of_ne hk _ _
    · have hworking := h.working t _ hi
      rw [at_] at hworking
      simpa [State.setStage, Stage.unsent] using hworking
  | @flush t j p at_ =>
    have hi : (s.stage t).number? = some j.task.number := by rw [at_]; rfl
    exact ⟨done, h.silent hc hi rfl (by rw [at_]; rfl) rfl rfl rfl rfl rfl rfl⟩
  | log at_ => exact ⟨_, h.log hc at_⟩
  | readFails | sendFails | loadFails => exact ha.elim

/-! ## Whole runs -/

/-- Nothing fails, so no worker fails on its page. -/
theorem NoFailure.keepsLocks (h : NoFailure s a) : KeepsLocks s a := by
  cases a with
  | accept | worker t => trivial
  | ioError t | readError t => exact h.elim

theorem progress_of_run (hans : AllAnswered cfg) {as : List Action}
    (hm : Meets (step cfg) NoFailure (State.init cfg) as)
    (h : run (step cfg) (State.init cfg) as = some s) :
    Coordinated cfg s ∧ Exact s ∧ ∃ done, Progress cfg s done :=
  guarded_run_invariant (I := fun s => Coordinated cfg s ∧ Exact s ∧ ∃ done, Progress cfg s done)
    (fun _ _ _ ⟨hc, hexact, _, hp⟩ ha hs =>
      ⟨hc.of_step hs, hexact.of_step hc ha.keepsLocks hs, hp.of_step hc hans ha hs⟩)
    ⟨Coordinated.init, Exact.init, [], Progress.init⟩ hm h

/-- Some request has not been accepted, or waits in the queue, or is with a worker. -/
def Unfinished (cfg : Config) (s : State) : Prop :=
  s.accepted < cfg.clients.length ∨ s.workQueue ≠ [] ∨ ∃ t i, (s.stage t).number? = some i

/-- When a worker has a request, some worker can go on. -/
theorem exists_work_of_number (hc : Coordinated cfg s) (hexact : Exact s) {i : ℕ}
    (hi : (s.stage t).number? = some i) : ∃ u, s.work u cfg.fs ≠ none := by
  by_cases hparked : ∃ page l, s.pages.call t = .parked page l
  · obtain ⟨page, l, hcall⟩ := hparked
    exact exists_work_of_parked hc hexact hcall
  · push Not at hparked
    refine ⟨t, work_ne_none hc ?_ hparked⟩
    rintro (hst | hst | hst) <;> simp [hst, Stage.number?] at hi

/-- The server does not stop before it has finished. -/
theorem exists_enabled {done : List ℕ} (hpool : 1 ≤ cfg.maxConnections) (hc : Coordinated cfg s)
    (hexact : Exact s) (hp : Progress cfg s done) (hu : Unfinished cfg s) :
    ∃ a, NoFailure s a ∧ step cfg s a ≠ none := by
  by_cases hbusy : ∃ t i, (s.stage t).number? = some i
  · obtain ⟨t, i, hi⟩ := hbusy
    obtain ⟨u, hwork⟩ := exists_work_of_number hc hexact hi
    exact ⟨.worker u, trivial, hwork⟩
  · rcases hu with hacc | hqueue | hwork
    · refine ⟨.accept, trivial, ?_⟩
      simp [step, State.accept, hacc]
    · have hidle : s.stage 0 = .idle := by
        obtain ⟨habsent, hdead⟩ := hp.alive 0 hpool
        push Not at hbusy
        have hnone := hbusy 0
        cases hst : s.stage 0 <;> simp_all [Stage.number?]
      obtain ⟨task, q, hq⟩ := List.exists_cons_of_ne_nil hqueue
      exact ⟨.worker 0, trivial, by simp [step, State.work, hidle, hq]⟩
    · exact absurd hwork hbusy

theorem number_of_serving {page : Page} (h : s.serving t = some page) :
    ∃ i, (s.stage t).number? = some i := by
  cases hst : s.stage t <;> simp_all [State.serving, Stage.page?, Stage.number?]

/-- No thread holds a lock when no thread has a request. -/
theorem locks_free (hc : Coordinated cfg s) (hexact : Exact s)
    (hidle : ∀ t i, (s.stage t).number? ≠ some i) (l : LockId) :
    (s.pages.locks l).owner = none := by
  cases howner : (s.pages.locks l).owner with
  | none => rfl
  | some t =>
    obtain ⟨page, -, hserving⟩ :=
      hexact.serving_of_holdCount hc (ReentrantLock.getHoldCount_pos_iff.2 howner)
    obtain ⟨i, hi⟩ := number_of_serving hserving
    exact absurd hi (hidle t i)

/-- When no request is on its way each one has been answered once. -/
theorem Progress.done_perm {done : List ℕ} (h : Progress cfg s done)
    (haccepted : s.accepted = cfg.clients.length) (hqueue : s.workQueue = [])
    (hidle : ∀ t i, (s.stage t).number? ≠ some i) :
    done.Perm (List.range cfg.clients.length) := by
  rw [List.perm_iff_count]
  intro i
  have hzero : total cfg.maxConnections (Stage.has i) s.stage = 0 :=
    Finset.sum_eq_zero fun t _ => if_neg (hidle t i)
  have honce := h.once i
  rw [hzero, hqueue, haccepted] at honce
  simpa [List.nodup_range.count] using honce

theorem map_aloneAt_range (cfg : Config) :
    (List.range cfg.clients.length).map (aloneAt cfg) = cfg.clients.map (alone cfg.fs) := by
  apply List.ext_getElem
  · simp
  · intro i hi hi'
    have hlt : i < cfg.clients.length := by simpa using hi'
    simp [aloneAt, hlt]

theorem alone_logged_length {c : Client} (h : Answered cfg.fs c) :
    (alone cfg.fs c).logged.length = 1 := by
  obtain ⟨method, route, url, error404, hres⟩ := h
  obtain ⟨request, -, -, hhandle⟩ := resolve_eq_some hres
  obtain ⟨content, hread⟩ := exists_content hhandle rfl
  rw [alone, exec_run_succeeds rfl ⟨rfl, fun _ _ => rfl⟩ hres hread]
  rfl

/-- When no operation fails and each request is answered by a page, the server can go on as long
as a request is unfinished, and it goes on for a bounded number of steps; and where it can not, each
client has received what it receives when its request is handled alone, every lock is free, and the
calls of `logRequest` are one for each request. -/
theorem sequential_equivalence (cfg : Config) (hpool : 1 ≤ cfg.maxConnections)
    (hans : AllAnswered cfg) (as : List Action) (s : State)
    (hm : Meets (step cfg) NoFailure (State.init cfg) as)
    (hrun : run (step cfg) (State.init cfg) as = some s) :
    as.length ≤ 23 * cfg.clients.length ∧
    (Unfinished cfg s → ∃ a, NoFailure s a ∧ step cfg s a ≠ none) ∧
    ((∀ a, NoFailure s a → step cfg s a = none) →
      (∀ i c, cfg.clients[i]? = some c → s.sent i = (alone cfg.fs c).sent) ∧
      (∀ l, (s.pages.locks l).owner = none) ∧
      s.logged.Perm (cfg.clients.flatMap fun c => (alone cfg.fs c).logged) ∧
      ∀ c ∈ cfg.clients, (alone cfg.fs c).logged.length = 1) := by
  obtain ⟨hc, hexact, done, hp⟩ := progress_of_run hans hm hrun
  refine ⟨length_le_of_run hrun, exists_enabled hpool hc hexact hp, fun hfinal => ?_⟩
  have hfinished : ¬ Unfinished cfg s := fun hu => by
    obtain ⟨a, ha, hstep⟩ := exists_enabled hpool hc hexact hp hu
    exact hstep (hfinal a ha)
  simp only [Unfinished, not_or, not_lt, not_not, not_exists] at hfinished
  obtain ⟨hacc, hqueue, hidle⟩ := hfinished
  have hperm := hp.done_perm (le_antisymm hp.accepted hacc) hqueue hidle
  refine ⟨fun i c hi => ?_, locks_free hc hexact hidle, ?_,
    fun c hc => alone_logged_length (hans c hc)⟩
  · have hlt : i < cfg.clients.length := (List.getElem?_eq_some_iff.1 hi).1
    rw [hp.answered i (hperm.mem_iff.2 (List.mem_range.2 hlt))]
    simp [aloneAt, hi]
  · have hmap := congrArg (List.flatMap World.logged) (map_aloneAt_range cfg)
    rw [List.flatMap_map, List.flatMap_map] at hmap
    rw [hp.logged, ← hmap]
    exact hperm.flatMap_right _

/-- Two workers answer two clients, of which the second waits for the page of the first; the run is
as long as one can be. -/
def contendedRun : List Action :=
  .accept :: .accept :: List.replicate 8 (.worker 0) ++ List.replicate 6 (.worker 1) ++
    List.replicate 14 (.worker 0) ++ List.replicate 16 (.worker 1)

theorem allAnswered_contendedClients : AllAnswered contendedClients := by
  intro c hc
  obtain rfl : c = getRoot := by simpa [contendedClients] using hc
  exact ⟨"GET".toList, "/".toList, "server_root/index.html".toList, false, by decide +kernel⟩

theorem sequential_equivalence_contendedRun :
    ∃ s, run (step contendedClients) (State.init contendedClients) contendedRun = some s ∧
      (∀ a, NoFailure s a → step contendedClients s a = none) ∧
      contendedRun.length ≤ 23 * contendedClients.clients.length ∧
      (Unfinished contendedClients s → ∃ a, NoFailure s a ∧ step contendedClients s a ≠ none) ∧
      (∀ i c, contendedClients.clients[i]? = some c →
        s.sent i = (alone contendedClients.fs c).sent) ∧
      (∀ l, (s.pages.locks l).owner = none) ∧
      s.logged.Perm
        (contendedClients.clients.flatMap fun c => (alone contendedClients.fs c).logged) ∧
      ∀ c ∈ contendedClients.clients, (alone contendedClients.fs c).logged.length = 1 := by
  obtain ⟨s, hs⟩ := Option.isSome_iff_exists.1 (show
    (run (step contendedClients) (State.init contendedClients) contendedRun).isSome = true
      by decide +kernel)
  have hfinal : ∀ a, NoFailure s a → step contendedClients s a = none :=
    fun a _ => step_eq_none_of_length hs rfl a
  obtain ⟨hlength, hgoes, hends⟩ := sequential_equivalence contendedClients (by decide)
    allAnswered_contendedClients contendedRun s (by decide +kernel) hs
  exact ⟨s, hs, hfinal, hlength, hgoes, hends hfinal⟩

end Server
