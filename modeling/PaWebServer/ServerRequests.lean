import PaWebServer.ServerProgress

/-!
# Every request is accounted for

Whatever the clients send and whichever operations fail: the pool keeps its size, the requests are
taken in the order in which they were accepted, and each of them waits in the queue, is with one
worker, or has come to its end once (`requests_accounted`).  What a client receives is the beginning
of what it would receive if its request were handled alone, and all of it when its request is
logged (`responses_isolated`).
-/

namespace Server

open FileTree RequestHandler RequestThread PageHandler Transition Tally

variable {cfg : Config} {s s' : State} {a : Action} {t u : ℕ}

/-! ## How a request ends -/

/-- The thread that the step belongs to. -/
def Action.thread? : Action → Option ℕ
  | .accept => none
  | .worker t | .ioError t | .readError t => some t

/-- The step is a failure. -/
def Action.fails : Action → Bool
  | .accept | .worker _ => false
  | .ioError _ | .readError _ => true

/-- The end of a request: `run` has returned or thrown, or an operation of it has failed. -/
structure Outcome where
  number : ℕ
  failed : Bool
  deriving DecidableEq

/-- The request that the step takes from the queue. -/
def taken (s : State) : Action → List ℕ
  | .worker t =>
    match s.stage t, s.workQueue with
    | .idle, task :: _ => [task.number]
    | _, _ => []
  | _ => []

/-- The request that the thread has before the step and not after it. -/
def outcomes (cfg : Config) (s : State) (a : Action) : List Outcome :=
  match a.thread?, step cfg s a with
  | some t, some s' =>
    if (s'.stage t).number? = none then ((s.stage t).number?.map (⟨·, a.fails⟩)).toList else []
  | _, _ => []

/-- The requests that the workers have. -/
def State.held (s : State) : List ℕ := gather s.spawned fun t => (s.stage t).number?

/-- The thread waits for a task or has one. -/
def Stage.live : Stage → ℕ
  | .absent | .dead => 0
  | _ => 1

theorem Stage.live_of_number {st : Stage} {i : ℕ} (h : st.number? = some i) : st.live = 1 := by
  cases st <;> first | rfl | cases h

/-- The step takes a thread away from its request. -/
structure Leaves (s : State) (t : ℕ) (s' : State) : Prop where
  stage : s'.stage = Function.update s.stage t .idle ∧ s'.spawned = s.spawned ∨
    s'.stage = (s.die t).stage ∧ s'.spawned = s.spawned + 1
  accepted : s'.accepted = s.accepted
  queue : s'.workQueue = s.workQueue
  sent : s'.sent = s.sent

theorem die_stage (s : State) (t : ℕ) :
    (s.die t).stage = Function.update (Function.update s.stage t .dead) s.spawned .idle := rfl

theorem leaves_die (s : State) (t : ℕ) : Leaves s t (s.die t) := ⟨Or.inr ⟨rfl, rfl⟩, rfl, rfl, rfl⟩

/-- What a step does to the requests: one is accepted or taken, a worker goes on with its request,
or the request comes to its end; then either the step is a failure, or the client has received all
that it receives when its request is handled alone. -/
inductive Flow (cfg : Config) (s : State) : Action → State → Prop
  | accept {c} (next : cfg.clients[s.accepted]? = some c) :
      Flow cfg s .accept
        { s with accepted := s.accepted + 1, workQueue := s.workQueue ++ [⟨s.accepted, c⟩] }
  | take {t task q} (at_ : s.stage t = .idle) (queue : s.workQueue = task :: q) :
      Flow cfg s (.worker t) ({ s with workQueue := q }.setStage t (.reading task))
  | goOn {t i st s'} (before : (s.stage t).number? = some i) (after : st.number? = some i)
      (stage : s'.stage = Function.update s.stage t st) (spawned : s'.spawned = s.spawned)
      (accepted : s'.accepted = s.accepted) (queue : s'.workQueue = s.workQueue)
      (logged : s'.logged = s.logged) (sent : ∀ k, k ≠ i → s'.sent k = s.sent k)
      (unsent : s'.sent i ++ st.unsent cfg = s.sent i ++ (s.stage t).unsent cfg) :
      Flow cfg s (.worker t) s'
  | finish {t i s'} (before : (s.stage t).number? = some i) (leaves : Leaves s t s')
      (unsent : (s.stage t).unsent cfg = [])
      (logged : s'.logged = s.logged ++ (aloneAt cfg i).logged) : Flow cfg s (.worker t) s'
  | fail {a t i s'} (thread : a.thread? = some t) (fails : a.fails = true)
      (before : (s.stage t).number? = some i) (leaves : Leaves s t s')
      (logged : s'.logged = s.logged) : Flow cfg s a s'

/-- A request that no page answers sends nothing and logs nothing. -/
theorem alone_of_unresolved {fs : FileSystem} {c : Client}
    (h : ∀ method route url error404, resolve fs c ≠ some (method, route, ⟨some url, error404⟩)) :
    alone fs c = World.init := by
  unfold alone
  rw [exec_run, caught_snd, exec_body_unresolved (Or.inr h)]

theorem resolve_eq_none_of_error {fs : FileSystem} {c : Client} {e : Throwable}
    (h : readRequest c.ending c.lines = .error e) : resolve fs c = none := by
  simp [resolve, h]

theorem resolve_eq_none_of_parse {fs : FileSystem} {c : Client} {request : Text}
    (h : readRequest c.ending c.lines = .ok request) (hparse : parse request = none) :
    resolve fs c = none := by
  simp [resolve, h, hparse]

/-- A worker comes to the end of a request that no page answers. -/
theorem Flow.finish_unresolved (hat : (s.stage t).number? = some u)
    (hunsent : (s.stage t).unsent cfg = (aloneAt cfg u).sent) (hleaves : Leaves s t s')
    (hlogged : s'.logged = s.logged) (halone : aloneAt cfg u = World.init) :
    Flow cfg s (.worker t) s' := by
  refine .finish hat hleaves ?_ ?_
  · rw [hunsent, halone]
    rfl
  · rw [hlogged, halone]
    exact (List.append_nil _).symm

theorem flow_of_step (hc : Coordinated cfg s) (hs : step cfg s a = some s') : Flow cfg s a s' := by
  have hgenuine (t : ℕ) := hc.genuine t
  cases step_cases hs with
  | accept next => exact .accept next
  | take at_ queue => exact .take at_ queue
  | @giveUp t task at_ read =>
    have htask : task.Genuine cfg := by simpa [at_, Stage.Genuine] using hgenuine t
    have hnone : resolve cfg.fs task.client = none := by
      rcases read with read | ⟨request, read, parse⟩
      · exact resolve_eq_none_of_error read
      · exact resolve_eq_none_of_parse read parse
    refine .finish_unresolved (u := task.number) (by rw [at_]; rfl) (by rw [at_]; rfl)
      ⟨Or.inl ⟨rfl, rfl⟩, rfl, rfl, rfl⟩ rfl ?_
    rw [htask.aloneAt, alone_of_unresolved (by simp [hnone])]
  | @readNull t task at_ read =>
    have htask : task.Genuine cfg := by simpa [at_, Stage.Genuine] using hgenuine t
    refine .finish_unresolved (u := task.number) (by rw [at_]; rfl) (by rw [at_]; rfl)
      (leaves_die s t) rfl ?_
    rw [htask.aloneAt, alone_of_unresolved (by simp [resolve_eq_none_of_error read])]
  | @unresolved t task method route at_ res =>
    have hboth := hgenuine t
    rw [at_] at hboth
    obtain ⟨htask, request, hread, hparse⟩ := hboth
    refine .finish_unresolved (u := task.number) (by rw [at_]; rfl) (by rw [at_]; rfl)
      (leaves_die s t) rfl ?_
    rw [htask.aloneAt, alone_of_unresolved]
    intro method' route' url error404 h
    obtain ⟨request', hread', hparse', hhandle⟩ := resolve_eq_some h
    obtain rfl := Except.ok.inj (hread.symm.trans hread')
    obtain ⟨-, rfl⟩ := Prod.mk.inj (Option.some.inj (hparse.symm.trans hparse'))
    exact res url error404 hhandle
  | @parsed t task request method route at_ =>
    exact .goOn (i := task.number) (by rw [at_]; rfl) rfl rfl rfl rfl rfl rfl (fun _ _ => rfl)
      (by rw [at_]; rfl)
  | @resolved t task method route url error404 p at_ =>
    exact .goOn (i := task.number) (by rw [at_]; rfl) rfl rfl rfl rfl rfl rfl (fun _ _ => rfl)
      (by rw [at_]; rfl)
  | @locked t j at_ | @unlocked t j at_ | @flush t j p at_ =>
    exact .goOn (i := j.task.number) (by rw [at_]; rfl) rfl rfl rfl rfl rfl rfl (fun _ _ => rfl)
      (by rw [at_]; rfl)
  | @advance t j p at_ =>
    have hi : (s.stage t).number? = some j.task.number := by
      rcases at_ with at_ | at_ <;> rw [at_] <;> rfl
    exact .goOn hi hi (by simp [State.setPages]) rfl rfl rfl rfl (fun _ _ => rfl) rfl
  | @threw t _ _ threw => exact absurd threw (hc.pages.not_threw t)
  | @loaded t j content at_ read =>
    have hj : j.Genuine cfg := by simpa [at_, Stage.Genuine] using hgenuine t
    refine .goOn (i := j.task.number) (by rw [at_]; rfl) rfl rfl rfl rfl rfl rfl (fun _ _ => rfl) ?_
    rw [at_]
    simp only [Stage.unsent]
    rw [hj.alone read]
    rfl
  | @unreadable t j e at_ read =>
    have hj : j.Genuine cfg := by simpa [at_, Stage.Genuine] using hgenuine t
    obtain ⟨content, hread⟩ := exists_content hj.resolved rfl
    cases read.symm.trans hread
  | @send t j b bs at_ =>
    refine .goOn (i := j.task.number) (by rw [at_]; rfl) rfl rfl rfl rfl rfl rfl
      (fun k hk => Function.update_of_ne hk _ _) ?_
    rw [at_]
    simp [State.setStage, Stage.unsent]
  | @log t j at_ =>
    have hj : j.Genuine cfg := by simpa [at_, Stage.Genuine] using hgenuine t
    obtain ⟨content, hread⟩ := exists_content hj.resolved rfl
    refine .finish (i := j.task.number) (by rw [at_]; rfl) ⟨Or.inl ⟨rfl, rfl⟩, rfl, rfl, rfl⟩
      (by rw [at_]; rfl) ?_
    rw [hj.alone hread]
    rfl
  | @readFails t task at_ =>
    exact .fail (i := task.number) rfl rfl (by rw [at_]; rfl) ⟨Or.inl ⟨rfl, rfl⟩, rfl, rfl, rfl⟩ rfl
  | @sendFails t j bs at_ =>
    exact .fail (i := j.task.number) rfl rfl (by rw [at_]; rfl) ⟨Or.inl ⟨rfl, rfl⟩, rfl, rfl, rfl⟩
      rfl
  | @loadFails t j at_ =>
    exact .fail (i := j.task.number) rfl rfl (by rw [at_]; rfl) (leaves_die s t) rfl

/-! ## The ledger -/

theorem outcomes_of_goOn (hthread : a.thread? = some t) (hs : step cfg s a = some s') {i : ℕ}
    (hafter : (s'.stage t).number? = some i) : outcomes cfg s a = [] := by
  simp [outcomes, hthread, hs, hafter]

theorem outcomes_of_no_number (hthread : a.thread? = some t) (hi : (s.stage t).number? = none) :
    outcomes cfg s a = [] := by
  unfold outcomes
  rw [hthread]
  cases step cfg s a <;> simp [hi]

theorem Leaves.number (h : Leaves s t s') (hc : Coordinated cfg s) {i : ℕ}
    (hi : (s.stage t).number? = some i) : (s'.stage t).number? = none := by
  rcases h.stage with ⟨hstage, -⟩ | ⟨hstage, -⟩
  · simp [hstage, Stage.number?]
  · have hne : t ≠ s.spawned := by
      rintro rfl
      rw [hc.absent _ le_rfl] at hi
      cases hi
    simp [hstage, die_stage, hne, Stage.number?]

theorem outcomes_of_leaves (hc : Coordinated cfg s) (hthread : a.thread? = some t)
    (hs : step cfg s a = some s') {i : ℕ} (hi : (s.stage t).number? = some i)
    (h : Leaves s t s') : outcomes cfg s a = [⟨i, a.fails⟩] := by
  simp [outcomes, hthread, hs, h.number hc hi, hi]

theorem lt_spawned_of_number (hc : Coordinated cfg s) {i : ℕ}
    (hi : (s.stage t).number? = some i) : t < s.spawned := by
  by_contra hge
  rw [hc.absent t (by omega)] at hi
  cases hi

/-- A weight on stages that an ended thread does not have changes only for the thread itself. -/
theorem Leaves.total_eq (h : Leaves s t s') (hlt : t < s.spawned) {weight : Stage → ℕ}
    (hdead : weight .dead = 0) :
    total s'.spawned weight s'.stage + weight (s.stage t) =
      total s.spawned weight s.stage + weight .idle := by
  rcases h.stage with ⟨hstage, hspawned⟩ | ⟨hstage, hspawned⟩
  · rw [hstage, hspawned]
    exact total_update hlt weight s.stage .idle
  · have hdie : total (s.spawned + 1) weight (s.die t).stage + weight (s.stage t) =
        total s.spawned weight s.stage + weight .dead + weight .idle :=
      total_update_succ hlt weight s.stage .dead .idle
    rw [hstage, hspawned]
    omega

theorem count_held (s : State) (i : ℕ) :
    s.held.count i = total s.spawned (Stage.has i) s.stage :=
  count_gather_eq_total _ _ _

/-- The pool has its size, and each accepted request is at one place: it has ended, is with a
worker, or waits in the queue. -/
structure Ledger (cfg : Config) (out : List Outcome) (s : State) : Prop where
  coordinated : Coordinated cfg s
  live : total s.spawned Stage.live s.stage = cfg.maxConnections
  once : ∀ i, (out.map Outcome.number).count i + total s.spawned (Stage.has i) s.stage +
    (s.workQueue.map Task.number).count i = if i < s.accepted then 1 else 0

theorem Ledger.init : Ledger cfg [] (State.init cfg) where
  coordinated := .init
  live := by
    have hone : ∀ k ∈ Finset.range cfg.maxConnections,
        Stage.live ((State.init cfg).stage k) = 1 := fun k hk => by
      simp [State.init, Finset.mem_range.1 hk, Stage.live]
    show ∑ k ∈ Finset.range cfg.maxConnections, _ = _
    rw [Finset.sum_congr rfl hone]
    simp
  once i := by
    have hzero : total (State.init cfg).spawned (Stage.has i) (State.init cfg).stage = 0 := by
      refine total_eq_zero_iff.2 fun t _ => ?_
      simp only [State.init]
      split_ifs <;> rfl
    rw [hzero]
    simp [State.init]

theorem Ledger.leave {out : List Outcome} (h : Ledger cfg out s) {i : ℕ}
    (hi : (s.stage t).number? = some i) (hl : Leaves s t s') (hc : Coordinated cfg s')
    (failed : Bool) : Ledger cfg (out ++ [⟨i, failed⟩]) s' := by
  have hlt := lt_spawned_of_number h.coordinated hi
  refine ⟨hc, ?_, fun k => ?_⟩
  · have := hl.total_eq hlt (show Stage.live .dead = 0 from rfl)
    have hlive := Stage.live_of_number hi
    have hidle : Stage.live .idle = 1 := rfl
    have := h.live
    omega
  · have htotal := hl.total_eq hlt (show Stage.has k .dead = 0 from rfl)
    have hidle : Stage.has k .idle = 0 := rfl
    have hhas : Stage.has k (s.stage t) = if i = k then 1 else 0 := by simp [Stage.has, hi]
    have honce := h.once k
    have hcount : ((out ++ [(⟨i, failed⟩ : Outcome)]).map Outcome.number).count k =
        (out.map Outcome.number).count k + if i = k then 1 else 0 := by
      simp [List.count_singleton]
    rw [hl.accepted, hl.queue, hcount]
    omega

theorem Ledger.of_step {out : List Outcome} (h : Ledger cfg out s) (hs : step cfg s a = some s') :
    Ledger cfg (out ++ outcomes cfg s a) s' := by
  have hc := h.coordinated
  have hc' := hc.of_step hs
  cases flow_of_step hc hs with
  | accept next =>
    rw [show outcomes cfg s .accept = [] from rfl, List.append_nil]
    refine ⟨hc', h.live, fun i => ?_⟩
    have honce := h.once i
    show _ + ((s.workQueue ++ [(⟨s.accepted, _⟩ : Task)]).map Task.number).count i = _
    rw [List.map_append, List.count_append, List.map_singleton, List.count_singleton]
    by_cases hi : s.accepted = i
    · subst hi
      rw [if_neg (lt_irrefl _)] at honce
      rw [if_pos (Nat.lt_succ_self _)]
      simp
      omega
    · have : (s.accepted == i) = false := by simpa using hi
      rw [this]
      simp only [Bool.false_eq_true, if_false]
      split_ifs at honce ⊢ <;> omega
  | @take t task q at_ queue =>
    have hlt : t < s.spawned := by
      by_contra hge
      rw [hc.absent t (by omega)] at at_
      cases at_
    rw [outcomes_of_no_number rfl (by rw [at_]; rfl), List.append_nil]
    refine ⟨hc', ?_, fun i => ?_⟩
    · have := total_update hlt Stage.live s.stage (.reading task)
      have hold : Stage.live (s.stage t) = 1 := by rw [at_]; rfl
      have hnew : Stage.live (.reading task) = 1 := rfl
      have := h.live
      show total s.spawned Stage.live (Function.update s.stage t (.reading task)) = _
      omega
    · have htotal := total_update hlt (Stage.has i) s.stage (.reading task)
      have hold : Stage.has i (s.stage t) = 0 := by rw [at_]; rfl
      have hnew : Stage.has i (.reading task) = if task.number = i then 1 else 0 := by
        simp [Stage.has, Stage.number?]
      have honce := h.once i
      rw [queue, List.map_cons, List.count_cons] at honce
      simp only [beq_iff_eq] at honce
      show _ + total s.spawned (Stage.has i) (Function.update s.stage t (.reading task)) +
        (q.map Task.number).count i = if i < s.accepted then 1 else 0
      omega
  | @goOn t i st s' before after stage spawned accepted queue =>
    rw [outcomes_of_goOn rfl hs (i := i) (by rw [stage, Function.update_self, after]),
      List.append_nil]
    have hlt := lt_spawned_of_number hc before
    refine ⟨hc', ?_, fun k => ?_⟩
    · have := total_update hlt Stage.live s.stage st
      have hold := Stage.live_of_number before
      have hnew := Stage.live_of_number after
      have := h.live
      rw [stage, spawned]
      omega
    · have htotal := total_update hlt (Stage.has k) s.stage st
      have hsame : Stage.has k st = Stage.has k (s.stage t) := by
        rw [Stage.has, after, Stage.has, before]
      rw [stage, spawned, accepted, queue]
      have honce := h.once k
      omega
  | @finish t i s' before leaves =>
    rw [outcomes_of_leaves hc rfl hs before leaves]
    exact h.leave before leaves hc' _
  | @fail a t i s' thread fails before leaves =>
    rw [outcomes_of_leaves hc thread hs before leaves]
    exact h.leave before leaves hc' _

/-- Each accepted request has ended, is with a worker, or waits in the queue. -/
theorem Ledger.perm_range {out : List Outcome} (h : Ledger cfg out s) :
    (out.map Outcome.number ++ s.held ++ s.workQueue.map Task.number).Perm
      (List.range s.accepted) := by
  refine List.perm_iff_count.2 fun i => ?_
  rw [List.count_append, List.count_append, count_held, h.once, List.nodup_range.count]
  simp

theorem Ledger.nodup {out : List Outcome} (h : Ledger cfg out s) :
    (out.map Outcome.number).Nodup := by
  have hall := h.perm_range.nodup_iff.2 List.nodup_range
  rw [List.append_assoc] at hall
  exact (List.nodup_append.1 hall).1

theorem Ledger.length_le {out : List Outcome} (h : Ledger cfg out s) : out.length ≤ s.accepted := by
  have hlen := h.perm_range.length_eq
  simp only [List.length_append, List.length_map, List.length_range] at hlen
  omega

/-- A worker's request has been accepted, is in nobody else's hands, and has not ended. -/
theorem Ledger.owns {out : List Outcome} (h : Ledger cfg out s) {i : ℕ}
    (hi : (s.stage t).number? = some i) :
    i < s.accepted ∧ i ∉ out.map Outcome.number ∧ i ∉ s.workQueue.map Task.number ∧
      ∀ u, u ≠ t → (s.stage u).number? ≠ some i := by
  have hlt := lt_spawned_of_number h.coordinated hi
  have hhas : Stage.has i (s.stage t) = 1 := if_pos hi
  have honce := h.once i
  have hsplit := total_update hlt (Stage.has i) s.stage .idle
  have hle := weight_le_total hlt (Stage.has i) s.stage
  have hidle : Stage.has i .idle = 0 := rfl
  have hacc : i < s.accepted := by
    by_contra hge
    rw [if_neg hge] at honce
    omega
  rw [if_pos hacc] at honce
  refine ⟨hacc, ?_, ?_, fun u hu hui => ?_⟩
  · rw [← List.count_eq_zero]
    omega
  · rw [← List.count_eq_zero]
    omega
  · have hother := weight_le_total (lt_spawned_of_number h.coordinated hui) (Stage.has i)
      (Function.update s.stage t .idle)
    rw [Function.update_of_ne hu, Stage.has, if_pos hui] at hother
    omega

/-! ## The order of the queue -/

theorem taken_of_number (hthread : a.thread? = some t) {i : ℕ}
    (hi : (s.stage t).number? = some i) : taken s a = [] := by
  cases a with
  | accept | ioError | readError => rfl
  | worker v =>
    obtain rfl : v = t := Option.some.inj hthread
    cases hst : s.stage v with
    | idle =>
      rw [hst] at hi
      cases hi
    | _ => simp [taken, hst]

/-- What has been taken and what waits are the accepted requests in order. -/
theorem taken_append_queue_of_step {out : List ℕ} (hc : Coordinated cfg s)
    (h : out ++ s.workQueue.map Task.number = List.range s.accepted)
    (hs : step cfg s a = some s') :
    out ++ taken s a ++ s'.workQueue.map Task.number = List.range s'.accepted := by
  cases flow_of_step hc hs with
  | accept next =>
    rw [List.range_succ, ← h]
    simp [taken]
  | take at_ queue =>
    rw [queue] at h
    show _ = List.range s.accepted
    rw [← h]
    simp [taken, at_, queue, State.setStage]
  | goOn before _ _ _ accepted queue =>
    rw [taken_of_number rfl before, List.append_nil, accepted, queue, h]
  | finish before leaves =>
    rw [taken_of_number rfl before, List.append_nil, leaves.accepted, leaves.queue, h]
  | fail thread _ before leaves =>
    rw [taken_of_number thread before, List.append_nil, leaves.accepted, leaves.queue, h]

/-! ## What the clients receive -/

/-- Each client has received the beginning of what it receives alone; with what is unsent it is the
whole, and what has ended without a failure has been sent and logged as it is alone. -/
structure Isolated (cfg : Config) (out : List Outcome) (s : State) : Prop where
  ledger : Ledger cfg out s
  received : ∀ i, s.sent i <+: (aloneAt cfg i).sent
  waiting : ∀ i, s.accepted ≤ i ∨ i ∈ s.workQueue.map Task.number → s.sent i = []
  working : ∀ t i, (s.stage t).number? = some i →
    s.sent i ++ (s.stage t).unsent cfg = (aloneAt cfg i).sent
  finished : ∀ o ∈ out, o.failed = false → s.sent o.number = (aloneAt cfg o.number).sent
  logged : s.logged =
    (out.filter fun o => !o.failed).flatMap fun o => (aloneAt cfg o.number).logged

theorem Isolated.init : Isolated cfg [] (State.init cfg) where
  ledger := .init
  received _ := List.nil_prefix
  waiting _ _ := rfl
  working t i h := by
    simp only [State.init] at h
    split_ifs at h <;> cases h
  finished _ h := by cases h
  logged := rfl

/-- A thread that has left its request has none, and the others have what they had. -/
theorem Leaves.number_of_ne (h : Leaves s t s') (hc : Coordinated cfg s) {i : ℕ}
    (hi : (s.stage t).number? = some i) {u k : ℕ} (hk : (s'.stage u).number? = some k) :
    s'.stage u = s.stage u ∧ (s.stage u).number? = some k := by
  have hut : u ≠ t := by
    rintro rfl
    rw [h.number hc hi] at hk
    cases hk
  have hsame : s'.stage u = s.stage u := by
    rcases h.stage with ⟨hstage, -⟩ | ⟨hstage, -⟩
    · rw [hstage, Function.update_of_ne hut]
    · have hus : u ≠ s.spawned := by
        rintro rfl
        rw [hstage, die_stage, Function.update_self] at hk
        cases hk
      rw [hstage, die_stage, Function.update_of_ne hus, Function.update_of_ne hut]
  exact ⟨hsame, hsame ▸ hk⟩

theorem Isolated.leave {out : List Outcome} (h : Isolated cfg out s) {i : ℕ}
    (hi : (s.stage t).number? = some i) (hl : Leaves s t s') (hc : Coordinated cfg s')
    {failed : Bool} (hunsent : failed = false → (s.stage t).unsent cfg = [])
    (hlogged : s'.logged = s.logged ++ if failed then [] else (aloneAt cfg i).logged) :
    Isolated cfg (out ++ [⟨i, failed⟩]) s' where
  ledger := h.ledger.leave hi hl hc failed
  received k := by
    rw [hl.sent]
    exact h.received k
  waiting k hk := by
    rw [hl.sent]
    rw [hl.accepted, hl.queue] at hk
    exact h.waiting k hk
  working u k hk := by
    obtain ⟨hstage, hk⟩ := hl.number_of_ne h.ledger.coordinated hi hk
    rw [hl.sent, hstage]
    exact h.working u k hk
  finished o ho hf := by
    rw [hl.sent]
    rcases List.mem_append.1 ho with ho | ho
    · exact h.finished o ho hf
    · obtain rfl := List.mem_singleton.1 ho
      have := h.working t i hi
      rwa [hunsent hf, List.append_nil] at this
  logged := by
    rw [hlogged, h.logged]
    cases failed <;> simp

theorem Isolated.of_step {out : List Outcome} (h : Isolated cfg out s)
    (hs : step cfg s a = some s') : Isolated cfg (out ++ outcomes cfg s a) s' := by
  have hc := h.ledger.coordinated
  have hledger := h.ledger.of_step hs
  cases flow_of_step hc hs with
  | accept next =>
    refine ⟨hledger, h.received, fun i hi => h.waiting i ?_, h.working, ?_, ?_⟩
    · simp only [List.map_append, List.map_cons, List.map_nil, List.mem_append,
        List.mem_singleton] at hi
      rcases hi with hi | hi | hi
      · exact Or.inl (Nat.le_of_succ_le hi)
      · exact Or.inr hi
      · exact Or.inl hi.ge
    · simpa [outcomes, Action.thread?] using h.finished
    · simpa [outcomes, Action.thread?] using h.logged
  | @take t task q at_ queue =>
    have hnone : outcomes cfg s (.worker t) = [] :=
      outcomes_of_no_number rfl (by rw [at_]; rfl)
    rw [hnone, List.append_nil] at hledger ⊢
    have hmap : s.workQueue.map Task.number = task.number :: q.map Task.number := by rw [queue]; rfl
    refine ⟨hledger, h.received, fun i hi => h.waiting i ?_, fun u i hu => ?_, h.finished,
      h.logged⟩
    · rw [hmap]
      exact hi.imp_right (List.mem_cons_of_mem _)
    · by_cases hut : u = t
      · subst hut
        simp only [State.setStage, Function.update_self, Stage.number?, Option.some.injEq] at hu ⊢
        subst hu
        have hempty := h.waiting task.number (Or.inr (hmap ▸ List.mem_cons_self))
        simp [Stage.unsent, hempty]
      · simp only [State.setStage, Function.update_of_ne hut] at hu ⊢
        exact h.working u i hu
  | @goOn t i st s' before after stage spawned accepted queue logged sent unsent =>
    have hnone : outcomes cfg s (.worker t) = [] :=
      outcomes_of_goOn rfl hs (i := i) (by rw [stage, Function.update_self, after])
    rw [hnone, List.append_nil] at hledger ⊢
    obtain ⟨hacc, hout, hqueue, hother⟩ := h.ledger.owns before
    rw [h.working t i before] at unsent
    have hsent (k : ℕ) (hk : k ≠ i) := sent k hk
    refine ⟨hledger, fun k => ?_, fun k hk => ?_, fun u k hu => ?_, fun o ho hf => ?_,
      logged.trans h.logged⟩
    · by_cases hk : k = i
      · exact hk ▸ ⟨_, unsent⟩
      · exact hsent k hk ▸ h.received k
    · rw [accepted, queue] at hk
      have hki : k ≠ i := by
        rintro rfl
        exact hk.elim (by omega) hqueue
      rw [hsent k hki]
      exact h.waiting k hk
    · by_cases hut : u = t
      · subst hut
        rw [stage, Function.update_self] at hu ⊢
        obtain rfl := Option.some.inj (after.symm.trans hu)
        exact unsent
      · rw [stage, Function.update_of_ne hut] at hu ⊢
        have hki : k ≠ i := by
          rintro rfl
          exact hother u hut hu
        rw [hsent k hki]
        exact h.working u k hu
    · have hoi : o.number ≠ i := by
        rintro rfl
        exact hout (List.mem_map_of_mem ho)
      rw [hsent _ hoi]
      exact h.finished o ho hf
  | @finish t i s' before leaves unsent logged =>
    rw [outcomes_of_leaves hc rfl hs before leaves]
    exact h.leave before leaves (hc.of_step hs) (fun _ => unsent) logged
  | @fail a t i s' thread fails before leaves logged =>
    rw [outcomes_of_leaves hc thread hs before leaves]
    refine h.leave before leaves (hc.of_step hs) (fun hf => ?_) ?_
    · rw [fails] at hf
      cases hf
    · rw [fails, logged]
      exact (List.append_nil _).symm

/-! ## Runs -/

theorem isolated_of_run {as : List Action} (h : run (step cfg) (State.init cfg) as = some s) :
    Isolated cfg (trace (step cfg) (outcomes cfg) (State.init cfg) as) s :=
  have hall : Meets (step cfg) (fun _ _ => True) (State.init cfg) as :=
    meets_of_forall_mem fun _ _ _ => trivial
  trace_invariant (fun _ _ _ _ h _ hs => h.of_step hs) Isolated.init hall h

theorem taken_append_queue {as : List Action}
    (h : run (step cfg) (State.init cfg) as = some s) :
    trace (step cfg) taken (State.init cfg) as ++ s.workQueue.map Task.number =
      List.range s.accepted := by
  have hall := @trace_invariant State Action ℕ (step cfg) (fun _ _ => True)
    (fun out s => Coordinated cfg s ∧ out ++ s.workQueue.map Task.number = List.range s.accepted)
    taken (fun _ _ _ _ h _ hs => ⟨h.1.of_step hs, taken_append_queue_of_step h.1 h.2 hs⟩)
    [] (State.init cfg) s as ⟨Coordinated.init, rfl⟩ (meets_of_forall_mem fun _ _ _ => trivial) h
  exact hall.2

/-- In every run, with any clients and any failures: as many threads as the pool has connections
wait for a task or have one, the tasks are taken in the order in which they were accepted, and each
accepted request has ended once, is with one worker, or waits in the queue. -/
theorem requests_accounted (cfg : Config) (as : List Action) (s : State)
    (h : run (step cfg) (State.init cfg) as = some s) :
    total s.spawned Stage.live s.stage = cfg.maxConnections ∧
      trace (step cfg) taken (State.init cfg) as ++ s.workQueue.map Task.number =
        List.range s.accepted ∧
      ((trace (step cfg) (outcomes cfg) (State.init cfg) as).map Outcome.number ++ s.held ++
        s.workQueue.map Task.number).Perm (List.range s.accepted) := by
  have hledger := (isolated_of_run h).ledger
  exact ⟨hledger.live, taken_append_queue h, hledger.perm_range⟩

/-- The first client disconnects with the page locked, and the second one waits for it. -/
theorem requests_accounted_leakRun :
    ∃ s, run (step contendedClients) (State.init contendedClients) leakRun = some s ∧
      total s.spawned Stage.live s.stage = 2 ∧
      trace (step contendedClients) taken (State.init contendedClients) leakRun ++
        s.workQueue.map Task.number = List.range s.accepted ∧
      ((trace (step contendedClients) (outcomes contendedClients) (State.init contendedClients)
        leakRun).map Outcome.number ++ s.held ++ s.workQueue.map Task.number).Perm
          (List.range s.accepted) := by
  obtain ⟨s, hs⟩ := Option.isSome_iff_exists.1 (show
    (run (step contendedClients) (State.init contendedClients) leakRun).isSome = true
      by decide +kernel)
  exact ⟨s, hs, requests_accounted contendedClients leakRun s hs⟩

/-- In every run, with any clients and any failures: what a client has received is the beginning of
what it receives when its request is handled alone; it is the whole when the request has ended
without a failure of its own; and the calls of `logRequest` are those of the requests that have
ended without a failure, in that order. -/
theorem responses_isolated (cfg : Config) (as : List Action) (s : State)
    (h : run (step cfg) (State.init cfg) as = some s) :
    (∀ i, s.sent i <+: (aloneAt cfg i).sent) ∧
      (∀ o ∈ trace (step cfg) (outcomes cfg) (State.init cfg) as, o.failed = false →
        s.sent o.number = (aloneAt cfg o.number).sent) ∧
      s.logged = ((trace (step cfg) (outcomes cfg) (State.init cfg) as).filter
        fun o => !o.failed).flatMap fun o => (aloneAt cfg o.number).logged :=
  have hisolated := isolated_of_run h
  ⟨hisolated.received, hisolated.finished, hisolated.logged⟩

theorem responses_isolated_leakRun :
    ∃ s, run (step contendedClients) (State.init contendedClients) leakRun = some s ∧
      (∀ i, s.sent i <+: (aloneAt contendedClients i).sent) ∧
      (∀ o ∈ trace (step contendedClients) (outcomes contendedClients)
        (State.init contendedClients) leakRun, o.failed = false →
          s.sent o.number = (aloneAt contendedClients o.number).sent) ∧
      s.logged = ((trace (step contendedClients) (outcomes contendedClients)
        (State.init contendedClients) leakRun).filter fun o => !o.failed).flatMap
          fun o => (aloneAt contendedClients o.number).logged := by
  obtain ⟨s, hs⟩ := Option.isSome_iff_exists.1 (show
    (run (step contendedClients) (State.init contendedClients) leakRun).isSome = true
      by decide +kernel)
  exact ⟨s, hs, responses_isolated contendedClients leakRun s hs⟩

end Server
