import PaWebServer.ServerRequests

/-!
# Failures that harm no other client

Unless a worker fails while it holds the lock of a page, a run does not stop before every client
has been dealt with, and a failure costs no client but its own the answer (`failures_contained`).
-/

namespace Server

open FileTree RequestHandler RequestThread PageHandler Transition Tally

variable {cfg : Config} {s : State} {a : Action}

/-! ## A server that goes on -/

/-- The pool has a thread that waits for a task when no thread has one. -/
theorem Ledger.exists_idle {out : List Outcome} (h : Ledger cfg out s)
    (hpool : 1 ≤ cfg.maxConnections) (hfree : ∀ t i, (s.stage t).number? ≠ some i) :
    ∃ t, s.stage t = .idle := by
  by_contra hno
  push Not at hno
  have hzero : total s.spawned Stage.live s.stage = 0 := by
    refine total_eq_zero_iff.2 fun t _ => ?_
    have hnone := hfree t
    have hidle := hno t
    cases hst : s.stage t <;> simp_all [Stage.number?, Stage.live]
  have := h.live
  omega

/-- While each lock is held only for the page that its owner is serving, some thread can go on as
long as a request is unfinished. -/
theorem Ledger.exists_enabled {out : List Outcome} (h : Ledger cfg out s) (hexact : Exact s)
    (hpool : 1 ≤ cfg.maxConnections) (hu : Unfinished cfg s) :
    ∃ a, NoFailure s a ∧ step cfg s a ≠ none := by
  have hc := h.coordinated
  by_cases hbusy : ∃ t i, (s.stage t).number? = some i
  · obtain ⟨t, i, hi⟩ := hbusy
    obtain ⟨u, hwork⟩ := exists_work_of_number hc hexact hi
    exact ⟨.worker u, trivial, hwork⟩
  · push Not at hbusy
    rcases hu with hacc | hqueue | ⟨t, i, hi⟩
    · exact ⟨.accept, trivial, by simp [step, State.accept, hacc]⟩
    · obtain ⟨t, hidle⟩ := h.exists_idle hpool hbusy
      obtain ⟨task, q, hq⟩ := List.exists_cons_of_ne_nil hqueue
      exact ⟨.worker t, trivial, by simp [step, State.work, hidle, hq]⟩
    · exact absurd hi (hbusy t i)

theorem Ledger.outcomes_perm {out : List Outcome} (h : Ledger cfg out s)
    (haccepted : s.accepted = cfg.clients.length) (hqueue : s.workQueue = [])
    (hfree : ∀ t i, (s.stage t).number? ≠ some i) :
    (out.map Outcome.number).Perm (List.range cfg.clients.length) := by
  rw [List.perm_iff_count]
  intro i
  have hzero : total s.spawned (Stage.has i) s.stage = 0 :=
    total_eq_zero_iff.2 fun t _ => if_neg (hfree t i)
  have honce := h.once i
  rw [hzero, hqueue, haccepted] at honce
  simpa [List.nodup_range.count] using honce

theorem accepted_le_of_run {as : List Action}
    (h : run (step cfg) (State.init cfg) as = some s) : s.accepted ≤ cfg.clients.length := by
  refine run_invariant (I := fun s => Coordinated cfg s ∧ s.accepted ≤ cfg.clients.length)
    (fun s a s' hI hs => ⟨hI.1.of_step hs, ?_⟩) ⟨Coordinated.init, Nat.zero_le _⟩ h |>.2
  cases flow_of_step hI.1 hs with
  | accept next => exact (List.getElem?_eq_some_iff.1 next).1
  | take => exact hI.2
  | goOn _ _ _ _ accepted => exact accepted ▸ hI.2
  | finish _ leaves | fail _ _ _ leaves => exact leaves.accepted ▸ hI.2

theorem exists_enabled_of_run (hpool : 1 ≤ cfg.maxConnections) {as : List Action}
    (hm : Meets (step cfg) KeepsLocks (State.init cfg) as)
    (hrun : run (step cfg) (State.init cfg) as = some s) (hu : Unfinished cfg s) :
    ∃ a, NoFailure s a ∧ step cfg s a ≠ none :=
  (isolated_of_run hrun).ledger.exists_enabled (exact_of_run hm hrun).2 hpool hu

/-- Where no thread can go on, no thread has a request, and each request has ended once. -/
theorem finished_of_stuck (hpool : 1 ≤ cfg.maxConnections) {as : List Action}
    (hm : Meets (step cfg) KeepsLocks (State.init cfg) as)
    (hrun : run (step cfg) (State.init cfg) as = some s)
    (hfinal : ∀ a, NoFailure s a → step cfg s a = none) :
    (∀ t i, (s.stage t).number? ≠ some i) ∧
      ((trace (step cfg) (outcomes cfg) (State.init cfg) as).map Outcome.number).Perm
        (List.range cfg.clients.length) := by
  have hfinished : ¬ Unfinished cfg s := fun hu => by
    obtain ⟨a, ha, hstep⟩ := exists_enabled_of_run hpool hm hrun hu
    exact hstep (hfinal a ha)
  simp only [Unfinished, not_or, not_lt, not_not, not_exists] at hfinished
  obtain ⟨hacc, hqueue, hidle⟩ := hfinished
  exact ⟨hidle, (isolated_of_run hrun).ledger.outcomes_perm
    (le_antisymm (accepted_le_of_run hrun) hacc) hqueue hidle⟩

/-- The requests that a failure has ended. -/
def failedRequests (out : List Outcome) : List ℕ := (out.filter Outcome.failed).map Outcome.number

theorem mem_failedRequests {out : List Outcome} {i : ℕ} :
    i ∈ failedRequests out ↔ ⟨i, true⟩ ∈ out := by
  constructor
  · intro h
    obtain ⟨⟨k, failed⟩, ho, rfl⟩ := List.mem_map.1 h
    obtain ⟨ho, rfl⟩ := List.mem_filter.1 ho
    exact ho
  · intro h
    exact List.mem_map.2 ⟨_, List.mem_filter.2 ⟨h, rfl⟩, rfl⟩

/-- A request that has ended, and not with a failure, has been answered. -/
theorem Isolated.sent_of_not_failed {out : List Outcome} (h : Isolated cfg out s) {i : ℕ}
    (hi : i ∈ out.map Outcome.number) (hno : i ∉ failedRequests out) :
    s.sent i = (aloneAt cfg i).sent := by
  obtain ⟨⟨k, failed⟩, ho, rfl⟩ := List.mem_map.1 hi
  cases failed with
  | true => exact absurd (mem_failedRequests.2 ho) hno
  | false => exact h.finished _ ho rfl

/-- Any clients, and failures of any operation, but none while the worker holds the lock of a page:
the server can go on as long as a request is unfinished; and where it can not, each request has
ended once, every lock is free, and each client but those whose own request has failed has received
what it receives when its request is handled alone. -/
theorem failures_contained (cfg : Config) (hpool : 1 ≤ cfg.maxConnections) (as : List Action)
    (s : State) (hm : Meets (step cfg) KeepsLocks (State.init cfg) as)
    (hrun : run (step cfg) (State.init cfg) as = some s) :
    (Unfinished cfg s → ∃ a, NoFailure s a ∧ step cfg s a ≠ none) ∧
      ((∀ a, NoFailure s a → step cfg s a = none) →
        ((trace (step cfg) (outcomes cfg) (State.init cfg) as).map Outcome.number).Perm
            (List.range cfg.clients.length) ∧
          (∀ l, (s.pages.locks l).owner = none) ∧
          ∀ i c, cfg.clients[i]? = some c →
            i ∉ failedRequests (trace (step cfg) (outcomes cfg) (State.init cfg) as) →
              s.sent i = (alone cfg.fs c).sent) := by
  obtain ⟨hc, hexact⟩ := exact_of_run hm hrun
  refine ⟨exists_enabled_of_run hpool hm hrun, fun hfinal => ?_⟩
  obtain ⟨hidle, hperm⟩ := finished_of_stuck hpool hm hrun hfinal
  refine ⟨hperm, locks_free hc hexact hidle, fun i c hi hno => ?_⟩
  have hmem := hperm.mem_iff.2 (List.mem_range.2 (List.getElem?_eq_some_iff.1 hi).1)
  rw [(isolated_of_run hrun).sent_of_not_failed hmem hno]
  simp [aloneAt, hi]

/-- The first request is answered, and the second one cannot be read. -/
theorem failures_contained_readFailureRun :
    ∃ s, run (step twoClients) (State.init twoClients) readFailureRun = some s ∧
      (Unfinished twoClients s → ∃ a, NoFailure s a ∧ step twoClients s a ≠ none) ∧
      ((∀ a, NoFailure s a → step twoClients s a = none) →
        s.sent 0 = (alone sampleFiles getRoot).sent) := by
  obtain ⟨s, hs⟩ := Option.isSome_iff_exists.1 (show
    (run (step twoClients) (State.init twoClients) readFailureRun).isSome = true by decide +kernel)
  obtain ⟨hgo, hend⟩ :=
    failures_contained twoClients (by decide) readFailureRun s (by decide +kernel) hs
  exact ⟨s, hs, hgo, fun hfinal => (hend hfinal).2.2 0 getRoot rfl (by decide +kernel)⟩

end Server
