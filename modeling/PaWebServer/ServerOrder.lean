import Mathlib.Data.List.Induction
import PaWebServer.ServerRequests

/-!
# The order of the answers

The pool takes the requests in the order in which they were accepted, and its threads end them in
another one.  When a request ends, the earlier ones that have not ended are with other threads, so
there are fewer of them than the pool has threads (`overtaking_bounded`).
-/

namespace Server

open Transition Tally

variable {cfg : Config} {s : State} {t n i : ℕ} {l : List ℕ}

/-! ## Numbers that come almost in order -/

/-- At each number, fewer than `n` smaller ones have not come yet. -/
def InTurn (n : ℕ) (l : List ℕ) : Prop :=
  ∀ front i back, l = front ++ i :: back →
    ((List.range i).filter fun j => j ∉ front).length < n

theorem inTurn_nil : InTurn n [] := fun _ _ _ h => by simp at h

theorem InTurn.concat (h : InTurn n l)
    (hi : ((List.range i).filter fun j => j ∉ l).length < n) : InTurn n (l ++ [i]) := by
  intro front k back heq
  rcases List.eq_nil_or_concat back with rfl | ⟨back, x, rfl⟩
  · obtain ⟨rfl, hk⟩ := List.append_inj' heq rfl
    obtain rfl := List.singleton_inj.1 hk
    exact hi
  · rw [List.concat_eq_append, ← List.cons_append, ← List.append_assoc] at heq
    obtain ⟨hl, -⟩ := List.append_inj' heq rfl
    exact h front k back hl

/-- When no smaller number is missing, the numbers come in order. -/
theorem InTurn.eq_range (h : InTurn 1 l) (hnodup : l.Nodup) : l = List.range l.length := by
  induction l using List.reverseRecOn with
  | nil => rfl
  | append_singleton l i ih =>
    obtain ⟨hnodup, -, hdisjoint⟩ := List.nodup_append.1 hnodup
    have hl : l = List.range l.length := by
      refine ih (fun front k back hl => h front k (back ++ [i]) ?_) hnodup
      rw [hl, List.append_assoc, List.cons_append]
    have hlast : ∀ j < i, j ∈ l := by
      have hnil := List.length_eq_zero_iff.1 (Nat.lt_one_iff.1 (h l i [] rfl))
      intro j hj
      by_contra hno
      have hmem : j ∈ (List.range i).filter fun j => j ∉ l := by simp [hj, hno]
      rw [hnil] at hmem
      cases hmem
    have hle : i ≤ l.length := by
      by_contra hlt
      have hmem := hlast l.length (by omega)
      rw [hl] at hmem
      simp at hmem
    have hge : l.length ≤ i := by
      by_contra hlt
      have hmem : i ∈ l := by
        rw [hl]
        simpa using hlt
      exact hdisjoint i hmem i List.mem_cons_self rfl
    rw [List.length_append, List.length_singleton, List.range_succ, ← hl, le_antisymm hle hge]

/-! ## The requests -/

/-- Fewer than the pool has threads are the requests before that of a worker that have not ended. -/
theorem Ledger.overtaken_lt {out : List Outcome} (h : Ledger cfg out s) {taken : List ℕ}
    (htaken : taken ++ s.workQueue.map Task.number = List.range s.accepted)
    (hi : (s.stage t).number? = some i) :
    ((List.range i).filter fun j => j ∉ out.map Outcome.number).length < cfg.maxConnections := by
  obtain ⟨haccepted, hout, hqueue, -⟩ := h.owns hi
  have horder : (taken ++ s.workQueue.map Task.number).Pairwise (· < ·) :=
    htaken ▸ List.pairwise_lt_range
  have hmem : i ∈ taken := by
    have hrange := List.mem_range.2 haccepted
    rw [← htaken] at hrange
    exact (List.mem_append.1 hrange).resolve_right hqueue
  have hbefore : ∀ j < i, j ∉ s.workQueue.map Task.number := fun j hj hjq =>
    absurd ((List.pairwise_append.1 horder).2.2 i hmem j hjq) (by omega)
  have hheld : ∀ j < s.accepted, j ∉ out.map Outcome.number →
      j ∉ s.workQueue.map Task.number → j ∈ s.held := by
    intro j hj hjout hjqueue
    have hall := h.perm_range.mem_iff.2 (List.mem_range.2 hj)
    simp only [List.mem_append] at hall
    exact (hall.resolve_right hjqueue).resolve_left hjout
  have hsub : ((List.range i).filter (fun j => j ∉ out.map Outcome.number) ++ [i]) ⊆ s.held := by
    intro j hj
    rcases List.mem_append.1 hj with hj | hj
    · obtain ⟨hlt, hno⟩ := List.mem_filter.1 hj
      have hji := List.mem_range.1 hlt
      exact hheld j (by omega) (of_decide_eq_true hno) (hbefore j hji)
    · rw [List.mem_singleton.1 hj]
      exact hheld i haccepted hout hqueue
  have hnodup : ((List.range i).filter (fun j => j ∉ out.map Outcome.number) ++ [i]).Nodup := by
    refine List.nodup_append.2 ⟨List.nodup_range.filter _, List.nodup_singleton i, ?_⟩
    intro j hj k hk hjk
    have hlt := List.mem_range.1 (List.mem_filter.1 hj).1
    rw [hjk, List.mem_singleton.1 hk] at hlt
    exact Nat.lt_irrefl i hlt
  have hlength := (List.subperm_of_subset hnodup hsub).length_le
  have hlive : s.held.length ≤ total s.spawned Stage.live s.stage := by
    refine length_gather_le fun k _ hk => ?_
    obtain ⟨j, hj⟩ := Option.isSome_iff_exists.1 hk
    exact (Stage.live_of_number hj).ge
  rw [List.length_append, List.length_singleton] at hlength
  have := h.live
  omega

/-- A step ends at most one request, of a worker that had it. -/
theorem outcomes_cases (cfg : Config) (s : State) (a : Action) :
    outcomes cfg s a = [] ∨
      ∃ t i failed, (s.stage t).number? = some i ∧ outcomes cfg s a = [⟨i, failed⟩] := by
  unfold outcomes
  split
  · rename_i t s' _ _
    split_ifs
    · cases hi : (s.stage t).number? with
      | none => exact Or.inl rfl
      | some i => exact Or.inr ⟨t, i, _, hi, rfl⟩
    · exact Or.inl rfl
  · exact Or.inl rfl

/-- In every run, with any clients and any failures: when a request ends, fewer than the pool has
threads are the requests accepted before it that have not ended; and a pool of one thread ends the
requests in the order in which they were accepted. -/
theorem overtaking_bounded (cfg : Config) (as : List Action) (s : State)
    (h : run (step cfg) (State.init cfg) as = some s) :
    InTurn cfg.maxConnections
        ((trace (step cfg) (outcomes cfg) (State.init cfg) as).map Outcome.number) ∧
      (cfg.maxConnections = 1 →
        (trace (step cfg) (outcomes cfg) (State.init cfg) as).map Outcome.number =
          List.range (trace (step cfg) (outcomes cfg) (State.init cfg) as).length) := by
  have hall := @trace_invariant State Action Outcome (step cfg) (fun _ _ => True)
    (fun out s => Ledger cfg out s ∧
      (∃ taken, taken ++ s.workQueue.map Task.number = List.range s.accepted) ∧
        InTurn cfg.maxConnections (out.map Outcome.number)) (outcomes cfg)
    (fun out s a s' hinv _ hs => by
      obtain ⟨hledger, ⟨tasks, htasks⟩, hturn⟩ := hinv
      refine ⟨hledger.of_step hs,
        ⟨_, taken_append_queue_of_step hledger.coordinated htasks hs⟩, ?_⟩
      rcases outcomes_cases cfg s a with hnone | ⟨t, i, failed, hi, hone⟩
      · rwa [hnone, List.append_nil]
      · rw [hone, List.map_append]
        exact hturn.concat (hledger.overtaken_lt htasks hi))
    [] (State.init cfg) s as ⟨Ledger.init, ⟨[], rfl⟩, inTurn_nil⟩
    (meets_of_forall_mem fun _ _ _ => trivial) h
  obtain ⟨hledger, -, hturn⟩ := hall
  refine ⟨hturn, fun hone => ?_⟩
  rw [List.nil_append, hone] at hturn
  rw [hturn.eq_range hledger.nodup, List.length_map]

/-- The first client disconnects with the page locked, and the second one waits for it. -/
theorem overtaking_bounded_leakRun :
    ∃ s, run (step contendedClients) (State.init contendedClients) leakRun = some s ∧
      InTurn contendedClients.maxConnections
        ((trace (step contendedClients) (outcomes contendedClients)
          (State.init contendedClients) leakRun).map Outcome.number) ∧
      (contendedClients.maxConnections = 1 →
        (trace (step contendedClients) (outcomes contendedClients)
          (State.init contendedClients) leakRun).map Outcome.number =
          List.range (trace (step contendedClients) (outcomes contendedClients)
            (State.init contendedClients) leakRun).length) := by
  obtain ⟨s, hs⟩ := Option.isSome_iff_exists.1 (show
    (run (step contendedClients) (State.init contendedClients) leakRun).isSome = true
      by decide +kernel)
  exact ⟨s, hs, overtaking_bounded contendedClients leakRun s hs⟩

end Server
