import Mathlib.Data.List.Nodup
import Mathlib.Data.Option.Basic

/-!
# Reentrant locks

A reentrant lock has an owner, the number of times the owner holds it, and the queue of the
threads that wait for it.  A fair lock lets a thread in only from the head of the queue
(`lock`, `grant`); a lock that is not fair gives itself to whichever thread finds it free
(`acquire`).  `unlock` by a thread that is not the owner fails, as it does in
`java.util.concurrent.locks`.
-/

/-- A reentrant lock over the thread names `τ`; it is owned exactly when it is held. -/
structure ReentrantLock (τ : Type*) where
  owner : Option τ
  holdCount : ℕ
  waiting : List τ
  owned_iff_held : owner.isSome ↔ 0 < holdCount

namespace ReentrantLock

variable {τ : Type*}

/-- A lock that nobody holds or waits for. -/
def free : ReentrantLock τ := ⟨none, 0, [], by simp⟩

@[simp] theorem free_owner : (free : ReentrantLock τ).owner = none := rfl

@[simp] theorem free_waiting : (free : ReentrantLock τ).waiting = [] := rfl

/-- The thread owns the lock the given number of times, and the queue is `waiting`. -/
def heldBy (t : τ) (extra : ℕ) (waiting : List τ) : ReentrantLock τ :=
  ⟨some t, extra + 1, waiting, by simp⟩

/-- Nobody holds the lock; `waiting` is its queue. -/
def unowned (waiting : List τ) : ReentrantLock τ := ⟨none, 0, waiting, by simp⟩

@[simp] theorem heldBy_waiting (t : τ) (n : ℕ) (q : List τ) : (heldBy t n q).waiting = q := rfl

variable [DecidableEq τ]

/-- How often the thread holds the lock. -/
def getHoldCount (l : ReentrantLock τ) (t : τ) : ℕ := if l.owner = some t then l.holdCount else 0

@[simp] theorem getHoldCount_heldBy_self (t : τ) (n : ℕ) (q : List τ) :
    (heldBy t n q).getHoldCount t = n + 1 := by
  simp [getHoldCount, heldBy]

theorem getHoldCount_heldBy_ne {t u : τ} (h : u ≠ t) (n : ℕ) (q : List τ) :
    (heldBy t n q).getHoldCount u = 0 := by
  simp [getHoldCount, heldBy, h.symm]

theorem getHoldCount_pos_iff {l : ReentrantLock τ} {t : τ} :
    0 < l.getHoldCount t ↔ l.owner = some t := by
  unfold getHoldCount
  split_ifs with h
  · exact iff_of_true (l.owned_iff_held.1 (by simp [h])) h
  · exact iff_of_false (Nat.lt_irrefl 0) h

theorem getHoldCount_eq_zero_of_owner_none {l : ReentrantLock τ} (h : l.owner = none) (t : τ) :
    l.getHoldCount t = 0 := by
  simp [getHoldCount, h]

/-- `lock()` on a fair lock: the owner enters again at once, any other thread queues. -/
def lock (l : ReentrantLock τ) (t : τ) : ReentrantLock τ :=
  if l.owner = some t then heldBy t l.holdCount l.waiting
  else { l with waiting := l.waiting ++ [t] }

/-- The lock is free and `t` is the first in its queue: `t` becomes the owner. -/
def grant (l : ReentrantLock τ) (t : τ) : Option (ReentrantLock τ) :=
  if l.owner = none ∧ l.waiting.head? = some t then some (heldBy t 0 l.waiting.tail) else none

/-- `lock()` on a lock that is not fair: it returns once the lock is free or the caller's. -/
def acquire (l : ReentrantLock τ) (t : τ) : Option (ReentrantLock τ) :=
  if l.owner = none then some (heldBy t 0 l.waiting)
  else if l.owner = some t then some (heldBy t l.holdCount l.waiting)
  else none

/-- `unlock()`; `none` is the IllegalMonitorStateException of a caller that is not the owner. -/
def unlock (l : ReentrantLock τ) (t : τ) : Option (ReentrantLock τ) :=
  if l.owner = some t then
    match l.holdCount with
    | n + 2 => some (heldBy t n l.waiting)
    | _ => some (unowned l.waiting)
  else none

/-! ## What the operations do to hold counts and queues -/

theorem lock_of_owner {l : ReentrantLock τ} {t : τ} (h : l.owner = some t) :
    l.lock t = heldBy t l.holdCount l.waiting :=
  if_pos h

theorem lock_waiting_of_ne {l : ReentrantLock τ} {t : τ} (h : l.owner ≠ some t) :
    (l.lock t).waiting = l.waiting ++ [t] := by
  simp [lock, h]

theorem getHoldCount_lock_of_ne {l : ReentrantLock τ} {t : τ} (h : l.owner ≠ some t) (u : τ) :
    (l.lock t).getHoldCount u = l.getHoldCount u := by
  simp [lock, h, getHoldCount]

theorem getHoldCount_lock_of_owner {l : ReentrantLock τ} {t : τ} (h : l.owner = some t) (u : τ) :
    (l.lock t).getHoldCount u = if u = t then l.getHoldCount u + 1 else l.getHoldCount u := by
  rw [lock_of_owner h]
  by_cases hu : u = t
  · simp [hu, getHoldCount, h, heldBy]
  · rw [getHoldCount_heldBy_ne hu, if_neg hu]
    simp [getHoldCount, h, Ne.symm hu]

theorem grant_eq_some {l k : ReentrantLock τ} {t : τ} (h : l.grant t = some k) :
    l.owner = none ∧ l.waiting = t :: k.waiting ∧ k = heldBy t 0 k.waiting := by
  unfold grant at h
  split_ifs at h with hc
  obtain rfl := Option.some.inj h
  refine ⟨hc.1, ?_, rfl⟩
  obtain ⟨rest, hw⟩ := List.head?_eq_some_iff.1 hc.2
  simp [hw]

theorem grant_isSome_of_head {l : ReentrantLock τ} {t : τ} {q : List τ} (h : l.owner = none)
    (hw : l.waiting = t :: q) : l.grant t = some (heldBy t 0 q) := by
  simp [grant, h, hw]

theorem unlock_eq_some {l k : ReentrantLock τ} {t : τ} (h : l.unlock t = some k) :
    l.owner = some t ∧ k.waiting = l.waiting ∧
      ∀ u, k.getHoldCount u = if u = t then l.getHoldCount u - 1 else l.getHoldCount u := by
  unfold unlock at h
  split_ifs at h with ho
  have hpos : 0 < l.holdCount := l.owned_iff_held.1 (by simp [ho])
  have hother : ∀ u, u ≠ t → l.getHoldCount u = 0 := fun u hu => by
    simp [getHoldCount, ho, hu.symm]
  have hself : l.getHoldCount t = l.holdCount := by simp [getHoldCount, ho]
  split at h
  · rename_i n hn
    obtain rfl := Option.some.inj h
    refine ⟨ho, rfl, fun u => ?_⟩
    split_ifs with hu
    · rw [hu, hself, hn, getHoldCount_heldBy_self]
      rfl
    · rw [hother u hu, getHoldCount_heldBy_ne hu]
  · rename_i hn
    obtain rfl := Option.some.inj h
    have hone : l.holdCount = 1 := by
      rcases hc : l.holdCount with _ | _ | n
      · omega
      · rfl
      · exact absurd hc (hn n)
    refine ⟨ho, rfl, fun u => ?_⟩
    split_ifs with hu
    · rw [hu, hself, hone]
      rfl
    · rw [hother u hu]
      rfl

theorem unlock_ne_none {l : ReentrantLock τ} {t : τ} (h : l.owner = some t) :
    l.unlock t ≠ none := by
  unfold unlock
  rw [if_pos h]
  split <;> simp

theorem unlock_heldBy_zero (t : τ) (q : List τ) : (heldBy t 0 q).unlock t = some (unowned q) := by
  simp [unlock, heldBy]

theorem acquire_of_owner_none {l : ReentrantLock τ} (h : l.owner = none) (t : τ) :
    l.acquire t = some (heldBy t 0 l.waiting) :=
  if_pos h

theorem acquire_free (t : τ) : (free : ReentrantLock τ).acquire t = some (heldBy t 0 []) :=
  acquire_of_owner_none rfl t

/-- A lock that is taken once and given back is free. -/
theorem unlock_acquired (t : τ) : (heldBy t 0 []).unlock t = some free := unlock_heldBy_zero t []

end ReentrantLock
