import PaWebServer.Lib.ReentrantLock
import Mathlib.Logic.Function.Basic

/-!
# A table of fair locks

One fair reentrant lock for each key, all of them free at the start.  A thread calls `lock` and
`unlock` of any of them; a `lock` by a thread that is not the owner only puts the thread in the
queue, and the lock is granted to it in a step of its own.
-/

/-- One fair lock for each key. -/
abbrev LockTable (κ τ : Type*) := κ → ReentrantLock τ

namespace LockTable

variable {κ τ : Type*}

/-- The table in which nobody holds a lock. -/
def init (κ τ : Type*) : LockTable κ τ := fun _ => .free

inductive Action (κ τ : Type*) where
  | lock (t : τ) (k : κ)
  | grant (t : τ) (k : κ)
  | unlock (t : τ) (k : κ)
  deriving DecidableEq

/-- The key of the lock that the action is about. -/
def Action.key : Action κ τ → κ
  | .lock _ k | .grant _ k | .unlock _ k => k

/-- The thread is in the queue of no lock. -/
def Awake (s : LockTable κ τ) (t : τ) : Prop := ∀ k, t ∉ (s k).waiting

/-- A thread that waits for a lock calls no other method before the lock is granted to it. -/
def Sequential (s : LockTable κ τ) : Action κ τ → Prop
  | .lock t _ | .unlock t _ => Awake s t
  | .grant _ _ => True

variable [DecidableEq κ] [DecidableEq τ]

def step (s : LockTable κ τ) : Action κ τ → Option (LockTable κ τ)
  | .lock t k => some (Function.update s k ((s k).lock t))
  | .grant t k => ((s k).grant t).map (Function.update s k)
  | .unlock t k => ((s k).unlock t).map (Function.update s k)

end LockTable
