import PaWebServer.Lib.ReentrantLock
import PaWebServer.Lib.Text
import PaWebServer.Lib.Transition
import Mathlib.Logic.Function.Basic

/-!
# The page handler

`PageHandler` keeps one fair `ReentrantLock` for each page in a `ConcurrentHashMap`.  A call of
`lockAccessPage` is three atomic steps (`putIfAbsent` of a lock made for this call, `get`,
`lock`), and so is the pause of a thread that waits in the lock's queue; a call of
`unlockAccessPage` is two (`get`, `unlock`).  The state below keeps the map, the heap of locks,
where each thread is inside such a call, and how many calls of `lockAccessPage` it has not undone
yet.
-/

namespace PageHandler

open Transition

/-- The key of a page: the text of its path. -/
abbrev Page := Text

/-- A reference to a `ReentrantLock` object. -/
abbrev LockId := ℕ

/-- `page.endsWith("404.html")`: such pages are never locked. -/
def exempt (page : Page) : Bool := Text.endsWith page "404.html".toList

/-- Where a thread is inside a call of the page handler. -/
inductive Call where
  | idle
  | putIfAbsent (page : Page)
  | getToLock (page : Page)
  | lock (page : Page) (l : LockId)
  | parked (page : Page) (l : LockId)
  | getToUnlock (page : Page)
  | unlock (page : Page) (l : LockId)
  | threw
  deriving DecidableEq

structure State (τ : Type*) where
  lockConcurrentHashMap : Page → Option LockId
  /-- The lock objects; those from `fresh` on are not allocated yet. -/
  locks : LockId → ReentrantLock τ
  fresh : LockId
  call : τ → Call
  /-- Calls of `lockAccessPage` that have returned, less the calls of `unlockAccessPage` that have
  returned. -/
  opened : τ → Page → ℕ

/-- The handler that the constructor makes, before any thread calls it. -/
def State.init (τ : Type*) : State τ where
  lockConcurrentHashMap _ := none
  locks _ := .free
  fresh := 0
  call _ := .idle
  opened _ _ := 0

variable {τ : Type*} [DecidableEq τ]

namespace State

variable (s : State τ) (t : τ)

/-- The thread moves on to `c` inside its call. -/
def setCall (c : Call) : State τ := { s with call := Function.update s.call t c }

/-- The thread's call changes the object `l`, and the thread moves on to `c`. -/
def setLock (l : LockId) (lk : ReentrantLock τ) (c : Call) : State τ :=
  { s with locks := Function.update s.locks l lk, call := Function.update s.call t c }

/-- The thread has `n` calls of `lockAccessPage(page)` to undo. -/
def setOpened (page : Page) (n : ℕ) : State τ :=
  { s with opened := Function.update s.opened t (Function.update (s.opened t) page n) }

/-- `createEntry`: `putIfAbsent(page, new ReentrantLock(true))`. -/
def createEntry (page : Page) : State τ :=
  { s with
    lockConcurrentHashMap :=
      if s.lockConcurrentHashMap page = none then
        Function.update s.lockConcurrentHashMap page (some s.fresh)
      else s.lockConcurrentHashMap
    fresh := s.fresh + 1 }

/-- The next atomic step of the call in which the thread is. -/
def advance : Option (State τ) :=
  match s.call t with
  | .idle => none
  | .putIfAbsent page => some ((s.createEntry page).setCall t (.getToLock page))
  | .getToLock page =>
    match s.lockConcurrentHashMap page with
    | none => some (s.setCall t .threw)
    | some l => some (s.setCall t (.lock page l))
  | .lock page l =>
    if (s.locks l).owner = some t then
      some ((s.setLock t l ((s.locks l).lock t) .idle).setOpened t page (s.opened t page + 1))
    else some (s.setLock t l ((s.locks l).lock t) (.parked page l))
  | .parked page l =>
    -- The thread sleeps in the lock's queue until the lock is granted to it.
    match (s.locks l).grant t with
    | none => none
    | some lk => some ((s.setLock t l lk .idle).setOpened t page (s.opened t page + 1))
  | .getToUnlock page =>
    match s.lockConcurrentHashMap page with
    | none => some (s.setCall t .threw)
    | some l => some (s.setCall t (.unlock page l))
  | .unlock page l =>
    match (s.locks l).unlock t with
    | none => some (s.setCall t .threw)
    | some lk => some ((s.setLock t l lk .idle).setOpened t page (s.opened t page - 1))
  | .threw => none

/-- The thread calls `lockAccessPage(page)`. -/
def lockAccessPage (page : Page) : Option (State τ) :=
  if s.call t = .idle then
    if exempt page then some (s.setOpened t page (s.opened t page + 1))
    else some (s.setCall t (.putIfAbsent page))
  else none

/-- The thread calls `unlockAccessPage(page)`. -/
def unlockAccessPage (page : Page) : Option (State τ) :=
  if s.call t = .idle then
    if exempt page then some (s.setOpened t page (s.opened t page - 1))
    else some (s.setCall t (.getToUnlock page))
  else none

end State

inductive Action (τ : Type*) where
  | lockAccessPage (t : τ) (page : Page)
  | unlockAccessPage (t : τ) (page : Page)
  | advance (t : τ)

def step (s : State τ) : Action τ → Option (State τ)
  | .lockAccessPage t page => s.lockAccessPage t page
  | .unlockAccessPage t page => s.unlockAccessPage t page
  | .advance t => s.advance t

/-- A thread calls `unlockAccessPage(page)` only to undo a `lockAccessPage(page)` of its own. -/
def Matched (s : State τ) : Action τ → Prop
  | .unlockAccessPage t page => 0 < s.opened t page
  | _ => True

instance (s : State τ) : (a : Action τ) → Decidable (Matched s a)
  | .unlockAccessPage _ _ => inferInstanceAs (Decidable (0 < _))
  | .lockAccessPage _ _ | .advance _ => isTrue trivial

/-! ## What a run shows of one page -/

/-- The thread that a step puts in the queue of the page's lock. -/
def queuedBy (page : Page) (s : State τ) : Action τ → List τ
  | .advance t =>
    match s.call t with
    | .lock p l => if p = page ∧ (s.locks l).owner ≠ some t then [t] else []
    | _ => []
  | _ => []

/-- The thread that a step lets through to the page from the queue of the page's lock. -/
def enteredBy (page : Page) (s : State τ) : Action τ → List τ
  | .advance t =>
    match s.call t with
    | .parked p _ => if p = page then [t] else []
    | _ => []
  | _ => []

/-- The threads in the order in which they queued on the page's lock. -/
def queued (page : Page) (as : List (Action τ)) : List τ :=
  trace step (queuedBy page) (State.init τ) as

/-- The threads in the order in which they entered the page from its queue. -/
def entered (page : Page) (as : List (Action τ)) : List τ :=
  trace step (enteredBy page) (State.init τ) as

end PageHandler
