import PaWebServer.PageHandler
import Mathlib.Tactic.SplitIfs
import Mathlib.Tactic.Push

/-!
# The page handler protocol

Every thread that locks a page ends on the one lock to which the page is bound, whatever the order
of the `putIfAbsent`, `get` and `lock` steps of the threads.  The invariant `Inv` says this, and
that the hold counts of that lock are the calls of `lockAccessPage` which the threads still have
to undo (`opened`).  From it follow exclusion, the order of entry, and that no call throws.
-/

namespace PageHandler

open Transition

variable {τ : Type*}

/-! ## The page of a call and the lock of a page -/

/-- The page on which a call works. -/
def Call.page? : Call → Option Page
  | .putIfAbsent page | .getToLock page | .lock page _ | .parked page _ | .getToUnlock page
  | .unlock page _ => some page
  | .idle | .threw => none

/-- The lock object that a call has looked up for its page. -/
def Call.target? : Call → Option (Page × LockId)
  | .lock page l | .parked page l | .unlock page l => some (page, l)
  | _ => none

/-- The page that a call of `lockAccessPage` is locking. -/
def Call.locking? : Call → Option Page
  | .putIfAbsent page | .getToLock page | .lock page _ | .parked page _ => some page
  | _ => none

/-- The page that a call of `unlockAccessPage` is unlocking. -/
def Call.unlocking? : Call → Option Page
  | .getToUnlock page | .unlock page _ => some page
  | _ => none

/-- The lock to which the page is bound; a page without a lock is like one whose lock is free. -/
def State.lockOf (s : State τ) (page : Page) : ReentrantLock τ :=
  match s.lockConcurrentHashMap page with
  | none => .free
  | some l => s.locks l

theorem State.lockOf_bound {s : State τ} {page : Page} {l : LockId}
    (h : s.lockConcurrentHashMap page = some l) : s.lockOf page = s.locks l := by
  simp [State.lockOf, h]

theorem State.lockOf_unbound {s : State τ} {page : Page}
    (h : s.lockConcurrentHashMap page = none) : s.lockOf page = .free := by
  simp [State.lockOf, h]

namespace State

variable (s : State τ) (page q : Page)

@[simp] theorem createEntry_call : (s.createEntry page).call = s.call := rfl

theorem createEntry_map_eq_some {m : LockId}
    (h : (s.createEntry page).lockConcurrentHashMap q = some m) :
    s.lockConcurrentHashMap q = some m ∨ q = page ∧ m = s.fresh := by
  simp only [createEntry] at h
  split_ifs at h with hp
  · rw [Function.update_apply] at h
    split_ifs at h with hq
    · exact Or.inr ⟨hq, (Option.some.inj h).symm⟩
    · exact Or.inl h
  · exact Or.inl h

theorem createEntry_map_of_some {m : LockId} (h : s.lockConcurrentHashMap q = some m) :
    (s.createEntry page).lockConcurrentHashMap q = some m := by
  simp only [createEntry]
  split_ifs with hp
  · rw [Function.update_of_ne (by rintro rfl; rw [hp] at h; cases h)]
    exact h
  · exact h

theorem createEntry_map_self : (s.createEntry page).lockConcurrentHashMap page ≠ none := by
  simp only [createEntry]
  split_ifs with hp
  · simp
  · exact hp

end State

variable [DecidableEq τ]

namespace State

variable (s : State τ) (t u : τ) (page q : Page) (l : LockId) (lk : ReentrantLock τ) (c : Call)
  (n : ℕ)

@[simp] theorem setCall_call : (s.setCall t c).call u = if u = t then c else s.call u :=
  Function.update_apply _ _ _ _

@[simp] theorem setLock_call : (s.setLock t l lk c).call u = if u = t then c else s.call u :=
  Function.update_apply _ _ _ _

@[simp] theorem setOpened_call : (s.setOpened t page n).call = s.call := rfl

@[simp] theorem setOpened_opened :
    (s.setOpened t page n).opened u q = if u = t ∧ q = page then n else s.opened u q := by
  by_cases hu : u = t
  · subst hu
    simp [setOpened, Function.update_apply]
  · simp [setOpened, hu]

@[simp] theorem setOpened_self : s.setOpened t page (s.opened t page) = s := by
  simp [setOpened]

@[simp] theorem setLock_opened : (s.setLock t l lk c).opened = s.opened := rfl

@[simp] theorem setCall_lockOf : (s.setCall t c).lockOf = s.lockOf := rfl

@[simp] theorem setOpened_lockOf : (s.setOpened t page n).lockOf = s.lockOf := rfl

end State

/-! ## The steps, one rule for each -/

/-- What each step does, with the test that lets it happen. -/
inductive Step (s : State τ) : Action τ → State τ → Prop
  | lockExempt {t page} (idle : s.call t = .idle) (ex : exempt page = true) :
      Step s (.lockAccessPage t page) (s.setOpened t page (s.opened t page + 1))
  | lockCall {t page} (idle : s.call t = .idle) (ex : exempt page = false) :
      Step s (.lockAccessPage t page) (s.setCall t (.putIfAbsent page))
  | unlockExempt {t page} (idle : s.call t = .idle) (ex : exempt page = true) :
      Step s (.unlockAccessPage t page) (s.setOpened t page (s.opened t page - 1))
  | unlockCall {t page} (idle : s.call t = .idle) (ex : exempt page = false) :
      Step s (.unlockAccessPage t page) (s.setCall t (.getToUnlock page))
  | putIfAbsent {t page} (at_ : s.call t = .putIfAbsent page) :
      Step s (.advance t) ((s.createEntry page).setCall t (.getToLock page))
  | getToLock {t page l} (at_ : s.call t = .getToLock page)
      (bound : s.lockConcurrentHashMap page = some l) :
      Step s (.advance t) (s.setCall t (.lock page l))
  | getToLockNull {t page} (at_ : s.call t = .getToLock page)
      (null : s.lockConcurrentHashMap page = none) : Step s (.advance t) (s.setCall t .threw)
  | reenter {t page l} (at_ : s.call t = .lock page l) (own : (s.locks l).owner = some t) :
      Step s (.advance t)
        ((s.setLock t l ((s.locks l).lock t) .idle).setOpened t page (s.opened t page + 1))
  | park {t page l} (at_ : s.call t = .lock page l) (other : (s.locks l).owner ≠ some t) :
      Step s (.advance t) (s.setLock t l ((s.locks l).lock t) (.parked page l))
  | grant {t page l lk} (at_ : s.call t = .parked page l)
      (granted : (s.locks l).grant t = some lk) :
      Step s (.advance t) ((s.setLock t l lk .idle).setOpened t page (s.opened t page + 1))
  | getToUnlock {t page l} (at_ : s.call t = .getToUnlock page)
      (bound : s.lockConcurrentHashMap page = some l) :
      Step s (.advance t) (s.setCall t (.unlock page l))
  | getToUnlockNull {t page} (at_ : s.call t = .getToUnlock page)
      (null : s.lockConcurrentHashMap page = none) : Step s (.advance t) (s.setCall t .threw)
  | unlock {t page l lk} (at_ : s.call t = .unlock page l)
      (unlocked : (s.locks l).unlock t = some lk) :
      Step s (.advance t) ((s.setLock t l lk .idle).setOpened t page (s.opened t page - 1))
  | unlockIllegal {t page l} (at_ : s.call t = .unlock page l)
      (illegal : (s.locks l).unlock t = none) : Step s (.advance t) (s.setCall t .threw)

theorem step_cases {s s' : State τ} {a : Action τ} (h : step s a = some s') : Step s a s' := by
  cases a with
  | lockAccessPage t page =>
    simp only [step, State.lockAccessPage] at h
    split_ifs at h with hi he <;> obtain rfl := Option.some.inj h
    · exact .lockExempt hi he
    · exact .lockCall hi (by simpa using he)
  | unlockAccessPage t page =>
    simp only [step, State.unlockAccessPage] at h
    split_ifs at h with hi he <;> obtain rfl := Option.some.inj h
    · exact .unlockExempt hi he
    · exact .unlockCall hi (by simpa using he)
  | advance t =>
    simp only [step, State.advance] at h
    split at h
    case h_1 => cases h
    case h_2 hc =>
      obtain rfl := Option.some.inj h
      exact .putIfAbsent hc
    case h_3 hc =>
      split at h <;> obtain rfl := Option.some.inj h
      · exact .getToLockNull hc ‹_›
      · exact .getToLock hc ‹_›
    case h_4 hc =>
      split_ifs at h with ho <;> obtain rfl := Option.some.inj h
      · exact .reenter hc ho
      · exact .park hc ho
    case h_5 hc =>
      split at h
      · cases h
      · obtain rfl := Option.some.inj h
        exact .grant hc ‹_›
    case h_6 hc =>
      split at h <;> obtain rfl := Option.some.inj h
      · exact .getToUnlockNull hc ‹_›
      · exact .getToUnlock hc ‹_›
    case h_7 hc =>
      split at h <;> obtain rfl := Option.some.inj h
      · exact .unlockIllegal hc ‹_›
      · exact .unlock hc ‹_›
    case h_8 => cases h

/-! ## What a step does to its own thread and to the others -/

def Action.thread : Action τ → τ
  | .lockAccessPage t _ | .unlockAccessPage t _ | .advance t => t

/-- A step of one thread leaves the calls of the others alone. -/
theorem step_frame {s s' : State τ} {a : Action τ} (h : step s a = some s') {u : τ}
    (hu : u ≠ a.thread) : s'.call u = s.call u ∧ s'.opened u = s.opened u := by
  cases step_cases h with
  | lockExempt | unlockExempt | reenter | grant | unlock =>
    refine ⟨by simp_all [Action.thread], ?_⟩
    exact Function.update_of_ne hu _ _
  | _ => exact ⟨by simp_all [Action.thread], rfl⟩

section Own

variable {s s' : State τ} {t : τ} {page : Page}

theorem setOpened_own (n : ℕ) :
    (s.setOpened t page n).opened t = Function.update (s.opened t) page n :=
  Function.update_self _ _ _

/-- `lockAccessPage` returns at once, or the thread is in the call. -/
theorem lockAccessPage_cases (h : s.lockAccessPage t page = some s') :
    s'.call t = .idle ∧
        s'.opened t = Function.update (s.opened t) page (s.opened t page + 1) ∨
      (s'.call t).locking? = some page ∧ s'.opened t = s.opened t := by
  cases step_cases (a := .lockAccessPage t page) h with
  | lockExempt idle => exact Or.inl ⟨idle, setOpened_own _⟩
  | lockCall => exact Or.inr ⟨by simp [Call.locking?], rfl⟩

/-- `unlockAccessPage` returns at once, or the thread is in the call. -/
theorem unlockAccessPage_cases (h : s.unlockAccessPage t page = some s') :
    s'.call t = .idle ∧
        s'.opened t = Function.update (s.opened t) page (s.opened t page - 1) ∨
      (s'.call t).unlocking? = some page ∧ s'.opened t = s.opened t := by
  cases step_cases (a := .unlockAccessPage t page) h with
  | unlockExempt idle => exact Or.inl ⟨idle, setOpened_own _⟩
  | unlockCall => exact Or.inr ⟨by simp [Call.unlocking?], rfl⟩

/-- The thread goes on in its call of `lockAccessPage`, or the call returns. -/
theorem advance_locking (hc : (s.call t).locking? = some page) (h : s.advance t = some s')
    (hthrew : s'.call t ≠ .threw) :
    s'.call t = .idle ∧
        s'.opened t = Function.update (s.opened t) page (s.opened t page + 1) ∨
      (s'.call t).locking? = some page ∧ s'.opened t = s.opened t := by
  cases step_cases (a := .advance t) h with
  | putIfAbsent at_ | getToLock at_ | park at_ =>
    rw [at_] at hc
    obtain rfl := Option.some.inj hc
    exact Or.inr ⟨by simp [Call.locking?], rfl⟩
  | reenter at_ | grant at_ =>
    rw [at_] at hc
    obtain rfl := Option.some.inj hc
    exact Or.inl ⟨by simp, setOpened_own _⟩
  | getToLockNull | getToUnlockNull | unlockIllegal => exact absurd (by simp) hthrew
  | getToUnlock at_ | unlock at_ => simp [at_, Call.locking?] at hc

/-- The thread goes on in its call of `unlockAccessPage`, or the call returns. -/
theorem advance_unlocking (hc : (s.call t).unlocking? = some page) (h : s.advance t = some s')
    (hthrew : s'.call t ≠ .threw) :
    s'.call t = .idle ∧
        s'.opened t = Function.update (s.opened t) page (s.opened t page - 1) ∨
      (s'.call t).unlocking? = some page ∧ s'.opened t = s.opened t := by
  cases step_cases (a := .advance t) h with
  | getToUnlock at_ =>
    rw [at_] at hc
    obtain rfl := Option.some.inj hc
    exact Or.inr ⟨by simp [Call.unlocking?], rfl⟩
  | unlock at_ =>
    rw [at_] at hc
    obtain rfl := Option.some.inj hc
    exact Or.inl ⟨by simp, setOpened_own _⟩
  | getToLockNull | getToUnlockNull | unlockIllegal => exact absurd (by simp) hthrew
  | putIfAbsent at_ | getToLock at_ | park at_ | reenter at_ | grant at_ =>
    simp [at_, Call.unlocking?] at hc

end Own

/-! ## The invariant -/

/-- Each page has at most one lock and no two pages share one; a call works on that lock; the hold
counts of the lock are the unmatched calls of `lockAccessPage`, and its queue is the set of the
threads that sleep for the page. -/
structure Inv (s : State τ) : Prop where
  bound_lockable : ∀ {page l}, s.lockConcurrentHashMap page = some l → exempt page = false
  bound_lt : ∀ {page l}, s.lockConcurrentHashMap page = some l → l < s.fresh
  bound_inj : ∀ {p q l}, s.lockConcurrentHashMap p = some l →
    s.lockConcurrentHashMap q = some l → p = q
  unbound_free : ∀ l, (∀ page, s.lockConcurrentHashMap page ≠ some l) → s.locks l = .free
  call_lockable : ∀ {t page}, (s.call t).page? = some page → exempt page = false
  call_target : ∀ {t page l}, (s.call t).target? = some (page, l) →
    s.lockConcurrentHashMap page = some l
  get_bound : ∀ {t page}, s.call t = .getToLock page → s.lockConcurrentHashMap page ≠ none
  unlocking_opened : ∀ {t page}, (s.call t).unlocking? = some page → 0 < s.opened t page
  hold_eq_opened : ∀ {page}, exempt page = false → ∀ t,
    (s.lockOf page).getHoldCount t = s.opened t page
  mem_waiting_iff : ∀ {page t}, t ∈ (s.lockOf page).waiting ↔ ∃ l, s.call t = .parked page l
  waiting_nodup : ∀ page, (s.lockOf page).waiting.Nodup
  not_threw : ∀ t, s.call t ≠ .threw

namespace Inv

variable {s s' : State τ} {t u : τ} {page : Page} {l : LockId}

theorem init : Inv (State.init τ) where
  bound_lockable h := by cases h
  bound_lt h := by cases h
  bound_inj h := by cases h
  unbound_free _ _ := rfl
  call_lockable h := by cases h
  call_target h := by cases h
  get_bound h := by cases h
  unlocking_opened h := by cases h
  hold_eq_opened _ _ := rfl
  mem_waiting_iff := by simp [State.init, State.lockOf]
  waiting_nodup _ := List.nodup_nil
  not_threw _ h := by cases h

/-- A page that a thread has still to unlock is bound to a lock, which the thread owns. -/
theorem owner_of_opened (h : Inv s) (hex : exempt page = false) (ho : 0 < s.opened t page) :
    (s.lockOf page).owner = some t := by
  rwa [← h.hold_eq_opened hex, ReentrantLock.getHoldCount_pos_iff] at ho

/-- A lock that a thread holds is the lock of a page that the thread has still to unlock. -/
theorem opened_of_holdCount (h : Inv s) (hpos : 0 < (s.locks l).getHoldCount t) :
    ∃ page, s.lockConcurrentHashMap page = some l ∧ exempt page = false ∧
      0 < s.opened t page := by
  by_cases hbound : ∃ page, s.lockConcurrentHashMap page = some l
  · obtain ⟨page, hpage⟩ := hbound
    have hex := h.bound_lockable hpage
    refine ⟨page, hpage, hex, ?_⟩
    rwa [← h.hold_eq_opened hex, State.lockOf_bound hpage]
  · push Not at hbound
    rw [h.unbound_free l hbound] at hpos
    exact absurd hpos (Nat.lt_irrefl 0)

theorem bound_of_opened (h : Inv s) (hex : exempt page = false) (ho : 0 < s.opened t page) :
    s.lockConcurrentHashMap page ≠ none := by
  intro hn
  have := h.owner_of_opened hex ho
  rw [State.lockOf_unbound hn] at this
  cases this

/-- A lock object that `putIfAbsent` has not bound is free, so binding it changes no lock. -/
theorem lockOf_createEntry (h : Inv s) (page q : Page) :
    (s.createEntry page).lockOf q = s.lockOf q := by
  have hfresh : s.locks s.fresh = .free :=
    h.unbound_free _ fun p hp => Nat.lt_irrefl _ (h.bound_lt hp)
  rcases hq : (s.createEntry page).lockConcurrentHashMap q with _ | m
  · rw [State.lockOf_unbound hq, State.lockOf_unbound]
    rcases hq' : s.lockConcurrentHashMap q with _ | m
    · rfl
    · rw [s.createEntry_map_of_some page q hq'] at hq
      cases hq
  · rw [State.lockOf_bound hq]
    by_cases hm : s.lockConcurrentHashMap q = some m
    · rw [State.lockOf_bound hm]
      rfl
    · obtain ⟨rfl, rfl⟩ := (s.createEntry_map_eq_some page q hq).resolve_left hm
      rcases hq' : s.lockConcurrentHashMap q with _ | m
      · rw [State.lockOf_unbound hq']
        exact hfresh
      · rw [s.createEntry_map_of_some q q hq'] at hq
        obtain rfl := Option.some.inj hq
        exact absurd hq' hm

/-- Changing the lock object of one page changes the lock of that page only. -/
theorem lockOf_setLock (h : Inv s) (hl : s.lockConcurrentHashMap page = some l) (t : τ)
    (lk : ReentrantLock τ) (c : Call) (q : Page) :
    (s.setLock t l lk c).lockOf q = if q = page then lk else s.lockOf q := by
  split_ifs with hq
  · subst hq
    rw [State.lockOf_bound (by exact hl)]
    simp [State.setLock]
  · rcases hq' : s.lockConcurrentHashMap q with _ | m
    · rw [State.lockOf_unbound hq', State.lockOf_unbound (by exact hq')]
    · have hne : m ≠ l := by
        rintro rfl
        exact hq (h.bound_inj hq' hl)
      rw [State.lockOf_bound hq', State.lockOf_bound (s := s.setLock t l lk c) hq']
      simp [State.setLock, Function.update_of_ne hne]

/-- A thread that is not in the queue moves on inside its call. -/
theorem setCall (h : Inv s) (c : Call) (hparked : ∀ page l, s.call t ≠ .parked page l)
    (hlockable : ∀ page, c.page? = some page → exempt page = false)
    (htarget : ∀ page l, c.target? = some (page, l) → s.lockConcurrentHashMap page = some l)
    (hget : ∀ page, c = .getToLock page → s.lockConcurrentHashMap page ≠ none)
    (hunlock : ∀ page, c.unlocking? = some page → 0 < s.opened t page)
    (hpark : ∀ page l, c ≠ .parked page l) (hthrew : c ≠ .threw) : Inv (s.setCall t c) where
  bound_lockable := h.bound_lockable
  bound_lt := h.bound_lt
  bound_inj := h.bound_inj
  unbound_free := h.unbound_free
  call_lockable {u page} hu := by
    rw [State.setCall_call] at hu
    split_ifs at hu with hut
    · exact hlockable page hu
    · exact h.call_lockable hu
  call_target {u page l} hu := by
    rw [State.setCall_call] at hu
    split_ifs at hu with hut
    · exact htarget page l hu
    · exact h.call_target hu
  get_bound {u page} hu := by
    rw [State.setCall_call] at hu
    split_ifs at hu with hut
    · exact hget page hu
    · exact h.get_bound hu
  unlocking_opened {u page} hu := by
    rw [State.setCall_call] at hu
    split_ifs at hu with hut
    · exact hut ▸ hunlock page hu
    · exact h.unlocking_opened hu
  hold_eq_opened := h.hold_eq_opened
  mem_waiting_iff {page u} := by
    rw [State.setCall_lockOf, h.mem_waiting_iff, State.setCall_call]
    split_ifs with hut
    · subst hut
      simp [hparked, hpark]
    · rfl
  waiting_nodup := h.waiting_nodup
  not_threw u hu := by
    rw [State.setCall_call] at hu
    split_ifs at hu with hut
    · exact hthrew hu
    · exact h.not_threw u hu

/-- Pages that are not locked count their calls only. -/
theorem setOpened_exempt (h : Inv s) (hidle : s.call t = .idle) (hex : exempt page = true)
    (n : ℕ) : Inv (s.setOpened t page n) where
  bound_lockable := h.bound_lockable
  bound_lt := h.bound_lt
  bound_inj := h.bound_inj
  unbound_free := h.unbound_free
  call_lockable := h.call_lockable
  call_target := h.call_target
  get_bound := h.get_bound
  unlocking_opened {u q} hu := by
    have hut : u ≠ t := by
      rintro rfl
      rw [State.setOpened_call, hidle] at hu
      cases hu
    simpa [hut] using h.unlocking_opened hu
  hold_eq_opened {q} hq u := by
    have hne : q ≠ page := by
      rintro rfl
      rw [hq] at hex
      cases hex
    simpa [hne] using h.hold_eq_opened hq u
  mem_waiting_iff := h.mem_waiting_iff
  waiting_nodup := h.waiting_nodup
  not_threw := h.not_threw

/-- A call changes the lock of its page: the new hold counts are the new `opened`, and the new
queue is the set of the threads that now sleep for the page. -/
theorem setLock (h : Inv s) (hcall : (s.call t).target? = some (page, l)) {lk : ReentrantLock τ}
    {c : Call} {n : ℕ} (hc : c = .idle ∨ c = .parked page l)
    (hhold : ∀ u, lk.getHoldCount u = if u = t then n else (s.lockOf page).getHoldCount u)
    (hwait : ∀ u, u ∈ lk.waiting ↔
      (if u = t then c = .parked page l else u ∈ (s.lockOf page).waiting))
    (hnodup : lk.waiting.Nodup) : Inv ((s.setLock t l lk c).setOpened t page n) := by
  have hl := h.call_target hcall
  have hex : exempt page = false :=
    h.call_lockable (t := t) (by cases hct : s.call t <;> simp_all [Call.target?, Call.page?])
  have hcpage : ∀ q, c.page? = some q → q = page := by
    rintro q hq
    rcases hc with rfl | rfl
    · cases hq
    · exact (Option.some.inj hq).symm
  constructor
  case bound_lockable => exact h.bound_lockable
  case bound_lt => exact h.bound_lt
  case bound_inj => exact h.bound_inj
  case unbound_free =>
    intro m hm
    have hne : m ≠ l := by
      rintro rfl
      exact hm page hl
    rw [← h.unbound_free m hm]
    exact Function.update_of_ne hne _ _
  case call_lockable =>
    intro u q hu
    rw [State.setOpened_call, State.setLock_call] at hu
    split_ifs at hu with hut
    · exact hcpage q hu ▸ hex
    · exact h.call_lockable hu
  case call_target =>
    intro u q m hu
    rw [State.setOpened_call, State.setLock_call] at hu
    split_ifs at hu with hut
    · rcases hc with rfl | rfl
      · cases hu
      · obtain ⟨rfl, rfl⟩ := Prod.mk.inj (Option.some.inj hu)
        exact hl
    · exact h.call_target hu
  case get_bound =>
    intro u q hu
    rw [State.setOpened_call, State.setLock_call] at hu
    split_ifs at hu with hut
    · rcases hc with rfl | rfl <;> cases hu
    · exact h.get_bound hu
  case unlocking_opened =>
    intro u q hu
    rw [State.setOpened_call, State.setLock_call] at hu
    split_ifs at hu with hut
    · rcases hc with rfl | rfl <;> cases hu
    · simpa [hut] using h.unlocking_opened hu
  case hold_eq_opened =>
    intro q hq u
    rw [State.setOpened_lockOf, h.lockOf_setLock hl, State.setOpened_opened]
    by_cases hqp : q = page
    · subst hqp
      rw [if_pos rfl, hhold]
      by_cases hut : u = t
      · simp [hut]
      · simpa [hut] using h.hold_eq_opened hq u
    · simpa [hqp] using h.hold_eq_opened hq u
  case mem_waiting_iff =>
    intro q u
    rw [State.setOpened_lockOf, h.lockOf_setLock hl, State.setOpened_call, State.setLock_call]
    by_cases hqp : q = page
    · subst hqp
      rw [if_pos rfl, hwait]
      split_ifs with hut
      · rcases hc with rfl | rfl <;> simp
      · exact h.mem_waiting_iff
    · rw [if_neg hqp, h.mem_waiting_iff]
      split_ifs with hut
      · subst hut
        have hno : ∀ m, s.call u ≠ .parked q m := by
          intro m hm
          rw [hm] at hcall
          exact hqp (Prod.mk.inj (Option.some.inj hcall)).1
        rcases hc with rfl | rfl
        · simpa using hno
        · simpa [Ne.symm hqp] using hno
      · rfl
  case waiting_nodup =>
    intro q
    rw [State.setOpened_lockOf, h.lockOf_setLock hl]
    split_ifs
    · exact hnodup
    · exact h.waiting_nodup q
  case not_threw =>
    intro u hu
    rw [State.setOpened_call, State.setLock_call] at hu
    split_ifs at hu with hut
    · rcases hc with rfl | rfl <;> cases hu
    · exact h.not_threw u hu

/-- A new lock is bound to the page, or the entry that is there stays. -/
theorem putIfAbsent (h : Inv s) (hex : exempt page = false) : Inv (s.createEntry page) := by
  constructor
  case bound_lockable =>
    intro q m hq
    rcases s.createEntry_map_eq_some page q hq with hq | ⟨rfl, -⟩
    · exact h.bound_lockable hq
    · exact hex
  case bound_lt =>
    intro q m hq
    rcases s.createEntry_map_eq_some page q hq with hq | ⟨-, rfl⟩
    · exact Nat.lt_succ_of_lt (h.bound_lt hq)
    · exact Nat.lt_succ_self _
  case bound_inj =>
    intro p q m hp hq
    rcases s.createEntry_map_eq_some page p hp with hp | ⟨hpp, hpm⟩ <;>
      rcases s.createEntry_map_eq_some page q hq with hq | ⟨hqp, hqm⟩
    · exact h.bound_inj hp hq
    · exact absurd (h.bound_lt hp) (hqm ▸ Nat.lt_irrefl _)
    · exact absurd (h.bound_lt hq) (hpm ▸ Nat.lt_irrefl _)
    · exact hpp.trans hqp.symm
  case unbound_free =>
    intro m hm
    exact h.unbound_free m fun q hq => hm q (s.createEntry_map_of_some page q hq)
  case call_lockable => exact h.call_lockable
  case call_target =>
    intro u q m hu
    exact s.createEntry_map_of_some page q (h.call_target hu)
  case get_bound =>
    intro u q hu hn
    obtain ⟨m, hm⟩ := Option.ne_none_iff_exists'.1 (h.get_bound hu)
    rw [s.createEntry_map_of_some page q hm] at hn
    cases hn
  case unlocking_opened => exact h.unlocking_opened
  case hold_eq_opened =>
    intro q hq u
    rw [h.lockOf_createEntry]
    exact h.hold_eq_opened hq u
  case mem_waiting_iff =>
    intro q u
    rw [h.lockOf_createEntry]
    exact h.mem_waiting_iff
  case waiting_nodup =>
    intro q
    rw [h.lockOf_createEntry]
    exact h.waiting_nodup q
  case not_threw => exact h.not_threw

theorem createEntry (h : Inv s) (hat : s.call t = .putIfAbsent page) :
    Inv ((s.createEntry page).setCall t (.getToLock page)) := by
  have hex : exempt page = false := h.call_lockable (by rw [hat]; rfl)
  refine (h.putIfAbsent hex).setCall _ (fun q l hq => ?_) (fun q hq => ?_) (fun q l hq => ?_)
    (fun q hq => ?_) (fun q hq => ?_) (fun _ _ => Call.noConfusion) Call.noConfusion
  · rw [State.createEntry_call, hat] at hq
    cases hq
  · exact Option.some.inj hq ▸ hex
  · cases hq
  · cases hq
    exact s.createEntry_map_self page
  · cases hq

theorem not_mem_waiting (h : Inv s) (hat : ∀ l, s.call t ≠ .parked page l) :
    t ∉ (s.lockOf page).waiting := by
  rw [h.mem_waiting_iff]
  rintro ⟨l, hl⟩
  exact hat l hl

/-- The owner of a page's lock enters it again. -/
theorem reenter (h : Inv s) (hat : s.call t = .lock page l)
    (own : (s.locks l).owner = some t) :
    Inv ((s.setLock t l ((s.locks l).lock t) .idle).setOpened t page (s.opened t page + 1)) := by
  have hex : exempt page = false := h.call_lockable (by rw [hat]; rfl)
  have hnot : t ∉ (s.lockOf page).waiting := h.not_mem_waiting (by simp [hat])
  rw [← State.lockOf_bound (h.call_target (by rw [hat]; rfl))] at own ⊢
  refine h.setLock (by rw [hat]; rfl) (Or.inl rfl) (fun u => ?_) (fun u => ?_) ?_
  · rw [ReentrantLock.getHoldCount_lock_of_owner own]
    split_ifs with hu
    · rw [hu, h.hold_eq_opened hex]
    · rfl
  · rw [ReentrantLock.lock_of_owner own, ReentrantLock.heldBy_waiting]
    split_ifs with hu
    · simpa [hu] using hnot
    · rfl
  · rw [ReentrantLock.lock_of_owner own]
    exact h.waiting_nodup page

/-- A thread that finds the page taken, or others before it, goes to the end of the queue. -/
theorem park (h : Inv s) (hat : s.call t = .lock page l)
    (other : (s.locks l).owner ≠ some t) :
    Inv (s.setLock t l ((s.locks l).lock t) (.parked page l)) := by
  have hex : exempt page = false := h.call_lockable (by rw [hat]; rfl)
  have hnot : t ∉ (s.lockOf page).waiting := h.not_mem_waiting (by simp [hat])
  rw [← State.lockOf_bound (h.call_target (by rw [hat]; rfl))] at other ⊢
  rw [← State.setOpened_self (s.setLock t l ((s.lockOf page).lock t) (.parked page l)) t page]
  refine h.setLock (by rw [hat]; rfl) (Or.inr rfl) (fun u => ?_) (fun u => ?_) ?_
  · rw [ReentrantLock.getHoldCount_lock_of_ne other]
    split_ifs with hu
    · rw [hu, h.hold_eq_opened hex, State.setLock_opened]
    · rfl
  · rw [ReentrantLock.lock_waiting_of_ne other]
    split_ifs with hu <;> simp [hu]
  · rw [ReentrantLock.lock_waiting_of_ne other]
    exact List.Nodup.append (h.waiting_nodup page) (List.nodup_singleton t)
      (by simpa using hnot)

/-- The first thread of the queue gets the free lock. -/
theorem grant (h : Inv s) (hat : s.call t = .parked page l) {lk : ReentrantLock τ}
    (granted : (s.locks l).grant t = some lk) :
    Inv ((s.setLock t l lk .idle).setOpened t page (s.opened t page + 1)) := by
  have hex : exempt page = false := h.call_lockable (by rw [hat]; rfl)
  have hnodup := h.waiting_nodup page
  rw [← State.lockOf_bound (h.call_target (by rw [hat]; rfl))] at granted
  obtain ⟨hfree, hqueue, hlk⟩ := ReentrantLock.grant_eq_some granted
  have hzero : ∀ u, (s.lockOf page).getHoldCount u = 0 :=
    ReentrantLock.getHoldCount_eq_zero_of_owner_none hfree
  rw [hqueue, List.nodup_cons] at hnodup
  refine h.setLock (by rw [hat]; rfl) (Or.inl rfl) (fun u => ?_) (fun u => ?_) hnodup.2
  · rw [hlk]
    split_ifs with hu
    · rw [hu, ReentrantLock.getHoldCount_heldBy_self, ← h.hold_eq_opened hex, hzero]
    · rw [ReentrantLock.getHoldCount_heldBy_ne hu, hzero]
  · rw [hqueue]
    split_ifs with hu
    · simpa [hu] using hnodup.1
    · simp [hu]

/-- The owner of a page's lock gives back one hold. -/
theorem unlock (h : Inv s) (hat : s.call t = .unlock page l) {lk : ReentrantLock τ}
    (unlocked : (s.locks l).unlock t = some lk) :
    Inv ((s.setLock t l lk .idle).setOpened t page (s.opened t page - 1)) := by
  have hex : exempt page = false := h.call_lockable (by rw [hat]; rfl)
  have hnot : t ∉ (s.lockOf page).waiting := h.not_mem_waiting (by simp [hat])
  rw [← State.lockOf_bound (h.call_target (by rw [hat]; rfl))] at unlocked
  obtain ⟨-, hqueue, hcount⟩ := ReentrantLock.unlock_eq_some unlocked
  refine h.setLock (by rw [hat]; rfl) (Or.inl rfl) (fun u => ?_) (fun u => ?_) ?_
  · rw [hcount]
    split_ifs with hu
    · rw [hu, h.hold_eq_opened hex]
    · rfl
  · rw [hqueue]
    split_ifs with hu
    · simpa [hu] using hnot
    · rfl
  · rw [hqueue]
    exact h.waiting_nodup page

/-- A thread that unlocks what it has locked is the owner of the lock. -/
theorem unlock_legal (h : Inv s) (hat : s.call t = .unlock page l) :
    (s.locks l).unlock t ≠ none := by
  refine ReentrantLock.unlock_ne_none ?_
  rw [← State.lockOf_bound (h.call_target (by rw [hat]; rfl))]
  exact h.owner_of_opened (h.call_lockable (by rw [hat]; rfl))
    (h.unlocking_opened (by rw [hat]; rfl))

/-- Every step of a thread that unlocks only what it has locked preserves the invariant. -/
theorem of_step (h : Inv s) {a : Action τ} (hm : Matched s a)
    (hstep : step s a = some s') : Inv s' := by
  cases step_cases hstep with
  | lockExempt idle ex => exact h.setOpened_exempt idle ex _
  | unlockExempt idle ex => exact h.setOpened_exempt idle ex _
  | lockCall idle ex =>
    exact h.setCall _ (by simp [idle]) (by rintro _ ⟨⟩; exact ex) (by rintro _ _ ⟨⟩)
      (by rintro _ ⟨⟩) (by rintro _ ⟨⟩) (by simp) (by simp)
  | unlockCall idle ex =>
    exact h.setCall _ (by simp [idle]) (by rintro _ ⟨⟩; exact ex) (by rintro _ _ ⟨⟩)
      (by rintro _ ⟨⟩) (by rintro _ ⟨⟩; exact hm) (by simp) (by simp)
  | putIfAbsent at_ => exact h.createEntry at_
  | getToLock at_ bound =>
    have hex := h.call_lockable (by rw [at_]; rfl)
    exact h.setCall _ (by simp [at_]) (by rintro _ ⟨⟩; exact hex) (by rintro _ _ ⟨⟩; exact bound)
      (by rintro _ ⟨⟩) (by rintro _ ⟨⟩) (by simp) (by simp)
  | getToLockNull at_ null => exact absurd null (h.get_bound at_)
  | reenter at_ own => exact h.reenter at_ own
  | park at_ other => exact h.park at_ other
  | grant at_ granted => exact h.grant at_ granted
  | getToUnlock at_ bound =>
    have hex := h.call_lockable (by rw [at_]; rfl)
    have hopened := h.unlocking_opened (by rw [at_]; rfl)
    exact h.setCall _ (by simp [at_]) (by rintro _ ⟨⟩; exact hex) (by rintro _ _ ⟨⟩; exact bound)
      (by rintro _ ⟨⟩) (by rintro _ ⟨⟩; exact hopened) (by simp) (by simp)
  | getToUnlockNull at_ null =>
    exact absurd null (h.bound_of_opened (h.call_lockable (by rw [at_]; rfl))
      (h.unlocking_opened (by rw [at_]; rfl)))
  | unlock at_ unlocked => exact h.unlock at_ unlocked
  | unlockIllegal at_ illegal => exact absurd illegal (h.unlock_legal at_)

theorem of_run (h : Inv s) {as : List (Action τ)} (hm : Meets step Matched s as)
    (hrun : run step s as = some s') : Inv s' :=
  guarded_run_invariant (fun _ _ _ h hm hs => h.of_step hm hs) h hm hrun

end Inv

/-! ## The protocol -/

/-- A page that is bound to a lock stays bound to it, even if threads unlock what they have not
locked. -/
theorem step_keeps_binding {s s' : State τ} {a : Action τ} (h : step s a = some s') {page : Page}
    {l : LockId} (hl : s.lockConcurrentHashMap page = some l) :
    s'.lockConcurrentHashMap page = some l := by
  cases step_cases h with
  | putIfAbsent at_ => exact s.createEntry_map_of_some _ page hl
  | _ => exact hl

theorem run_keeps_binding {s s' : State τ} {as : List (Action τ)} (h : run step s as = some s')
    {page : Page} {l : LockId} (hl : s.lockConcurrentHashMap page = some l) :
    s'.lockConcurrentHashMap page = some l :=
  run_invariant (fun _ _ _ hl h => step_keeps_binding h hl) hl h

/-- At most one thread has entered a page and not left it. -/
theorem Inv.exclusive {s : State τ} (h : Inv s) {page : Page} (hex : exempt page = false)
    {t u : τ} (ht : 0 < s.opened t page) (hu : 0 < s.opened u page) : t = u :=
  Option.some.inj ((h.owner_of_opened hex ht).symm.trans (h.owner_of_opened hex hu))

/-- A step changes the queue of a page at its ends only: a thread that queues goes to the end,
and the thread that enters comes from the front. -/
theorem Inv.queue_step {s s' : State τ} (h : Inv s) {a : Action τ} (hs : step s a = some s')
    (page : Page) :
    (s.lockOf page).waiting ++ queuedBy page s a =
      enteredBy page s a ++ (s'.lockOf page).waiting := by
  cases step_cases hs with
  | lockExempt | lockCall | unlockExempt | unlockCall => simp [queuedBy, enteredBy]
  | getToLock at_ | getToLockNull at_ | getToUnlock at_ | getToUnlockNull at_
  | unlockIllegal at_ => simp [queuedBy, enteredBy, at_]
  | putIfAbsent at_ => simp [queuedBy, enteredBy, at_, h.lockOf_createEntry]
  | @reenter t q l at_ own =>
    have hl := h.call_target (t := t) (by rw [at_]; rfl)
    simp only [queuedBy, enteredBy, at_, State.setOpened_lockOf, h.lockOf_setLock hl]
    by_cases hq : page = q
    · subst hq
      simp [own, State.lockOf_bound hl, ReentrantLock.lock_of_owner own]
    · simp [hq, own]
  | @park t q l at_ other =>
    have hl := h.call_target (t := t) (by rw [at_]; rfl)
    simp only [queuedBy, enteredBy, at_, h.lockOf_setLock hl]
    by_cases hq : page = q
    · subst hq
      simp [other, State.lockOf_bound hl, ReentrantLock.lock_waiting_of_ne other]
    · simp [hq, Ne.symm hq]
  | @grant t q l lk at_ granted =>
    have hl := h.call_target (t := t) (by rw [at_]; rfl)
    simp only [queuedBy, enteredBy, at_, State.setOpened_lockOf, h.lockOf_setLock hl]
    by_cases hq : page = q
    · subst hq
      simp [State.lockOf_bound hl, (ReentrantLock.grant_eq_some granted).2.1]
    · simp [hq, Ne.symm hq]
  | @unlock t q l lk at_ unlocked =>
    have hl := h.call_target (t := t) (by rw [at_]; rfl)
    simp only [queuedBy, enteredBy, at_, State.setOpened_lockOf, h.lockOf_setLock hl]
    split_ifs with hq
    · simp [hq, State.lockOf_bound hl, (ReentrantLock.unlock_eq_some unlocked).2.1]
    · simp

/-- The threads that queued for a page are those that entered it from the queue, in the same
order, and then those that still wait. -/
theorem queued_eq_entered_append {as : List (Action τ)} {s : State τ}
    (hm : Meets step Matched (State.init τ) as) (hrun : run step (State.init τ) as = some s)
    (page : Page) : queued page as = entered page as ++ (s.lockOf page).waiting :=
  trace_conservation (fun s => (s.lockOf page).waiting)
    (fun _ _ _ h hm hs => Inv.of_step h hm hs) (fun _ _ _ h _ hs => Inv.queue_step h hs page)
    Inv.init hm hrun

/-- Any number of threads, any pages, any interleaving of the atomic steps: a page keeps its lock,
only one thread at a time is between its `lockAccessPage` and its `unlockAccessPage`, threads enter
in the order in which they queued, and no call throws. -/
theorem protocol_correct (as : List (Action τ)) (s : State τ)
    (hm : Meets step Matched (State.init τ) as) (hrun : run step (State.init τ) as = some s) :
    (∀ page l, s.lockConcurrentHashMap page = some l → ∀ bs s', run step s bs = some s' →
      s'.lockConcurrentHashMap page = some l) ∧
    (∀ page, exempt page = false → ∀ t u, 0 < s.opened t page → 0 < s.opened u page → t = u) ∧
    (∀ page, entered page as <+: queued page as) ∧
    (∀ t, s.call t ≠ .threw) := by
  have h : Inv s := Inv.init.of_run hm hrun
  refine ⟨fun page l hl bs s' hs' => run_keeps_binding hs' hl,
    fun page hex t u ht hu => h.exclusive hex ht hu, fun page => ?_, h.not_threw⟩
  rw [queued_eq_entered_append hm hrun page]
  exact List.prefix_append _ _

/-- Two threads race for the first access to one page: both make a lock, both end on the first one
that was put, and the second enters when the first has left. -/
def firstAccessRace : List (Action ℕ) :=
  let page := "server_root/index.html".toList
  [.lockAccessPage 0 page, .lockAccessPage 1 page, .advance 0, .advance 1, .advance 0, .advance 1,
    .advance 0, .advance 1, .advance 0, .unlockAccessPage 0 page, .advance 0, .advance 0,
    .advance 1]

theorem protocol_correct_firstAccessRace :
    ∃ s, run step (State.init ℕ) firstAccessRace = some s ∧
      (∀ page l, s.lockConcurrentHashMap page = some l → ∀ bs s', run step s bs = some s' →
        s'.lockConcurrentHashMap page = some l) ∧
      (∀ page, exempt page = false → ∀ t u, 0 < s.opened t page → 0 < s.opened u page → t = u) ∧
      (∀ page, entered page firstAccessRace <+: queued page firstAccessRace) ∧
      (∀ t, s.call t ≠ .threw) := by
  obtain ⟨s, hs⟩ := Option.isSome_iff_exists.1
    (by decide : (run step (State.init ℕ) firstAccessRace).isSome = true)
  exact ⟨s, hs, protocol_correct firstAccessRace s (by decide) hs⟩

end PageHandler
