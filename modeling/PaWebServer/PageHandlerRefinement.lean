import PaWebServer.PageHandlerProof
import PaWebServer.Lib.LockTable
import PaWebServer.Lib.Refinement

/-!
# The page handler is a table of fair locks

Seen from outside, the map, the locks that lose the race for it and the `get`s of a call are not
there: the page handler does what a table with one fair lock for each page does, for all pages that
do not end with `404.html` (`table_refinement`).
-/

namespace PageHandler

open Transition

variable {τ : Type*} [DecidableEq τ] {s s' : State τ} {t u : τ} {page : Page} {l : LockId}

/-- What the step is for the table: the `lock` and the `unlock` of a call, and the end of a pause in
the queue. -/
def tableActions (s : State τ) : Action τ → List (LockTable.Action Page τ)
  | .advance t =>
    match s.call t with
    | .lock page _ => [.lock t page]
    | .parked page _ => [.grant t page]
    | .unlock page _ => [.unlock t page]
    | _ => []
  | _ => []

/-- What the threads of the page handler can do with the table. -/
def Lockable (tbl : LockTable Page τ) (b : LockTable.Action Page τ) : Prop :=
  LockTable.Sequential tbl b ∧ exempt b.key = false

/-! ## Each step is a step of the table, or none -/

theorem Inv.awake_of_not_parked (h : Inv s) (hat : ∀ page l, s.call t ≠ .parked page l) :
    LockTable.Awake s.lockOf t := by
  intro page hmem
  obtain ⟨l, hl⟩ := h.mem_waiting_iff.1 hmem
  exact hat page l hl

/-- The call changes the lock of its page. -/
theorem Inv.lockOf_setLock_eq (h : Inv s) (hl : s.lockConcurrentHashMap page = some l) (t : τ)
    (lk : ReentrantLock τ) (c : Call) :
    (s.setLock t l lk c).lockOf = Function.update s.lockOf page lk := by
  funext q
  rw [h.lockOf_setLock hl, Function.update_apply]

theorem Inv.table_step (h : Inv s) {a : Action τ} (hm : Matched s a) (hs : step s a = some s') :
    Inv s' ∧ run LockTable.step s.lockOf (tableActions s a) = some s'.lockOf ∧
      Meets LockTable.step Lockable s.lockOf (tableActions s a) := by
  refine ⟨h.of_step hm hs, ?_⟩
  cases step_cases hs with
  | lockExempt | lockCall | unlockExempt | unlockCall => exact ⟨rfl, trivial⟩
  | getToLock at_ | getToLockNull at_ | getToUnlock at_ | getToUnlockNull at_ =>
    simp [tableActions, at_, run, Meets]
  | unlockIllegal at_ illegal => exact absurd illegal (h.unlock_legal at_)
  | @putIfAbsent t page at_ =>
    have hsame : (s.createEntry page).lockOf = s.lockOf := funext (h.lockOf_createEntry page)
    simp [tableActions, at_, run, Meets, hsame]
  | @reenter t page l at_ own =>
    have hl : s.lockConcurrentHashMap page = some l := h.call_target (t := t) (by rw [at_]; rfl)
    have hex : exempt page = false := h.call_lockable (t := t) (by rw [at_]; rfl)
    have hawake := h.awake_of_not_parked (t := t) (by simp [at_])
    simp [tableActions, at_, run, Meets, LockTable.step, Lockable, LockTable.Sequential, hawake,
      LockTable.Action.key, hex, h.lockOf_setLock_eq hl, State.lockOf_bound hl]
  | @park t page l at_ other =>
    have hl : s.lockConcurrentHashMap page = some l := h.call_target (t := t) (by rw [at_]; rfl)
    have hex : exempt page = false := h.call_lockable (t := t) (by rw [at_]; rfl)
    have hawake := h.awake_of_not_parked (t := t) (by simp [at_])
    simp [tableActions, at_, run, Meets, LockTable.step, Lockable, LockTable.Sequential, hawake,
      LockTable.Action.key, hex, h.lockOf_setLock_eq hl, State.lockOf_bound hl]
  | @grant t page l lk at_ granted =>
    have hl : s.lockConcurrentHashMap page = some l := h.call_target (t := t) (by rw [at_]; rfl)
    have hex : exempt page = false := h.call_lockable (t := t) (by rw [at_]; rfl)
    simp [tableActions, at_, run, Meets, LockTable.step, Lockable, LockTable.Sequential,
      LockTable.Action.key, hex, h.lockOf_setLock_eq hl, State.lockOf_bound hl, granted]
  | @unlock t page l lk at_ unlocked =>
    have hl : s.lockConcurrentHashMap page = some l := h.call_target (t := t) (by rw [at_]; rfl)
    have hex : exempt page = false := h.call_lockable (t := t) (by rw [at_]; rfl)
    have hawake := h.awake_of_not_parked (t := t) (by simp [at_])
    simp [tableActions, at_, run, Meets, LockTable.step, Lockable, LockTable.Sequential, hawake,
      LockTable.Action.key, hex, h.lockOf_setLock_eq hl, State.lockOf_bound hl, unlocked]

/-! ## Each step of the table can be done -/

/-- No thread is in a call but in the pause of a thread that waits. -/
structure Quiet (s : State τ) : Prop where
  inv : Inv s
  calls : ∀ t, s.call t = .idle ∨ ∃ page l, s.call t = .parked page l

theorem Quiet.idle_of_awake (h : Quiet s) (ht : LockTable.Awake s.lockOf t) : s.call t = .idle := by
  rcases h.calls t with hidle | ⟨page, l, hl⟩
  · exact hidle
  · exact absurd (h.inv.mem_waiting_iff.2 ⟨l, hl⟩) (ht page)

/-- The steps of one thread lead from a quiet state to a quiet state when the thread has returned
from its call or waits. -/
theorem Quiet.of_run (h : Quiet s) {as : List (Action τ)} (hm : Meets step Matched s as)
    (hrun : run step s as = some s') (hthread : ∀ a ∈ as, a.thread = t)
    (hend : s'.call t = .idle ∨ ∃ page l, s'.call t = .parked page l) : Quiet s' where
  inv := h.inv.of_run hm hrun
  calls u := by
    by_cases hu : u = t
    · exact hu ▸ hend
    · have hframe : s'.call u = s.call u := by
        clear h hm hend
        induction as generalizing s with
        | nil => rw [Option.some.inj hrun]
        | cons a as ih =>
          obtain ⟨s₁, hs₁, hrest⟩ := run_cons_iff.1 hrun
          rw [ih hrest fun b hb => hthread b (List.mem_cons_of_mem _ hb)]
          have hne : u ≠ a.thread := fun he => hu (he.trans (hthread a List.mem_cons_self))
          exact (step_frame hs₁ hne).1
      rw [hframe]
      exact h.calls u

theorem advance_of_lock (h : s.call t = .lock page l) :
    ∃ s', s.advance t = some s' ∧ (s'.call t = .idle ∨ ∃ page l, s'.call t = .parked page l) := by
  by_cases own : (s.locks l).owner = some t
  · exact ⟨_, by simp only [State.advance, h, if_pos own]; rfl, Or.inl (by simp)⟩
  · exact ⟨_, by simp only [State.advance, h, if_neg own]; rfl, Or.inr ⟨page, l, by simp⟩⟩

/-- The thread alone makes the four steps of a call of `lockAccessPage`. -/
theorem Quiet.exists_lock (h : Quiet s) (hidle : s.call t = .idle) (hex : exempt page = false) :
    ∃ as s', Meets step Matched s as ∧ run step s as = some s' ∧
      trace step tableActions s as = [.lock t page] ∧ Quiet s' := by
  obtain ⟨s₁, hs₁⟩ : ∃ s₁, s₁ = s.setCall t (.putIfAbsent page) := ⟨_, rfl⟩
  have hc₁ : s₁.call t = .putIfAbsent page := by simp [hs₁]
  have hstep₁ : step s (.lockAccessPage t page) = some s₁ := by
    simp [step, State.lockAccessPage, hidle, hex, hs₁]
  obtain ⟨s₂, hs₂⟩ : ∃ s₂, s₂ = (s₁.createEntry page).setCall t (.getToLock page) := ⟨_, rfl⟩
  have hc₂ : s₂.call t = .getToLock page := by simp [hs₂]
  have hstep₂ : step s₁ (.advance t) = some s₂ := by simp [step, State.advance, hc₁, hs₂]
  obtain ⟨l, hl⟩ : ∃ l, s₂.lockConcurrentHashMap page = some l := by
    rw [hs₂]
    exact Option.ne_none_iff_exists'.1 (s₁.createEntry_map_self page)
  obtain ⟨s₃, hs₃⟩ : ∃ s₃, s₃ = s₂.setCall t (.lock page l) := ⟨_, rfl⟩
  have hc₃ : s₃.call t = .lock page l := by simp [hs₃]
  have hstep₃ : step s₂ (.advance t) = some s₃ := by simp [step, State.advance, hc₂, hl, hs₃]
  obtain ⟨s₄, hs₄, hend⟩ := advance_of_lock hc₃
  have hstep₄ : step s₃ (.advance t) = some s₄ := hs₄
  have hm : Meets step Matched s [.lockAccessPage t page, .advance t, .advance t, .advance t] :=
    ⟨trivial, fun _ _ => ⟨trivial, fun _ _ => ⟨trivial, fun _ _ => ⟨trivial, fun _ _ => trivial⟩⟩⟩⟩
  have hrun : run step s [.lockAccessPage t page, .advance t, .advance t, .advance t] =
      some s₄ := by
    simp only [run, hstep₁, hstep₂, hstep₃, hstep₄, Option.bind_some]
  refine ⟨_, s₄, hm, hrun, ?_, h.of_run hm hrun (by simp [Action.thread]) hend⟩
  rw [trace_cons _ hstep₁, trace_cons _ hstep₂, trace_cons _ hstep₃, trace_cons _ hstep₄]
  simp [tableActions, hc₁, hc₂, hc₃, trace]

theorem Quiet.exists_grant (h : Quiet s) {lk : ReentrantLock τ}
    (hgrant : (s.lockOf page).grant t = some lk) :
    ∃ as s', Meets step Matched s as ∧ run step s as = some s' ∧
      trace step tableActions s as = [.grant t page] ∧ Quiet s' := by
  have hmem : t ∈ (s.lockOf page).waiting := by
    rw [(ReentrantLock.grant_eq_some hgrant).2.1]
    exact List.mem_cons_self
  obtain ⟨l, hl⟩ := h.inv.mem_waiting_iff.1 hmem
  have hbound : s.lockConcurrentHashMap page = some l :=
    h.inv.call_target (t := t) (by rw [hl]; rfl)
  rw [State.lockOf_bound hbound] at hgrant
  obtain ⟨s₁, hs₁⟩ : ∃ s₁, s.advance t = some s₁ :=
    ⟨_, by simp only [State.advance, hl, hgrant]; rfl⟩
  have hend : s₁.call t = .idle := by
    simp only [State.advance, hl, hgrant, Option.some.injEq] at hs₁
    simp [← hs₁]
  have hm : Meets step Matched s [.advance t] := ⟨trivial, fun _ _ => trivial⟩
  have hrun : run step s [.advance t] = some s₁ := by simp [run, step, hs₁]
  refine ⟨_, s₁, hm, hrun, ?_, h.of_run hm hrun (by simp [Action.thread]) (Or.inl hend)⟩
  rw [trace_cons _ (show step s (.advance t) = some s₁ from hs₁)]
  simp [tableActions, hl, trace]

/-- The owner alone makes the three steps of a call of `unlockAccessPage`. -/
theorem Quiet.exists_unlock (h : Quiet s) (hidle : s.call t = .idle) (hex : exempt page = false)
    {lk : ReentrantLock τ} (hunlock : (s.lockOf page).unlock t = some lk) :
    ∃ as s', Meets step Matched s as ∧ run step s as = some s' ∧
      trace step tableActions s as = [.unlock t page] ∧ Quiet s' := by
  have howner := (ReentrantLock.unlock_eq_some hunlock).1
  have hopened : 0 < s.opened t page := by
    rw [← h.inv.hold_eq_opened hex, ReentrantLock.getHoldCount_pos_iff]
    exact howner
  obtain ⟨l, hl⟩ := Option.ne_none_iff_exists'.1 (h.inv.bound_of_opened hex hopened)
  rw [State.lockOf_bound hl] at hunlock
  obtain ⟨s₁, hs₁⟩ : ∃ s₁, s₁ = s.setCall t (.getToUnlock page) := ⟨_, rfl⟩
  have hc₁ : s₁.call t = .getToUnlock page := by simp [hs₁]
  have hstep₁ : step s (.unlockAccessPage t page) = some s₁ := by
    simp [step, State.unlockAccessPage, hidle, hex, hs₁]
  have hl₁ : s₁.lockConcurrentHashMap page = some l := by rw [hs₁]; exact hl
  obtain ⟨s₂, hs₂⟩ : ∃ s₂, s₂ = s₁.setCall t (.unlock page l) := ⟨_, rfl⟩
  have hc₂ : s₂.call t = .unlock page l := by simp [hs₂]
  have hstep₂ : step s₁ (.advance t) = some s₂ := by simp [step, State.advance, hc₁, hl₁, hs₂]
  have hunlock₂ : (s₂.locks l).unlock t = some lk := by rw [hs₂, hs₁]; exact hunlock
  obtain ⟨s₃, hs₃⟩ : ∃ s₃, s₂.advance t = some s₃ :=
    ⟨_, by simp only [State.advance, hc₂, hunlock₂]; rfl⟩
  have hstep₃ : step s₂ (.advance t) = some s₃ := hs₃
  have hend : s₃.call t = .idle := by
    simp only [State.advance, hc₂, hunlock₂, Option.some.injEq] at hs₃
    simp [← hs₃]
  have hm : Meets step Matched s [.unlockAccessPage t page, .advance t, .advance t] :=
    ⟨hopened, fun _ _ => ⟨trivial, fun _ _ => ⟨trivial, fun _ _ => trivial⟩⟩⟩
  have hrun : run step s [.unlockAccessPage t page, .advance t, .advance t] = some s₃ := by
    simp only [run, hstep₁, hstep₂, hstep₃, Option.bind_some]
  refine ⟨_, s₃, hm, hrun, ?_, h.of_run hm hrun (by simp [Action.thread]) (Or.inl hend)⟩
  rw [trace_cons _ hstep₁, trace_cons _ hstep₂, trace_cons _ hstep₃]
  simp [tableActions, hc₁, hc₂, trace]

theorem Quiet.exists_run (h : Quiet s) {b : LockTable.Action Page τ} {tbl : LockTable Page τ}
    (hb : Lockable s.lockOf b) (hstep : LockTable.step s.lockOf b = some tbl) :
    ∃ as s', Meets step Matched s as ∧ run step s as = some s' ∧
      trace step tableActions s as = [b] ∧ s'.lockOf = tbl ∧ Quiet s' := by
  obtain ⟨as, s', hm, hrun, htrace, hquiet⟩ : ∃ as s', Meets step Matched s as ∧
      run step s as = some s' ∧ trace step tableActions s as = [b] ∧ Quiet s' := by
    cases b with
    | lock t page => exact h.exists_lock (h.idle_of_awake hb.1) hb.2
    | grant t page =>
      obtain ⟨lk, hlk, -⟩ := Option.map_eq_some_iff.1 hstep
      exact h.exists_grant hlk
    | unlock t page =>
      obtain ⟨lk, hlk, -⟩ := Option.map_eq_some_iff.1 hstep
      exact h.exists_unlock (h.idle_of_awake hb.1) hb.2 hlk
  refine ⟨as, s', hm, hrun, htrace, ?_, hquiet⟩
  have hrefines := run_refines (f := State.lockOf)
    (fun _ _ _ h hm hs => ⟨(Inv.table_step h hm hs).1, (Inv.table_step h hm hs).2.1⟩) h.inv hm hrun
  rw [htrace, run, hstep] at hrefines
  exact (Option.some.inj hrefines).symm

/-- For any number of threads: what the page handler does with its locks in the runs whose threads
unlock what they have locked is exactly what a table of fair locks does, one for each page that
does not end with `404.html`, in the runs whose threads do nothing while they wait; and the locks
end as those of the table. -/
theorem table_refinement (bs : List (LockTable.Action Page τ)) (tbl : LockTable Page τ) :
    (∃ as s, Meets step Matched (State.init τ) as ∧ run step (State.init τ) as = some s ∧
        trace step tableActions (State.init τ) as = bs ∧ s.lockOf = tbl) ↔
      Meets LockTable.step Lockable (LockTable.init Page τ) bs ∧
        run LockTable.step (LockTable.init Page τ) bs = some tbl := by
  have hinit : (State.init τ).lockOf = LockTable.init Page τ := rfl
  constructor
  · rintro ⟨as, s, hm, hrun, rfl, rfl⟩
    rw [← hinit]
    exact ⟨meets_refines (fun _ _ _ h hm hs => Inv.table_step h hm hs) Inv.init hm hrun,
      run_refines
        (fun _ _ _ h hm hs => ⟨(Inv.table_step h hm hs).1, (Inv.table_step h hm hs).2.1⟩)
        Inv.init hm hrun⟩
  · rintro ⟨hm, hrun⟩
    exact exists_run_of_run (I := Quiet) (fun _ _ _ h hb hstep => h.exists_run hb hstep)
      ⟨Inv.init, fun _ => Or.inl rfl⟩ hm hrun

end PageHandler
