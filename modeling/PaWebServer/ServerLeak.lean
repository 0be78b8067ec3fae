import PaWebServer.ServerRequests
import PaWebServer.Lib.Refinement

/-!
# A page that is never unlocked

When an operation of a worker fails between the lock and the unlock of a page, the thread keeps a
hold on the page's lock that no later step takes from it (`Leaked`).  From then on no other worker
serves the page, and each one that asks for it waits for ever (`failure_closes_page`).
-/

namespace Server

open FileTree RequestHandler RequestThread PageHandler Transition

variable {cfg : Config} {s s' : State} {a : Action} {t u : ℕ} {page : Page}

/-- The thread has more calls of `lockAccessPage` to undo than the one of the page that it is
serving. -/
def Leaked (t : ℕ) (page : Page) (s : State) : Prop :=
  exempt page = false ∧ (if s.serving t = some page then 1 else 0) < s.pages.opened t page

theorem Leaked.pos (h : Leaked t page s) : 0 < s.pages.opened t page :=
  Nat.zero_lt_of_lt h.2

/-- The thread undoes only what it has done for the page that it is serving. -/
theorem Leaked.of_step (h : Leaked t page s) (hc : Coordinated cfg s)
    (hs : step cfg s a = some s') : Leaked t page s' := by
  refine ⟨h.1, ?_⟩
  have hless := h.2
  obtain ⟨v, hm⟩ := moves_of_step hc hs
  by_cases hv : t = v
  · subst hv
    cases hm.effect with
    | same serving opened => rwa [serving, opened]
    | enter q before after opened =>
      rw [before] at hless
      rw [after, opened]
      by_cases hq : page = q
      · subst hq
        simpa using hless
      · simpa [hq, Ne.symm hq] using hless
    | leave q before after opened =>
      rw [before] at hless
      rw [after, opened]
      by_cases hq : page = q
      · subst hq
        simp only [if_true] at hless
        simp only [reduceCtorEq, if_false, Function.update_self]
        omega
      · simpa [hq, Ne.symm hq] using hless
    | leak failure after opened =>
      rw [after, opened]
      simpa using h.pos
  · rwa [(hm.frame t hv).1, (hm.frame t hv).2]

/-- The failure takes the thread out of the page and leaves it the lock. -/
theorem leaked_of_failure (hc : Coordinated cfg s) (hserving : s.serving t = some page)
    (hex : exempt page = false) (ha : a = .ioError t ∨ a = .readError t)
    (hs : step cfg s a = some s') : Leaked t page s' := by
  have hpos := hc.opened t page hserving
  have hne : s.stage t ≠ .absent := by
    intro habsent
    simp [State.serving, habsent, Stage.page?] at hserving
  have hspawned : t ≠ s.spawned := fun he => hne (he ▸ hc.absent _ le_rfl)
  have hout : s'.serving t = none ∧ s'.pages = s.pages := by
    rcases ha with rfl | rfl
    · cases step_cases hs with
      | readFails | sendFails => exact ⟨by simp [State.serving, State.setStage, Stage.page?], rfl⟩
    · cases step_cases hs with
      | loadFails => exact ⟨by simp [State.serving, die_stage, hspawned, Stage.page?], rfl⟩
  refine ⟨hex, ?_⟩
  rw [hout.1, hout.2]
  simpa using hpos

theorem Leaked.not_serving (h : Leaked t page s) (hc : Coordinated cfg s) (hu : u ≠ t) :
    s.serving u ≠ some page := fun hserving =>
  hu (hc.pages.exclusive h.1 (hc.opened u page hserving) h.pos)

/-- A step leaves the stages of the other threads alone. -/
theorem stage_frame (hc : Coordinated cfg s) (hs : step cfg s a = some s')
    (hthread : a.thread? ≠ some u) (hne : s.stage u ≠ .absent) : s'.stage u = s.stage u := by
  have hspawned : u ≠ s.spawned := fun he => hne (he ▸ hc.absent _ le_rfl)
  cases step_cases hs with
  | accept | advance => rfl
  | take | giveUp | parsed | resolved | locked | unlocked | loaded | send | flush | log | readFails
  | sendFails =>
    exact Function.update_of_ne (fun he => hthread (by rw [he]; rfl)) _ _
  | readNull | unresolved | threw | unreadable | loadFails =>
    rw [die_stage, Function.update_of_ne hspawned,
      Function.update_of_ne fun he => hthread (by rw [he]; rfl)]

/-- A worker that asks for the page of another thread's leaked lock stays where it is. -/
structure LockedOut (cfg : Config) (t u : ℕ) (j : Job) (s : State) : Prop where
  coordinated : Coordinated cfg s
  leaked : Leaked t j.httpUrl s
  waits : s.stage u = .locking j

theorem LockedOut.of_step {j : Job} (h : LockedOut cfg t u j s) (hu : u ≠ t)
    (hs : step cfg s a = some s') : LockedOut cfg t u j s' where
  coordinated := h.coordinated.of_step hs
  leaked := h.leaked.of_step h.coordinated hs
  waits := by
    have hat := h.waits
    by_cases hthread : a.thread? = some u
    · have hno := h.leaked.not_serving h.coordinated hu
      cases step_cases hs with
      | accept => exact hat
      | take at_ | giveUp at_ | readNull at_ | parsed at_ | resolved at_ | unresolved at_
      | unlocked at_ | loaded at_ | unreadable at_ | send at_ | flush at_ | log at_ | readFails at_
      | sendFails at_ | loadFails at_ =>
        obtain rfl := Option.some.inj hthread
        rw [hat] at at_
        cases at_
      | locked at_ returned =>
        obtain rfl := Option.some.inj hthread
        rw [hat] at at_
        cases at_
        exact absurd (by simp [State.serving, hat, Stage.page?, returned]) hno
      | advance => exact hat
      | threw _ threw => exact absurd threw (h.coordinated.pages.not_threw _)
    · rw [stage_frame h.coordinated hs hthread (by simp [hat]), hat]

theorem dead_of_step (hc : Coordinated cfg s) (h : s.stage t = .dead)
    (hs : step cfg s a = some s') : s'.stage t = .dead := by
  by_cases hthread : a.thread? = some t
  · exfalso
    cases step_cases hs with
    | accept => cases hthread
    | advance at_ | threw at_ =>
      obtain rfl := Option.some.inj hthread
      rcases at_ with at_ | at_ <;> rw [h] at at_ <;> cases at_
    | take at_ | giveUp at_ | readNull at_ | parsed at_ | resolved at_ | unresolved at_ | locked at_
    | unlocked at_ | loaded at_ | unreadable at_ | send at_ | flush at_ | log at_ | readFails at_
    | sendFails at_ | loadFails at_ =>
      obtain rfl := Option.some.inj hthread
      rw [h] at at_
      cases at_
  · rw [stage_frame hc hs hthread (by simp [h]), h]

/-- An operation of a worker fails between the lock and the unlock of a page.  From then on, in
every continuation: no other worker ever serves the page, and one that asks for it never gets past
`lockAccessPage` and sends nothing.  If the failure has ended the thread, nobody ever serves the
page again. -/
theorem failure_closes_page (cfg : Config) (as : List Action) (s : State) (t : ℕ) (page : Page)
    (a : Action) (s' : State) (h : run (step cfg) (State.init cfg) as = some s)
    (hserving : s.serving t = some page) (hex : exempt page = false)
    (ha : a = .ioError t ∨ a = .readError t) (hs : step cfg s a = some s') (bs : List Action)
    (s₁ : State) (h₁ : run (step cfg) s' bs = some s₁) :
    (∀ u, u ≠ t → s₁.serving u ≠ some page) ∧
      (∀ u j, u ≠ t → s₁.stage u = .locking j → j.httpUrl = page →
        s₁.sent j.task.number = [] ∧
          ∀ cs s₂, run (step cfg) s₁ cs = some s₂ → s₂.stage u = .locking j) ∧
      (a = .readError t → ∀ u, s₁.serving u ≠ some page) := by
  have hc := coordinated_of_run h
  have hleak := leaked_of_failure hc hserving hex ha hs
  obtain ⟨hc₁, hleak₁⟩ : Coordinated cfg s₁ ∧ Leaked t page s₁ :=
    run_invariant (I := fun s => Coordinated cfg s ∧ Leaked t page s)
      (fun _ _ _ h hs => ⟨h.1.of_step hs, h.2.of_step h.1 hs⟩) ⟨hc.of_step hs, hleak⟩ h₁
  have hothers : ∀ u, u ≠ t → s₁.serving u ≠ some page := fun u hu => hleak₁.not_serving hc₁ hu
  refine ⟨hothers, fun u j hu hat hj => ⟨?_, fun cs s₂ h₂ => ?_⟩, ?_⟩
  · have hrun : run (step cfg) (State.init cfg) (as ++ a :: bs) = some s₁ := by
      rw [run_append, h]
      exact run_cons_iff.2 ⟨s', hs, h₁⟩
    have hworking := (isolated_of_run hrun).working u j.task.number (by rw [hat]; rfl)
    rwa [hat, Stage.unsent, List.append_left_eq_self] at hworking
  · subst hj
    exact (run_invariant (fun _ _ _ h hs => LockedOut.of_step h hu hs) ⟨hc₁, hleak₁, hat⟩ h₂).waits
  · rintro rfl u
    by_cases hu : u = t
    · subst hu
      have hdead : s'.stage u = .dead := by
        cases step_cases hs with
        | loadFails at_ =>
          have hne : u ≠ s.spawned := by
            rintro rfl
            rw [hc.absent _ le_rfl] at at_
            cases at_
          simp [die_stage, hne]
      obtain ⟨-, hdead₁⟩ : Coordinated cfg s₁ ∧ s₁.stage u = .dead :=
        run_invariant (I := fun s => Coordinated cfg s ∧ s.stage u = .dead)
          (fun _ _ _ h hs => ⟨h.1.of_step hs, dead_of_step h.1 h.2 hs⟩) ⟨hc.of_step hs, hdead⟩ h₁
      simp [State.serving, hdead₁, Stage.page?]
    · exact hothers u hu

/-- The first client of the page disconnects, and the worker of the second one comes to its lock. -/
def closedPageRun : List Action := .accept :: .accept :: List.replicate 9 (.worker 0)

theorem failure_closes_page_closedPageRun :
    ∃ s s' s₁, run (step contendedClients) (State.init contendedClients) closedPageRun = some s ∧
      step contendedClients s (.ioError 0) = some s' ∧
      run (step contendedClients) s' (List.replicate 6 (.worker 1)) = some s₁ ∧
      ∀ u, u ≠ 0 → s₁.serving u ≠ some "server_root/index.html".toList := by
  have hrun : (run (step contendedClients) (State.init contendedClients) closedPageRun).any
      (fun s => s.serving 0 = some "server_root/index.html".toList ∧
        ((step contendedClients s (.ioError 0)).bind fun s' =>
          run (step contendedClients) s' (List.replicate 6 (.worker 1))).isSome) = true := by
    decide +kernel
  obtain ⟨s, hs, hboth⟩ := (Option.any_eq_true _ _).1 hrun
  obtain ⟨hserving, hsome⟩ := of_decide_eq_true hboth
  obtain ⟨s₁, hs₁⟩ := Option.isSome_iff_exists.1 hsome
  obtain ⟨s', hs', hrest⟩ := Option.bind_eq_some_iff.1 hs₁
  exact ⟨s, s', s₁, hs, hs', hrest,
    (failure_closes_page contendedClients closedPageRun s 0 _ (.ioError 0) s' hs hserving
      (by decide) (Or.inl rfl) hs' _ s₁ hrest).1⟩

end Server
