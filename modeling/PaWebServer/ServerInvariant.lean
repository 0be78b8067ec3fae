import PaWebServer.ServerSteps
import PaWebServer.RequestThreadProof

/-!
# What holds in every state of the server

A worker is in a call of the page handler exactly where its code is (`Coordinated`), whatever
fails.  A step lets its thread into a page, or out of one, or changes nothing of the sort; only a
failure takes a thread out of a page without the unlock (`Effect`).
-/

namespace Server

open FileTree RequestHandler RequestThread PageHandler Transition

variable {cfg : Config} {s s' : State} {a : Action} {t u : ℕ}

/-! ## The invariant -/

/-- A thread at this stage can be in this call of the page handler. -/
def Stage.Fits : Stage → Call → Prop
  | .locking j, c => c = .idle ∨ c.locking? = some j.httpUrl
  | .unlocking j, c => c = .idle ∨ c.unlocking? = some j.httpUrl
  | _, c => c = .idle

/-- The client's request has this method and this route. -/
def Asks (c : Client) (method route : Text) : Prop :=
  ∃ request, readRequest c.ending c.lines = .ok request ∧ parse request = some (method, route)

def Task.Genuine (cfg : Config) (task : Task) : Prop :=
  cfg.clients[task.number]? = some task.client

/-- The job is the request of its client, with the page that the handler gives for its route. -/
structure Job.Genuine (cfg : Config) (j : Job) : Prop where
  task : j.task.Genuine cfg
  asks : Asks j.task.client j.method j.route
  resolved : (handleRequest cfg.fs serverRoot j.route).2 = .ok ⟨some j.httpUrl, j.error404⟩

/-- What a thread carries comes from a client. -/
def Stage.Genuine (cfg : Config) : Stage → Prop
  | .reading task => task.Genuine cfg
  | .resolving task method route => task.Genuine cfg ∧ Asks task.client method route
  | .locking j | .loading j | .sending j _ | .unlocking j | .logging j => j.Genuine cfg
  | .absent | .idle | .dead => True

structure Coordinated (cfg : Config) (s : State) : Prop where
  pages : Inv s.pages
  absent : ∀ t, s.spawned ≤ t → s.stage t = .absent
  fits : ∀ t, (s.stage t).Fits (s.pages.call t)
  queued : ∀ task ∈ s.workQueue, task.Genuine cfg
  genuine : ∀ t, (s.stage t).Genuine cfg
  opened : ∀ t page, s.serving t = some page → 0 < s.pages.opened t page

theorem Coordinated.init : Coordinated cfg (State.init cfg) where
  pages := Inv.init
  absent t ht := if_neg (by simpa [State.init] using ht)
  fits t := by
    simp only [State.init]
    split_ifs <;> rfl
  queued task h := by cases h
  genuine t := by
    simp only [State.init]
    split_ifs <;> trivial
  opened t page hp := by
    simp only [State.serving, State.init] at hp
    split_ifs at hp <;> cases hp

/-! ## The effect of a step on the pages -/

/-- What the step `a` does to the page that its thread is serving and to the thread's unmatched
calls of `lockAccessPage`. -/
inductive Effect (s : State) (a : Action) (s' : State) (t : ℕ) : Prop
  | same (serving : s'.serving t = s.serving t) (opened : s'.pages.opened t = s.pages.opened t)
  | enter (page : Page) (before : s.serving t = none) (after : s'.serving t = some page)
      (opened : s'.pages.opened t =
        Function.update (s.pages.opened t) page (s.pages.opened t page + 1))
  | leave (page : Page) (before : s.serving t = some page) (after : s'.serving t = none)
      (opened : s'.pages.opened t =
        Function.update (s.pages.opened t) page (s.pages.opened t page - 1))
  | leak (failure : a = .ioError t ∨ a = .readError t) (after : s'.serving t = none)
      (opened : s'.pages.opened t = s.pages.opened t)

/-- A step of the thread `t` that keeps the invariant, but for the counts of its open pages, which
are said by the effect. -/
structure Moves (cfg : Config) (s : State) (a : Action) (s' : State) (t : ℕ) : Prop where
  pages : Inv s'.pages
  absent : ∀ u, s'.spawned ≤ u → s'.stage u = .absent
  fits : ∀ u, (s'.stage u).Fits (s'.pages.call u)
  queued : ∀ task ∈ s'.workQueue, task.Genuine cfg
  genuine : ∀ u, (s'.stage u).Genuine cfg
  frame : ∀ u, u ≠ t → s'.serving u = s.serving u ∧ s'.pages.opened u = s.pages.opened u
  effect : Effect s a s' t

theorem Moves.coordinated (h : Coordinated cfg s) (m : Moves cfg s a s' t) :
    Coordinated cfg s' where
  pages := m.pages
  absent := m.absent
  fits := m.fits
  queued := m.queued
  genuine := m.genuine
  opened u page hp := by
    by_cases hu : u = t
    · subst hu
      cases m.effect with
      | same serving opened =>
        rw [opened]
        exact h.opened u page (serving ▸ hp)
      | enter q before after opened =>
        obtain rfl := Option.some.inj (after.symm.trans hp)
        simp [opened]
      | leave q before after opened => simp [after] at hp
      | leak failure after opened => simp [after] at hp
    · rw [(m.frame u hu).2]
      exact h.opened u page ((m.frame u hu).1 ▸ hp)

/-- A thread goes on to another stage, and changes at most its own part of the page handler. -/
theorem Moves.of_stage (h : Coordinated cfg s) (hat : s.stage t ≠ .absent) {st : Stage}
    (hstage : s'.stage = Function.update s.stage t st) (hspawned : s'.spawned = s.spawned)
    (hqueue : ∀ task ∈ s'.workQueue, task ∈ s.workQueue) (hinv : Inv s'.pages)
    (hframe : ∀ u, u ≠ t → s'.pages.call u = s.pages.call u ∧
      s'.pages.opened u = s.pages.opened u)
    (hfits : st.Fits (s'.pages.call t)) (hgenuine : st.Genuine cfg)
    (heffect : Effect s a s' t) : Moves cfg s a s' t where
  pages := hinv
  absent u hu := by
    rw [hspawned] at hu
    have hne : u ≠ t := fun he => hat (he ▸ h.absent u hu)
    rw [hstage, Function.update_of_ne hne, h.absent u hu]
  fits u := by
    by_cases hu : u = t
    · subst hu
      simpa [hstage] using hfits
    · rw [hstage, Function.update_of_ne hu, (hframe u hu).1]
      exact h.fits u
  queued task htask := h.queued task (hqueue task htask)
  genuine u := by
    by_cases hu : u = t
    · subst hu
      simpa [hstage] using hgenuine
    · rw [hstage, Function.update_of_ne hu]
      exact h.genuine u
  frame u hu := by
    refine ⟨?_, (hframe u hu).2⟩
    simp only [State.serving, hstage, Function.update_of_ne hu, (hframe u hu).1]
  effect := heffect

/-- The thread ends, and a new one takes its place. -/
theorem Moves.of_die (h : Coordinated cfg s) (hat : s.stage t ≠ .absent)
    (hcall : s.pages.call t = .idle)
    (heffect : s.serving t = none ∨ a = .ioError t ∨ a = .readError t) :
    Moves cfg s a (s.die t) t := by
  have hspawned : s.stage s.spawned = .absent := h.absent _ le_rfl
  have hne : t ≠ s.spawned := fun he => hat (he ▸ hspawned)
  have hidle : s.pages.call s.spawned = .idle := by
    simpa [hspawned, Stage.Fits] using h.fits s.spawned
  have hstage : ∀ u, (s.die t).stage u =
      if u = s.spawned then .idle else if u = t then .dead else s.stage u := fun u => by
    simp [State.die, Function.update_apply]
  have hdead : (s.die t).serving t = none := by
    simp [State.serving, hstage, hne, Stage.page?]
  refine ⟨h.pages, fun u hu => ?_, fun u => ?_, h.queued, fun u => ?_, fun u hu => ?_, ?_⟩
  · have hu' : s.spawned + 1 ≤ u := hu
    have hut : u ≠ t := fun he => hat (he ▸ h.absent u (by omega))
    rw [hstage, if_neg (by omega), if_neg hut, h.absent u (by omega)]
  · rw [hstage]
    split_ifs with h₁ h₂
    · exact h₁ ▸ hidle
    · exact h₂ ▸ hcall
    · exact h.fits u
  · rw [hstage]
    split_ifs
    · trivial
    · trivial
    · exact h.genuine u
  · refine ⟨?_, rfl⟩
    by_cases hs : u = s.spawned
    · subst hs
      simp [State.serving, hstage, hspawned, Stage.page?]
    · have : (s.die t).stage u = s.stage u := by rw [hstage, if_neg hs, if_neg hu]
      simp only [State.serving, this]
      rfl
  · rcases heffect with hnone | hfail
    · exact .same (hdead.trans hnone.symm) rfl
    · exact .leak hfail hdead rfl

/-- A thread outside of the page handler goes on to another stage outside of it. -/
theorem Moves.of_stage_idle (h : Coordinated cfg s) (hat : s.stage t ≠ .absent) {st : Stage}
    (hstage : s'.stage = Function.update s.stage t st) (hspawned : s'.spawned = s.spawned)
    (hqueue : ∀ task ∈ s'.workQueue, task ∈ s.workQueue) (hpages : s'.pages = s.pages)
    (hcall : s.pages.call t = .idle) (hfits : st.Fits .idle) (hgenuine : st.Genuine cfg)
    (heffect : st.page? .idle = (s.stage t).page? .idle ∨
      st.page? .idle = none ∧ (a = .ioError t ∨ a = .readError t)) : Moves cfg s a s' t := by
  have hafter : s'.serving t = st.page? .idle := by
    simp [State.serving, hstage, hpages, hcall]
  refine .of_stage h hat hstage hspawned hqueue (hpages ▸ h.pages)
    (fun u _ => by rw [hpages]; simp) ?_ hgenuine ?_
  · rwa [hpages, hcall]
  · rcases heffect with hsame | ⟨hnone, hfail⟩
    · refine .same ?_ (by rw [hpages])
      rw [hafter, hsame, State.serving, hcall]
    · exact .leak hfail (hafter.trans hnone) (by rw [hpages])

/-- A step of the thread inside the page handler. -/
theorem Moves.of_advance (h : Coordinated cfg s) {j : Job} {p : PageHandler.State ℕ}
    (at_ : s.stage t = .locking j ∨ s.stage t = .unlocking j)
    (call : s.pages.advance t = some p) : Moves cfg s a (s.setPages p) t := by
  have hinv : Inv p := h.pages.of_step (a := .advance t) trivial call
  have hframe : ∀ u, u ≠ t → p.call u = s.pages.call u ∧ p.opened u = s.pages.opened u :=
    fun u hu => step_frame (a := .advance t) call hu
  have hbusy : s.pages.call t ≠ .idle := fun hc => by simp [State.advance, hc] at call
  have hfits := h.fits t
  have hat : s.stage t ≠ .absent := by rcases at_ with at_ | at_ <;> simp [at_]
  have hstage : (s.setPages p).stage = Function.update s.stage t (s.stage t) := by
    simp [State.setPages]
  have hqueue : ∀ task ∈ (s.setPages p).workQueue, task ∈ s.workQueue := fun _ h => h
  rcases at_ with at_ | at_
  · rw [at_] at hfits
    rcases advance_locking (hfits.resolve_left hbusy) call (hinv.not_threw t) with
      ⟨hidle, hopened⟩ | ⟨hlock, hopened⟩
    · refine .of_stage h hat hstage rfl hqueue hinv hframe (at_ ▸ Or.inl hidle) (h.genuine t)
        (.enter j.httpUrl ?_ ?_ hopened)
      · simp [State.serving, at_, Stage.page?, hbusy]
      · simp [State.serving, State.setPages, at_, Stage.page?, hidle]
    · refine .of_stage h hat hstage rfl hqueue hinv hframe (at_ ▸ Or.inr hlock) (h.genuine t)
        (.same ?_ hopened)
      have hidle : p.call t ≠ .idle := fun hc => by simp [hc, Call.locking?] at hlock
      simp [State.serving, State.setPages, at_, Stage.page?, hbusy, hidle]
  · rw [at_] at hfits
    rcases advance_unlocking (hfits.resolve_left hbusy) call (hinv.not_threw t) with
      ⟨hidle, hopened⟩ | ⟨hlock, hopened⟩
    · refine .of_stage h hat hstage rfl hqueue hinv hframe (at_ ▸ Or.inl hidle) (h.genuine t)
        (.leave j.httpUrl ?_ ?_ hopened)
      · simp [State.serving, at_, Stage.page?, hbusy]
      · simp [State.serving, State.setPages, at_, Stage.page?, hidle]
    · refine .of_stage h hat hstage rfl hqueue hinv hframe (at_ ▸ Or.inr hlock) (h.genuine t)
        (.same ?_ hopened)
      have hidle : p.call t ≠ .idle := fun hc => by simp [hc, Call.unlocking?] at hlock
      simp [State.serving, State.setPages, at_, Stage.page?, hbusy, hidle]

/-- The thread calls `lockAccessPage`. -/
theorem Moves.of_lockAccessPage (h : Coordinated cfg s) {j : Job} {p : PageHandler.State ℕ}
    (hat : s.stage t ≠ .absent) (hserving : s.serving t = none) (hj : j.Genuine cfg)
    (call : s.pages.lockAccessPage t j.httpUrl = some p) :
    Moves cfg s a ((s.setPages p).setStage t (.locking j)) t := by
  have hinv : Inv p := h.pages.of_step (a := .lockAccessPage t j.httpUrl) trivial call
  have hframe : ∀ u, u ≠ t → p.call u = s.pages.call u ∧ p.opened u = s.pages.opened u :=
    fun u hu => step_frame (a := .lockAccessPage t j.httpUrl) call hu
  rcases lockAccessPage_cases call with ⟨hidle, hopened⟩ | ⟨hlock, hopened⟩
  · refine .of_stage h hat rfl rfl (fun _ h => h) hinv hframe (Or.inl hidle) hj
      (.enter j.httpUrl hserving ?_ hopened)
    simp [State.serving, State.setStage, State.setPages, Stage.page?, hidle]
  · refine .of_stage h hat rfl rfl (fun _ h => h) hinv hframe (Or.inr hlock) hj (.same ?_ hopened)
    have hidle : p.call t ≠ .idle := fun hc => by simp [hc, Call.locking?] at hlock
    rw [hserving]
    simp [State.serving, State.setStage, State.setPages, Stage.page?, hidle]

/-- The thread calls `unlockAccessPage`. -/
theorem Moves.of_unlockAccessPage (h : Coordinated cfg s) {j : Job} {p : PageHandler.State ℕ}
    (hat : s.stage t = .sending j [])
    (call : s.pages.unlockAccessPage t j.httpUrl = some p) :
    Moves cfg s a ((s.setPages p).setStage t (.unlocking j)) t := by
  have hserving : s.serving t = some j.httpUrl := by simp [State.serving, hat, Stage.page?]
  have hinv : Inv p := h.pages.of_step (a := .unlockAccessPage t j.httpUrl)
    (h.opened t j.httpUrl hserving) call
  have hframe : ∀ u, u ≠ t → p.call u = s.pages.call u ∧ p.opened u = s.pages.opened u :=
    fun u hu => step_frame (a := .unlockAccessPage t j.httpUrl) call hu
  have hj : j.Genuine cfg := by simpa [hat, Stage.Genuine] using h.genuine t
  have hnot : s.stage t ≠ .absent := by simp [hat]
  rcases unlockAccessPage_cases call with ⟨hidle, hopened⟩ | ⟨hlock, hopened⟩
  · refine .of_stage h hnot rfl rfl (fun _ h => h) hinv hframe (Or.inl hidle) hj
      (.leave j.httpUrl hserving ?_ hopened)
    simp [State.serving, State.setStage, State.setPages, Stage.page?, hidle]
  · refine .of_stage h hnot rfl rfl (fun _ h => h) hinv hframe (Or.inr hlock) hj (.same ?_ hopened)
    have hidle : p.call t ≠ .idle := fun hc => by simp [hc, Call.unlocking?] at hlock
    rw [hserving]
    simp [State.serving, State.setStage, State.setPages, Stage.page?, hidle]

theorem moves_of_step (h : Coordinated cfg s) (hs : step cfg s a = some s') :
    ∃ t, Moves cfg s a s' t := by
  cases step_cases hs with
  | accept next =>
    refine ⟨0, h.pages, h.absent, h.fits, fun task htask => ?_, h.genuine, fun _ _ => ⟨rfl, rfl⟩,
      .same rfl rfl⟩
    rcases List.mem_append.1 htask with htask | htask
    · exact h.queued task htask
    · exact List.mem_singleton.1 htask ▸ next
  | @take t task q at_ queue =>
    have hcall : s.pages.call t = .idle := by simpa [at_, Stage.Fits] using h.fits t
    have hmem : ∀ x ∈ task :: q, x.Genuine cfg := queue ▸ h.queued
    exact ⟨t, .of_stage_idle h (by simp [at_]) rfl rfl
      (fun x hx => queue ▸ List.mem_cons_of_mem _ hx) rfl hcall rfl (hmem task List.mem_cons_self)
      (Or.inl (by simp [at_, Stage.page?]))⟩
  | @giveUp t _ at_ | @log t _ at_ | @readFails t _ at_ =>
    have hcall : s.pages.call t = .idle := by simpa [at_, Stage.Fits] using h.fits t
    exact ⟨t, .of_stage_idle h (by simp [at_]) rfl rfl (fun _ h => h) rfl hcall rfl trivial
      (Or.inl (by simp [at_, Stage.page?]))⟩
  | @parsed t task request method route at_ read parse =>
    have hcall : s.pages.call t = .idle := by simpa [at_, Stage.Fits] using h.fits t
    have htask : task.Genuine cfg := by simpa [at_, Stage.Genuine] using h.genuine t
    exact ⟨t, .of_stage_idle h (by simp [at_]) rfl rfl (fun _ h => h) rfl hcall rfl
      ⟨htask, request, read, parse⟩ (Or.inl (by simp [at_, Stage.page?]))⟩
  | @readNull t _ at_ | @unresolved t _ _ _ at_ =>
    have hcall : s.pages.call t = .idle := by simpa [at_, Stage.Fits] using h.fits t
    exact ⟨t, .of_die h (by simp [at_]) hcall (Or.inl (by simp [State.serving, at_, Stage.page?]))⟩
  | @resolved t _ _ _ _ _ _ at_ res call =>
    have hgenuine := h.genuine t
    rw [at_] at hgenuine
    exact ⟨t, .of_lockAccessPage h (by simp [at_]) (by simp [State.serving, at_, Stage.page?])
      ⟨hgenuine.1, hgenuine.2, res⟩ call⟩
  | @locked t j at_ returned | @unlocked t j at_ returned =>
    have hgenuine := h.genuine t
    rw [at_] at hgenuine
    exact ⟨t, .of_stage_idle h (by simp [at_]) rfl rfl (fun _ h => h) rfl returned rfl hgenuine
      (Or.inl (by simp [at_, Stage.page?]))⟩
  | @advance t _ _ at_ call => exact ⟨t, .of_advance h at_ call⟩
  | @threw t _ _ threw => exact absurd threw (h.pages.not_threw t)
  | @loaded t _ _ at_ | @send t _ _ _ at_ =>
    have hcall : s.pages.call t = .idle := by simpa [at_, Stage.Fits] using h.fits t
    have hgenuine := h.genuine t
    rw [at_] at hgenuine
    exact ⟨t, .of_stage_idle h (by simp [at_]) rfl rfl (fun _ h => h) rfl hcall rfl hgenuine
      (Or.inl (by simp [at_, Stage.page?]))⟩
  | @unreadable t j e at_ read =>
    have hgenuine := h.genuine t
    rw [at_] at hgenuine
    obtain ⟨content, hread⟩ := exists_content hgenuine.resolved rfl
    cases read.symm.trans hread
  | @flush t j p at_ call => exact ⟨t, .of_unlockAccessPage h at_ call⟩
  | @sendFails t j bs at_ =>
    have hcall : s.pages.call t = .idle := by simpa [at_, Stage.Fits] using h.fits t
    exact ⟨t, .of_stage_idle h (by simp [at_]) rfl rfl (fun _ h => h) rfl hcall rfl trivial
      (Or.inr ⟨rfl, Or.inl rfl⟩)⟩
  | @loadFails t j at_ =>
    have hcall : s.pages.call t = .idle := by simpa [at_, Stage.Fits] using h.fits t
    exact ⟨t, .of_die h (by simp [at_]) hcall (Or.inr (Or.inr rfl))⟩

theorem Coordinated.of_step (h : Coordinated cfg s) (hs : step cfg s a = some s') :
    Coordinated cfg s' := by
  obtain ⟨t, hm⟩ := moves_of_step h hs
  exact hm.coordinated h

theorem coordinated_of_run {as : List Action}
    (h : run (step cfg) (State.init cfg) as = some s) : Coordinated cfg s :=
  run_invariant (fun _ _ _ h hs => h.of_step hs) Coordinated.init h

end Server
