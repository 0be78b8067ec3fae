import PaWebServer.Server
import PaWebServer.PageHandlerProof

/-!
# The steps of the server

One rule for each thing that a step of `Server.step` can do (`Step`, `step_cases`).
-/

namespace Server

open FileTree RequestHandler RequestThread PageHandler Transition

variable {cfg : Config} {s s' : State} {a : Action} {t u : ℕ}

/-- What each step does, with the test that lets it happen. -/
inductive Step (cfg : Config) (s : State) : Action → State → Prop
  | accept {c} (next : cfg.clients[s.accepted]? = some c) :
      Step cfg s .accept
        { s with accepted := s.accepted + 1, workQueue := s.workQueue ++ [⟨s.accepted, c⟩] }
  | take {t task q} (at_ : s.stage t = .idle) (queue : s.workQueue = task :: q) :
      Step cfg s (.worker t) ({ s with workQueue := q }.setStage t (.reading task))
  | giveUp {t task} (at_ : s.stage t = .reading task)
      (read : readRequest task.client.ending task.client.lines = .error .ioException ∨
        ∃ request, readRequest task.client.ending task.client.lines = .ok request ∧
          parse request = none) :
      Step cfg s (.worker t) (s.setStage t .idle)
  | readNull {t task} (at_ : s.stage t = .reading task)
      (read : readRequest task.client.ending task.client.lines = .error .unchecked) :
      Step cfg s (.worker t) (s.die t)
  | parsed {t task request method route} (at_ : s.stage t = .reading task)
      (read : readRequest task.client.ending task.client.lines = .ok request)
      (parse : parse request = some (method, route)) :
      Step cfg s (.worker t) (s.setStage t (.resolving task method route))
  | resolved {t task method route url error404 p} (at_ : s.stage t = .resolving task method route)
      (res : (handleRequest cfg.fs serverRoot route).2 = .ok ⟨some url, error404⟩)
      (call : s.pages.lockAccessPage t url = some p) :
      Step cfg s (.worker t)
        ((s.setPages p).setStage t (.locking ⟨task, method, route, url, error404⟩))
  | unresolved {t task method route} (at_ : s.stage t = .resolving task method route)
      (res : ∀ url error404,
        (handleRequest cfg.fs serverRoot route).2 ≠ .ok ⟨some url, error404⟩) :
      Step cfg s (.worker t) (s.die t)
  | locked {t j} (at_ : s.stage t = .locking j) (returned : s.pages.call t = .idle) :
      Step cfg s (.worker t) (s.setStage t (.loading j))
  | unlocked {t j} (at_ : s.stage t = .unlocking j) (returned : s.pages.call t = .idle) :
      Step cfg s (.worker t) (s.setStage t (.logging j))
  | advance {t j p} (at_ : s.stage t = .locking j ∨ s.stage t = .unlocking j)
      (call : s.pages.advance t = some p) : Step cfg s (.worker t) (s.setPages p)
  | threw {t j} (at_ : s.stage t = .locking j ∨ s.stage t = .unlocking j)
      (threw : s.pages.call t = .threw) : Step cfg s (.worker t) (s.die t)
  | loaded {t j content} (at_ : s.stage t = .loading j)
      (read : RequestHandler.readBinaryFile cfg.fs j.httpUrl = .ok content) :
      Step cfg s (.worker t) (s.setStage t (.sending j (responseChunks content)))
  | unreadable {t j e} (at_ : s.stage t = .loading j)
      (read : RequestHandler.readBinaryFile cfg.fs j.httpUrl = .error e) :
      Step cfg s (.worker t) (s.die t)
  | send {t j b bs} (at_ : s.stage t = .sending j (b :: bs)) :
      Step cfg s (.worker t)
        ({ s with
          sent := Function.update s.sent j.task.number (s.sent j.task.number ++ b) }.setStage t
            (.sending j bs))
  | flush {t j p} (at_ : s.stage t = .sending j [])
      (call : s.pages.unlockAccessPage t j.httpUrl = some p) :
      Step cfg s (.worker t) ((s.setPages p).setStage t (.unlocking j))
  | log {t j} (at_ : s.stage t = .logging j) :
      Step cfg s (.worker t) ({ s with logged := s.logged ++ [j.submission] }.setStage t .idle)
  | readFails {t task} (at_ : s.stage t = .reading task) :
      Step cfg s (.ioError t) (s.setStage t .idle)
  | sendFails {t j bs} (at_ : s.stage t = .sending j bs) :
      Step cfg s (.ioError t) (s.setStage t .idle)
  | loadFails {t j} (at_ : s.stage t = .loading j) : Step cfg s (.readError t) (s.die t)

theorem inCall_cases {next : Stage} (h : s.inCall t next = some s') :
    s.pages.call t = .idle ∧ s' = s.setStage t next ∨
      s.pages.call t = .threw ∧ s' = s.die t ∨
      ∃ p, s.pages.advance t = some p ∧ s' = s.setPages p := by
  unfold State.inCall at h
  split at h
  · exact Or.inl ⟨‹_›, (Option.some.inj h).symm⟩
  · exact Or.inr (Or.inl ⟨‹_›, (Option.some.inj h).symm⟩)
  · obtain ⟨p, hp, rfl⟩ := Option.map_eq_some_iff.1 h
    exact Or.inr (Or.inr ⟨p, hp, rfl⟩)

theorem work_cases (h : s.work t cfg.fs = some s') : Step cfg s (.worker t) s' := by
  unfold State.work at h
  split at h
  case h_1 => cases h
  case h_2 => cases h
  case h_3 hst =>
    split at h
    · cases h
    · obtain rfl := Option.some.inj h
      exact .take hst ‹_›
  case h_4 hst =>
    split at h
    · obtain rfl := Option.some.inj h
      exact .giveUp hst (Or.inl ‹_›)
    · obtain rfl := Option.some.inj h
      exact .readNull hst ‹_›
    · split at h <;> obtain rfl := Option.some.inj h
      · exact .giveUp hst (Or.inr ⟨_, ‹_›, ‹_›⟩)
      · exact .parsed hst ‹_› ‹_›
  case h_5 hst =>
    split at h
    · obtain ⟨p, hp, rfl⟩ := Option.map_eq_some_iff.1 h
      exact .resolved hst ‹_› hp
    · obtain rfl := Option.some.inj h
      exact .unresolved hst (by simp [*])
    · obtain rfl := Option.some.inj h
      exact .unresolved hst (by simp [*])
  case h_6 hst =>
    rcases inCall_cases h with ⟨hc, rfl⟩ | ⟨hc, rfl⟩ | ⟨p, hp, rfl⟩
    · exact .locked hst hc
    · exact .threw (Or.inl hst) hc
    · exact .advance (Or.inl hst) hp
  case h_7 hst =>
    split at h <;> obtain rfl := Option.some.inj h
    · exact .unreadable hst ‹_›
    · exact .loaded hst ‹_›
  case h_8 hst =>
    obtain rfl := Option.some.inj h
    exact .send hst
  case h_9 hst =>
    obtain ⟨p, hp, rfl⟩ := Option.map_eq_some_iff.1 h
    exact .flush hst hp
  case h_10 hst =>
    rcases inCall_cases h with ⟨hc, rfl⟩ | ⟨hc, rfl⟩ | ⟨p, hp, rfl⟩
    · exact .unlocked hst hc
    · exact .threw (Or.inr hst) hc
    · exact .advance (Or.inr hst) hp
  case h_11 hst =>
    obtain rfl := Option.some.inj h
    exact .log hst

theorem step_cases (h : step cfg s a = some s') : Step cfg s a s' := by
  cases a with
  | accept =>
    obtain ⟨c, hc, rfl⟩ := Option.map_eq_some_iff.1 h
    exact .accept hc
  | worker t => exact work_cases h
  | ioError t =>
    simp only [step, State.ioError] at h
    split at h
    · obtain rfl := Option.some.inj h
      exact .readFails ‹_›
    · obtain rfl := Option.some.inj h
      exact .sendFails ‹_›
    · cases h
  | readError t =>
    simp only [step, State.readError] at h
    split at h
    · obtain rfl := Option.some.inj h
      exact .loadFails ‹_›
    · cases h

/-- Each rule is a step. -/
theorem step_of_rule (h : Step cfg s a s') : step cfg s a = some s' := by
  cases h with
  | accept next => simp [step, State.accept, next]
  | take at_ queue => simp [step, State.work, at_, queue]
  | giveUp at_ read =>
    rcases read with read | ⟨request, read, parse⟩
    · simp [step, State.work, at_, read]
    · simp [step, State.work, at_, read, parse]
  | readNull at_ read => simp [step, State.work, at_, read]
  | parsed at_ read parse => simp [step, State.work, at_, read, parse]
  | resolved at_ res call => simp [step, State.work, at_, res, call]
  | @unresolved t task method route at_ res =>
    simp only [step, State.work, at_]
    split
    · exact absurd ‹_› (res _ _)
    · rfl
    · rfl
  | locked at_ returned | unlocked at_ returned =>
    simp [step, State.work, at_, State.inCall, returned]
  | @advance t j p at_ call =>
    have hidle : s.pages.call t ≠ .idle := fun h => by simp [PageHandler.State.advance, h] at call
    have hthrew : s.pages.call t ≠ .threw := fun h => by simp [PageHandler.State.advance, h] at call
    have hcall : ∀ next, s.inCall t next = some (s.setPages p) := by
      intro next
      unfold State.inCall
      split
      · exact absurd ‹_› hidle
      · exact absurd ‹_› hthrew
      · rw [call]
        rfl
    rcases at_ with at_ | at_ <;> simp [step, State.work, at_, hcall]
  | threw at_ threw =>
    rcases at_ with at_ | at_ <;> simp [step, State.work, at_, State.inCall, threw]
  | loaded at_ read | unreadable at_ read => simp [step, State.work, at_, read]
  | send at_ => simp [step, State.work, at_]
  | flush at_ call => simp [step, State.work, at_, call]
  | log at_ => simp [step, State.work, at_]
  | readFails at_ | sendFails at_ => simp [step, State.ioError, at_]
  | loadFails at_ => simp [step, State.readError, at_]

end Server
