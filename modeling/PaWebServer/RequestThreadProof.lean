import PaWebServer.RequestHandlerProof
import PaWebServer.RequestThread

/-!
# What one run of the request thread does

Between `lockAccessPage` and `unlockAccessPage` every operation that fails ends the run with the
page still locked (`exec_serve_fails`); when none fails the client gets the whole response, the
page is unlocked and the request is logged (`exec_serve_succeeds`).
-/

namespace RequestThread

open FileTree RequestHandler PageHandler

variable {env : Env} {w : World} {α β : Type}

/-! ## The effects -/

@[simp] theorem exec_pure (a : α) : exec (pure a) w = (.ok a, w) := rfl

@[simp] theorem exec_throw (e : Throwable) : exec (throw e : Run α) w = (.error e, w) := rfl

@[simp] theorem exec_modify (f : World → World) : exec (modify f) w = (.ok (), f w) := rfl

@[simp] theorem exec_get : exec get w = (.ok w, w) := rfl

@[simp] theorem exec_set (v : World) : exec (set v) w = (.ok ⟨⟩, v) := rfl

@[simp] theorem exec_liftM (x : Except Throwable α) : exec (liftM x) w = (x, w) := by
  cases x <;> rfl

@[simp] theorem exec_bind (m : Run α) (f : α → Run β) :
    exec (m >>= f) w =
      match exec m w with
      | (.ok a, v) => exec (f a) v
      | (.error e, v) => (.error e, v) := by
  change ExceptT.bindCont f (exec m w).1 (exec m w).2 = _
  rcases exec m w with ⟨_ | _, _⟩ <;> rfl

/-! ## The operations of `run` -/

/-- The world after `lockAccessPage`. -/
def World.locked (w : World) (page : Page) : World :=
  if exempt page then w else { w with holds := Function.update w.holds page (w.holds page + 1) }

theorem exec_lockAccessPage (page : Page) :
    exec (lockAccessPage page) w = (.ok (), w.locked page) := rfl

/-- `unlockAccessPage` undoes `lockAccessPage`, whatever the thread has sent and logged since. -/
theorem exec_unlockAccessPage (w : World) (page : Page) (sent : Bytes) (logged : List Submission) :
    exec (unlockAccessPage page) ⟨(w.locked page).holds, sent, logged⟩ =
      (.ok (), ⟨w.holds, sent, logged⟩) := by
  unfold unlockAccessPage World.locked
  by_cases hex : exempt page = true <;> simp [hex]

/-- Output operations of which none fails. -/
theorem exec_writeFrom_succeeds {fails : ℕ → Bool} {k : ℕ} {bs : List Bytes}
    (h : ∀ j ≤ bs.length, fails (k + j) = false) :
    exec (writeFrom fails k bs) w = (.ok (), { w with sent := w.sent ++ bs.flatten }) := by
  induction bs generalizing k w with
  | nil =>
    have hk := h 0 (Nat.zero_le _)
    simp_all [writeFrom]
  | cons b bs ih =>
    have hk := h 0 (Nat.zero_le _)
    have hrest : ∀ j ≤ bs.length, fails (k + 1 + j) = false := fun j hj => by
      have := h (j + 1) (by simpa using hj)
      rwa [Nat.add_right_comm, Nat.add_assoc]
    rw [Nat.add_zero] at hk
    simp [writeFrom, hk, ih hrest]

/-- An output operation that fails. -/
theorem exec_writeFrom_fails {fails : ℕ → Bool} {k : ℕ} {bs : List Bytes}
    (h : ∃ j ≤ bs.length, fails (k + j) = true) :
    ∃ sent, exec (writeFrom fails k bs) w = (.error .ioException, { w with sent := sent }) := by
  induction bs generalizing k w with
  | nil =>
    obtain ⟨j, hj, hf⟩ := h
    obtain rfl := Nat.le_zero.1 hj
    exact ⟨w.sent, by simp_all [writeFrom]⟩
  | cons b bs ih =>
    by_cases hk : fails k = true
    · exact ⟨w.sent, by simp [writeFrom, hk]⟩
    · obtain ⟨j, hj, hf⟩ := h
      cases j with
      | zero => exact absurd hf hk
      | succ j =>
        obtain ⟨sent, hsent⟩ := @ih { w with sent := w.sent ++ b } (k + 1)
          ⟨j, by simpa using hj, by rwa [Nat.add_right_comm, Nat.add_assoc]⟩
        exact ⟨sent, by simp [writeFrom, hk, hsent]⟩

/-! ## The answer -/

/-- Neither the read of the document nor an operation on the output stream fails. -/
def Succeeds (env : Env) : Prop := env.readFails = false ∧ ∀ k ≤ 8, env.writeFails k = false

theorem World.locked_sent (page : Page) : (w.locked page).sent = w.sent := by
  unfold locked
  split_ifs <;> rfl

theorem World.locked_logged (page : Page) : (w.locked page).logged = w.logged := by
  unfold locked
  split_ifs <;> rfl

theorem exec_readBinaryFile {httpUrl : Text} {content : Bytes}
    (hread : RequestHandler.readBinaryFile env.fs httpUrl = .ok content) :
    exec (readBinaryFile env httpUrl) w =
      (if env.readFails then .error .unchecked else .ok content, w) := by
  unfold readBinaryFile
  cases env.readFails <;> simp [hread]

/-- When no operation on the output stream fails the client gets the whole response. -/
theorem exec_sendResponse_succeeds (h : Succeeds env) (contentPage : Bytes) :
    exec (sendResponse env contentPage) w =
      (.ok (), { w with sent := w.sent ++ (responseChunks contentPage).flatten }) :=
  exec_writeFrom_succeeds fun j hj => by simpa using h.2 j hj

/-- When nothing fails the client gets the whole response, the thread holds what it held before,
and the request is logged. -/
theorem exec_serve_succeeds {httpUrl : Text} {content : Bytes}
    (hread : RequestHandler.readBinaryFile env.fs httpUrl = .ok content) (h : Succeeds env)
    (s : Submission) :
    exec (serve env httpUrl s) w =
      (.ok (), { w with
        sent := w.sent ++ (responseChunks content).flatten, logged := w.logged ++ [s] }) := by
  simp [serve, exec_lockAccessPage, exec_readBinaryFile hread, h.1, exec_sendResponse_succeeds h,
    exec_unlockAccessPage, logRequest, World.locked_sent, World.locked_logged]

/-- A failure ends the run between `lockAccessPage` and `unlockAccessPage`. -/
theorem exec_serve_fails {httpUrl : Text} {content : Bytes}
    (hread : RequestHandler.readBinaryFile env.fs httpUrl = .ok content) (h : ¬ Succeeds env)
    (s : Submission) :
    ∃ e sent, exec (serve env httpUrl s) w =
      (.error e, { w.locked httpUrl with sent := sent }) := by
  unfold serve
  simp only [exec_bind, exec_lockAccessPage, exec_readBinaryFile hread]
  by_cases hr : env.readFails = true
  · exact ⟨.unchecked, (w.locked httpUrl).sent, by simp [hr]⟩
  · have hwrite : ∃ j ≤ (responseChunks content).length, env.writeFails (0 + j) = true := by
      by_contra hno
      push Not at hno
      exact h ⟨by simpa using hr, fun k hk => by simpa using hno k hk⟩
    obtain ⟨sent, hsent⟩ := exec_writeFrom_fails (w := w.locked httpUrl) hwrite
    exact ⟨.ioException, sent, by simp [hr, sendResponse, hsent]⟩

/-! ## The whole run -/

/-- Every result of the handler is the text of a path, so `readBinaryFile` does not throw. -/
theorem exists_content {fs : FileSystem} {route url : Text} {res : Resolution}
    (h : (handleRequest fs serverRoot route).2 = .ok res) (hurl : res.httpUrl = some url) :
    ∃ content, RequestHandler.readBinaryFile fs url = .ok content := by
  have hget : ∃ p, Path.get url = some p := by
    rcases handleRequest_httpUrl h hurl with ⟨-, rfl⟩ | ⟨-, p, -, rfl, -⟩
    · exact ⟨⟨false, ["html".toList, "404.html".toList], by decide⟩, by decide⟩
    · exact ⟨p, Path.get_toText p⟩
  obtain ⟨p, hp⟩ := hget
  exact ⟨(fs.readAllBytes p).getD [], by simp [RequestHandler.readBinaryFile, hp]⟩

/-- The method and the route of the client's request, and what the handler makes of the route. -/
def resolve (fs : FileSystem) (client : Client) : Option (Text × Text × Resolution) :=
  match readRequest client.ending client.lines with
  | .error _ => none
  | .ok request =>
    match parse request with
    | none => none
    | some (method, route) =>
      match (handleRequest fs serverRoot route).2 with
      | .error _ => none
      | .ok res => some (method, route, res)

theorem resolve_eq_some {fs : FileSystem} {client : Client} {method route : Text}
    {res : Resolution} (h : resolve fs client = some (method, route, res)) :
    ∃ request, readRequest client.ending client.lines = .ok request ∧
      parse request = some (method, route) ∧ (handleRequest fs serverRoot route).2 = .ok res := by
  unfold resolve at h
  split at h
  · cases h
  · rename_i request hread
    split at h
    · cases h
    · rename_i hparse
      split at h
      · cases h
      · rename_i hres
        cases h
        exact ⟨request, hread, hparse, hres⟩

/-- `run` is its body with IOExceptions caught. -/
def caught : Except Throwable Unit × World → Except Throwable Unit × World
  | (.error .ioException, v) => (.ok (), v)
  | r => r

theorem exec_run : exec (run env) w = caught (exec (body env) w) := by
  unfold run exec
  simp only [tryCatch, tryCatchThe, MonadExceptOf.tryCatch, ExceptT.tryCatch, ExceptT.run,
    ExceptT.mk, StateT.run_bind]
  rcases StateT.run (body env) w with ⟨_ | ⟨⟩, v⟩
  · rename_i e
    cases e <;> rfl
  · rfl

/-- A request with a page to lock is answered with it. -/
theorem exec_body_resolved {method route url : Text} {error404 : Bool}
    (hstreams : env.streamsFail = false)
    (h : resolve env.fs env.client = some (method, route, ⟨some url, error404⟩)) :
    exec (body env) w =
      exec (serve env url (submission method route env.client.origin error404)) w := by
  obtain ⟨request, hread, hparse, hres⟩ := resolve_eq_some h
  simp [body, hstreams, hread, hparse, answer, hres]

/-- A run that calls `lockAccessPage` on no page changes nothing. -/
theorem exec_body_unresolved
    (h : env.streamsFail = true ∨ ∀ method route url error404,
      resolve env.fs env.client ≠ some (method, route, ⟨some url, error404⟩)) :
    (exec (body env) w).2 = w := by
  cases hstreams : env.streamsFail with
  | true => simp [body, hstreams]
  | false =>
    have hno := h.resolve_left (by simp [hstreams])
    unfold resolve at hno
    cases hread : readRequest env.client.ending env.client.lines with
    | error e => simp [body, hstreams, hread]
    | ok request =>
      cases hparse : parse request with
      | none => simp [body, hstreams, hread, hparse]
      | some target =>
        obtain ⟨method, route⟩ := target
        cases hres : (handleRequest env.fs serverRoot route).2 with
        | error e => simp [body, hstreams, hread, hparse, answer, hres]
        | ok res =>
          obtain ⟨url, error404⟩ := res
          cases url with
          | none => simp [body, hstreams, hread, hparse, answer, hres]
          | some url => exact absurd (by simp [hread, hparse, hres]) (hno method route url error404)

theorem caught_snd (r : Except Throwable Unit × World) : (caught r).2 = r.2 := by
  rcases r with ⟨_ | _, v⟩
  · rename_i e
    cases e <;> rfl
  · rfl

/-- The page whose lock the run takes. -/
def lockedPage (env : Env) : Option Page :=
  if env.streamsFail then none
  else
    match resolve env.fs env.client with
    | some (_, _, ⟨some url, _⟩) => if exempt url then none else some url
    | _ => none

/-- The thread holds the same locks after the run as before exactly when it takes none, or none of
the operations on the document and on the output stream fails. -/
theorem exec_run_holds_iff (env : Env) (w : World) :
    (exec (run env) w).2.holds = w.holds ↔ lockedPage env = none ∨ Succeeds env := by
  rw [exec_run, caught_snd]
  by_cases h : env.streamsFail = true ∨ ∀ method route url error404,
      resolve env.fs env.client ≠ some (method, route, ⟨some url, error404⟩)
  · rw [exec_body_unresolved h]
    refine iff_of_true rfl (Or.inl ?_)
    unfold lockedPage
    rcases h with h | h
    · rw [if_pos h]
    · split_ifs
      · rfl
      · split
        · rename_i hres
          exact absurd hres (h _ _ _ _)
        · rfl
  · push Not at h
    obtain ⟨hstreams, method, route, url, error404, hres⟩ := h
    replace hstreams : env.streamsFail = false := by simpa using hstreams
    obtain ⟨request, -, -, hhandle⟩ := resolve_eq_some hres
    obtain ⟨content, hread⟩ := exists_content hhandle rfl
    rw [exec_body_resolved hstreams hres]
    by_cases hs : Succeeds env
    · rw [exec_serve_succeeds hread hs]
      exact iff_of_true rfl (Or.inr hs)
    · obtain ⟨e, sent, hserve⟩ := exec_serve_fails (w := w) hread hs
        (submission method route env.client.origin error404)
      rw [hserve, or_iff_left hs]
      by_cases hex : exempt url = true
      · simp [World.locked, lockedPage, hstreams, hres, hex]
      · refine iff_of_false ?_ ?_
        · intro heq
          have := congrFun heq url
          simp [World.locked, hex] at this
        · simp [lockedPage, hstreams, hres, hex]

/-- A request whose run meets no failure is answered with its document and logged. -/
theorem exec_run_succeeds {method route url : Text} {error404 : Bool} {content : Bytes}
    (hstreams : env.streamsFail = false) (hs : Succeeds env)
    (h : resolve env.fs env.client = some (method, route, ⟨some url, error404⟩))
    (hread : RequestHandler.readBinaryFile env.fs url = .ok content) :
    exec (run env) w =
      (.ok (), { w with
        sent := w.sent ++ (responseChunks content).flatten
        logged := w.logged ++ [submission method route env.client.origin error404] }) := by
  rw [exec_run, exec_body_resolved hstreams h, exec_serve_succeeds hread hs]
  rfl

end RequestThread
