import PaWebServer.LogHistory
import PaWebServer.LogRecovery
import PaWebServer.WebServer

/-!
# The log over the life of the web server

A web server is started and stopped many times, and each of its processes is a run of all threads.
Whatever the processes did, the log file is that of processes that write entries of requests whose
clients have received their answer (`history_of_answers`).  A client cannot write an entry for
another one: the method and the route of a request have no space, so the log file of a server that
is always closed determines the entries that each of its processes has written
(`log_determines_entries`).
-/

namespace WebServer

open Transition LogsHandler
open RequestThread (parse Client)

/-! ## The fields of an entry -/

theorem parse_spaceless {request method route : Text} (h : parse request = some (method, route)) :
    ' ' ∉ method ∧ ' ' ∉ route := by
  have hpiece : ∀ w ∈ Text.split ' ' request, ' ' ∉ w := by
    intro w hw
    unfold Text.split at hw
    split_ifs at hw with hsep
    · exact (FileTree.subset_of_mem_splitOn ((List.rdropWhile_prefix _ _).subset hw)).1
    · exact List.mem_singleton.1 hw ▸ hsep
  unfold parse at h
  split_ifs at h
  split at h
  · rename_i hsplit
    rw [hsplit] at hpiece
    split_ifs at h
    cases h
    exact ⟨hpiece _ (by simp), hpiece _ (by simp)⟩
  · cases h

/-- What a request logs when it is handled alone. -/
theorem alone_logged_spaceless {fs : FileTree.FileSystem} {c : Client}
    {x : RequestThread.Submission} (h : (Server.alone fs c).logged = [x]) :
    ' ' ∉ x.method ∧ ' ' ∉ x.route ∧ x.origin = c.origin := by
  by_cases hans : Server.Answered fs c
  · obtain ⟨method, route, url, error404, hres⟩ := hans
    obtain ⟨request, -, hparse, hhandle⟩ := RequestThread.resolve_eq_some hres
    obtain ⟨content, hread⟩ := RequestThread.exists_content hhandle rfl
    rw [Server.alone, RequestThread.exec_run_succeeds rfl ⟨rfl, fun _ _ => rfl⟩ hres hread] at h
    obtain rfl := List.singleton_inj.1 h
    obtain ⟨hmethod, hroute⟩ := parse_spaceless hparse
    exact ⟨hmethod, hroute, rfl⟩
  · rw [Server.alone_of_unresolved fun method route url error404 hres =>
      hans ⟨method, route, url, error404, hres⟩] at h
    cases h

/-- The timestamps of the calls are those of the steps. -/
theorem timestamp_of_run {cfg : Config} {as : List Action} {s : State} {P : Text → Prop}
    (htime : ∀ a timestamp, Action.server a timestamp ∈ as → P timestamp)
    (h : run (step cfg) (State.init cfg) as = some s) : ∀ c ∈ s.calls, P c.timestamp := by
  have hmeets : Meets (step cfg) (fun _ a => ∀ b timestamp, a = .server b timestamp → P timestamp)
      (State.init cfg) as :=
    meets_of_forall_mem fun a ha _ b timestamp hab => htime b timestamp (hab ▸ ha)
  refine guarded_run_invariant (I := fun s : State => ∀ c ∈ s.calls, P c.timestamp)
    (fun v a v' hv hp hs => ?_) (by simp [State.init]) hmeets h
  cases a with
  | server a timestamp =>
    obtain ⟨w, -, rfl⟩ := Option.map_eq_some_iff.1 hs
    intro c hc
    rcases List.mem_append.1 hc with hc | hc
    · exact hv c hc
    · have hnew : c.timestamp = timestamp := by
        unfold newCalls at hc
        split at hc
        · split at hc
          · rw [List.mem_singleton.1 hc]
            rfl
          · cases hc
        · cases hc
      exact hnew ▸ hp a timestamp rfl
  | log a =>
    obtain ⟨l, -, rfl⟩ := Option.map_eq_some_iff.1 hs
    exact hv

/-! ## The processes -/

/-- The life of a process: the files and the clients that it meets, the steps of its threads up to
its end, and the state in which they stop.  `closeLogs` is called once, and closes quietly. -/
structure Life where
  server : Server.Config
  steps : List Action
  final : State
  run_eq : run (step ⟨server, 1⟩) (State.init ⟨server, 1⟩) steps = some final
  quiet : Meets (LogQueue.step (LogQueue.serverConfig final.calls)) LogQueue.QuietClose
    LogQueue.State.init (logActions steps)

namespace Life

def cfg (x : Life) : Config := ⟨x.server, 1⟩

/-- What the log threads of the process do. -/
def session (x : Life) : LogQueue.Session where
  calls := x.final.calls
  steps := logActions x.steps
  final := x.final.log
  run_eq := run_log x.run_eq
  quiet := x.quiet

/-- The file that the processes leave one after another. -/
def leaveAll (file : Option Bytes) (xs : List Life) : Option Bytes :=
  LogQueue.Session.leaveAll file (xs.map session)

/-- The entries of `p` are of requests whose clients have been answered in the life `x`, no more
of them than these requests; and `p` closes the log when `closeLogs` has appended the trailer. -/
structure Records (x : Life) (p : Process) : Prop where
  answered : ∃ numbers : List ℕ, numbers.Nodup ∧
    List.Forall₂ (Answers x.cfg x.final) numbers x.final.calls
  calls : ∀ c ∈ p.entries, c ∈ x.final.calls
  logged : (p.entries.map logEntry).Subperm (x.final.calls.map logEntry)
  closes : p.closes = true ↔ LogQueue.Block.trailer ∈ x.final.log.file

/-- `closeLogs` has appended the trailer, the addresses of the clients have no space, and the
timestamps no quote. -/
structure Closed (x : Life) : Prop where
  trailer : LogQueue.Block.trailer ∈ x.final.log.file
  origins : ∀ c ∈ x.server.clients, ' ' ∉ c.origin
  timestamps : ∀ a timestamp, Action.server a timestamp ∈ x.steps → '"' ∉ timestamp

theorem records_of_matches {x : Life} {p : Process} (h : x.session.Matches p) : x.Records p := by
  obtain ⟨numbers, hnodup, -, hall⟩ := exists_answered x.run_eq
  exact ⟨⟨numbers, hnodup, hall⟩, h.calls, h.logged, h.closes⟩

/-- The calls of `logRequest` of a process have no space where the client could put one. -/
theorem Closed.spaceless {x : Life} (h : x.Closed) : ∀ c ∈ x.final.calls, c.Spaceless := by
  intro c hc
  obtain ⟨numbers, -, -, hall⟩ := exists_answered x.run_eq
  obtain ⟨i, -, hi⟩ := Tally.exists_of_mem_right hall hc
  have hlogged := hi.2
  unfold Server.aloneAt at hlogged
  split at hlogged
  · rename_i client hclient
    obtain ⟨hmethod, hroute, horigin⟩ := alone_logged_spaceless hlogged
    have hspace : ' ' ∉ c.origin := by
      rw [show c.origin = client.origin from horigin]
      exact h.origins client (List.mem_of_getElem? hclient)
    exact ⟨hroute, hmethod, hspace, timestamp_of_run h.timestamps x.run_eq c hc⟩
  · cases hlogged

/-- The file of processes that each close the log, and the entries that they have written. -/
theorem Closed.leaveAll_eq {xs : List Life} (hxs : ∀ x ∈ xs, x.Closed) :
    ∃ sessions : List (List LogCall), (∀ es ∈ sessions, ∀ c ∈ es, c.Spaceless) ∧
      sessions.map (List.map logEntry) =
        xs.map (fun x => LogQueue.writtenEntries x.final.log.file) ∧
      ∀ file, leaveAll file xs = runAll file (closing sessions) := by
  obtain ⟨ps, hps⟩ := LogQueue.Session.exists_forall₂_matches (xs.map session)
  have htrailer : ∀ x ∈ xs.map session, LogQueue.Block.trailer ∈ x.final.file := by
    intro x hx
    obtain ⟨y, hy, rfl⟩ := List.mem_map.1 hx
    exact (hxs y hy).trailer
  have hclosing := LogQueue.Session.closing_of_matches hps htrailer
  refine ⟨ps.map Process.entries, ?_, ?_, fun file => ?_⟩
  · intro es hes c hc
    obtain ⟨p, hp, rfl⟩ := List.mem_map.1 hes
    obtain ⟨x, hx, hmatches⟩ := Tally.exists_of_mem_right hps hp
    obtain ⟨y, hy, rfl⟩ := List.mem_map.1 hx
    exact (hxs y hy).spaceless c (hmatches.calls c hc)
  · rw [LogQueue.Session.map_entries_of_matches hps, List.map_map]
    rfl
  · rw [← hclosing]
    exact LogQueue.Session.leaveAll_of_matches hps file

end Life

/-- Over any number of processes, each with any clients, any interleaving of its threads and any
failures, stopped at any moment, in which `closeLogs` closes quietly; and from any file: the log
file is that of a row of processes that write entries of requests whose clients have received their
whole answer, no request more often than once. -/
theorem history_of_answers (xs : List Life) :
    ∃ ps : List Process, List.Forall₂ Life.Records xs ps ∧
      ∀ file, Life.leaveAll file xs = runAll file ps := by
  obtain ⟨ps, hps⟩ := LogQueue.Session.exists_forall₂_matches (xs.map Life.session)
  exact ⟨ps, (List.forall₂_map_left_iff.1 hps).imp fun x p h => Life.records_of_matches h,
    LogQueue.Session.leaveAll_of_matches hps⟩

/-- Two histories of processes that each close the log leave the same file only if they have
written, process by process, the same entries in the same order. -/
theorem log_determines_entries (file : Option Bytes) (xs ys : List Life)
    (hxs : ∀ x ∈ xs, x.Closed) (hys : ∀ y ∈ ys, y.Closed)
    (h : Life.leaveAll file xs = Life.leaveAll file ys) :
    xs.map (fun x => LogQueue.writtenEntries x.final.log.file) =
      ys.map fun y => LogQueue.writtenEntries y.final.log.file := by
  obtain ⟨ss, hss, hxs, hfile⟩ := Life.Closed.leaveAll_eq hxs
  obtain ⟨ts, hts, hys, hfile'⟩ := Life.Closed.leaveAll_eq hys
  rw [hfile, hfile'] at h
  rw [← hxs, ← hys, closing_injective hss hts h]

/-! ## Two lives -/

/-- The life that the steps are, when they can be done. -/
def Life.ofSteps (server : Server.Config) (steps : List Action)
    (h : (run (step ⟨server, 1⟩) (State.init ⟨server, 1⟩) steps).isSome = true)
    (quiet : Meets (LogQueue.step (LogQueue.serverConfig ((run (step ⟨server, 1⟩)
      (State.init ⟨server, 1⟩) steps).get h).calls)) LogQueue.QuietClose LogQueue.State.init
        (logActions steps)) : Life :=
  ⟨server, steps, _, (Option.some_get h).symm, quiet⟩

/-- One client is answered, and its request is logged. -/
def answerSteps : List Action :=
  [.server .accept sampleCall.timestamp] ++
    List.replicate 22 (.server (.worker 0) sampleCall.timestamp) ++
      List.replicate 5 (.log (.producer 0))

/-- The consumer starts after the answer. -/
def lateLife : Life :=
  .ofSteps oneClient.server (answerSteps ++ List.replicate 6 (.log (.consumer 0)) ++
    List.replicate 5 (.log (.hook 0))) (by decide +kernel) (by decide +kernel)

/-- The consumer waits for the answer. -/
def earlyLife : Life :=
  .ofSteps oneClient.server ([.log (.consumer 0)] ++ answerSteps ++
    List.replicate 5 (.log (.consumer 0)) ++ List.replicate 5 (.log (.hook 0)))
    (by decide +kernel) (by decide +kernel)

theorem closed_of_decided {x : Life}
    (htrailer : LogQueue.Block.trailer ∈ x.final.log.file)
    (horigins : ∀ c ∈ x.server.clients, ' ' ∉ c.origin)
    (htimestamps : x.steps.all (fun
      | .server _ timestamp => '"' ∉ timestamp
      | .log _ => true) = true) : x.Closed :=
  ⟨htrailer, horigins, fun _ _ h => by simpa using List.all_eq_true.1 htimestamps _ h⟩

theorem lateLife_closed : lateLife.Closed :=
  closed_of_decided (by decide +kernel) (by decide +kernel) (by decide +kernel)

theorem earlyLife_closed : earlyLife.Closed :=
  closed_of_decided (by decide +kernel) (by decide +kernel) (by decide +kernel)

theorem log_determines_entries_twoLives :
    [lateLife, earlyLife].map (fun x => LogQueue.writtenEntries x.final.log.file) =
      [earlyLife, lateLife].map fun y => LogQueue.writtenEntries y.final.log.file :=
  log_determines_entries none [lateLife, earlyLife] [earlyLife, lateLife]
    (by simp [lateLife_closed, earlyLife_closed]) (by simp [lateLife_closed, earlyLife_closed])
    (by decide +kernel)

end WebServer
