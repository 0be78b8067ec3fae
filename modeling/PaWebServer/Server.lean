import PaWebServer.RequestThread

/-!
# The server

`MainHTTPServerThread` accepts the clients one after another and gives each to a pool of worker
threads, which take the requests in the order in which they were accepted and answer them with the
steps of `RequestThread.run`.  A thread that a RuntimeException or an Error has ended is replaced by
a new one.  A step is one step of one thread, or a failure of the operation that a worker is about
to do.

All threads of the pool are there from the start.  No operation on a socket waits for ever: a client
sends its lines up to a blank one, or its stream ends or fails before that, and it takes what is
written to it, or the write fails.
-/

namespace Server

open FileTree RequestHandler RequestThread PageHandler Transition

/-- A request on its way: its number in the order of acceptance, and its client. -/
structure Task where
  number : ℕ
  client : Client
  deriving DecidableEq

/-- A task whose route has been resolved. -/
structure Job where
  task : Task
  method : Text
  route : Text
  httpUrl : Page
  error404 : Bool
  deriving DecidableEq

/-- What the worker will pass to `logRequest`. -/
def Job.submission (j : Job) : Submission :=
  RequestThread.submission j.method j.route j.task.client.origin j.error404

/-- Where a thread is: it does not exist yet, it waits for a task, it is in `run` before the step
named, or it has ended.  `locking` and `unlocking` are the calls of the page handler. -/
inductive Stage where
  | absent
  | idle
  | reading (task : Task)
  | resolving (task : Task) (method route : Text)
  | locking (j : Job)
  | loading (j : Job)
  | sending (j : Job) (rest : List Bytes)
  | unlocking (j : Job)
  | logging (j : Job)
  | dead

/-- The files, the clients in the order in which they are accepted, and the size of the pool. -/
structure Config where
  fs : FileSystem
  clients : List Client
  maxConnections : ℕ

structure State where
  accepted : ℕ
  workQueue : List Task
  /-- The threads from `spawned` on do not exist yet. -/
  spawned : ℕ
  stage : ℕ → Stage
  pages : PageHandler.State ℕ
  sent : ℕ → Bytes
  logged : List Submission

/-- Each thread of the pool waits for a task. -/
def State.init (cfg : Config) : State where
  accepted := 0
  workQueue := []
  spawned := cfg.maxConnections
  stage t := if t < cfg.maxConnections then .idle else .absent
  pages := .init ℕ
  sent _ := []
  logged := []

namespace State

variable (s : State) (t : ℕ)

def setStage (st : Stage) : State := { s with stage := Function.update s.stage t st }

def setPages (p : PageHandler.State ℕ) : State := { s with pages := p }

/-- An exception ends the thread, and the pool starts a new one. -/
def die : State :=
  { s with
    stage := Function.update (Function.update s.stage t .dead) s.spawned .idle
    spawned := s.spawned + 1 }

/-- The main thread accepts the next client and gives it to the pool. -/
def accept (clients : List Client) : Option State :=
  clients[s.accepted]?.map fun c =>
    { s with accepted := s.accepted + 1, workQueue := s.workQueue ++ [⟨s.accepted, c⟩] }

/-- A step inside a call of the page handler; `next` follows when the call has returned. -/
def inCall (next : Stage) : Option State :=
  match s.pages.call t with
  | .idle => some (s.setStage t next)
  | .threw => some (s.die t)
  | _ => (s.pages.advance t).map s.setPages

/-- The next step of the thread; what it reads is there, and what it writes is taken. -/
def work (fs : FileSystem) : Option State :=
  match s.stage t with
  | .absent | .dead => none
  | .idle =>
    match s.workQueue with
    | [] => none
    | task :: q => some ({ s with workQueue := q }.setStage t (.reading task))
  | .reading task =>
    match readRequest task.client.ending task.client.lines with
    | .error .ioException => some (s.setStage t .idle)
    | .error .unchecked => some (s.die t)
    | .ok request =>
      match parse request with
      | none => some (s.setStage t .idle)
      | some (method, route) => some (s.setStage t (.resolving task method route))
  | .resolving task method route =>
    match (handleRequest fs serverRoot route).2 with
    | .ok ⟨some url, error404⟩ =>
      (s.pages.lockAccessPage t url).map fun p =>
        (s.setPages p).setStage t (.locking ⟨task, method, route, url, error404⟩)
    | .ok ⟨none, _⟩ => some (s.die t)
    | .error _ => some (s.die t)
  | .locking j => s.inCall t (.loading j)
  | .loading j =>
    match RequestHandler.readBinaryFile fs j.httpUrl with
    | .error _ => some (s.die t)
    | .ok content => some (s.setStage t (.sending j (responseChunks content)))
  | .sending j (b :: bs) =>
    let n := j.task.number
    some ({ s with sent := Function.update s.sent n (s.sent n ++ b) }.setStage t (.sending j bs))
  | .sending j [] =>
    -- The flush, and then the call of `unlockAccessPage`.
    (s.pages.unlockAccessPage t j.httpUrl).map fun p => (s.setPages p).setStage t (.unlocking j)
  | .unlocking j => s.inCall t (.logging j)
  | .logging j => some ({ s with logged := s.logged ++ [j.submission] }.setStage t .idle)

/-- The operation on the socket that the thread is about to do throws an IOException, which `run`
catches. -/
def ioError : Option State :=
  match s.stage t with
  | .reading _ | .sending _ _ => some (s.setStage t .idle)
  | _ => none

/-- `Files.readAllBytes` throws an Error, which nobody catches. -/
def readError : Option State :=
  match s.stage t with
  | .loading _ => some (s.die t)
  | _ => none

end State

inductive Action where
  | accept
  | worker (t : ℕ)
  | ioError (t : ℕ)
  | readError (t : ℕ)

def step (cfg : Config) (s : State) : Action → Option State
  | .accept => s.accept cfg.clients
  | .worker t => s.work t cfg.fs
  | .ioError t => s.ioError t
  | .readError t => s.readError t

/-- The step is not a failure. -/
def NoFailure (_ : State) : Action → Prop
  | .accept | .worker _ => True
  | .ioError _ | .readError _ => False

instance (s : State) : (a : Action) → Decidable (NoFailure s a)
  | .accept | .worker _ => isTrue trivial
  | .ioError _ | .readError _ => isFalse id

/-- The page between whose lock and unlock the thread is. -/
def Stage.page? (call : Call) : Stage → Option Page
  | .locking j => if call = .idle then some j.httpUrl else none
  | .loading j | .sending j _ => some j.httpUrl
  | .unlocking j => if call = .idle then none else some j.httpUrl
  | _ => none

/-- The page that the thread is serving. -/
def State.serving (s : State) (t : ℕ) : Option Page := (s.stage t).page? (s.pages.call t)

end Server
