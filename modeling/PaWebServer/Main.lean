import PaWebServer.ConfigReader
import PaWebServer.WebServer

/-!
# The start of the server

`main` reads the configuration, makes the server with its log and its pool, and starts its thread,
which opens the socket.  The log file is opened as soon as the configuration has been read, before
the pool and the socket can refuse their numbers; and when it cannot be opened, the server starts
without it (`main_outcome`).
-/

open LogsHandler Properties

/-- A pool as the constructor of `ThreadPoolExecutor` accepts it. -/
structure ThreadPool where
  corePoolSize : Int32
  maximumPoolSize : Int32
  keepAliveTime : Int64
  core : 0 ≤ corePoolSize
  pos : 0 < maximumPoolSize
  le : corePoolSize ≤ maximumPoolSize
  keep : 0 ≤ keepAliveTime

/-- The constructor; `none` for an IllegalArgumentException. -/
def ThreadPool.new (corePoolSize maximumPoolSize : Int32) (keepAliveTime : Int64) :
    Option ThreadPool :=
  if h : 0 ≤ corePoolSize ∧ 0 < maximumPoolSize ∧ corePoolSize ≤ maximumPoolSize ∧
      0 ≤ keepAliveTime then
    some ⟨corePoolSize, maximumPoolSize, keepAliveTime, h.1, h.2.1, h.2.2.1, h.2.2.2⟩
  else none

structure MainHTTPServerThread where
  port : Int32
  host : Option JString
  maxConnections : Int32
  logsHandler : LogsHandler.Opening
  threadPool : ThreadPool
  pool_eq : ThreadPool.new maxConnections maxConnections 1 = some threadPool

namespace MainHTTPServerThread

/-- The constructor: the log is opened, and then the pool is made; `none` for the
IllegalArgumentException of the pool. -/
def new (logOpens : Bool) (logFile : Option Bytes) (port : Int32) (host : Option JString)
    (maxConnections : Int32) : LogsHandler.Opening × Option MainHTTPServerThread :=
  let logsHandler := LogsHandler.new logOpens logFile
  (logsHandler,
    match h : ThreadPool.new maxConnections maxConnections 1 with
    | none => none
    | some threadPool => some ⟨port, host, maxConnections, logsHandler, threadPool, h⟩)

/-- `new ServerSocket(port)`: an IllegalArgumentException for a number that is no port, and an
IOException for a port that cannot be bound. -/
def openSocket (bindable : Int32 → Bool) (s : MainHTTPServerThread) : Except Throwable Unit :=
  if s.port < 0 ∨ 0xFFFF < s.port then .error .unchecked
  else if bindable s.port then .ok ()
  else .error .ioException

/-- The process that serves clients, once the socket is open. -/
def config (s : MainHTTPServerThread) (fs : FileTree.FileSystem)
    (clients : List RequestThread.Client) (hooks : ℕ) : WebServer.Config :=
  ⟨⟨fs, clients, s.threadPool.maximumPoolSize.toInt.toNat⟩, hooks⟩

end MainHTTPServerThread

namespace Main

open ConfigReader Integer

def configPath : Text := "server_root/config/server.config".toList

def serverPort : JString := units "server.port"

def serverHost : JString := units "server.host"

def serverMaxConnections : JString := units "server.max-conections"

def logsDirectory : Text := "server_root/logs".toList

/-- What a process finds: the files, the log file and whether it can be written, and the ports that
can be bound. -/
structure Environment where
  fs : FileTree.FileSystem
  logFile : Option Bytes
  writable : Bool
  bindable : Int32 → Bool

/-- `initializeFile` can open the log file, or make it in its directory; otherwise it throws an
IOException. -/
def Environment.logOpens (env : Environment) : Bool :=
  match fileEntry env.fs logsDirectory with
  | some (.dir _ _) => env.writable
  | some (.file _) | none => false

/-- What `main` has done when it and the start of the server thread are over: an exception has ended
it before the log was opened, the pool has been refused, the server thread has ended without a
socket, or it listens. -/
inductive Outcome where
  | refused (e : ConfigReader.Exception)
  | noPool (log : LogsHandler.Opening)
  | noSocket (server : MainHTTPServerThread) (e : Throwable)
  | listening (server : MainHTTPServerThread)

/-- What the constructor of `LogsHandler` has made of the log file, when it has been called. -/
def Outcome.log : Outcome → Option LogsHandler.Opening
  | .refused _ => none
  | .noPool log => some log
  | .noSocket server _ | .listening server => some server.logsHandler

/-- The port, the host and the number of connections. -/
def readConfig (fs : FileTree.FileSystem) :
    Except ConfigReader.Exception (Int32 × Option JString × Int32) := do
  let configReader ← ConfigReader.new fs configPath
  let port ← getIntProperty configReader serverPort
  let host := ConfigReader.getProperty configReader serverHost
  let maxConnections ← getIntProperty configReader serverMaxConnections
  return (port, host, maxConnections)

def main (env : Environment) : Outcome :=
  match readConfig env.fs with
  | .error e => .refused e
  | .ok (port, host, maxConnections) =>
    match MainHTTPServerThread.new env.logOpens env.logFile port host maxConnections with
    | (log, none) => .noPool log
    | (_, some server) =>
      match server.openSocket env.bindable with
      | .error e => .noSocket server e
      | .ok () => .listening server

/-- The configuration is readable and has these values. -/
def Configured (fs : FileTree.FileSystem) (port : Int32) (host : Option JString)
    (maxConnections : Int32) : Prop :=
  ∃ content properties, Holds fs configPath content ∧ load content = some properties ∧
    (∃ value, ConfigReader.getProperty properties serverPort = some value ∧
      Denotes value port.toInt) ∧
    ConfigReader.getProperty properties serverHost = host ∧
    ∃ value, ConfigReader.getProperty properties serverMaxConnections = some value ∧
      Denotes value maxConnections.toInt

variable {fs : FileTree.FileSystem} {port maxConnections : Int32} {host : Option JString}

theorem readConfig_eq_ok_iff :
    readConfig fs = .ok (port, host, maxConnections) ↔ Configured fs port host maxConnections := by
  have hread : readConfig fs = .ok (port, host, maxConnections) ↔
      ∃ properties, ConfigReader.new fs configPath = .ok properties ∧
        getIntProperty properties serverPort = .ok port ∧
        ConfigReader.getProperty properties serverHost = host ∧
        getIntProperty properties serverMaxConnections = .ok maxConnections := by
    unfold readConfig
    cases hnew : ConfigReader.new fs configPath with
    | error e => simp [bind, Except.bind]
    | ok properties =>
      cases hport : getIntProperty properties serverPort with
      | error e => simp [bind, Except.bind, hport]
      | ok p =>
        cases hmax : getIntProperty properties serverMaxConnections with
        | error e => simp [bind, Except.bind, hport, hmax]
        | ok m => simp [bind, Except.bind, hport, hmax, pure, Except.pure]
  rw [hread]
  constructor
  · rintro ⟨properties, hnew, hport, hhost, hmax⟩
    obtain ⟨content, hcontent, hload⟩ := new_eq_ok_iff.1 hnew
    exact ⟨content, properties, hcontent, hload, getIntProperty_eq_ok_iff.1 hport, hhost,
      getIntProperty_eq_ok_iff.1 hmax⟩
  · rintro ⟨content, properties, hcontent, hload, hport, hhost, hmax⟩
    exact ⟨properties, new_eq_ok_iff.2 ⟨content, hcontent, hload⟩,
      getIntProperty_eq_ok_iff.2 hport, hhost, getIntProperty_eq_ok_iff.2 hmax⟩

theorem threadPool_new_eq_none_iff {n : Int32} :
    ThreadPool.new n n 1 = none ↔ n.toInt ≤ 0 := by
  have hzero : (0 : Int32).toInt = 0 := rfl
  have hkeep : (0 : Int64) ≤ 1 := by decide
  unfold ThreadPool.new
  simp only [Int32.le_iff_toInt_le, Int32.lt_iff_toInt_lt, hzero]
  split_ifs with h
  · simp only [false_iff]
    omega
  · simp only [true_iff]
    by_contra hpos
    exact h ⟨by omega, by omega, le_refl _, hkeep⟩

theorem maximumPoolSize_of_new {n : Int32} {pool : ThreadPool}
    (h : ThreadPool.new n n 1 = some pool) : pool.maximumPoolSize = n := by
  unfold ThreadPool.new at h
  split_ifs at h
  exact (Option.some.inj h) ▸ rfl

/-- What the constructor of the server does after that of the log. -/
theorem new_cases (logOpens : Bool) (logFile : Option Bytes) (port : Int32) (host : Option JString)
    (maxConnections : Int32) :
    (maxConnections.toInt ≤ 0 ∧
      MainHTTPServerThread.new logOpens logFile port host maxConnections =
        (LogsHandler.new logOpens logFile, none)) ∨
    ∃ server, 0 < maxConnections.toInt ∧
      MainHTTPServerThread.new logOpens logFile port host maxConnections =
        (LogsHandler.new logOpens logFile, some server) ∧
      server.port = port ∧ server.host = host ∧ server.maxConnections = maxConnections ∧
      server.logsHandler = LogsHandler.new logOpens logFile := by
  unfold MainHTTPServerThread.new
  split
  · rename_i hpool
    exact Or.inl ⟨threadPool_new_eq_none_iff.1 hpool, rfl⟩
  · rename_i pool hpool
    refine Or.inr ⟨_, ?_, rfl, rfl, rfl, rfl, rfl⟩
    by_contra hneg
    have hnone := threadPool_new_eq_none_iff.2 (Int.not_lt.1 hneg)
    rw [hpool] at hnone
    cases hnone

theorem openSocket_eq_ok_iff {bindable : Int32 → Bool} {server : MainHTTPServerThread} :
    server.openSocket bindable = .ok () ↔
      0 ≤ server.port.toInt ∧ server.port.toInt ≤ 65535 ∧ bindable server.port = true := by
  have hzero : (0 : Int32).toInt = 0 := rfl
  have hmax : (0xFFFF : Int32).toInt = 65535 := rfl
  unfold MainHTTPServerThread.openSocket
  simp only [Int32.lt_iff_toInt_lt, hzero, hmax]
  split_ifs with hport hbind
  · simp only [false_iff]
    omega
  · simp only [true_iff]
    exact ⟨by omega, by omega, hbind⟩
  · simp [hbind]

/-- The pool of a server has as many threads as configured, and at least one. -/
theorem config_maxConnections (server : MainHTTPServerThread)
    (clients : List RequestThread.Client) (hooks : ℕ) :
    1 ≤ (server.config fs clients hooks).server.maxConnections ∧
      ((server.config fs clients hooks).server.maxConnections : ℤ) =
        server.maxConnections.toInt := by
  have hpos := Int32.lt_iff_toInt_lt.1 server.threadPool.pos
  have hzero : (0 : Int32).toInt = 0 := rfl
  have hsize := maximumPoolSize_of_new server.pool_eq
  show 1 ≤ server.threadPool.maximumPoolSize.toInt.toNat ∧
    (server.threadPool.maximumPoolSize.toInt.toNat : ℤ) = server.maxConnections.toInt
  rw [hsize] at hpos ⊢
  omega

theorem main_of_refused {env : Environment} {e : ConfigReader.Exception}
    (h : readConfig env.fs = .error e) : main env = .refused e := by
  rw [main, h]

/-- What follows when the configuration has been read. -/
theorem main_of_configured {env : Environment}
    (h : Configured env.fs port host maxConnections) :
    (main env).log = some (LogsHandler.new env.logOpens env.logFile) ∧
      ((∃ server, main env = .listening server) ↔
        0 < maxConnections.toInt ∧ 0 ≤ port.toInt ∧ port.toInt ≤ 65535 ∧
          env.bindable port = true) ∧
      ∀ server, main env = .listening server → server.port = port ∧ server.host = host ∧
        server.maxConnections = maxConnections ∧
          server.logsHandler = LogsHandler.new env.logOpens env.logFile := by
  have hread := readConfig_eq_ok_iff.2 h
  unfold main
  rw [hread]
  rcases new_cases env.logOpens env.logFile port host maxConnections with ⟨hmax, hnew⟩ |
    ⟨server, hmax, hnew, hport, hhost, hconnections, hlog⟩
  · simp only [hnew]
    refine ⟨rfl, ?_, nofun⟩
    simp only [reduceCtorEq, exists_false, false_iff]
    omega
  · simp only [hnew]
    cases hopen : server.openSocket env.bindable with
    | error e =>
      refine ⟨congrArg some hlog, ?_, nofun⟩
      simp only [reduceCtorEq, exists_false, false_iff]
      rintro ⟨-, hlow, hhigh, hbind⟩
      have hok := openSocket_eq_ok_iff.2 (by rw [hport]; exact ⟨hlow, hhigh, hbind⟩)
      rw [hopen] at hok
      cases hok
    | ok u =>
      have hok := openSocket_eq_ok_iff.1 hopen
      rw [hport] at hok
      refine ⟨congrArg some hlog, ⟨fun _ => ⟨hmax, hok⟩, fun _ => ⟨server, rfl⟩⟩, ?_⟩
      rintro _ ⟨⟩
      exact ⟨hport, hhost, hconnections, hlog⟩

theorem logOpens_iff {env : Environment} :
    env.logOpens = true ↔ env.writable = true ∧
      ∃ listable entries, fileEntry env.fs logsDirectory = some (.dir listable entries) := by
  unfold Environment.logOpens
  split
  · rename_i listable entries hdir
    exact ⟨fun h => ⟨h, listable, entries, hdir⟩, fun h => h.1⟩
  · rename_i hfile
    simp [hfile]
  · rename_i hnone
    simp [hnone]

/-- A server root without a directory for the log. -/
example (content : Bytes) :
    Environment.logOpens ⟨configFiles content, none, true, fun _ => true⟩ = false := rfl

theorem new_eq_opened_iff {opens : Bool} {file : Option Bytes} {s : LogsHandler.State} :
    LogsHandler.new opens file = .opened s ↔ s = start file ∧ opens = true := by
  unfold LogsHandler.new
  split_ifs with hopens
  · simp [hopens, eq_comm]
  · simp [hopens]

/-- Whatever the configuration, the log file and the free ports are: the log handler is made exactly
when the configuration can be read and the port and the number of connections are numerals of an
`int`, and it opens the log file exactly when the directory is there and the file can be written;
with or without the file, the server listens exactly when the pool has a thread and the port is one
that can be bound; and a server that listens has the configured values and runs with the configured
pool. -/
theorem main_outcome (env : Environment) :
    ((main env).log = none ↔
      ¬ ∃ port host maxConnections, Configured env.fs port host maxConnections) ∧
    (∀ s, (main env).log = some (.opened s) ↔
      s = start env.logFile ∧
        (env.writable = true ∧
          ∃ listable entries, fileEntry env.fs logsDirectory = some (.dir listable entries)) ∧
        ∃ port host maxConnections, Configured env.fs port host maxConnections) ∧
    (∀ port host maxConnections, Configured env.fs port host maxConnections →
      ((∃ server, main env = .listening server) ↔
        0 < maxConnections.toInt ∧ 0 ≤ port.toInt ∧ port.toInt ≤ 65535 ∧
          env.bindable port = true)) ∧
    ∀ server, main env = .listening server →
      Configured env.fs server.port server.host server.maxConnections ∧
        server.logsHandler = LogsHandler.new env.logOpens env.logFile ∧
        ∀ clients hooks, 1 ≤ (server.config env.fs clients hooks).server.maxConnections ∧
          ((server.config env.fs clients hooks).server.maxConnections : ℤ) =
            server.maxConnections.toInt := by
  cases hread : readConfig env.fs with
  | error e =>
    have hmain := main_of_refused hread
    have hnone : ∀ port host maxConnections, ¬ Configured env.fs port host maxConnections := by
      intro port host maxConnections h
      have hok := readConfig_eq_ok_iff.2 h
      rw [hread] at hok
      cases hok
    rw [hmain]
    refine ⟨iff_of_true rfl (by simpa using hnone), fun s => ?_,
      fun port host m h => absurd h (hnone port host m), nofun⟩
    simp [Outcome.log, hnone]
  | ok v =>
    obtain ⟨port, host, maxConnections⟩ := v
    have hconfigured := readConfig_eq_ok_iff.1 hread
    obtain ⟨hlog, -, hvalues⟩ := main_of_configured hconfigured
    have hsome : ∃ port host maxConnections, Configured env.fs port host maxConnections :=
      ⟨port, host, maxConnections, hconfigured⟩
    rw [hlog]
    refine ⟨iff_of_false (by simp) (not_not_intro hsome), fun s => ?_,
      fun port host m h => (main_of_configured h).2.1, fun server hserver => ?_⟩
    · rw [Option.some_inj, new_eq_opened_iff, logOpens_iff]
      exact ⟨fun ⟨hstart, hopens⟩ => ⟨hstart, hopens, hsome⟩,
        fun ⟨hstart, hopens, _⟩ => ⟨hstart, hopens⟩⟩
    · obtain ⟨rfl, rfl, rfl, hlogs⟩ := hvalues server hserver
      exact ⟨hconfigured, hlogs, fun clients hooks => config_maxConnections server clients hooks⟩

/-- The configuration file of the repository. -/
def serverConfig : Bytes :=
  Text.utf8 ("#Server configuration\n\nserver.port=8080\nserver.host=127.0.0.1\n".toList ++
    "server.max-conections=5\n\n# Timeout Configuration (in miliseconds)\n\n".toList ++
    "server.connection-timeout=10000".toList)

example : readConfig (configFiles serverConfig) = .ok (8080, some (units "127.0.0.1"), 5) := by
  decide +kernel

end Main
