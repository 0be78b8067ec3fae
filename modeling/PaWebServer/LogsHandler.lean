import PaWebServer.Lib.Text

/-!
# The log file

`LogsHandler` keeps the log of the server in one file: `initializeFile` opens it when a process
starts, `logRequest` builds the text of an entry, the consumer thread appends the entries, and
`closeLogs` appends the closing bracket.  The file is its bytes, or `none` when there is no file;
texts are written to it in UTF-8, the default charset.
-/

namespace LogsHandler

/-- `NUM_CONSUMERS`. -/
def numConsumers : ℕ := 1

/-- What `initializeFile` writes to a new file: the line of the opening brace. -/
def header : Text := "\x7b\n".toList

/-- What `closeLogs` appends to the file: a line of two spaces and the line of the bracket. -/
def trailer : Text := "  \n\x7d\n".toList

/-- The queue element that ends a consumer. -/
def eof : Text := "EOF".toList

/-- The arguments of a call of `logRequest`, with the time at which it is made. -/
structure LogCall where
  method : Text
  route : Text
  origin : Text
  statusHttp : Int
  timestamp : Text
  deriving DecidableEq

/-- The call for a request of the root, for the fixed inputs of the files below. -/
def sampleCall : LogCall where
  method := "GET".toList
  route := "/".toList
  origin := "127.0.0.1".toList
  statusHttp := 200
  timestamp := "2025-03-27 10:00:00".toList

/-- The text that `logRequest` puts in the queue. -/
def logEntry (c : LogCall) : Text :=
  "  \"route\": \"".toList ++ c.route ++ "\", \"method\": \"".toList ++ c.method ++
    "\", \"origin\": \"".toList ++ c.origin ++ "\", \"HTTP response status\": ".toList ++
    Text.decimal c.statusHttp ++ ", \"timestamp\": \"".toList ++ c.timestamp ++ "\",\n".toList

/-- `removeClosingBracket` on the bytes of the file: one byte near the end decides how many bytes
are cut. -/
def removeClosingBracket (file : Bytes) : Bytes :=
  if file.length < 3 then file
  else if file[file.length - 3]? = some (UInt8.ofNat ','.toNat) then file.take (file.length - 3)
  else file.take (file.length - 2)

/-- `initializeFile`: the file that a process finds, and the one it leaves for its consumer. -/
def initializeFile : Option Bytes → Bytes
  | none => Text.utf8 header
  | some file => if file.length = 0 then Text.utf8 header else removeClosingBracket file

/-- The static fields of a process, and the log file. -/
structure State where
  logQueue : List Text
  closed : Bool
  file : Bytes

/-- A process starts: its static fields are new and the constructor opens the file, which can be
opened and written. -/
def start (file : Option Bytes) : State := ⟨[], false, initializeFile file⟩

/-- What the constructor makes of the log file. -/
inductive Opening where
  | opened (s : State)
  | failed

/-- The constructor in a new process, which goes on when `initializeFile` has printed its
IOException. -/
def new (opens : Bool) (file : Option Bytes) : Opening :=
  if opens then .opened (start file) else .failed

/-- The consumer takes an entry and appends it to the file. -/
def State.write (s : State) (entry : Text) : State := { s with file := s.file ++ Text.utf8 entry }

/-- `closeLogs`, run to its end. -/
def State.closeLogs (s : State) : State :=
  if s.closed then s
  else
    { logQueue := s.logQueue ++ List.replicate numConsumers eof
      closed := true
      file := s.file ++ Text.utf8 trailer }

/-- One process between its start and its stop: the entries that its consumer has written, and
whether `closeLogs` has run. -/
structure Process where
  entries : List LogCall
  closes : Bool

/-- The file that the process leaves. -/
def Process.run (p : Process) (file : Option Bytes) : Option Bytes :=
  let s := (p.entries.map logEntry).foldl State.write (start file)
  some (if p.closes then s.closeLogs.file else s.file)

end LogsHandler
