import PaWebServer.PageHandler
import PaWebServer.RequestHandler

/-!
# The request thread

`RequestThread.run` answers one request: it reads the request, resolves the route, locks the page,
reads the document, sends the response, unlocks the page and logs the request.  Here it runs alone;
the environment says which of its socket and file operations fail.
-/

namespace RequestThread

open FileTree RequestHandler PageHandler

/-- What `readLine` returns: the text of a line, without its terminator. -/
structure Line where
  text : Text
  oneLine : '\n' ∉ text ∧ '\r' ∉ text
  deriving DecidableEq

theorem nil_oneLine : '\n' ∉ ([] : Text) ∧ '\r' ∉ ([] : Text) := by decide

/-- The line that ends the header lines of a request. -/
def blankLine : Line := ⟨[], nil_oneLine⟩

/-- What comes after the lines of a client: the end of its stream, for which `readLine` returns
null, or an IOException. -/
inductive Ending where
  | endOfStream
  | failure
  deriving DecidableEq

/-- The lines that a client sends, up to the end of its stream or a failure, and its address. -/
structure Client where
  lines : List Line
  ending : Ending
  origin : Text
  deriving DecidableEq

/-! ## Reading the request -/

def crlf : Text := "\r\n".toList

/-- The loop of `run` that reads lines up to a blank one. -/
def readRequest (ending : Ending) : List Line → Except Throwable Text
  | [] =>
    match ending with
    -- `isBlank` is called on null.
    | .endOfStream => .error .unchecked
    | .failure => .error .ioException
  | l :: ls =>
    if Text.isBlank l.text then .ok []
    else (readRequest ending ls).map fun rest => l.text ++ crlf ++ rest

def favicon : Text := "/favicon.ico".toList

/-- The method and the route of a request that `run` goes on to answer. -/
def parse (request : Text) : Option (Text × Text) :=
  if request = [] then none
  else
    match Text.split ' ' request with
    | method :: route :: _ => if route = favicon then none else some (method, route)
    | _ => none

/-! ## The response -/

/-- The arrays that `sendResponse` writes, in order. -/
def responseChunks (contentPage : Bytes) : List Bytes :=
  [Text.utf8 "HTTP/1.1 200 OK\r\n".toList, Text.utf8 "Content-Type: text/html\r\n".toList,
    Text.utf8 "Connection: keep-alive\r\n".toList, Text.utf8 "Content-Length: ".toList,
    Text.utf8 (Text.decimal contentPage.length), Text.utf8 crlf, Text.utf8 crlf, contentPage]

/-- The arguments of a call of `logRequest`. -/
structure Submission where
  method : Text
  route : Text
  origin : Text
  statusHttp : Int
  deriving DecidableEq

/-- The call of `logRequest` at the end of `run`. -/
def submission (method route origin : Text) (error404 : Bool) : Submission :=
  ⟨method, route, origin, if error404 then 404 else 200⟩

/-! ## One run -/

/-- What a run meets: the files, the client, and the operations that fail. -/
structure Env where
  fs : FileSystem
  client : Client
  /-- `getInputStream` or `getOutputStream` fails. -/
  streamsFail : Bool
  /-- `Files.readAllBytes` ends with an Error, which is not an IOException. -/
  readFails : Bool
  /-- The operation of this number on the output stream fails; the last one is `flush`. -/
  writeFails : ℕ → Bool

/-- What a run changes: how often the thread holds the lock of each page, what the client has
received, and the calls of `logRequest`. -/
structure World where
  holds : Page → ℕ
  sent : Bytes
  logged : List Submission

/-- The thread holds no lock, and nothing has been sent or logged. -/
def World.init : World := ⟨fun _ => 0, [], []⟩

/-- Java code that changes the world and may throw. -/
abbrev Run (α : Type) := ExceptT Throwable (StateM World) α

def lockAccessPage (page : Page) : Run Unit :=
  modify fun w =>
    if exempt page then w
    else { w with holds := Function.update w.holds page (w.holds page + 1) }

def unlockAccessPage (page : Page) : Run Unit := do
  if exempt page then return
  let w ← get
  -- `get(page)` gives null, or the lock is not the thread's own.
  if w.holds page = 0 then throw .unchecked
  set { w with holds := Function.update w.holds page (w.holds page - 1) }

/-- The rest of `sendResponse`, from its operation number `k` on. -/
def writeFrom (writeFails : ℕ → Bool) (k : ℕ) : List Bytes → Run Unit
  | [] => if writeFails k then throw .ioException else return
  | b :: bs => do
    if writeFails k then throw .ioException
    modify fun w => { w with sent := w.sent ++ b }
    writeFrom writeFails (k + 1) bs

def sendResponse (env : Env) (contentPage : Bytes) : Run Unit :=
  writeFrom env.writeFails 0 (responseChunks contentPage)

def readBinaryFile (env : Env) (path : Text) : Run Bytes := do
  if env.readFails then throw .unchecked
  liftM (RequestHandler.readBinaryFile env.fs path)

def logRequest (s : Submission) : Run Unit := modify fun w => { w with logged := w.logged ++ [s] }

/-- The part of `run` that answers with the document at `httpUrl`. -/
def serve (env : Env) (httpUrl : Text) (s : Submission) : Run Unit := do
  lockAccessPage httpUrl
  let content ← readBinaryFile env httpUrl
  sendResponse env content
  unlockAccessPage httpUrl
  logRequest s

/-- The part of `run` after the request has been parsed. -/
def answer (env : Env) (method route : Text) : Run Unit := do
  let resolved ← liftM (handleRequest env.fs serverRoot route).2
  match resolved.httpUrl with
  -- `endsWith` is called on null.
  | none => throw .unchecked
  | some httpUrl =>
    serve env httpUrl (submission method route env.client.origin resolved.error404)

/-- The body of the `try` statement. -/
def body (env : Env) : Run Unit := do
  if env.streamsFail then throw .ioException
  let request ← liftM (readRequest env.client.ending env.client.lines)
  match parse request with
  | none => return
  | some (method, route) => answer env method route

/-- `run`: an IOException is caught and printed. -/
def run (env : Env) : Run Unit :=
  tryCatch (body env) fun
    | .ioException => return
    | e => throw e

/-- The result of a run and the world after it. -/
def exec {α : Type} (m : Run α) (w : World) : Except Throwable α × World := m.run.run w

end RequestThread
