import PaWebServer.Lib.FileTree

/-!
# The request handler

`RequestHandler` turns the route of a request into the path of a document.  For a route that ends
with `.html` it walks the server root, for any other route the directory whose path is the text of
the root followed by the route, and it stops at the file whose path it looks for.  The directories
that are opened on the way are kept beside the result.
-/

/-- What a Java method throws: an IOException, or a RuntimeException or an Error. -/
inductive Throwable where
  | ioException
  | unchecked
  deriving DecidableEq

namespace RequestHandler

open FileTree

/-- `SERVER_ROOT`, relative to the working directory. -/
def serverRoot : Text := "server_root".toList

/-- The page for a request without a document. -/
def notFoundPage : Text := "html/404.html".toList

/-- `httpUrl` and `error404` after `handleRequest`. -/
structure Resolution where
  httpUrl : Option Text
  error404 : Bool
  deriving DecidableEq

/-- `visitFile` of the visitor in `htmlSearcher`. -/
def visitFile (serverRoot htmlFileName : Text) (file : Path) : Visit :=
  match Path.get (serverRoot ++ htmlFileName) with
  | none => .throw
  | some target => if file.toText = target.toText then .terminate else .continue_

/-- `htmlSearcher`: the directories that it opens, and its result. -/
def htmlSearcher (fs : FileSystem) (serverRoot htmlFileName : Text) :
    List Path × Except Throwable (Option Path) :=
  match Path.get serverRoot with
  | none => ([], .error .unchecked)
  | some startDir =>
    let w := fs.walkFileTree startDir (visitFile serverRoot htmlFileName)
    (w.opened,
      match w.outcome with
      | .finished => .ok none
      | .terminated file => .ok (some file)
      | .unchecked => .error .unchecked
      -- The exception is caught and printed.
      | .ioException => .ok none)

/-- What `handleRequest` makes of the path that was found. -/
def resolution : Option Path → Resolution
  | some foundPath => ⟨some foundPath.toText, false⟩
  | none => ⟨some notFoundPage, true⟩

/-- `handleRequest`: the directories that it opens, and its result. -/
def handleRequest (fs : FileSystem) (serverRoot htmlFileName : Text) :
    List Path × Except Throwable Resolution :=
  if Text.endsWith htmlFileName ".html".toList then
    let (opened, found) := htmlSearcher fs serverRoot htmlFileName
    (opened, found.map resolution)
  else if Text.endsWith htmlFileName ".ico".toList then ([], .ok ⟨none, false⟩)
  else
    let (opened, found) := htmlSearcher fs (serverRoot ++ htmlFileName) "index.html".toList
    (opened, found.map resolution)

/-- `readBinaryFile` of the request thread: an IOException gives an empty array. -/
def readBinaryFile (fs : FileSystem) (path : Text) : Except Throwable Bytes :=
  match Path.get path with
  | none => .error .unchecked
  | some p => .ok ((fs.readAllBytes p).getD [])

end RequestHandler
