import PaWebServer.RequestStream
import PaWebServer.RequestRouting
import PaWebServer.Response
import PaWebServer.ServerRequests

/-!
# What the server serves

What a web server is for, in terms of the tree alone: each route has a document, which is the page
that it names, the index of the directory that it names with a final slash, or else the fixed page
(`document`).  The handler gives the path of that document (`handleRequest_document`), and in every
run of the server each client whose request has not failed has received one message with it
(`documents_served`).
-/

namespace RequestHandler

open FileTree

variable {fs : FileSystem} {route : Text}

/-! ## The document of a route -/

/-- The place of the page or of the index that the route asks for. -/
def target (fs : FileSystem) (route : Text) : Option Location :=
  if Text.endsWith route ".html".toList then some (place fs route)
  else if Text.endsWith route ['/'] then some (place fs route ++ [indexPage])
  else none

/-- The place of the fixed page. -/
def notFoundPlace (fs : FileSystem) : Location := fs.cwd ++ ["html".toList, "404.html".toList]

/-- The content of the file at a place, when there is one; a file that cannot be read counts as an
empty one. -/
def fileAt (fs : FileSystem) (loc : Location) : Option Bytes :=
  match fs.entry loc with
  | some (.file content) => some (content.getD [])
  | _ => none

/-- The content of the fixed page. -/
def notFoundDocument (fs : FileSystem) : Bytes := (fileAt fs (notFoundPlace fs)).getD []

/-- The document of a route. -/
def document (fs : FileSystem) (route : Text) : Bytes :=
  ((target fs route).bind (fileAt fs)).getD (notFoundDocument fs)

theorem fileAt_isSome_iff {loc : Location} :
    (fileAt fs loc).isSome = true ↔ ∃ content, fs.entry loc = some (.file content) := by
  unfold fileAt
  split
  · rename_i content h
    simp [h]
  · rename_i h
    simp only [Option.isSome_none, Bool.false_eq_true, false_iff, not_exists]
    exact fun content hfile => h content hfile

theorem readBinaryFile_eq {p : Path} {loc : Location} (h : fs.locate p = some loc) :
    readBinaryFile fs p.toText = .ok ((fileAt fs loc).getD []) := by
  rw [readBinaryFile, Path.get_toText]
  simp only [FileSystem.readAllBytes, FileSystem.entryAt, h, Option.bind_some, fileAt]
  rcases fs.entry loc with _ | content | _ <;> rfl

theorem readBinaryFile_of_none {p : Path} (h : fs.locate p = none) :
    readBinaryFile fs p.toText = .ok [] := by
  rw [readBinaryFile, Path.get_toText]
  simp [FileSystem.readAllBytes, FileSystem.entryAt, h]

/-! ## What the handler finds -/

theorem target_of_html (h : Text.endsWith route ".html".toList = true) :
    target fs route = some (place fs route) := if_pos h

theorem target_of_slash (h : Text.endsWith route ['/'] = true) :
    target fs route = some (place fs route ++ [indexPage]) := by
  rw [target, if_neg (not_html_of_slash h), if_pos h]

/-- What the handler finds is at the place that the route asks for. -/
theorem target_of_names {p : Path} {loc : Location} (hplain : PlainRoute route)
    (h : Names fs route p loc) : target fs route = some loc := by
  obtain ⟨⟨start, ns, hsearch, hbelow, -⟩, hloc, -⟩ := h
  unfold Searches at hsearch
  split_ifs at hsearch with hhtml hico
  · obtain ⟨habsolute, hnames⟩ := path_of_route hplain.slash hsearch.2
    rw [target_of_html hhtml, place_of_locate hplain.components habsolute hnames hloc]
    rfl
  · obtain ⟨hstart, htarget⟩ := hsearch
    rw [List.append_assoc] at htarget
    obtain ⟨habsolute, hnames⟩ := path_of_route (by simp [hplain.slash]) htarget
    cases hfinal : Text.endsWith route ['/'] with
    | true =>
      have hcomponents : p.names = serverRoot :: (Path.components route ++ [indexPage]) := by
        rw [hnames, ← components_index hfinal]
        rfl
      have hplain' : ∀ n ∈ Path.components route ++ [indexPage], n ≠ dot ∧ n ≠ dotdot := by
        intro n hn
        rcases List.mem_append.1 hn with hn | hn
        · exact hplain.components n hn
        · rw [List.mem_singleton.1 hn]
          decide
      rw [target_of_slash hfinal, place_of_locate hplain' habsolute hcomponents hloc, place,
        List.append_assoc, List.cons_append]
    | false => exact absurd hbelow (not_below_start hplain.slash hfinal hstart htarget ns)

/-- The document that the handler finds is the one of the route. -/
theorem document_of_names {p : Path} {loc : Location} (hplain : PlainRoute route)
    (h : Names fs route p loc) : readBinaryFile fs p.toText = .ok (document fs route) := by
  obtain ⟨hloc, hfile⟩ := h.2
  obtain ⟨content, hcontent⟩ := Option.isSome_iff_exists.1 (fileAt_isSome_iff.2 hfile)
  rw [readBinaryFile_eq hloc, document, target_of_names hplain h, Option.bind_some, hcontent]
  rfl

/-- What the route asks for is found when it is there. -/
theorem exists_names (hread : FullyReadable fs) (hplain : PlainRoute route) (hnul : nul ∉ route)
    {loc : Location} (htarget : target fs route = some loc)
    (hfile : ∃ content, fs.entry loc = some (.file content)) :
    ∃ p loc, Names fs route p loc := by
  unfold target at htarget
  split_ifs at htarget with hhtml hslash
  · obtain rfl := Option.some.inj htarget
    obtain ⟨p, loc, -, hnames⟩ := names_page hread hplain hnul ⟨hhtml, hfile⟩
    exact ⟨p, loc, hnames⟩
  · obtain rfl := Option.some.inj htarget
    obtain ⟨p, loc, -, hnames⟩ := names_index hread hplain hnul hslash hfile
    exact ⟨p, loc, hnames⟩

def notFoundPath : Path := ⟨false, ["html".toList, "404.html".toList], by decide⟩

theorem toText_notFoundPath : notFoundPath.toText = notFoundPage := by decide

theorem readBinaryFile_notFoundPage :
    readBinaryFile fs notFoundPage = .ok (notFoundDocument fs) := by
  have hplain : ∀ n ∈ notFoundPath.names, n ≠ dot ∧ n ≠ dotdot := by decide
  have hplace : fs.start notFoundPath ++ notFoundPath.names = notFoundPlace fs := rfl
  rw [← toText_notFoundPath]
  cases hloc : fs.locate notFoundPath with
  | some loc =>
    have hnormal := FileSystem.normalize_of_locate hloc
    rw [FileSystem.normalize_of_plain hplain, hplace] at hnormal
    rw [readBinaryFile_eq hloc, ← hnormal]
    rfl
  | none =>
    have hnone : fileAt fs (notFoundPlace fs) = none := by
      by_contra hsome
      obtain ⟨content, hfile⟩ := fileAt_isSome_iff.1 (Option.isSome_iff_ne_none.2 hsome)
      obtain ⟨ns, hns⟩ : ∃ ns : List FileName, ns.map FileName.text = notFoundPath.names :=
        ⟨[⟨"html".toList, by decide, by decide⟩, ⟨"404.html".toList, by decide, by decide⟩], rfl⟩
      rw [FileSystem.locate_of_entry hns.symm hfile] at hloc
      cases hloc
    rw [readBinaryFile_of_none hloc, notFoundDocument, hnone]
    rfl

/-- The handler gives the path of the document of the route. -/
theorem handleRequest_document (hread : FullyReadable fs) (hplain : PlainRoute route)
    (hnul : nul ∉ route) (hico : ¬ Text.endsWith route ".ico".toList = true) :
    ∃ url error404, (handleRequest fs serverRoot route).2 = .ok ⟨some url, error404⟩ ∧
      readBinaryFile fs url = .ok (document fs route) := by
  obtain ⟨res, hres⟩ : ∃ res, (handleRequest fs serverRoot route).2 = .ok res :=
    (handleRequest_ok_iff hico).2 fun hmem => absurd hmem hnul
  obtain ⟨found, rfl⟩ := handleRequest_resolution hico hres
  cases found with
  | some q =>
    refine ⟨q.toText, false, hres, ?_⟩
    rcases handleRequest_httpUrl hres rfl with ⟨h404, -⟩ | ⟨-, p, loc, hurl, hnames⟩
    · cases h404
    · rw [hurl]
      exact document_of_names hplain hnames
  | none =>
    refine ⟨notFoundPage, true, hres, ?_⟩
    have hnone : (target fs route).bind (fileAt fs) = none := by
      by_contra hsome
      obtain ⟨content, hcontent⟩ := Option.ne_none_iff_exists'.1 hsome
      obtain ⟨loc, htarget, hfile⟩ := Option.bind_eq_some_iff.1 hcontent
      obtain ⟨p, loc', hnames⟩ := exists_names hread hplain hnul htarget
        (fileAt_isSome_iff.1 (by rw [hfile]; rfl))
      rw [handleRequest_of_names hnames] at hres
      have herror := congrArg Resolution.error404 (Except.ok.inj hres)
      cases herror
    rw [document, hnone, readBinaryFile_notFoundPage]
    rfl

end RequestHandler

namespace RequestThread

open BufferedReader RequestHandler

/-! ## A request -/

/-- A request as a client sends it: a request line with the route between its first two spaces,
header lines and a blank line that is seen, each line with any terminator, and anything after. -/
structure Request where
  method : Text
  route : Text
  version : Text
  requestLine : Line
  terminator : Terminator
  headers : List (Line × Terminator)
  blank : Line
  blankTerminator : Terminator
  rest : Text
  ending : Ending
  origin : Text
  line_eq : requestLine.text = method ++ ' ' :: (route ++ ' ' :: version)
  method_spaceless : ' ' ∉ method
  route_spaceless : ' ' ∉ route
  notBlank : ∀ p ∈ (requestLine, terminator) :: headers, Text.isBlank p.1.text = false
  isBlank : Text.isBlank blank.text = true
  seen : ¬ Hidden ((requestLine, terminator) :: headers) blank blankTerminator

namespace Request

variable (r : Request)

/-- The client that sends the request. -/
def client : Client :=
  .ofStream (sendHeader ((r.requestLine, r.terminator) :: r.headers) ++
    (r.blank.text ++ (r.blankTerminator.text ++ r.rest))) r.ending r.origin

theorem readRequest_client : readRequest r.client.ending r.client.lines =
    .ok (requestText (r.requestLine :: r.headers.map Prod.fst)) := by
  obtain ⟨more, hlines⟩ :=
    exists_lines_of_not_hidden r.notBlank r.seen r.rest r.ending r.origin
  have hheader : ∀ l ∈ ((r.requestLine, r.terminator) :: r.headers).map Prod.fst,
      Text.isBlank l.text = false := by
    intro l hl
    obtain ⟨p, hp, rfl⟩ := List.mem_map.1 hl
    exact r.notBlank p hp
  rw [client, hlines, readRequest_append hheader r.isBlank]
  rfl

theorem resolve_client {fs : FileTree.FileSystem} {url : Text} {error404 : Bool}
    (hfavicon : r.route ≠ favicon)
    (h : (handleRequest fs serverRoot r.route).2 = .ok ⟨some url, error404⟩) :
    resolve fs r.client = some (r.method, r.route, ⟨some url, error404⟩) := by
  have hparse := parse_of_two_spaces r.line_eq r.method_spaceless r.route_spaceless
    (r.headers.map Prod.fst)
  rw [if_neg hfavicon] at hparse
  simp only [resolve, r.readRequest_client, hparse, h]

end Request

end RequestThread

namespace Server

open Transition RequestHandler RequestThread

/-- What the client of a request receives when its request is handled alone. -/
theorem alone_sent_document {fs : FileTree.FileSystem} (hread : FullyReadable fs) (r : Request)
    (hplain : PlainRoute r.route) (hnul : FileTree.nul ∉ r.route)
    (hico : ¬ Text.endsWith r.route ".ico".toList = true) :
    (alone fs r.client).sent = responseBytes (document fs r.route) := by
  obtain ⟨url, error404, hhandle, hcontent⟩ := handleRequest_document hread hplain hnul hico
  have hfavicon : r.route ≠ favicon := by
    intro h
    rw [h] at hico
    exact hico (by decide)
  rw [alone, exec_run_succeeds rfl ⟨rfl, fun _ _ => rfl⟩ (r.resolve_client hfavicon hhandle)
    hcontent]
  rfl

/-- In every run, with any other clients and any failures, over a server root in which everything
can be opened: a client that asks for a plain route has received the beginning of one HTTP message
with the document of the route, and when its request has ended without a failure of its own, the
message and no byte more. -/
theorem documents_served (cfg : Config) (hread : FullyReadable cfg.fs) (as : List Action)
    (s : State) (h : run (step cfg) (State.init cfg) as = some s) (r : Request)
    (hplain : PlainRoute r.route) (hnul : FileTree.nul ∉ r.route)
    (hico : ¬ Text.endsWith r.route ".ico".toList = true) :
    (∀ i, cfg.clients[i]? = some r.client →
      s.sent i <+: responseBytes (document cfg.fs r.route)) ∧
    ∀ o ∈ trace (step cfg) (outcomes cfg) (State.init cfg) as, o.failed = false →
      cfg.clients[o.number]? = some r.client →
        Http.read (s.sent o.number) = some (message (document cfg.fs r.route), []) := by
  have halone : ∀ i, cfg.clients[i]? = some r.client →
      (aloneAt cfg i).sent = responseBytes (document cfg.fs r.route) := by
    intro i hi
    rw [aloneAt, hi]
    exact alone_sent_document hread r hplain hnul hico
  have hisolated := isolated_of_run h
  refine ⟨fun i hi => halone i hi ▸ hisolated.received i, fun o ho hfailed hclient => ?_⟩
  have hmessage := read_responseBytes (document cfg.fs r.route) []
  rw [List.append_nil] at hmessage
  rw [hisolated.finished o ho hfailed, halone o.number hclient, hmessage]

/-- The request of a browser for the root. -/
def rootRequest : Request where
  method := "GET".toList
  route := "/".toList
  version := "HTTP/1.1".toList
  requestLine := RequestThread.getRoot
  terminator := .crlf
  headers := [(hostLine, .crlf)]
  blank := blankLine
  blankTerminator := .crlf
  rest := []
  ending := .endOfStream
  origin := "127.0.0.1".toList
  line_eq := by decide
  method_spaceless := by decide
  route_spaceless := by decide
  notBlank := by decide
  isBlank := by decide
  seen := by decide

def rootClients : Config := ⟨sampleFiles, [rootRequest.client], 1⟩

def servedRun : List Action := .accept :: List.replicate 22 (.worker 0)

theorem documents_served_servedRun :
    ∃ s, run (step rootClients) (State.init rootClients) servedRun = some s ∧
      (∀ i, rootClients.clients[i]? = some rootRequest.client →
        s.sent i <+: responseBytes (document sampleFiles rootRequest.route)) ∧
      ∀ o ∈ trace (step rootClients) (outcomes rootClients) (State.init rootClients) servedRun,
        o.failed = false → rootClients.clients[o.number]? = some rootRequest.client →
          Http.read (s.sent o.number) =
            some (message (document sampleFiles rootRequest.route), []) := by
  obtain ⟨s, hs⟩ := Option.isSome_iff_exists.1 (show
    (run (step rootClients) (State.init rootClients) servedRun).isSome = true by decide +kernel)
  have hreadable : FullyReadable sampleFiles := ⟨_, rfl, by decide⟩
  exact ⟨s, hs, documents_served rootClients hreadable servedRun s hs rootRequest
    ⟨rfl, by decide⟩ (by decide) (by decide)⟩

example : document sampleFiles rootRequest.route = [104, 105] := by decide +kernel

end Server
