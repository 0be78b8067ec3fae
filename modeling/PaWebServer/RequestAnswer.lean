import PaWebServer.RequestReader
import PaWebServer.RequestRouting
import PaWebServer.Response

/-!
# Answers

What a client gets for its request and what is logged of it.  A request whose route makes the
handler throw, or leaves it without a page, is dropped (`request_answered_iff`); every other one is
answered with the status 200, whatever is logged (`status_agrees_iff`).
-/

namespace RequestThread

open FileTree RequestHandler

variable {env : Env} {w : World} {method route : Text}

/-! ## The status -/

/-- The part of `run` that comes after the parsing sends one response and logs one request, both
have the same status, and it is 404 exactly for a request without a document. -/
def StatusAgrees (env : Env) (method route : Text) (error404 : Bool) : Prop :=
  ∃ m s, Http.read (exec (answer env method route) World.init).2.sent = some (m, []) ∧
    (exec (answer env method route) World.init).2.logged = [s] ∧
      (m.status : ℤ) = s.statusHttp ∧ (m.status = 404 ↔ error404 = true) ∧
        (s.statusHttp = 404 ↔ error404 = true)

theorem exec_answer {url : Text} {error404 : Bool}
    (h : (handleRequest env.fs serverRoot route).2 = .ok ⟨some url, error404⟩) :
    exec (answer env method route) w =
      exec (serve env url (submission method route env.client.origin error404)) w := by
  unfold answer
  simp only [exec_bind, exec_liftM, h]

theorem exec_answer_succeeds {url : Text} {error404 : Bool} (hs : Succeeds env)
    (h : (handleRequest env.fs serverRoot route).2 = .ok ⟨some url, error404⟩) :
    ∃ content, exec (answer env method route) w =
      (.ok (), { w with
        sent := w.sent ++ responseBytes content
        logged := w.logged ++ [submission method route env.client.origin error404] }) := by
  obtain ⟨content, hread⟩ := exists_content h rfl
  refine ⟨content, ?_⟩
  rw [exec_answer h]
  exact exec_serve_succeeds hread hs _

/-- A run of which an operation fails logs nothing. -/
theorem exec_answer_fails {url : Text} {error404 : Bool} (hs : ¬ Succeeds env)
    (h : (handleRequest env.fs serverRoot route).2 = .ok ⟨some url, error404⟩) :
    (exec (answer env method route) w).2.logged = w.logged := by
  obtain ⟨content, hread⟩ := exists_content h rfl
  obtain ⟨e, sent, hserve⟩ := exec_serve_fails (w := w) hread hs
    (submission method route env.client.origin error404)
  rw [exec_answer h, hserve]
  exact World.locked_logged url

theorem read_response (content : Bytes) :
    Http.read (responseBytes content) = some (message content, []) := by
  have h := read_responseBytes content []
  rwa [List.append_nil] at h

/-- The status sent is always 200. -/
theorem statusAgrees_iff_found {url : Text} {error404 : Bool} (hs : Succeeds env)
    (h : (handleRequest env.fs serverRoot route).2 = .ok ⟨some url, error404⟩) :
    StatusAgrees env method route error404 ↔ error404 = false := by
  obtain ⟨content, hexec⟩ := @exec_answer_succeeds env World.init method route url error404 hs h
  unfold StatusAgrees
  rw [hexec]
  have hsent : World.init.sent ++ responseBytes content = responseBytes content := rfl
  simp only [hsent, read_response]
  constructor
  · rintro ⟨m, s, hm, -, -, h404, -⟩
    obtain rfl : message content = m := by simpa using hm
    cases error404 with
    | false => rfl
    | true => exact absurd (h404.2 rfl) (by simp [message])
  · rintro rfl
    exact ⟨message content, submission method route env.client.origin false, rfl, rfl, rfl,
      by simp [message], by simp [submission]⟩

theorem found_iff_names {url : Text} {error404 : Bool}
    (h : (handleRequest env.fs serverRoot route).2 = .ok ⟨some url, error404⟩) :
    error404 = false ↔ ∃ p loc, Names env.fs route p loc := by
  constructor
  · rintro rfl
    rcases handleRequest_httpUrl h rfl with ⟨h404, -⟩ | ⟨-, p, loc, -, hnames⟩
    · cases h404
    · exact ⟨p, loc, hnames⟩
  · rintro ⟨p, loc, hnames⟩
    rw [handleRequest_of_names hnames] at h
    cases h
    rfl

/-- The client and the log agree on the status exactly when the tree holds the document that the
route asks for, and the walk comes to it; a run of which an operation fails logs no status. -/
theorem status_agrees_iff (env : Env) (method route url : Text) (error404 : Bool)
    (h : (handleRequest env.fs serverRoot route).2 = .ok ⟨some url, error404⟩) :
    (Succeeds env →
        (StatusAgrees env method route error404 ↔ ∃ p loc, Names env.fs route p loc)) ∧
      (¬ Succeeds env → (exec (answer env method route) World.init).2.logged = []) := by
  constructor
  · intro hs
    rw [statusAgrees_iff_found hs h]
    exact found_iff_names h
  · intro hs
    exact exec_answer_fails hs h

/-- The tree of directories, with a client whose run meets no failure. -/
def directoriesEnv (lines : List Line) : Env where
  fs := directories
  client := ⟨lines, .endOfStream, "127.0.0.1".toList⟩
  streamsFail := false
  readFails := false
  writeFails _ := false

theorem succeeds_directoriesEnv (lines : List Line) : Succeeds (directoriesEnv lines) :=
  ⟨rfl, fun _ _ => rfl⟩

theorem status_agrees_iff_docs :
    StatusAgrees (directoriesEnv []) "GET".toList "/docs/".toList false ↔
      ∃ p loc, Names directories "/docs/".toList p loc :=
  (status_agrees_iff (directoriesEnv []) "GET".toList "/docs/".toList
    "server_root/docs/index.html".toList false (by decide)).1 (succeeds_directoriesEnv [])

/-- The client of a page that is not there reads 200, and the log says 404. -/
theorem missing_page_sent_as_found :
    (handleRequest directories serverRoot "/missing.html".toList).2 =
        .ok ⟨some notFoundPage, true⟩ ∧
      ¬ StatusAgrees (directoriesEnv []) "GET".toList "/missing.html".toList true := by
  have hmissing : (handleRequest directories serverRoot "/missing.html".toList).2 =
      .ok ⟨some notFoundPage, true⟩ := by decide
  refine ⟨hmissing, fun h => ?_⟩
  have hfound := (statusAgrees_iff_found (succeeds_directoriesEnv []) hmissing).1 h
  cases hfound

/-! ## The answer -/

/-- The client sends a request line with two tokens, then header lines and a blank line. -/
structure Requests (client : Client) (f : Line) (headers : List Line) : Prop where
  tokens : 2 ≤ ((Text.split ' ' f.text).filter (· ≠ [])).length
  notBlank : ∀ l ∈ headers, Text.isBlank l.text = false
  lines : ∃ b rest, client.lines = f :: headers ++ b :: rest ∧ Text.isBlank b.text = true

/-- The run ends without an exception, it has sent one response and nothing else, and it has logged
one request. -/
def Answered (env : Env) : Prop :=
  ∃ w m s, exec (run env) World.init = (.ok (), w) ∧ Http.readAll w.sent = some [m] ∧
    w.logged = [s]

/-- The route is not that of an icon, and it can be part of a path, or it is that of a page and the
walk of the server root comes to no file with which it is compared. -/
def Answerable (fs : FileSystem) (route : Text) : Prop :=
  ¬ Text.endsWith route ".ico".toList = true ∧
    (nul ∈ route → Text.endsWith route ".html".toList = true ∧ ComesToNoFile fs serverRoot)

theorem exists_tokens {f : Line} (headers : List Line)
    (h : 2 ≤ ((Text.split ' ' f.text).filter (· ≠ [])).length) :
    ∃ method route rest,
      Text.split ' ' (requestText (f :: headers)) = method :: route :: rest := by
  have hspace : ' ' ∈ f.text := by
    by_contra hno
    rw [Text.split_of_notMem hno] at h
    have hle := List.length_filter_le (· ≠ []) [f.text]
    rw [List.length_singleton] at hle
    omega
  obtain ⟨a, c, hf, ha⟩ := List.eq_append_cons_of_mem hspace
  obtain ⟨route, rest, hrest⟩ := List.exists_cons_of_ne_nil
    (Text.split_ne_nil (exists_ne_space c (requestText headers)))
  exact ⟨a, route, rest, by rw [split_request hf ha, hrest]⟩

/-- A run that sends nothing has not answered. -/
theorem not_answered_of_unresolved
    (h : ∀ method route url error404,
      resolve env.fs env.client ≠ some (method, route, ⟨some url, error404⟩)) :
    ¬ Answered env := by
  rintro ⟨w, m, s, hrun, -, hlogged⟩
  have hworld : (exec (run env) World.init).2 = World.init := by
    rw [exec_run, caught_snd]
    exact exec_body_unresolved (Or.inr h)
  rw [hrun] at hworld
  subst hworld
  cases hlogged

theorem not_answered_of_blank {f : Line} {headers : List Line}
    (h : Requests env.client f headers) (hf : Text.isBlank f.text = true) : ¬ Answered env := by
  obtain ⟨b, rest, hlines, -⟩ := h.lines
  apply not_answered_of_unresolved
  intro method route url error404 hres
  obtain ⟨request, hread, hparse, -⟩ := resolve_eq_some hres
  rw [hlines, List.cons_append, readRequest, if_pos hf] at hread
  cases hread
  simp [parse] at hparse

/-- What `run` makes of a request line that is not blank. -/
theorem parse_of_requests {f : Line} {headers : List Line} {rest : List Text}
    (h : Requests env.client f headers) (hf : Text.isBlank f.text = false)
    (hsplit : Text.split ' ' (requestText (f :: headers)) = method :: route :: rest)
    (hroute : route ≠ favicon) :
    readRequest env.client.ending env.client.lines = .ok (requestText (f :: headers)) ∧
      parse (requestText (f :: headers)) = some (method, route) := by
  obtain ⟨b, after, hlines, hb⟩ := h.lines
  constructor
  · rw [hlines]
    exact readRequest_append (by simpa [hf] using h.notBlank) hb after
  · rw [parse, if_neg (requestText_ne_nil f headers), hsplit]
    exact if_neg hroute

theorem answered_of_answerable {f : Line} {headers : List Line} {rest : List Text}
    (h : Requests env.client f headers) (hf : Text.isBlank f.text = false)
    (hstreams : env.streamsFail = false) (hs : Succeeds env)
    (hsplit : Text.split ' ' (requestText (f :: headers)) = method :: route :: rest)
    (hroute : route ≠ favicon) (hanswer : Answerable env.fs route) : Answered env := by
  obtain ⟨res, hres⟩ := (handleRequest_ok_iff hanswer.1).2 hanswer.2
  obtain ⟨url, error404, rfl⟩ : ∃ url error404, res = ⟨some url, error404⟩ := by
    obtain ⟨found, rfl⟩ := handleRequest_resolution hanswer.1 hres
    cases found <;> exact ⟨_, _, rfl⟩
  obtain ⟨hread, hparse⟩ := parse_of_requests h hf hsplit hroute
  have hresolve : resolve env.fs env.client = some (method, route, ⟨some url, error404⟩) := by
    simp only [resolve, hread, hparse, hres]
  obtain ⟨content, hcontent⟩ := exists_content hres rfl
  refine ⟨_, message content, _, exec_run_succeeds hstreams hs hresolve hcontent, ?_, rfl⟩
  have hall := Http.readAll_flatMap read_responseBytes [content]
  rwa [List.flatMap_singleton] at hall

theorem answerable_of_answered {f : Line} {headers : List Line} {rest : List Text}
    (h : Requests env.client f headers) (hf : Text.isBlank f.text = false)
    (hsplit : Text.split ' ' (requestText (f :: headers)) = method :: route :: rest)
    (hroute : route ≠ favicon) (hanswered : Answered env) : Answerable env.fs route := by
  obtain ⟨hread, hparse⟩ := parse_of_requests h hf hsplit hroute
  obtain ⟨url, error404, hres⟩ : ∃ url error404,
      (handleRequest env.fs serverRoot route).2 = .ok ⟨some url, error404⟩ := by
    by_contra hno
    push Not at hno
    refine not_answered_of_unresolved (fun m r url error404 hsome => ?_) hanswered
    obtain ⟨request, hread', hparse', hres⟩ := resolve_eq_some hsome
    obtain rfl := Except.ok.inj (hread.symm.trans hread')
    obtain ⟨rfl, rfl⟩ := Prod.mk.inj (Option.some.inj (hparse.symm.trans hparse'))
    exact hno url error404 hres
  have hico : ¬ Text.endsWith route ".ico".toList = true := by
    intro hico
    rw [handleRequest_ico hico] at hres
    cases hres
  exact ⟨hico, (handleRequest_ok_iff hico).1 ⟨_, hres⟩⟩

/-- Every request has a route.  Unless the route is that of the favicon, the request is answered and
logged exactly when its first line is not blank and the route can be answered. -/
theorem request_answered_iff (env : Env) (f : Line) (headers : List Line)
    (h : Requests env.client f headers) (hstreams : env.streamsFail = false)
    (hs : Succeeds env) :
    ∃ method route rest,
      Text.split ' ' (requestText (f :: headers)) = method :: route :: rest ∧
        (route ≠ favicon →
          (Answered env ↔ Text.isBlank f.text = false ∧ Answerable env.fs route)) := by
  obtain ⟨method, route, rest, hsplit⟩ := exists_tokens headers h.tokens
  refine ⟨method, route, rest, hsplit, fun hroute => ?_⟩
  constructor
  · intro hanswered
    have hf : Text.isBlank f.text = false := by
      by_contra hblank
      exact not_answered_of_blank h (by simpa using hblank) hanswered
    exact ⟨hf, answerable_of_answered h hf hsplit hroute hanswered⟩
  · rintro ⟨hf, hanswer⟩
    exact answered_of_answerable h hf hstreams hs hsplit hroute hanswer

theorem request_answered_iff_getRoot :
    ∃ method route rest,
      Text.split ' ' (requestText [getRoot]) = method :: route :: rest ∧
        (route ≠ favicon →
          (Answered (directoriesEnv [getRoot, blankLine]) ↔
            Text.isBlank getRoot.text = false ∧ Answerable directories route)) :=
  request_answered_iff (directoriesEnv [getRoot, blankLine]) getRoot []
    ⟨by decide, by simp, blankLine, [], rfl, by decide⟩ rfl (succeeds_directoriesEnv _)

def getIcon : Line := ⟨"GET /img/a.ico HTTP/1.1".toList, by decide⟩

/-- A request for an icon is neither answered nor logged. -/
theorem icon_not_answered :
    Requests (directoriesEnv [getIcon, blankLine]).client getIcon [] ∧
      Text.split ' ' (requestText [getIcon]) =
        ["GET".toList, "/img/a.ico".toList, "HTTP/1.1\r\n".toList] ∧
      ¬ Answered (directoriesEnv [getIcon, blankLine]) := by
  have hrequests : Requests (directoriesEnv [getIcon, blankLine]).client getIcon [] :=
    ⟨by decide, by simp, blankLine, [], rfl, by decide⟩
  have hsplit : Text.split ' ' (requestText [getIcon]) =
      ["GET".toList, "/img/a.ico".toList, "HTTP/1.1\r\n".toList] := by decide
  refine ⟨hrequests, hsplit, fun h => ?_⟩
  have hanswer := answerable_of_answered hrequests (by decide) hsplit (by decide) h
  exact absurd hanswer.1 (by decide)

end RequestThread
