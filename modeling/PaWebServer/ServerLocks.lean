import PaWebServer.ServerInvariant

/-!
# What the page locks guarantee over the whole server

A worker holds the lock of a page exactly while it is serving the page, unless an operation has
failed in between (`page_locks_released`).  Two workers are kept from serving one document exactly
when the requests for it spell its path alike and the path does not end with `404.html`
(`document_exclusion`).
-/

namespace Server

open FileTree RequestHandler RequestThread PageHandler Transition

variable {cfg : Config} {s s' : State} {a : Action} {t u : ℕ}

/-! ## Locks that are released -/

/-- No operation of a worker fails while it is serving a page that has a lock. -/
def KeepsLocks (s : State) : Action → Prop
  | .ioError t | .readError t => (s.serving t).all exempt
  | .accept | .worker _ => True

instance (s : State) : (a : Action) → Decidable (KeepsLocks s a)
  | .ioError _ | .readError _ => inferInstanceAs (Decidable (_ = true))
  | .accept | .worker _ => isTrue trivial

/-- A thread has called `lockAccessPage` once for the page that it is serving, and for no other. -/
def Exact (s : State) : Prop :=
  ∀ t page, exempt page = false →
    s.pages.opened t page = if s.serving t = some page then 1 else 0

theorem Exact.init : Exact (State.init cfg) := by
  intro t page _
  have hnone : (State.init cfg).serving t = none := by
    simp only [State.serving, State.init]
    split_ifs <;> rfl
  rw [hnone]
  rfl

theorem Exact.of_step (h : Exact s) (hc : Coordinated cfg s) (ha : KeepsLocks s a)
    (hs : step cfg s a = some s') : Exact s' := by
  obtain ⟨t, hm⟩ := moves_of_step hc hs
  intro u page hex
  by_cases hu : u = t
  · subst hu
    have hbefore := h u page hex
    cases hm.effect with
    | same serving opened => rwa [opened, serving]
    | enter q before after opened =>
      rw [opened, after]
      by_cases hq : page = q
      · subst hq
        simp [hbefore, before]
      · simp [hq, hbefore, before, Ne.symm hq]
    | leave q before after opened =>
      rw [opened, after]
      by_cases hq : page = q
      · subst hq
        simp [hbefore, before]
      · simp [hq, hbefore, before, Ne.symm hq]
    | leak failure after opened =>
      -- The page that the thread leaves has no lock.
      have hall : (s.serving u).all exempt := by rcases failure with rfl | rfl <;> exact ha
      rw [opened, after, hbefore]
      have hne : s.serving u ≠ some page := by
        intro hserving
        rw [hserving, Option.all_some, hex] at hall
        cases hall
      simp [hne]
  · rw [(hm.frame u hu).1, (hm.frame u hu).2]
    exact h u page hex

theorem exact_of_run {as : List Action} (hm : Meets (step cfg) KeepsLocks (State.init cfg) as)
    (h : run (step cfg) (State.init cfg) as = some s) : Coordinated cfg s ∧ Exact s :=
  guarded_run_invariant (I := fun s => Coordinated cfg s ∧ Exact s)
    (fun _ _ _ h ha hs => ⟨h.1.of_step hs, h.2.of_step h.1 ha hs⟩)
    ⟨Coordinated.init, Exact.init⟩ hm h

/-- A lock that a thread holds is the lock of the page that it is serving. -/
theorem Exact.serving_of_holdCount (h : Exact s) (hc : Coordinated cfg s) {l : LockId}
    (hpos : 0 < (s.pages.locks l).getHoldCount t) :
    ∃ page, s.pages.lockConcurrentHashMap page = some l ∧ s.serving t = some page := by
  obtain ⟨page, hbound, hex, hopened⟩ := hc.pages.opened_of_holdCount hpos
  refine ⟨page, hbound, ?_⟩
  by_contra hne
  rw [h t page hex, if_neg hne] at hopened
  exact absurd hopened (Nat.lt_irrefl 0)

/-- A single run leaves the hold counts as they were exactly when it takes no lock or none of the
operations between lock and unlock fails.  In a run of the server without such failures a thread
holds no lock but the one of the page that it is serving. -/
theorem page_locks_released (env : Env) (w : World) (cfg : Config) (as : List Action) (s : State)
    (hm : Meets (step cfg) KeepsLocks (State.init cfg) as)
    (hrun : run (step cfg) (State.init cfg) as = some s) :
    ((exec (RequestThread.run env) w).2.holds = w.holds ↔
      lockedPage env = none ∨ RequestThread.Succeeds env) ∧
    ∀ t l, 0 < (s.pages.locks l).getHoldCount t →
      ∃ page, s.pages.lockConcurrentHashMap page = some l ∧ s.serving t = some page := by
  refine ⟨exec_run_holds_iff env w, fun t l hpos => ?_⟩
  obtain ⟨hc, hexact⟩ := exact_of_run hm hrun
  exact hexact.serving_of_holdCount hc hpos

/-- A server root with the pages `index.html` and `404.html`. -/
def sampleFiles : FileSystem where
  root := .cons rootName (.dir true
    (.cons indexName (.file (some [104, 105]))
      (.cons ⟨"404.html".toList, by decide, by decide⟩ (.file (some [110, 111])) .nil))) .nil
  cwd := []
  distinct := by decide

/-- A client that sends a request line and a blank line. -/
def sampleClient (requestLine : Line) : Client where
  lines := [requestLine, ⟨[], by decide⟩]
  ending := .endOfStream
  origin := "127.0.0.1".toList

def getRoot : Client := sampleClient ⟨"GET / HTTP/1.1".toList, by decide⟩

def twoClients : Config := ⟨sampleFiles, [getRoot, getRoot], 1⟩

/-- The worker answers the first client; the second one disconnects before its request is read. -/
def readFailureRun : List Action :=
  .accept :: .accept :: List.replicate 23 (.worker 0) ++ [.ioError 0]

/-- The client of `GET /` disconnects before the first write. -/
def disconnects : Env := ⟨sampleFiles, getRoot, false, false, fun k => k = 0⟩

theorem page_locks_released_readFailureRun :
    ∃ s, run (step twoClients) (State.init twoClients) readFailureRun = some s ∧
      ((exec (RequestThread.run disconnects) World.init).2.holds = World.init.holds ↔
        lockedPage disconnects = none ∨ RequestThread.Succeeds disconnects) ∧
      ∀ t l, 0 < (s.pages.locks l).getHoldCount t →
        ∃ page, s.pages.lockConcurrentHashMap page = some l ∧ s.serving t = some page := by
  obtain ⟨s, hs⟩ := Option.isSome_iff_exists.1 (show
    (run (step twoClients) (State.init twoClients) readFailureRun).isSome = true by decide +kernel)
  exact ⟨s, hs, page_locks_released disconnects World.init twoClients readFailureRun s
    (by decide +kernel) hs⟩

/-- Two clients ask for the same page, and there is a worker for each. -/
def contendedClients : Config := ⟨sampleFiles, [getRoot, getRoot], 2⟩

/-- The first client disconnects before the first write of its response, and then the second worker
goes on as far as it can. -/
def leakRun : List Action :=
  .accept :: .accept :: List.replicate 9 (.worker 0) ++ .ioError 0 :: List.replicate 6 (.worker 1)

/-- The lock that was taken for the client stays with the thread, and the other worker waits for
it. -/
theorem disconnect_leaves_page_locked :
    (exec (RequestThread.run disconnects) World.init).2.holds ≠ World.init.holds ∧
      ∃ s l, run (step contendedClients) (State.init contendedClients) leakRun = some s ∧
        s.serving 0 = none ∧ 0 < (s.pages.locks l).getHoldCount 0 ∧
        s.pages.call 1 = .parked "server_root/index.html".toList l ∧
        step contendedClients s (.worker 1) = none := by
  constructor
  · have hpage : lockedPage disconnects ≠ none := by decide +kernel
    intro h
    rcases (exec_run_holds_iff disconnects World.init).1 h with hnone | hok
    · exact hpage hnone
    · exact absurd (hok.2 0 (Nat.zero_le _)) (by decide)
  · have hrun : (run (step contendedClients) (State.init contendedClients) leakRun).any (fun s =>
        s.serving 0 = none ∧ 0 < (s.pages.locks 0).getHoldCount 0 ∧
          s.pages.call 1 = .parked "server_root/index.html".toList 0 ∧
          (step contendedClients s (.worker 1)).isNone) = true := by
      decide +kernel
    obtain ⟨s, hs, hleak⟩ := (Option.any_eq_true _ _).1 hrun
    obtain ⟨hserving, hhold, hparked, hstuck⟩ := of_decide_eq_true hleak
    exact ⟨s, 0, hs, hserving, hhold, hparked, Option.isNone_iff_eq_none.1 hstuck⟩

/-! ## One worker for each document -/

def Stage.job? : Stage → Option Job
  | .locking j | .loading j | .sending j _ | .unlocking j | .logging j => some j
  | _ => none

/-- The thread is between lock and unlock for a request that the handler has given the existing
document at `loc`. -/
def ServesDocument (fs : FileSystem) (s : State) (t : ℕ) (loc : Location) : Prop :=
  ∃ j p, (s.stage t).job? = some j ∧ s.serving t = some j.httpUrl ∧ j.error404 = false ∧
    Path.get j.httpUrl = some p ∧ fs.IsFile p loc

/-- The route of a request of the clients. -/
def Requested (cfg : Config) (route : Text) : Prop :=
  ∃ c ∈ cfg.clients, ∃ method, Asks c method route

/-- The requests name each document by one path, and no document whose path ends with
`404.html`. -/
structure OneSpelling (cfg : Config) : Prop where
  same : ∀ {r₁ r₂ p₁ p₂ loc}, Requested cfg r₁ → Requested cfg r₂ → Names cfg.fs r₁ p₁ loc →
    Names cfg.fs r₂ p₂ loc → p₁ = p₂
  lockable : ∀ {r p loc}, Requested cfg r → Names cfg.fs r p loc → exempt p.toText = false

/-- What the server promises for each document: no two workers serve it at once, the one that serves
it owns a lock, the routes that the handler resolves to it give one key, and it is not exempt from
the locks. -/
structure PerDocument (cfg : Config) : Prop where
  exclusive : ∀ as s, run (step cfg) (State.init cfg) as = some s → ∀ t u loc,
    ServesDocument cfg.fs s t loc → ServesDocument cfg.fs s u loc → t = u
  owned : ∀ as s, run (step cfg) (State.init cfg) as = some s → ∀ t loc,
    ServesDocument cfg.fs s t loc →
      ∃ page, s.serving t = some page ∧ (s.pages.lockOf page).owner = some t
  key : ∀ r₁ r₂ u₁ u₂ p₁ p₂ loc, Requested cfg r₁ → Requested cfg r₂ →
    (handleRequest cfg.fs serverRoot r₁).2 = .ok ⟨some u₁, false⟩ →
    (handleRequest cfg.fs serverRoot r₂).2 = .ok ⟨some u₂, false⟩ →
    Path.get u₁ = some p₁ → Path.get u₂ = some p₂ → cfg.fs.IsFile p₁ loc → cfg.fs.IsFile p₂ loc →
    u₁ = u₂
  locked : ∀ r url, Requested cfg r →
    (handleRequest cfg.fs serverRoot r).2 = .ok ⟨some url, false⟩ → exempt url = false

/-- Requests without `.` and `..`, none for a page that is exempt, name each document by one
path. -/
theorem oneSpelling_of_plain
    (hplain : ∀ {r start p}, Requested cfg r → Searches r start p →
      exempt p.toText = false ∧ ∀ n ∈ p.names, n ≠ dot ∧ n ≠ dotdot) : OneSpelling cfg := by
  constructor
  · intro r₁ r₂ p₁ p₂ loc hr₁ hr₂ h₁ h₂
    obtain ⟨_, _, hs₁, -⟩ := h₁.1
    obtain ⟨_, _, hs₂, -⟩ := h₂.1
    refine h₁.eq_of_plain h₂ fun n hn => ?_
    rcases List.mem_append.1 hn with hn | hn
    · exact (hplain hr₁ hs₁).2 n hn
    · exact (hplain hr₂ hs₂).2 n hn
  · intro r p loc hr hp
    obtain ⟨_, _, hs, -⟩ := hp.1
    exact (hplain hr hs).1

/-- A document that the handler has found is one that the route names. -/
theorem names_of_found {route url : Text}
    (h : (handleRequest cfg.fs serverRoot route).2 = .ok ⟨some url, false⟩) :
    ∃ p loc, url = p.toText ∧ Names cfg.fs route p loc := by
  rcases handleRequest_httpUrl h rfl with ⟨herr, -⟩ | ⟨-, hfound⟩
  · cases herr
  · exact hfound

theorem genuine_of_job (h : Coordinated cfg s) {j : Job} (hj : (s.stage t).job? = some j) :
    j.Genuine cfg := by
  have hgenuine := h.genuine t
  cases hst : s.stage t <;> simp_all [Stage.job?, Stage.Genuine]

/-- The page that a thread is serving is the path by which its request names the document. -/
theorem names_of_serves (h : Coordinated cfg s) {loc : Location}
    (hs : ServesDocument cfg.fs s t loc) :
    ∃ r p, s.serving t = some p.toText ∧ Requested cfg r ∧ Names cfg.fs r p loc := by
  obtain ⟨j, q, hj, hserving, herr, hget, hfile⟩ := hs
  have hjob := genuine_of_job h hj
  have hres := hjob.resolved
  rw [herr] at hres
  obtain ⟨p, loc', hurl, hnames⟩ := names_of_found hres
  rw [hurl] at hget hserving
  obtain ⟨-, hnames⟩ := hnames.of_isFile hget hfile
  exact ⟨j.route, p, hserving,
    ⟨j.task.client, List.mem_of_getElem? hjob.task, j.method, hjob.asks⟩, hnames⟩

theorem OneSpelling.of_perDocument (h : PerDocument cfg) : OneSpelling cfg := by
  constructor
  · intro r₁ r₂ p₁ p₂ loc hreq₁ hreq₂ hnames₁ hnames₂
    exact Path.toText_injective (h.key r₁ r₂ p₁.toText p₂.toText p₁ p₂ loc hreq₁ hreq₂
      (handleRequest_of_names hnames₁) (handleRequest_of_names hnames₂) p₁.get_toText p₂.get_toText
      hnames₁.2 hnames₂.2)
  · intro r p loc hreq hnames
    exact h.locked r p.toText hreq (handleRequest_of_names hnames)

theorem OneSpelling.perDocument (h : OneSpelling cfg) : PerDocument cfg := by
  refine ⟨?_, ?_, ?_, ?_⟩
  · intro as s hrun t u loc ht hu
    have hc := coordinated_of_run hrun
    obtain ⟨r₁, p₁, hserve₁, hreq₁, hnames₁⟩ := names_of_serves hc ht
    obtain ⟨r₂, p₂, hserve₂, hreq₂, hnames₂⟩ := names_of_serves hc hu
    obtain rfl := h.same hreq₁ hreq₂ hnames₁ hnames₂
    exact hc.pages.exclusive (h.lockable hreq₁ hnames₁) (hc.opened t _ hserve₁)
      (hc.opened u _ hserve₂)
  · intro as s hrun t loc ht
    have hc := coordinated_of_run hrun
    obtain ⟨r, p, hserve, hreq, hnames⟩ := names_of_serves hc ht
    exact ⟨p.toText, hserve,
      hc.pages.owner_of_opened (h.lockable hreq hnames) (hc.opened t _ hserve)⟩
  · intro r₁ r₂ u₁ u₂ p₁ p₂ loc hreq₁ hreq₂ hfound₁ hfound₂ hget₁ hget₂ hfile₁ hfile₂
    obtain ⟨q₁, _, rfl, hnames₁⟩ := names_of_found hfound₁
    obtain ⟨q₂, _, rfl, hnames₂⟩ := names_of_found hfound₂
    obtain ⟨-, hnames₁⟩ := hnames₁.of_isFile hget₁ hfile₁
    obtain ⟨-, hnames₂⟩ := hnames₂.of_isFile hget₂ hfile₂
    rw [h.same hreq₁ hreq₂ hnames₁ hnames₂]
  · intro r url hreq hfound
    obtain ⟨p, loc, rfl, hnames⟩ := names_of_found hfound
    exact h.lockable hreq hnames

/-- When the requests name each document by one path, and none whose path ends with `404.html`,
the server serves each document to one worker at a time, whatever fails on the way; otherwise some
document has two keys, or has no lock.  Requests without `.` and `..` that ask for no page
`404.html` are of the first kind, in any file tree. -/
theorem document_exclusion (cfg : Config) :
    (PerDocument cfg ↔ OneSpelling cfg) ∧
      ((∀ r start p, Requested cfg r → Searches r start p →
          exempt p.toText = false ∧ ∀ n ∈ p.names, n ≠ dot ∧ n ≠ dotdot) →
        PerDocument cfg) :=
  ⟨⟨OneSpelling.of_perDocument, OneSpelling.perDocument⟩, fun hplain =>
    (oneSpelling_of_plain fun hr hs => hplain _ _ _ hr hs).perDocument⟩

/-- The two requests for the root are of that kind. -/
theorem document_exclusion_twoClients : PerDocument twoClients := by
  refine (document_exclusion twoClients).2 fun r start p hr hs => ?_
  obtain ⟨c, hc, method, request, hread, hparse⟩ := hr
  obtain rfl : c = getRoot := by simpa [twoClients] using hc
  have hrequest : readRequest getRoot.ending getRoot.lines = .ok "GET / HTTP/1.1\r\n".toList := by
    decide +kernel
  have hroute : parse "GET / HTTP/1.1\r\n".toList = some ("GET".toList, "/".toList) := by
    decide +kernel
  obtain rfl := Except.ok.inj (hrequest.symm.trans hread)
  obtain ⟨-, rfl⟩ := Prod.mk.inj (Option.some.inj (hroute.symm.trans hparse))
  have hp : Path.get "server_root/index.html".toList = some p := hs.2
  obtain rfl := Option.some.inj hp
  decide

def getDot : Client := sampleClient ⟨"GET /./ HTTP/1.1".toList, by decide⟩

/-- Two workers, and two spellings of one document. -/
def dotClients : Config := ⟨sampleFiles, [getRoot, getDot], 2⟩

/-- Each worker goes on until it has its lock. -/
def dotRun : List Action :=
  .accept :: .accept :: List.replicate 8 (.worker 0) ++ List.replicate 8 (.worker 1)

def rootJob : Job :=
  ⟨⟨0, getRoot⟩, "GET".toList, "/".toList, "server_root/index.html".toList, false⟩

def dotJob : Job :=
  ⟨⟨1, getDot⟩, "GET".toList, "/./".toList, "server_root/./index.html".toList, false⟩

/-- A client asks for the page `404.html` of the server root. -/
def notFoundClients : Config :=
  ⟨sampleFiles, [sampleClient ⟨"GET /404.html HTTP/1.1".toList, by decide⟩], 1⟩

/-- The two spellings of the root give two keys, so that both workers serve `index.html` at once;
and the document `404.html` has no lock. -/
theorem documents_without_exclusion : ¬ PerDocument dotClients ∧ ¬ PerDocument notFoundClients := by
  refine ⟨fun h => ?_, fun h => ?_⟩
  rotate_left
  · have hlocked := h.locked "/404.html".toList "server_root/404.html".toList
      ⟨_, List.mem_singleton_self _, "GET".toList, "GET /404.html HTTP/1.1\r\n".toList,
        by decide +kernel, by decide +kernel⟩ (by decide +kernel)
    exact absurd hlocked (by decide)
  have hrun : (run (step dotClients) (State.init dotClients) dotRun).any (fun s =>
      (s.stage 0).job? = some rootJob ∧ s.serving 0 = some rootJob.httpUrl ∧
        (s.stage 1).job? = some dotJob ∧ s.serving 1 = some dotJob.httpUrl) = true := by
    decide +kernel
  obtain ⟨s, hs, hserves⟩ := (Option.any_eq_true _ _).1 hrun
  obtain ⟨hj₀, hp₀, hj₁, hp₁⟩ := of_decide_eq_true hserves
  have heq := h.exclusive dotRun s hs 0 1 [serverRoot, "index.html".toList]
    ⟨rootJob, ⟨false, [serverRoot, "index.html".toList], by decide⟩, hj₀, hp₀, rfl, by decide,
      by decide, _, rfl⟩
    ⟨dotJob, ⟨false, [serverRoot, dot, "index.html".toList], by decide⟩, hj₁, hp₁, rfl, by decide,
      by decide, _, rfl⟩
  cases heq

end Server
