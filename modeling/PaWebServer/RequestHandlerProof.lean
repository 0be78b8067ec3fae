import PaWebServer.RequestHandler

/-!
# What the request handler finds

A search finds exactly the path it looks for, below the directory where it starts.  So a document
is in the server root whenever the search starts there; only the search for an `index.html` can
start elsewhere, since it starts at the root's text followed by the route (`contained_iff`).
-/

namespace RequestHandler

open FileTree

variable {fs : FileSystem} {route : Text}

theorem map_eq_ok {ε α β : Type} {f : α → β} {x : Except ε α} {b : β}
    (h : x.map f = .ok b) : ∃ a, x = .ok a ∧ f a = b := by
  cases x with
  | error e => cases h
  | ok a => exact ⟨a, rfl, Except.ok.inj h⟩

/-! ## Searches -/

theorem visitFile_terminate {root name : Text} {file : Path}
    (h : visitFile root name file = .terminate) : Path.get (root ++ name) = some file := by
  unfold visitFile at h
  split at h
  · cases h
  · rename_i target ht
    split_ifs at h with he
    rw [Path.toText_injective he, ht]

/-- The name has a character other than a slash, so the start itself is never what is looked
for. -/
theorem visitFile_start {root name : Text} {start : Path} (hstart : Path.get root = some start)
    (hname : ∃ c ∈ name, c ≠ '/') : visitFile root name start ≠ .terminate := by
  intro h
  obtain ⟨c, hc, hne⟩ := hname
  have htarget := Path.filter_of_get (visitFile_terminate h)
  rw [Path.filter_of_get hstart, List.filter_append] at htarget
  have hnil := List.self_eq_append_right.1 htarget
  exact absurd (List.mem_filter.2 ⟨hc, by simpa using hne⟩) (hnil ▸ List.not_mem_nil)

/-- Everything that a search opens is below its start. -/
theorem htmlSearcher_opened {root name : Text} {d : Path}
    (h : d ∈ (htmlSearcher fs root name).1) :
    ∃ start ns, Path.get root = some start ∧ d = start.descend ns := by
  unfold htmlSearcher at h
  split at h
  · cases h
  · rename_i start hstart
    obtain ⟨ns, hns⟩ := FileSystem.mem_walkFileTree h
    exact ⟨start, ns, hstart, hns⟩

/-- What a search finds is a file, it is the path that was looked for, and the walk from the start
comes to it. -/
theorem htmlSearcher_found {root name : Text} {p : Path}
    (h : (htmlSearcher fs root name).2 = .ok (some p)) :
    Path.get (root ++ name) = some p ∧ (∃ loc, fs.IsFile p loc) ∧
      ∃ start ns, Path.get root = some start ∧ p = start.descend ns ∧ fs.Reaches start ns := by
  unfold htmlSearcher at h
  split at h
  · cases h
  · rename_i start hstart
    simp only at h
    split at h
    · cases h
    · rename_i file hfile
      obtain rfl := Option.some.inj (Except.ok.inj h)
      obtain ⟨hv, ⟨ns, hns⟩, hloc⟩ := FileSystem.terminated_walkFileTree hfile
      exact ⟨visitFile_terminate hv, hloc, start, ns, hstart, hns⟩
    · cases h
    · cases h

/-- A search finds the file that it looks for when the walk comes to it. -/
theorem htmlSearcher_of_reaches {root name : Text} {start : Path} {ns : List FileName}
    {loc : Location} (hstart : Path.get root = some start)
    (htarget : Path.get (root ++ name) = some (start.descend ns))
    (hreaches : fs.Reaches start ns) (hfile : fs.IsFile (start.descend ns) loc) :
    (htmlSearcher fs root name).2 = .ok (some (start.descend ns)) := by
  have hv : ∀ f, visitFile root name f =
      if f = start.descend ns then .terminate else .continue_ := by
    intro f
    simp only [visitFile, htarget, Path.toText_injective.eq_iff]
  unfold htmlSearcher
  simp only [hstart, FileSystem.walkFileTree_of_reaches hreaches hfile hv]

/-- A search that opens or finds something starts at a directory that can be opened. -/
theorem htmlSearcher_start {root name : Text} {start : Path} (hstart : Path.get root = some start)
    (hname : ∃ c ∈ name, c ≠ '/')
    (h : (∃ d, d ∈ (htmlSearcher fs root name).1) ∨
      ∃ p, (htmlSearcher fs root name).2 = .ok (some p)) :
    ∃ loc cs, fs.locate start = some loc ∧ fs.entry loc = some (.dir true cs) := by
  unfold htmlSearcher at h
  simp only [hstart] at h
  rcases h with ⟨d, hd⟩ | ⟨p, hp⟩
  · exact FileSystem.dir_of_walkFileTree (q := d) (Or.inl hd)
  · split at hp
    · cases hp
    · rename_i file hfile
      have hne : file ≠ start := by
        rintro rfl
        exact visitFile_start hstart hname (FileSystem.terminated_walkFileTree hfile).1
      exact FileSystem.dir_of_walkFileTree (d := file) (Or.inr ⟨hfile, hne⟩)
    · cases hp
    · cases hp

/-! ## Documents -/

/-- The search for the route starts at `start` and looks for `target`. -/
def Searches (route : Text) (start target : Path) : Prop :=
  if Text.endsWith route ".html".toList then
    Path.get serverRoot = some start ∧ Path.get (serverRoot ++ route) = some target
  else if Text.endsWith route ".ico".toList then False
  else
    Path.get (serverRoot ++ route) = some start ∧
      Path.get (serverRoot ++ route ++ "index.html".toList) = some target

/-- The route asks for the file at `loc` by the path `p`, which is below the start of its search,
and no directory that cannot be opened is in the way of the walk. -/
def Names (fs : FileSystem) (route : Text) (p : Path) (loc : Location) : Prop :=
  (∃ start ns, Searches route start p ∧ p = start.descend ns ∧ fs.Reaches start ns) ∧
    fs.IsFile p loc

theorem Names.of_isFile {fs : FileSystem} {route : Text} {p q : Path} {loc loc' : Location}
    (h : Names fs route p loc) (hget : Path.get p.toText = some q) (hfile : fs.IsFile q loc') :
    q = p ∧ Names fs route p loc' := by
  obtain rfl := Option.some.inj ((Path.get_toText p).symm.trans hget)
  exact ⟨rfl, h.1, hfile⟩

/-- What a search looks for is relative to the working directory. -/
theorem Searches.relative {start p : Path} (h : Searches route start p) : p.absolute = false := by
  have hrelative : ∀ t, Path.get (serverRoot ++ t) = some p → p.absolute = false := by
    intro t ht
    rw [Path.absolute_of_get ht]
    rfl
  unfold Searches at h
  split_ifs at h
  · exact hrelative _ h.2
  · rw [List.append_assoc] at h
    exact hrelative _ h.2

/-- Without `.` and `..` there is one path for each place. -/
theorem Names.eq_of_plain {r₁ r₂ : Text} {p q : Path} {loc : Location} (hp : Names fs r₁ p loc)
    (hq : Names fs r₂ q loc) (hplain : ∀ n ∈ p.names ++ q.names, n ≠ dot ∧ n ≠ dotdot) :
    p = q := by
  obtain ⟨⟨start₁, -, hs₁, -⟩, hloc₁, -⟩ := hp
  obtain ⟨⟨start₂, -, hs₂, -⟩, hloc₂, -⟩ := hq
  have h₁ := FileSystem.normalize_of_locate hloc₁
  have h₂ := FileSystem.normalize_of_locate hloc₂
  rw [FileSystem.normalize_of_plain fun n hn => hplain n (List.mem_append_left _ hn)] at h₁
  rw [FileSystem.normalize_of_plain fun n hn => hplain n (List.mem_append_right _ hn)] at h₂
  have hrel₁ := hs₁.relative
  have hrel₂ := hs₂.relative
  simp only [FileSystem.start, hrel₁] at h₁
  simp only [FileSystem.start, hrel₂] at h₂
  have hnames := List.append_cancel_left (h₁.trans h₂.symm)
  cases p
  cases q
  simp_all

/-- What a search finds is named by the route that the search is for. -/
theorem Names.of_found {root name : Text} {p : Path}
    (h : (htmlSearcher fs root name).2 = .ok (some p))
    (hsearches : ∀ start, Path.get root = some start → Path.get (root ++ name) = some p →
      Searches route start p) : ∃ loc, Names fs route p loc := by
  obtain ⟨htarget, ⟨loc, hfile⟩, start, ns, hstart, hns⟩ := htmlSearcher_found h
  exact ⟨loc, ⟨start, ns, hsearches start hstart htarget, hns⟩, hfile⟩

/-- The handler gives the fixed page, or the path of a file that the route asks for. -/
theorem handleRequest_httpUrl {url : Text} {res : Resolution}
    (h : (handleRequest fs serverRoot route).2 = .ok res) (hurl : res.httpUrl = some url) :
    res.error404 = true ∧ url = notFoundPage ∨
      res.error404 = false ∧ ∃ p loc, url = p.toText ∧ Names fs route p loc := by
  have hfound : ∀ {found : Option Path}, resolution found = res →
      (∀ p, found = some p → ∃ loc, Names fs route p loc) →
      res.error404 = true ∧ url = notFoundPage ∨
        res.error404 = false ∧ ∃ p loc, url = p.toText ∧ Names fs route p loc := by
    rintro (_ | p) rfl hp
    · exact Or.inl ⟨rfl, (Option.some.inj hurl).symm⟩
    · obtain ⟨loc, hloc⟩ := hp p rfl
      exact Or.inr ⟨rfl, p, loc, (Option.some.inj hurl).symm, hloc⟩
  unfold handleRequest at h
  split_ifs at h with hhtml hico
  · obtain ⟨found, hsearch, hres⟩ := map_eq_ok h
    refine hfound hres fun p hp => Names.of_found (hp ▸ hsearch) fun start hstart htarget => ?_
    unfold Searches
    rw [if_pos hhtml]
    exact ⟨hstart, htarget⟩
  · obtain rfl := Except.ok.inj h
    cases hurl
  · obtain ⟨found, hsearch, hres⟩ := map_eq_ok h
    refine hfound hres fun p hp => Names.of_found (hp ▸ hsearch) fun start hstart htarget => ?_
    unfold Searches
    rw [if_neg hhtml, if_neg hico]
    exact ⟨hstart, htarget⟩

/-- The handler finds the document that the route names. -/
theorem handleRequest_of_names {p : Path} {loc : Location} (h : Names fs route p loc) :
    (handleRequest fs serverRoot route).2 = .ok ⟨some p.toText, false⟩ := by
  obtain ⟨⟨start, ns, hsearch, rfl, hreaches⟩, hfile⟩ := h
  unfold Searches at hsearch
  unfold handleRequest
  split_ifs at hsearch ⊢
  · simp only [htmlSearcher_of_reaches hsearch.1 hsearch.2 hreaches hfile, Except.map, resolution]
  · simp only [htmlSearcher_of_reaches hsearch.1 hsearch.2 hreaches hfile, Except.map, resolution]

/-! ## Containment -/

/-- The place is the server root or below it. -/
def Inside (fs : FileSystem) (loc : Location) : Prop := fs.cwd ++ [serverRoot] <+: loc

/-- The directories that the request makes the server open are in the server root, and the
document is there too or is the fixed page. -/
def Contained (fs : FileSystem) (route : Text) : Prop :=
  (∀ d ∈ (handleRequest fs serverRoot route).1, Inside fs (fs.normalize d)) ∧
    ∀ res url, (handleRequest fs serverRoot route).2 = .ok res → res.httpUrl = some url →
      url = notFoundPage ∨ ∃ p, Path.get url = some p ∧ Inside fs (fs.normalize p)

/-- The route is searched for under the whole root, or not at all, or the root's text followed by
the route does not name a directory outside the root that can be opened. -/
def StaysInside (fs : FileSystem) (route : Text) : Prop :=
  Text.endsWith route ".html".toList ∨ Text.endsWith route ".ico".toList ∨
    ∀ start loc cs, Path.get (serverRoot ++ route) = some start → fs.locate start = some loc →
      fs.entry loc = some (.dir true cs) → Inside fs loc

theorem Inside.descend {start : Path} (h : Inside fs (fs.normalize start)) (ns : List FileName) :
    Inside fs (fs.normalize (start.descend ns)) := by
  rw [FileSystem.normalize_descend]
  exact h.trans (List.prefix_append _ _)

theorem inside_serverRoot {start : Path} (h : Path.get serverRoot = some start) :
    Inside fs (fs.normalize start) := by
  have hroot : Path.get serverRoot = some ⟨false, [serverRoot], by decide⟩ := by decide
  obtain rfl := Option.some.inj (hroot.symm.trans h)
  exact List.prefix_rfl

/-- A search that starts inside the root stays there. -/
theorem htmlSearcher_inside {root name : Text}
    (h : ∀ start, Path.get root = some start →
      (∃ loc cs, fs.locate start = some loc ∧ fs.entry loc = some (.dir true cs)) →
      Inside fs (fs.normalize start)) (hname : ∃ c ∈ name, c ≠ '/') :
    (∀ d ∈ (htmlSearcher fs root name).1, Inside fs (fs.normalize d)) ∧
      ∀ res url, (htmlSearcher fs root name).2.map resolution = .ok res →
        res.httpUrl = some url →
        url = notFoundPage ∨ ∃ p, Path.get url = some p ∧ Inside fs (fs.normalize p) := by
  refine ⟨fun d hd => ?_, fun res url hres hurl => ?_⟩
  · obtain ⟨start, ns, hstart, rfl⟩ := htmlSearcher_opened hd
    exact (h start hstart (htmlSearcher_start hstart hname (Or.inl ⟨_, hd⟩))).descend ns
  · cases hfound : (htmlSearcher fs root name).2 with
    | error e => simp [hfound, Except.map] at hres
    | ok found =>
      rw [hfound] at hres
      obtain rfl := Except.ok.inj hres
      cases found with
      | none =>
        obtain rfl := Option.some.inj hurl
        exact Or.inl rfl
      | some p =>
        obtain rfl := Option.some.inj hurl
        obtain ⟨-, -, start, ns, hstart, rfl, -⟩ := htmlSearcher_found hfound
        refine Or.inr ⟨_, Path.get_toText _, ?_⟩
        exact (h start hstart (htmlSearcher_start hstart hname (Or.inr ⟨_, hfound⟩))).descend ns

theorem exists_ne_slash_of_endsWith {s suffix : Text} (h : Text.endsWith s suffix)
    (hs : ∃ c ∈ suffix, c ≠ '/') : ∃ c ∈ s, c ≠ '/' := by
  obtain ⟨c, hc, hne⟩ := hs
  exact ⟨c, (Text.endsWith_iff.1 h).subset hc, hne⟩

/-- The handler stays in the server root exactly for the routes whose search does not start at a
directory outside of it. -/
theorem contained_iff (fs : FileSystem) (route : Text) :
    Contained fs route ↔ StaysInside fs route := by
  unfold Contained StaysInside handleRequest
  by_cases hhtml : Text.endsWith route ".html".toList
  · rw [if_pos hhtml]
    refine iff_of_true ?_ (Or.inl hhtml)
    exact htmlSearcher_inside (fun start hstart _ => inside_serverRoot hstart)
      (exists_ne_slash_of_endsWith hhtml ⟨'.', by decide, by decide⟩)
  rw [if_neg hhtml]
  by_cases hico : Text.endsWith route ".ico".toList
  · rw [if_pos hico]
    refine iff_of_true ⟨by simp, ?_⟩ (Or.inr (Or.inl hico))
    rintro res url hres hurl
    obtain rfl := Except.ok.inj hres
    cases hurl
  rw [if_neg hico, or_iff_right hhtml, or_iff_right hico]
  constructor
  · rintro ⟨hopened, -⟩ start loc cs hstart hloc he
    have hmem : start ∈ (htmlSearcher fs (serverRoot ++ route) "index.html".toList).1 := by
      unfold htmlSearcher
      rw [hstart]
      exact FileSystem.start_mem_walkFileTree hloc he
    exact FileSystem.normalize_of_locate hloc ▸ hopened start hmem
  · intro h
    refine htmlSearcher_inside (fun start hstart hdir => ?_) ⟨'i', by decide, by decide⟩
    obtain ⟨loc, cs, hloc, he⟩ := hdir
    exact FileSystem.normalize_of_locate hloc ▸ h start loc cs hstart hloc he

def rootName : FileName := ⟨serverRoot, by decide, by decide⟩

def indexName : FileName := ⟨"index.html".toList, by decide, by decide⟩

/-- The working directory has an empty server root, and beside it the directory `secret` with an
`index.html`. -/
def secretBesideRoot : FileSystem where
  root := .cons rootName (.dir true .nil)
    (.cons ⟨"secret".toList, by decide, by decide⟩
      (.dir true (.cons indexName (.file (some [])) .nil)) .nil)
  cwd := []
  distinct := by decide

/-- The route of a request whose first line is `GET /../secret/ HTTP/1.1`. -/
theorem dotdot_route_leaves_root :
    (Text.split ' ' "GET /../secret/ HTTP/1.1\r\n".toList)[1]? = some "/../secret/".toList ∧
      ¬ Contained secretBesideRoot "/../secret/".toList := by
  refine ⟨by decide, fun h => ?_⟩
  have hopened := h.1 ⟨false, [serverRoot, dotdot, "secret".toList], by decide⟩ (by decide)
  exact absurd hopened (by unfold Inside; decide)

end RequestHandler
