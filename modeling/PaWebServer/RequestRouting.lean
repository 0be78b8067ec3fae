import PaWebServer.RequestSearch

/-!
# Routes

What the handler makes of a route, in terms of what the route names in the tree: a page, a
directory with an `index.html`, or neither.  The handler joins the route of a directory and the
name `index.html` as texts, so a directory has to be asked for with its final slash.
-/

namespace RequestHandler

open FileTree

variable {fs : FileSystem} {route : Text}

/-! ## What a route names -/

def indexPage : Text := "index.html".toList

/-- The place in the tree that a route names. -/
def place (fs : FileSystem) (route : Text) : Location :=
  fs.cwd ++ serverRoot :: Path.components route

/-- The text of the path that leads from the server root along these components. -/
def urlOf (components : List Text) : Text := ['/'].intercalate (serverRoot :: components)

/-- The route names a file, and ends with `.html`. -/
def NamesPage (fs : FileSystem) (route : Text) : Prop :=
  Text.endsWith route ".html".toList = true ∧
    ∃ content, fs.entry (place fs route) = some (.file content)

/-- The route names a directory that holds a file `index.html`. -/
def NamesIndex (fs : FileSystem) (route : Text) : Prop :=
  ∃ content, fs.entry (place fs route ++ [indexPage]) = some (.file content)

/-- The server root is there, and everything in it can be opened. -/
def FullyReadable (fs : FileSystem) : Prop :=
  ∃ cs, fs.entry (fs.cwd ++ [serverRoot]) = some (.dir true cs) ∧ cs.listable = true

/-- The route starts with a slash and has no component `.` or `..`. -/
structure PlainRoute (route : Text) : Prop where
  slash : route.head? = some '/'
  components : ∀ n ∈ Path.components route, n ≠ dot ∧ n ≠ dotdot

def Gives (fs : FileSystem) (route : Text) (res : Resolution) : Prop :=
  (handleRequest fs serverRoot route).2 = .ok res

def pageResolution (route : Text) : Resolution := ⟨some (urlOf (Path.components route)), false⟩

def indexResolution (route : Text) : Resolution :=
  ⟨some (urlOf (Path.components route ++ [indexPage])), false⟩

def notFoundResolution : Resolution := ⟨some notFoundPage, true⟩

/-! ## The paths of a route -/

theorem urlOf_toText {p : Path} {components : List Text} (habsolute : p.absolute = false)
    (hnames : p.names = serverRoot :: components) : p.toText = urlOf components := by
  simp [Path.toText, habsolute, hnames, urlOf]

theorem path_of_route {p : Path} (hslash : route.head? = some '/')
    (h : Path.get (serverRoot ++ route) = some p) :
    p.absolute = false ∧ p.names = serverRoot :: Path.components route := by
  obtain ⟨r, rfl⟩ : ∃ r, route = '/' :: r := by
    cases route with
    | nil => cases hslash
    | cons c r => exact ⟨r, by rw [Option.some.inj hslash]⟩
  refine ⟨?_, ?_⟩
  · rw [Path.absolute_of_get h]
    rfl
  · rw [Path.names_of_get h, Path.components_append_slash, Path.components_slash,
      Path.components_of_notMem (by decide) (by decide)]
    rfl

/-- The route of a directory, joined with the name of its index. -/
theorem components_index (hslash : Text.endsWith route ['/'] = true) :
    Path.components (route ++ indexPage) = Path.components route ++ [indexPage] := by
  have hindex : Path.components indexPage = [indexPage] := by decide
  obtain ⟨r, rfl⟩ := Text.endsWith_iff.1 hslash
  rw [List.append_assoc, List.singleton_append, Path.components_append_slash,
    Path.components_append_slash, Path.components_nil, List.append_nil, hindex]

/-- Without a final slash the name is joined with the last component of the route. -/
theorem components_joined (hslash : route.head? = some '/')
    (hfinal : Text.endsWith route ['/'] = false) :
    ∃ front last, Path.components route = front ++ [last] ∧
      Path.components (route ++ indexPage) = front ++ [last ++ indexPage] := by
  have hmem : '/' ∈ route := List.mem_of_mem_head? hslash
  obtain ⟨a, b, rfl, hb⟩ := Path.exists_last_slash hmem
  have hne : b ≠ [] := by
    rintro rfl
    have hends : Text.endsWith (a ++ ['/']) ['/'] = true :=
      Text.endsWith_iff.2 (List.suffix_append a ['/'])
    rw [hends] at hfinal
    cases hfinal
  have hindex : '/' ∉ b ++ indexPage := by
    simpa [hb] using (by decide : '/' ∉ indexPage)
  refine ⟨Path.components a, b, ?_, ?_⟩
  · rw [Path.components_append_slash, Path.components_of_notMem hne hb]
  · rw [List.append_assoc, List.cons_append, Path.components_append_slash,
      Path.components_of_notMem (by simp [hne]) hindex]

/-! ## What the handler finds -/

def rootPath : Path := ⟨false, [serverRoot], by decide⟩

theorem get_serverRoot : Path.get serverRoot = some rootPath := by decide

theorem fileNames_of_route (hplain : PlainRoute route) (hnul : nul ∉ route) :
    ∃ ns : List FileName, ns.map FileName.text = Path.components route :=
  exists_fileNames (fun _ hn => Path.validName_of_mem_components hnul hn) hplain.components

theorem exists_path {s : Text} (hnul : nul ∉ s) : ∃ p, Path.get (serverRoot ++ s) = some p := by
  have hroot : nul ∉ serverRoot := by decide
  apply Option.ne_none_iff_exists'.1
  intro hnone
  exact (List.mem_append.1 (Path.get_eq_none_iff.1 hnone)).elim hroot hnul

theorem start_of_relative {p : Path} (h : p.absolute = false) : fs.start p = fs.cwd := by
  simp [FileSystem.start, h]

/-- The path of a plain route leads to what is at its place. -/
theorem locate_route {p : Path} {d : Entry} (hplain : PlainRoute route) (hnul : nul ∉ route)
    (hp : Path.get (serverRoot ++ route) = some p) (hd : fs.entry (place fs route) = some d) :
    fs.locate p = some (place fs route) := by
  obtain ⟨habsolute, hnames⟩ := path_of_route hplain.slash hp
  obtain ⟨ns, hns⟩ := fileNames_of_route hplain hnul
  have hspelled : fs.start p ++ p.names = place fs route := by
    rw [start_of_relative habsolute, hnames, place]
  have hspells : p.names = (rootName :: ns).map FileName.text := by
    rw [hnames, ← hns]
    rfl
  rw [← hspelled] at hd ⊢
  exact FileSystem.locate_of_entry hspells hd

theorem names_page (hread : FullyReadable fs) (hplain : PlainRoute route) (hnul : nul ∉ route)
    (h : NamesPage fs route) :
    ∃ p loc, p.toText = urlOf (Path.components route) ∧ Names fs route p loc := by
  obtain ⟨hhtml, content, hfile⟩ := h
  obtain ⟨cs, hroot, hlistable⟩ := hread
  obtain ⟨p, hp⟩ := exists_path hnul
  obtain ⟨habsolute, hnames⟩ := path_of_route hplain.slash hp
  obtain ⟨ns, hns⟩ := fileNames_of_route hplain hnul
  have hbelow : p = rootPath.descend ns := by
    apply FileTree.Path.ext
    · rw [habsolute, Path.descend_absolute]
      rfl
    · rw [hnames, Path.descend_names, hns]
      rfl
  have hstart : fs.locate rootPath = some (fs.cwd ++ [serverRoot]) :=
    FileSystem.locate_of_entry (show rootPath.names = [rootName].map FileName.text from rfl) hroot
  have hplace : place fs route = fs.cwd ++ [serverRoot] ++ ns.map FileName.text := by
    rw [place, hns, List.append_assoc]
    rfl
  have hreaches : fs.Reaches rootPath ns :=
    FileSystem.reaches_of_listable hstart hroot (by simpa [Entry.listable] using hlistable)
      (hplace ▸ hfile)
  refine ⟨p, place fs route, urlOf_toText habsolute hnames, ⟨rootPath, ns, ?_, hbelow, hreaches⟩,
    locate_route hplain hnul hp hfile, content, hfile⟩
  unfold Searches
  rw [if_pos hhtml]
  exact ⟨get_serverRoot, hp⟩

theorem not_html_of_slash (h : Text.endsWith route ['/'] = true) :
    ¬ Text.endsWith route ".html".toList = true :=
  Text.not_endsWith_of_endsWith (c := '/') (d := 'l') h rfl (by decide) (by decide)

theorem not_ico_of_slash (h : Text.endsWith route ['/'] = true) :
    ¬ Text.endsWith route ".ico".toList = true :=
  Text.not_endsWith_of_endsWith (c := '/') (d := 'o') h rfl (by decide) (by decide)

/-- With its final slash the route of a directory leads to its index. -/
theorem get_index {start : Path} (hslash : route.head? = some '/') (hnul : nul ∉ route)
    (hfinal : Text.endsWith route ['/'] = true)
    (hstart : Path.get (serverRoot ++ route) = some start) :
    Path.get (serverRoot ++ route ++ indexPage) = some (start.descend [indexName]) := by
  have hnone : nul ∉ route ++ indexPage := by simpa [hnul] using (by decide : nul ∉ indexPage)
  obtain ⟨p, hp⟩ := exists_path hnone
  obtain ⟨habsolute, hnames⟩ := path_of_route hslash hstart
  obtain ⟨habsolute', hnames'⟩ := path_of_route (by simp [hslash]) hp
  rw [List.append_assoc, hp]
  refine congrArg some (FileTree.Path.ext ?_ ?_)
  · rw [habsolute', Path.descend_absolute, habsolute]
  · rw [hnames', components_index hfinal, Path.descend_names, hnames]
    rfl

/-- Without a final slash it leads nowhere below the directory: the component in which the name of
the index is joined is longer than the one of the directory. -/
theorem not_below_start {start p : Path} (hslash : route.head? = some '/')
    (hfinal : Text.endsWith route ['/'] = false)
    (hstart : Path.get (serverRoot ++ route) = some start)
    (htarget : Path.get (serverRoot ++ (route ++ indexPage)) = some p) (ns : List FileName) :
    p ≠ start.descend ns := by
  intro hbelow
  obtain ⟨front, last, hroute, hjoined⟩ := components_joined hslash hfinal
  have hdescend := congrArg Path.names hbelow
  rw [(path_of_route (by simp [hslash]) htarget).2, Path.descend_names,
    (path_of_route hslash hstart).2, hroute] at hdescend
  have hsame : front ++ [last ++ indexPage] = front ++ [last] ++ ns.map FileName.text := by
    rw [← hjoined]
    exact (List.cons.inj hdescend).2
  rw [List.append_assoc] at hsame
  have hlast := (List.cons.inj (List.append_cancel_left hsame)).1
  exact absurd (List.self_eq_append_right.1 hlast.symm) (by decide)

theorem FullyReadable.listable (hread : FullyReadable fs) {d : Entry}
    (hd : fs.entry (place fs route) = some d) : d.listable := by
  obtain ⟨cs, hroot, hlistable⟩ := hread
  rw [place, ← List.singleton_append, ← List.append_assoc, FileSystem.entry_append, hroot] at hd
  exact Entry.listable_of_get? (by simpa [Entry.listable] using hlistable) hd

theorem names_index (hread : FullyReadable fs) (hplain : PlainRoute route) (hnul : nul ∉ route)
    (hslash : Text.endsWith route ['/'] = true) (h : NamesIndex fs route) :
    ∃ p loc, p.toText = urlOf (Path.components route ++ [indexPage]) ∧ Names fs route p loc := by
  obtain ⟨content, hfile⟩ := h
  obtain ⟨start, hstart⟩ := exists_path hnul
  obtain ⟨habsolute, hnames⟩ := path_of_route hplain.slash hstart
  have hentry := hfile
  rw [FileSystem.entry_append] at hentry
  obtain ⟨d, hd, -⟩ := Option.bind_eq_some_iff.1 hentry
  have hlocate := locate_route hplain hnul hstart hd
  have hreaches : fs.Reaches start [indexName] :=
    FileSystem.reaches_of_listable hlocate hd (hread.listable hd) hfile
  have hfound : d.get? ([indexName].map FileName.text) = some (.file content) := by
    rwa [FileSystem.entry_append, hd] at hfile
  obtain ⟨hloc, hentry⟩ := FileSystem.locate_descend hlocate hd hfound
  refine ⟨start.descend [indexName], _, ?_, ⟨start, [indexName], ?_, rfl, hreaches⟩, hloc,
    content, hentry⟩
  · apply urlOf_toText
    · rw [Path.descend_absolute, habsolute]
    · rw [Path.descend_names, hnames]
      rfl
  · unfold Searches
    rw [if_neg (not_html_of_slash hslash), if_neg (not_ico_of_slash hslash)]
    exact ⟨hstart, get_index hplain.slash hnul hslash hstart⟩

theorem place_of_locate {p : Path} {components : List Text} {loc : Location}
    (hplain : ∀ n ∈ components, n ≠ dot ∧ n ≠ dotdot) (habsolute : p.absolute = false)
    (hnames : p.names = serverRoot :: components) (h : fs.locate p = some loc) :
    loc = fs.cwd ++ serverRoot :: components := by
  have hall : ∀ n ∈ p.names, n ≠ dot ∧ n ≠ dotdot := by
    rw [hnames]
    intro n hn
    rcases List.mem_cons.1 hn with rfl | hn
    · decide
    · exact hplain n hn
  rw [← FileSystem.normalize_of_locate h, FileSystem.normalize_of_plain hall,
    start_of_relative habsolute, hnames]

/-- The handler finds a page, or the index of a directory that is asked for with its final
slash. -/
theorem named_of_names {p : Path} {loc : Location} (hplain : PlainRoute route)
    (h : Names fs route p loc) :
    NamesPage fs route ∨ Text.endsWith route ['/'] = true ∧ NamesIndex fs route := by
  obtain ⟨⟨start, ns, hsearch, hbelow, -⟩, hloc, content, hfile⟩ := h
  unfold Searches at hsearch
  split_ifs at hsearch with hhtml hico
  · obtain ⟨habsolute, hnames⟩ := path_of_route hplain.slash hsearch.2
    have hplace := place_of_locate hplain.components habsolute hnames hloc
    refine Or.inl ⟨hhtml, content, ?_⟩
    rw [place, ← hplace]
    exact hfile
  · obtain ⟨hstart, htarget⟩ := hsearch
    rw [List.append_assoc] at htarget
    obtain ⟨habsolute, hnames⟩ := path_of_route (by simp [hplain.slash]) htarget
    cases hfinal : Text.endsWith route ['/'] with
    | true =>
      have hindex : Path.components (route ++ indexPage) = _ := components_index hfinal
      have hplain' : ∀ n ∈ Path.components route ++ [indexPage], n ≠ dot ∧ n ≠ dotdot := by
        intro n hn
        rcases List.mem_append.1 hn with hn | hn
        · exact hplain.components n hn
        · rw [List.mem_singleton.1 hn]
          decide
      have hplace := place_of_locate hplain' habsolute (hnames.trans (by rw [← hindex]; rfl)) hloc
      refine Or.inr ⟨rfl, content, ?_⟩
      rw [place, List.append_assoc, List.cons_append, ← hplace]
      exact hfile
    | false => exact absurd hbelow (not_below_start hplain.slash hfinal hstart htarget ns)

/-! ## What the handler gives -/

theorem exists_map_ok {x : Except Throwable (Option Path)} :
    (∃ res, x.map resolution = .ok res) ↔ ∃ found, x = .ok found := by
  constructor
  · rintro ⟨res, h⟩
    obtain ⟨found, hx, -⟩ := map_eq_ok h
    exact ⟨found, hx⟩
  · rintro ⟨found, rfl⟩
    exact ⟨resolution found, rfl⟩

/-- The handler gives a result exactly when the route can be part of a path, or no file is compared
with it. -/
theorem handleRequest_ok_iff (hico : ¬ Text.endsWith route ".ico".toList = true) :
    (∃ res, (handleRequest fs serverRoot route).2 = .ok res) ↔
      (nul ∈ route → Text.endsWith route ".html".toList = true ∧ ComesToNoFile fs serverRoot) := by
  have hroot : nul ∉ serverRoot := by decide
  have hindex : nul ∉ "index.html".toList := by decide
  unfold handleRequest
  by_cases hhtml : Text.endsWith route ".html".toList = true
  · rw [if_pos hhtml, exists_map_ok, htmlSearcher_ok_iff]
    simp only [hroot, not_false_eq_true, true_and, hhtml]
  · rw [if_neg hhtml, if_neg hico, exists_map_ok, htmlSearcher_ok_iff]
    constructor
    · rintro ⟨hnul, -⟩ hmem
      exact absurd (List.mem_append_right _ hmem) hnul
    · intro h
      refine ⟨fun hmem => ?_, fun hmem => absurd hmem hindex⟩
      exact hhtml (h ((List.mem_append.1 hmem).resolve_left hroot)).1

/-- The result is that of a search, except for an icon. -/
theorem handleRequest_resolution {res : Resolution}
    (hico : ¬ Text.endsWith route ".ico".toList = true)
    (h : (handleRequest fs serverRoot route).2 = .ok res) : ∃ found, resolution found = res := by
  unfold handleRequest at h
  split_ifs at h
  all_goals
    obtain ⟨found, -, hres⟩ := map_eq_ok h
    exact ⟨found, hres⟩

theorem handleRequest_ico (hico : Text.endsWith route ".ico".toList = true) :
    (handleRequest fs serverRoot route).2 = .ok ⟨none, false⟩ := by
  have hhtml : ¬ Text.endsWith route ".html".toList = true :=
    Text.not_endsWith_of_endsWith (c := 'o') (d := 'l') hico (by decide) (by decide) (by decide)
  rw [handleRequest, if_neg hhtml, if_pos hico]

/-- In a tree where everything can be opened, a plain route gives the page that it names, or the
index of the directory that it names with a final slash; where it names neither it gives the fixed
page. -/
theorem plain_routes (fs : FileSystem) (route : Text) (hread : FullyReadable fs)
    (hplain : PlainRoute route) (hnul : nul ∉ route) :
    (NamesPage fs route → Gives fs route (pageResolution route)) ∧
      (NamesIndex fs route → Text.endsWith route ['/'] = true →
        Gives fs route (indexResolution route)) ∧
      (¬ NamesPage fs route → ¬ Text.endsWith route ".ico".toList = true →
        (NamesIndex fs route → Text.endsWith route ".html".toList = true) →
        Gives fs route notFoundResolution) := by
  refine ⟨fun hpage => ?_, fun hindex hslash => ?_, fun hpage hico hindex => ?_⟩
  · obtain ⟨p, loc, hurl, hnames⟩ := names_page hread hplain hnul hpage
    rw [Gives, handleRequest_of_names hnames, hurl]
    rfl
  · obtain ⟨p, loc, hurl, hnames⟩ := names_index hread hplain hnul hslash hindex
    rw [Gives, handleRequest_of_names hnames, hurl]
    rfl
  · obtain ⟨res, hfound⟩ : ∃ res, (handleRequest fs serverRoot route).2 = .ok res :=
      (handleRequest_ok_iff hico).2 fun hmem => absurd hmem hnul
    obtain ⟨found, rfl⟩ := handleRequest_resolution hico hfound
    cases found with
    | none => exact hfound
    | some q =>
      rcases handleRequest_httpUrl hfound rfl with ⟨h404, -⟩ | ⟨-, p, loc, -, hnames⟩
      · cases h404
      · rcases named_of_names hplain hnames with h | ⟨hslash, h⟩
        · exact absurd h hpage
        · exact absurd (hindex h) (not_html_of_slash hslash)

def docsName : FileName := ⟨"docs".toList, by decide, by decide⟩

/-- The server root holds two directories with an index, and one of them has the name of a page. -/
def directories : FileSystem where
  root :=
    .cons rootName
      (.dir true
        (.cons docsName (.dir true (.cons indexName (.file (some [])) .nil))
          (.cons pageName (.dir true (.cons indexName (.file (some [])) .nil)) .nil))) .nil
  cwd := []
  distinct := by decide

theorem fullyReadable_directories : FullyReadable directories := ⟨_, rfl, by decide⟩

theorem plain_routes_directories :
    Gives directories "/docs/".toList (indexResolution "/docs/".toList) :=
  (plain_routes directories "/docs/".toList fullyReadable_directories ⟨rfl, by decide⟩
    (by decide)).2.1 ⟨some [], rfl⟩ (by decide)

/-! ## Directories by name -/

/-- The name of the directory that a route names. -/
def directoryName (route : Text) : Text := (Path.components route).getLast?.getD serverRoot

/-- The route names a directory with an index, and the name of the directory is not that of a page
or an icon. -/
def Indexed (fs : FileSystem) (route : Text) : Prop :=
  NamesIndex fs route ∧ ¬ Text.endsWith (directoryName route) ".html".toList = true ∧
    ¬ Text.endsWith (directoryName route) ".ico".toList = true

/-- A page gives itself and a directory its index, with or without a final slash, unless its name is
that of a page or an icon; all else but icons gives the fixed page. -/
def RoutesByName (fs : FileSystem) (route : Text) : Prop :=
  (NamesPage fs route → Gives fs route (pageResolution route)) ∧
    (Indexed fs route → Gives fs route (indexResolution route)) ∧
    (¬ NamesPage fs route → ¬ Indexed fs route → ¬ Text.endsWith route ".ico".toList = true →
      Gives fs route notFoundResolution)

/-- A directory with the name of a page gives its index all the same, and one that is asked for
without its final slash gives the fixed page; a route that is no path gives nothing. -/
theorem directories_not_by_name :
    FullyReadable directories ∧
      (PlainRoute "/a.html/".toList ∧ ¬ RoutesByName directories "/a.html/".toList) ∧
      (PlainRoute "/docs".toList ∧ ¬ RoutesByName directories "/docs".toList) ∧
      PlainRoute ['/', nul] ∧ ¬ RoutesByName directories ['/', nul] := by
  refine ⟨fullyReadable_directories, ⟨⟨rfl, by decide⟩, fun h => ?_⟩,
    ⟨⟨rfl, by decide⟩, fun h => ?_⟩, ⟨rfl, by decide⟩, fun h => ?_⟩
  · have hpage : ¬ NamesPage directories "/a.html/".toList :=
      fun hp => absurd hp.1 (by decide)
    have hindexed : ¬ Indexed directories "/a.html/".toList :=
      fun hi => absurd hi.2.1 (by decide)
    have hres := h.2.2 hpage hindexed (by decide)
    unfold Gives at hres
    exact absurd hres (by decide)
  · have hindexed : Indexed directories "/docs".toList :=
      ⟨⟨some [], rfl⟩, by decide, by decide⟩
    have hres := h.2.1 hindexed
    unfold Gives at hres
    exact absurd hres (by decide)
  · have hpage : ¬ NamesPage directories ['/', nul] := fun hp => absurd hp.1 (by decide)
    have hindexed : ¬ Indexed directories ['/', nul] := by
      rintro ⟨⟨content, hfile⟩, -⟩
      cases hfile
    have hres := h.2.2 hpage hindexed (by decide)
    unfold Gives at hres
    exact absurd hres (by decide)

end RequestHandler
