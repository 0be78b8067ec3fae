import PaWebServer.RequestHandlerProof

/-!
# Searching against looking up

`htmlSearcher` walks a directory to find one file whose path it knows.  A lookup of that path would
give the same, but for three things that the walk can meet: a directory that cannot be opened, which
ends the walk wherever the file is; a path whose text is not the one the walk makes; and a text that
is no path (`search_eq_lookup_iff`).
-/

namespace RequestHandler

open FileTree

variable {fs : FileSystem} {root name : Text}

/-! ## How a search ends -/

theorem visitFile_throw_iff {file : Path} :
    visitFile root name file = .throw ↔ Path.get (root ++ name) = none := by
  unfold visitFile
  split
  · simp [*]
  · split_ifs <;> simp [*]

/-- A search throws when the text it looks for is no path and the walk has come to a file. -/
theorem htmlSearcher_throws {start : Path} {ns : List FileName} {loc : Location}
    (hstart : Path.get root = some start) (hname : Path.get (root ++ name) = none)
    (hreaches : fs.Reaches start ns) (hfile : fs.IsFile (start.descend ns) loc) :
    (htmlSearcher fs root name).2 = .error .unchecked := by
  have hv : ∀ f, visitFile root name f = .throw := fun f => visitFile_throw_iff.2 hname
  have hstop : (fs.walkFileTree start (visitFile root name)).outcome.stopped :=
    FileSystem.walkFileTree_stops hreaches hfile (by simp [hv])
  obtain ⟨ms, -, hms, -, -⟩ := FileSystem.stopped_walkFileTree hstop
  rw [hv] at hms
  unfold htmlSearcher
  simp only [hstart, ← Option.some.inj hms]

/-- A search that throws looks for a text that is no path, or starts at one, and in the first case
the walk has come to a file. -/
theorem htmlSearcher_error {e : Throwable} (h : (htmlSearcher fs root name).2 = .error e) :
    Path.get root = none ∨
      Path.get (root ++ name) = none ∧ ∃ start ns loc, Path.get root = some start ∧
        fs.Reaches start ns ∧ fs.IsFile (start.descend ns) loc := by
  unfold htmlSearcher at h
  split at h
  · exact Or.inl ‹_›
  · rename_i start hstart
    refine Or.inr ?_
    simp only at h
    split at h
    · cases h
    · cases h
    · rename_i hthrown
      obtain ⟨ns, loc, hv, hreaches, hfile⟩ := FileSystem.stopped_walkFileTree
        (show (fs.walkFileTree start (visitFile root name)).outcome.stopped by rw [hthrown]; rfl)
      rw [hthrown] at hv
      refine ⟨?_, start, ns, loc, hstart, hreaches, hfile⟩
      apply visitFile_throw_iff.1
      cases hvisit : visitFile root name (start.descend ns) with
      | throw => rfl
      | continue_ | terminate => simp [hvisit, Visit.outcome] at hv
    · cases h

/-- The walk from the root comes to no file: it has none, or a directory that cannot be opened is
in the way. -/
def ComesToNoFile (fs : FileSystem) (root : Text) : Prop :=
  ∀ start ns loc, Path.get root = some start → fs.Reaches start ns →
    ¬ fs.IsFile (start.descend ns) loc

/-- A search gives a result exactly when its root is a path, and its name can be part of one or the
walk comes to no file. -/
theorem htmlSearcher_ok_iff :
    (∃ found, (htmlSearcher fs root name).2 = .ok found) ↔
      nul ∉ root ∧ (nul ∈ name → ComesToNoFile fs root) := by
  constructor
  · rintro ⟨found, hfound⟩
    have hroot : nul ∉ root := by
      intro hnul
      simp [htmlSearcher, Path.get_eq_none_iff.2 hnul] at hfound
    refine ⟨hroot, fun hnul start ns loc hstart hreaches hfile => ?_⟩
    have hname := Path.get_eq_none_iff.2 (List.mem_append_right root hnul)
    rw [htmlSearcher_throws hstart hname hreaches hfile] at hfound
    cases hfound
  · rintro ⟨hroot, hname⟩
    cases hres : (htmlSearcher fs root name).2 with
    | ok found => exact ⟨found, rfl⟩
    | error e =>
      rcases htmlSearcher_error hres with hnone | ⟨hnone, start, ns, loc, hstart, hreaches, hfile⟩
      · exact absurd (Path.get_eq_none_iff.1 hnone) hroot
      · have hmem := Path.get_eq_none_iff.1 hnone
        have hnul := (List.mem_append.1 hmem).resolve_left hroot
        exact absurd hfile (hname hnul start ns loc hstart hreaches)

/-! ## The lookup -/

/-- The text of the root followed by the name is the path `p` of a file, and the file is below the
directory at the root, which can be opened. -/
def LooksUp (fs : FileSystem) (root name : Text) (p : Path) : Prop :=
  Path.get (root ++ name) = some p ∧ ∃ start at_ cs loc, Path.get root = some start ∧
    fs.locate start = some at_ ∧ fs.entry at_ = some (.dir true cs) ∧ fs.IsFile p loc ∧ at_ <+: loc

/-- The search gives the path that a lookup gives, and null when a lookup gives none. -/
def SearchIsLookup (fs : FileSystem) (root name : Text) : Prop :=
  (∀ p, LooksUp fs root name p → (htmlSearcher fs root name).2 = .ok (some p)) ∧
    ((¬ ∃ p, LooksUp fs root name p) → (htmlSearcher fs root name).2 = .ok none)

/-- Nothing comes between the search and the file. -/
structure Unhindered (fs : FileSystem) (root name : Text) : Prop where
  rootIsPath : nul ∉ root
  /-- The name can be part of a path, or the walk comes to no file. -/
  nameIsPath : nul ∈ name → ComesToNoFile fs root
  /-- The path of the file leads down from the root, and the directories that the walk comes to
  before the file can be opened, and the attributes of their entries read. -/
  reached : ∀ p, LooksUp fs root name p →
    ∃ start ns, Path.get root = some start ∧ p = start.descend ns ∧ fs.Reaches start ns
  /-- The root is not itself the file. -/
  notStart : ∀ start loc, Path.get root = some start → Path.get (root ++ name) = some start →
    ¬ fs.IsFile start loc

/-- What the walk comes to below its start is below the directory there. -/
theorem looksUp_of_reaches {start : Path} {n : FileName} {ns : List FileName} {loc : Location}
    (hstart : Path.get root = some start)
    (htarget : Path.get (root ++ name) = some (start.descend (n :: ns)))
    (hreaches : fs.Reaches start (n :: ns)) (hfile : fs.IsFile (start.descend (n :: ns)) loc) :
    LooksUp fs root name (start.descend (n :: ns)) := by
  obtain ⟨e, he, hclear⟩ := hreaches
  obtain ⟨at_, hat, hentry⟩ := Option.bind_eq_some_iff.1 he
  obtain ⟨d, hd⟩ := e.get?_of_clear _ hclear
  have hbelow := (FileSystem.locate_descend hat hentry hd).1
  obtain rfl := Option.some.inj (hbelow.symm.trans hfile.1)
  cases e with
  | file content => cases hclear
  | dir listable cs =>
    obtain ⟨rfl, -⟩ := Bool.and_eq_true_iff.1 hclear
    exact ⟨htarget, start, at_, cs, _, hstart, hat, hentry, hfile, List.prefix_append _ _⟩

theorem searchIsLookup_of_unhindered (h : Unhindered fs root name) :
    SearchIsLookup fs root name := by
  constructor
  · intro p hp
    obtain ⟨start, ns, hstart, rfl, hreaches⟩ := h.reached p hp
    obtain ⟨htarget, -, -, -, loc, -, -, -, hfile, -⟩ := hp
    exact htmlSearcher_of_reaches hstart htarget hreaches hfile
  · intro hno
    obtain ⟨found, hres⟩ := htmlSearcher_ok_iff.2 ⟨h.rootIsPath, h.nameIsPath⟩
    cases found with
    | none => exact hres
    | some p =>
      obtain ⟨htarget, ⟨loc, hfile⟩, start, ns, hstart, rfl, hreaches⟩ := htmlSearcher_found hres
      cases ns with
      | nil => exact absurd hfile (h.notStart start loc hstart htarget)
      | cons n ns => exact absurd ⟨_, looksUp_of_reaches hstart htarget hreaches hfile⟩ hno

theorem SearchIsLookup.exists_ok (h : SearchIsLookup fs root name) :
    ∃ found, (htmlSearcher fs root name).2 = .ok found := by
  by_cases hp : ∃ p, LooksUp fs root name p
  · obtain ⟨p, hp⟩ := hp
    exact ⟨_, h.1 p hp⟩
  · exact ⟨_, h.2 hp⟩

theorem unhindered_of_searchIsLookup (h : SearchIsLookup fs root name) :
    Unhindered fs root name where
  rootIsPath := (htmlSearcher_ok_iff.1 h.exists_ok).1
  nameIsPath := (htmlSearcher_ok_iff.1 h.exists_ok).2
  reached p hp := by
    obtain ⟨-, -, start, ns, hstart, hns, hreaches⟩ := htmlSearcher_found (h.1 p hp)
    exact ⟨start, ns, hstart, hns, hreaches⟩
  notStart start loc hstart htarget hfile := by
    have hreaches : fs.Reaches start [] := by
      obtain ⟨hloc, content, hcontent⟩ := hfile
      exact ⟨.file content, by simp [FileSystem.entryAt, hloc, hcontent], rfl⟩
    -- The start is a file, and not the directory that the lookup asks for.
    have hno : ¬ ∃ p, LooksUp fs root name p := by
      rintro ⟨p, -, start', at_, cs, -, hstart', hat, hdir, -⟩
      obtain rfl := Option.some.inj (hstart.symm.trans hstart')
      obtain ⟨hloc, content, hcontent⟩ := hfile
      obtain rfl := Option.some.inj (hloc.symm.trans hat)
      simp [hcontent] at hdir
    have hnone := h.2 hno
    have hfound : (htmlSearcher fs root name).2 = .ok (some start) :=
      @htmlSearcher_of_reaches fs root name start [] loc hstart htarget hreaches hfile
    rw [hfound] at hnone
    cases hnone

/-- The search agrees with a lookup exactly where nothing hinders it; and in two file systems in
which a lookup gives the same, whatever else they hold and in whatever order, two searches that
nothing hinders give the same. -/
theorem search_eq_lookup_iff (fs : FileSystem) (root name : Text) :
    (SearchIsLookup fs root name ↔ Unhindered fs root name) ∧
      ∀ fs' : FileSystem, Unhindered fs root name → Unhindered fs' root name →
        (∀ p, LooksUp fs root name p ↔ LooksUp fs' root name p) →
        (htmlSearcher fs root name).2 = (htmlSearcher fs' root name).2 := by
  refine ⟨⟨unhindered_of_searchIsLookup, searchIsLookup_of_unhindered⟩, ?_⟩
  intro fs' h h' hsame
  have hsearch := searchIsLookup_of_unhindered h
  have hsearch' := searchIsLookup_of_unhindered h'
  by_cases hp : ∃ p, LooksUp fs root name p
  · obtain ⟨p, hp⟩ := hp
    rw [hsearch.1 p hp, hsearch'.1 p ((hsame p).1 hp)]
  · have hp' : ¬ ∃ p, LooksUp fs' root name p := fun ⟨p, hp'⟩ => hp ⟨p, (hsame p).2 hp'⟩
    rw [hsearch.2 hp, hsearch'.2 hp']

def lockedName : FileName := ⟨"locked".toList, by decide, by decide⟩

def pageName : FileName := ⟨"a.html".toList, by decide, by decide⟩

/-- The server root with a page and a directory that cannot be opened, which it lists first. -/
def lockedFirst : FileSystem where
  root :=
    .cons rootName
      (.dir true (.cons lockedName (.dir false .nil) (.cons pageName (.file (some [])) .nil))) .nil
  cwd := []
  distinct := by decide

/-- The same, listed in the other order. -/
def pageFirst : FileSystem where
  root :=
    .cons rootName
      (.dir true (.cons pageName (.file (some [])) (.cons lockedName (.dir false .nil) .nil))) .nil
  cwd := []
  distinct := by decide

/-- A directory beside the page that cannot be opened hides the page when it is listed first. -/
theorem locked_sibling_hides_page :
    ¬ SearchIsLookup lockedFirst serverRoot "/a.html".toList ∧
      (htmlSearcher lockedFirst serverRoot "/a.html".toList).2 = .ok none ∧
      ∃ p, LooksUp lockedFirst serverRoot "/a.html".toList p ∧
        (htmlSearcher pageFirst serverRoot "/a.html".toList).2 = .ok (some p) := by
  have hlost : (htmlSearcher lockedFirst serverRoot "/a.html".toList).2 = .ok none := by decide
  let p : Path := ⟨false, [serverRoot, pageName.text], by decide⟩
  have hp : LooksUp lockedFirst serverRoot "/a.html".toList p := by
    refine ⟨by decide, ⟨false, [serverRoot], by decide⟩, [serverRoot], _,
      [serverRoot, pageName.text], by decide, by decide, rfl, ⟨by decide, some [], rfl⟩, ?_⟩
    exact List.prefix_append [serverRoot] [pageName.text]
  refine ⟨fun h => ?_, hlost, p, hp, by decide⟩
  have hfound := h.1 p hp
  rw [hlost] at hfound
  cases hfound

end RequestHandler
