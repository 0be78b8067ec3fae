import PaWebServer.Lib.Path

/-!
# File trees

A file system is a tree of directories and files, without links.  `locate` follows a path in it
component by component, `normalize` resolves `.` and `..` in the path alone, and `walkFileTree` is
the depth-first walk of `java.nio.file.Files`, with the list of the directories that it opens.
-/

namespace FileTree

/-! ## The tree -/

mutual

/-- A file has its content, or `none` when it cannot be read.  A directory has its entries, in the
order in which it lists them; it is not `listable` when it cannot be opened, or when it can be
opened but the attributes of its entries cannot be read (mode `r--`). -/
inductive Entry where
  | file (content : Option Bytes)
  | dir (listable : Bool) (children : Children)

inductive Children where
  | nil
  | cons (name : FileName) (entry : Entry) (rest : Children)

end

def Children.find? (n : Text) : Children → Option Entry
  | .nil => none
  | .cons m e rest => if m.text = n then some e else rest.find? n

/-- The entry at a place below `e`. -/
def Entry.get? : Entry → List Text → Option Entry
  | e, [] => some e
  | .file _, _ :: _ => none
  | .dir _ cs, n :: ns => (cs.find? n).bind fun e => e.get? ns

mutual

/-- No directory has two entries of one name. -/
def Entry.distinct : Entry → Bool
  | .file _ => true
  | .dir _ cs => cs.distinct

def Children.distinct : Children → Bool
  | .nil => true
  | .cons n e rest => (rest.find? n.text).isNone && e.distinct && rest.distinct

end

/-- A place in the tree: the names from the root down to it. -/
abbrev Location := List Text

/-- The tree from its root, and the working directory of the process. -/
structure FileSystem where
  root : Children
  cwd : Location
  distinct : root.distinct

namespace FileSystem

variable (fs : FileSystem)

def entry (loc : Location) : Option Entry := (Entry.dir true fs.root).get? loc

/-- Where a path starts. -/
def start (p : Path) : Location := if p.absolute then [] else fs.cwd

/-- The place that a component names in the directory `loc`. -/
def enter (loc : Location) (n : Text) : Option Location :=
  match fs.entry loc with
  | some (.dir _ cs) =>
    if n = dot then some loc
    else if n = dotdot then some loc.dropLast
    else (cs.find? n).map fun _ => loc ++ [n]
  | _ => none

/-- The place that the path names, when there is one. -/
def locate (p : Path) : Option Location := p.names.foldlM fs.enter (fs.start p)

/-- What `.` and `..` and a name do to a place, whatever there is in the tree. -/
def move (loc : Location) (n : Text) : Location :=
  if n = dot then loc else if n = dotdot then loc.dropLast else loc ++ [n]

/-- The place that the path names after its `.` and `..` are resolved. -/
def normalize (p : Path) : Location := p.names.foldl move (fs.start p)

/-- What there is at the path. -/
def entryAt (p : Path) : Option Entry := (fs.locate p).bind fs.entry

/-- The path names a file, and it is at the place `loc`. -/
def IsFile (p : Path) (loc : Location) : Prop :=
  fs.locate p = some loc ∧ ∃ content, fs.entry loc = some (.file content)

/-- `Files.readAllBytes`; `none` is its IOException. -/
def readAllBytes (p : Path) : Option Bytes :=
  match fs.entryAt p with
  | some (.file content) => content
  | _ => none

end FileSystem

theorem Entry.get?_append (e : Entry) (ns ms : List Text) :
    e.get? (ns ++ ms) = (e.get? ns).bind fun d => d.get? ms := by
  induction ns generalizing e with
  | nil => simp [Entry.get?]
  | cons n ns ih =>
    cases e with
    | file content => rfl
    | dir listable cs =>
      cases hn : cs.find? n with
      | none => simp [Entry.get?, hn]
      | some d => simpa [Entry.get?, hn] using ih d

theorem Children.distinct_cons {n : FileName} {e : Entry} {rest : Children}
    (h : (Children.cons n e rest).distinct) :
    rest.find? n.text = none ∧ e.distinct ∧ rest.distinct := by
  simpa [Children.distinct, and_assoc] using h

theorem Children.distinct_of_find? {cs : Children} {n : Text} {e : Entry} (h : cs.distinct)
    (he : cs.find? n = some e) : e.distinct := by
  match cs with
  | .nil => cases he
  | .cons m d rest =>
    obtain ⟨-, hd, hrest⟩ := Children.distinct_cons h
    unfold Children.find? at he
    split_ifs at he
    · exact Option.some.inj he ▸ hd
    · exact distinct_of_find? hrest he

theorem Entry.distinct_of_get? {e d : Entry} {ns : List Text} (h : e.distinct)
    (hd : e.get? ns = some d) : d.distinct := by
  induction ns generalizing e with
  | nil => exact Option.some.inj hd ▸ h
  | cons n ns ih =>
    cases e with
    | file content => cases hd
    | dir listable cs =>
      obtain ⟨c, hc, hrest⟩ := Option.bind_eq_some_iff.1 hd
      exact ih (Children.distinct_of_find? h hc) hrest

namespace FileSystem

variable {fs : FileSystem} {p : Path}

theorem start_descend (p : Path) (ns : List FileName) : fs.start (p.descend ns) = fs.start p := by
  simp [start, p.descend_absolute]

/-- Names that are neither `.` nor `..` lead further down. -/
theorem foldl_move_of_plain {ns : List Text} (h : ∀ n ∈ ns, n ≠ dot ∧ n ≠ dotdot)
    (loc : Location) : ns.foldl move loc = loc ++ ns := by
  induction ns generalizing loc with
  | nil => simp
  | cons n ns ih =>
    obtain ⟨hdot, hdotdot⟩ := h n List.mem_cons_self
    rw [List.foldl_cons, ih fun m hm => h m (List.mem_cons_of_mem _ hm)]
    simp [move, hdot, hdotdot]

/-- A path without `.` and `..` names the place that it spells. -/
theorem normalize_of_plain (h : ∀ n ∈ p.names, n ≠ dot ∧ n ≠ dotdot) :
    fs.normalize p = fs.start p ++ p.names :=
  foldl_move_of_plain h _

/-- Below a directory there is neither `.` nor `..`. -/
theorem normalize_descend (p : Path) (ns : List FileName) :
    fs.normalize (p.descend ns) = fs.normalize p ++ ns.map FileName.text := by
  have hplain : ∀ n ∈ ns.map FileName.text, n ≠ dot ∧ n ≠ dotdot := by
    intro n hn
    obtain ⟨m, -, rfl⟩ := List.mem_map.1 hn
    exact m.real
  unfold normalize
  rw [p.descend_names, start_descend, List.foldl_append, foldl_move_of_plain hplain]

theorem enter_eq_move {loc loc' : Location} {n : Text} (h : fs.enter loc n = some loc') :
    loc' = move loc n := by
  unfold enter at h
  unfold move
  split at h
  · split_ifs at h ⊢
    · exact (Option.some.inj h).symm
    · exact (Option.some.inj h).symm
    · obtain ⟨e, -, rfl⟩ := Option.map_eq_some_iff.1 h
      rfl
  · cases h

theorem foldl_move_of_foldlM_enter {loc loc' : Location} {ns : List Text}
    (h : ns.foldlM fs.enter loc = some loc') : ns.foldl move loc = loc' := by
  induction ns generalizing loc with
  | nil => exact Option.some.inj h
  | cons n ns ih =>
    rw [List.foldlM_cons] at h
    obtain ⟨next, hnext, hrest⟩ := Option.bind_eq_some_iff.1 h
    rw [List.foldl_cons, ← enter_eq_move hnext]
    exact ih hrest

/-- Without links a path that names something names its normal form. -/
theorem normalize_of_locate {loc : Location} (h : fs.locate p = some loc) :
    fs.normalize p = loc :=
  foldl_move_of_foldlM_enter h

theorem foldlM_enter_names {loc : Location} {e d : Entry} {ns : List FileName}
    (he : fs.entry loc = some e) (hd : e.get? (ns.map FileName.text) = some d) :
    (ns.map FileName.text).foldlM fs.enter loc = some (loc ++ ns.map FileName.text) := by
  induction ns generalizing loc e with
  | nil => simp
  | cons n ns ih =>
    cases e with
    | file content => cases hd
    | dir listable cs =>
      obtain ⟨c, hc, hrest⟩ := Option.bind_eq_some_iff.1 hd
      have henter : fs.enter loc n.text = some (loc ++ [n.text]) := by
        simp [enter, he, n.real.1, n.real.2, hc]
      have hentry : fs.entry (loc ++ [n.text]) = some c := by
        unfold entry at he ⊢
        simp [Entry.get?_append, he, Entry.get?, hc]
      rw [List.map_cons, List.foldlM_cons, henter, Option.bind_eq_bind, Option.bind_some,
        ih hentry hrest, List.append_assoc, List.singleton_append]

theorem locate_descend {loc : Location} {e d : Entry} {ns : List FileName}
    (h : fs.locate p = some loc) (he : fs.entry loc = some e)
    (hd : e.get? (ns.map FileName.text) = some d) :
    fs.locate (p.descend ns) = some (loc ++ ns.map FileName.text) ∧
      fs.entry (loc ++ ns.map FileName.text) = some d := by
  constructor
  · unfold locate at h ⊢
    rw [p.descend_names, start_descend, List.foldlM_append, h]
    exact foldlM_enter_names he hd
  · unfold entry at he ⊢
    rw [Entry.get?_append, he]
    exact hd

theorem entry_append (loc ms : Location) :
    fs.entry (loc ++ ms) = (fs.entry loc).bind fun e => e.get? ms :=
  Entry.get?_append _ loc ms

/-- A path without `.` and `..` leads to what is at the place that it spells. -/
theorem locate_of_entry {ns : List FileName} {d : Entry} (hp : p.names = ns.map FileName.text)
    (hd : fs.entry (fs.start p ++ p.names) = some d) :
    fs.locate p = some (fs.start p ++ p.names) := by
  rw [entry_append] at hd
  obtain ⟨e, he, hget⟩ := Option.bind_eq_some_iff.1 hd
  rw [hp] at hget
  rw [locate, hp]
  exact foldlM_enter_names he hget

end FileSystem

/-! ## Walks -/

/-- How a visitor's `visitFile` ends. -/
inductive Visit where
  | continue_
  | terminate
  | throw
  deriving DecidableEq

/-- How a walk ends: all has been visited, the visitor has stopped it at a file, the visitor has
thrown an unchecked exception, or `visitFileFailed` has thrown the IOException of a directory that
could not be opened or of a start that does not exist. -/
inductive Outcome where
  | finished
  | terminated (file : Path)
  | unchecked
  | ioException
  deriving DecidableEq

structure Walk where
  opened : List Path
  outcome : Outcome

/-- A walk goes on with `next` when it has not been stopped. -/
def Walk.andThen (w next : Walk) : Walk :=
  match w.outcome with
  | .finished => ⟨w.opened ++ next.opened, next.outcome⟩
  | _ => w

mutual

def Entry.walk (visitFile : Path → Visit) (p : Path) : Entry → Walk
  | .file _ =>
    match visitFile p with
    | .continue_ => ⟨[], .finished⟩
    | .terminate => ⟨[], .terminated p⟩
    | .throw => ⟨[], .unchecked⟩
  | .dir false _ => ⟨[], .ioException⟩
  | .dir true cs => Walk.andThen ⟨[p], .finished⟩ (cs.walk visitFile p)

def Children.walk (visitFile : Path → Visit) (p : Path) : Children → Walk
  | .nil => ⟨[], .finished⟩
  | .cons n e rest => (e.walk visitFile (p.resolve n)).andThen (rest.walk visitFile p)

end

/-- `Files.walkFileTree(start, visitor)`. -/
def FileSystem.walkFileTree (fs : FileSystem) (start : Path) (visitFile : Path → Visit) : Walk :=
  match fs.entryAt start with
  | none => ⟨[], .ioException⟩
  | some e => e.walk visitFile start

theorem Walk.mem_andThen {w next : Walk} {d : Path} (h : d ∈ (w.andThen next).opened) :
    d ∈ w.opened ∨ d ∈ next.opened := by
  unfold andThen at h
  split at h
  · exact List.mem_append.1 h
  · exact Or.inl h

theorem Walk.andThen_cases (w next : Walk) :
    w.outcome = .finished ∧ (w.andThen next).outcome = next.outcome ∨
      w.outcome ≠ .finished ∧ (w.andThen next).outcome = w.outcome := by
  unfold andThen
  split
  · exact Or.inl ⟨‹_›, rfl⟩
  · exact Or.inr ⟨‹_›, rfl⟩

theorem Walk.andThen_of_finished {w next : Walk} (h : w.outcome = .finished) :
    (w.andThen next).outcome = next.outcome := by
  simp [andThen, h]

theorem Walk.andThen_finished {w next : Walk} (h : (w.andThen next).outcome = .finished) :
    w.outcome = .finished ∧ next.outcome = .finished := by
  rcases w.andThen_cases next with ⟨hw, heq⟩ | ⟨hw, heq⟩
  · exact ⟨hw, heq ▸ h⟩
  · exact absurd (heq ▸ h) hw

/-- The visitor has stopped the walk. -/
def Outcome.stopped : Outcome → Bool
  | .terminated _ | .unchecked => true
  | .finished | .ioException => false

/-- How a walk ends that the visitor stops at the file `q`. -/
def Visit.outcome (v : Visit) (q : Path) : Option Outcome :=
  match v with
  | .continue_ => none
  | .terminate => some (.terminated q)
  | .throw => some .unchecked

variable {visitFile : Path → Visit} {d q : Path}

mutual

/-- A walk opens directories at and below its start only. -/
theorem Entry.mem_walk (e : Entry) (p : Path) (h : d ∈ (e.walk visitFile p).opened) :
    ∃ ns, d = p.descend ns := by
  match e with
  | .file _ =>
    unfold Entry.walk at h
    split at h <;> cases h
  | .dir false _ => cases h
  | .dir true cs =>
    rcases Walk.mem_andThen h with h | h
    · exact ⟨[], List.mem_singleton.1 h⟩
    · exact cs.mem_walk p h

theorem Children.mem_walk (cs : Children) (p : Path) (h : d ∈ (cs.walk visitFile p).opened) :
    ∃ ns, d = p.descend ns := by
  match cs with
  | .nil => cases h
  | .cons n e rest =>
    rcases Walk.mem_andThen h with h | h
    · obtain ⟨ns, rfl⟩ := e.mem_walk (p.resolve n) h
      exact ⟨n :: ns, rfl⟩
    · exact rest.mem_walk p h

end

mutual

/-- Every directory in the tree can be opened. -/
def Entry.listable : Entry → Bool
  | .file _ => true
  | .dir listable cs => listable && cs.listable

def Children.listable : Children → Bool
  | .nil => true
  | .cons _ e rest => e.listable && rest.listable

end

mutual

/-- All directories that come before the place `ns` in depth-first order can be opened, and so can
those that it is in. -/
def Entry.clear : Entry → List Text → Bool
  | _, [] => true
  | .file _, _ :: _ => false
  | .dir listable cs, n :: ns => listable && cs.clear n ns

def Children.clear : Children → Text → List Text → Bool
  | .nil, _, _ => false
  | .cons m e rest, n, ns => if m.text = n then e.clear ns else e.listable && rest.clear n ns

end

mutual

theorem Entry.get?_of_clear (e : Entry) (ns : List Text) (h : e.clear ns) :
    ∃ d, e.get? ns = some d := by
  match e, ns with
  | e, [] => exact ⟨e, rfl⟩
  | .file _, _ :: _ => cases h
  | .dir _ cs, n :: ns =>
    obtain ⟨-, hcs⟩ := Bool.and_eq_true_iff.1 h
    obtain ⟨e, d, hn, hd⟩ := cs.get?_of_clear n ns hcs
    exact ⟨d, by simp [Entry.get?, hn, hd]⟩

theorem Children.get?_of_clear (cs : Children) (n : Text) (ns : List Text) (h : cs.clear n ns) :
    ∃ e d, cs.find? n = some e ∧ e.get? ns = some d := by
  match cs with
  | .nil => cases h
  | .cons m e rest =>
    unfold Children.clear at h
    unfold Children.find?
    split_ifs at h ⊢
    · obtain ⟨d, hd⟩ := e.get?_of_clear ns h
      exact ⟨e, d, rfl, hd⟩
    · exact rest.get?_of_clear n ns (Bool.and_eq_true_iff.1 h).2

end

mutual

/-- Where everything can be opened, nothing is in the way of what is there. -/
theorem Entry.clear_of_listable (e : Entry) (ns : List Text) {d : Entry} (hl : e.listable)
    (h : e.get? ns = some d) : e.clear ns := by
  match e, ns with
  | _, [] => simp [Entry.clear]
  | .file _, _ :: _ => cases h
  | .dir _ cs, n :: ns =>
    obtain ⟨hlistable, hcs⟩ := Bool.and_eq_true_iff.1 hl
    obtain ⟨c, hc, hd⟩ := Option.bind_eq_some_iff.1 h
    exact Bool.and_eq_true_iff.2 ⟨hlistable, cs.clear_of_listable n ns hcs hc hd⟩

theorem Children.clear_of_listable (cs : Children) (n : Text) (ns : List Text) {c d : Entry}
    (hl : cs.listable) (hc : cs.find? n = some c) (hd : c.get? ns = some d) : cs.clear n ns := by
  match cs with
  | .nil => cases hc
  | .cons m e rest =>
    obtain ⟨he, hrest⟩ := Bool.and_eq_true_iff.1 hl
    unfold Children.find? at hc
    unfold Children.clear
    split_ifs at hc ⊢ with hm
    · obtain rfl := Option.some.inj hc
      exact e.clear_of_listable ns he hd
    · exact Bool.and_eq_true_iff.2 ⟨he, rest.clear_of_listable n ns hrest hc hd⟩

end

theorem Children.listable_of_find? {cs : Children} {n : Text} {e : Entry} (h : cs.listable)
    (he : cs.find? n = some e) : e.listable := by
  match cs with
  | .nil => cases he
  | .cons m d rest =>
    obtain ⟨hd, hrest⟩ := Bool.and_eq_true_iff.1 h
    unfold Children.find? at he
    split_ifs at he
    · exact Option.some.inj he ▸ hd
    · exact listable_of_find? hrest he

theorem Entry.listable_of_get? {e d : Entry} {ns : List Text} (h : e.listable)
    (hd : e.get? ns = some d) : d.listable := by
  induction ns generalizing e with
  | nil => exact Option.some.inj hd ▸ h
  | cons n ns ih =>
    cases e with
    | file content => cases hd
    | dir listable cs =>
      obtain ⟨c, hc, hrest⟩ := Option.bind_eq_some_iff.1 hd
      exact ih (Children.listable_of_find? (Bool.and_eq_true_iff.1 h).2 hc) hrest

mutual

/-- A walk that visits everything has opened everything. -/
theorem Entry.listable_of_finished (e : Entry) (p : Path)
    (h : (e.walk visitFile p).outcome = .finished) : e.listable := by
  match e with
  | .file _ => rfl
  | .dir false _ => cases h
  | .dir true cs => exact cs.listable_of_finished p (Walk.andThen_finished h).2

theorem Children.listable_of_finished (cs : Children) (p : Path)
    (h : (cs.walk visitFile p).outcome = .finished) : cs.listable := by
  match cs with
  | .nil => rfl
  | .cons n e rest =>
    obtain ⟨he, hrest⟩ := Walk.andThen_finished h
    simp [Children.listable, e.listable_of_finished _ he, rest.listable_of_finished p hrest]

end

mutual

/-- A walk fails only at a directory that cannot be opened. -/
theorem Entry.not_ioException_of_listable (e : Entry) (p : Path) (hl : e.listable) :
    (e.walk visitFile p).outcome ≠ .ioException := by
  match e with
  | .file _ =>
    unfold Entry.walk
    split <;> simp
  | .dir false _ => cases hl
  | .dir true cs =>
    rw [Entry.walk, Walk.andThen_of_finished rfl]
    exact cs.not_ioException_of_listable p hl

theorem Children.not_ioException_of_listable (cs : Children) (p : Path) (hl : cs.listable) :
    (cs.walk visitFile p).outcome ≠ .ioException := by
  match cs with
  | .nil => simp [Children.walk]
  | .cons n e rest =>
    obtain ⟨he, hrest⟩ := Bool.and_eq_true_iff.1 hl
    rw [Children.walk]
    rcases Walk.andThen_cases (e.walk visitFile (p.resolve n)) (rest.walk visitFile p) with
      ⟨-, heq⟩ | ⟨-, heq⟩ <;> rw [heq]
    · exact rest.not_ioException_of_listable p hrest
    · exact e.not_ioException_of_listable _ he

end

mutual

/-- The file at which the visitor has stopped a walk is there, and the walk has come to it. -/
theorem Entry.stopped_walk (e : Entry) (p : Path) (hd : e.distinct)
    (h : (e.walk visitFile p).outcome.stopped) :
    ∃ (ns : List FileName) (c : Option Bytes),
      (visitFile (p.descend ns)).outcome (p.descend ns) = some (e.walk visitFile p).outcome ∧
        e.get? (ns.map FileName.text) = some (.file c) ∧ e.clear (ns.map FileName.text) := by
  match e with
  | .file c =>
    refine ⟨[], c, ?_, rfl, rfl⟩
    show (visitFile p).outcome p = _
    unfold Entry.walk at h ⊢
    cases hv : visitFile p with
    | continue_ => simp [hv, Outcome.stopped] at h
    | terminate | throw => rfl
  | .dir false _ => cases h
  | .dir true cs =>
    rw [Entry.walk, Walk.andThen_of_finished rfl] at h ⊢
    obtain ⟨n, ns, d, c, hv, hn, hc, hclear⟩ := cs.stopped_walk p hd h
    exact ⟨n :: ns, c, hv, by simpa [Entry.get?, hn] using hc, hclear⟩

theorem Children.stopped_walk (cs : Children) (p : Path) (hd : cs.distinct)
    (h : (cs.walk visitFile p).outcome.stopped) :
    ∃ (n : FileName) (ns : List FileName) (d : Entry) (c : Option Bytes),
      (visitFile (p.descend (n :: ns))).outcome (p.descend (n :: ns)) =
          some (cs.walk visitFile p).outcome ∧
        cs.find? n.text = some d ∧ d.get? (ns.map FileName.text) = some (.file c) ∧
          cs.clear n.text (ns.map FileName.text) := by
  match cs with
  | .nil => cases h
  | .cons m e rest =>
    obtain ⟨hm, he, hrest⟩ := Children.distinct_cons hd
    rw [Children.walk] at h ⊢
    rcases Walk.andThen_cases (e.walk visitFile (p.resolve m)) (rest.walk visitFile p) with
      ⟨hfinished, heq⟩ | ⟨-, heq⟩
    · rw [heq] at h ⊢
      obtain ⟨n, ns, d, c, hv, hn, hc, hclear⟩ := rest.stopped_walk p hrest h
      have hne : m.text ≠ n.text := by
        intro hmn
        rw [hmn, hn] at hm
        cases hm
      have hlistable := e.listable_of_finished (p.resolve m) hfinished
      exact ⟨n, ns, d, c, hv, by simpa [Children.find?, hne] using hn, hc,
        by simp [Children.clear, hne, hlistable, hclear]⟩
    · rw [heq] at h ⊢
      obtain ⟨ns, c, hv, hc, hclear⟩ := e.stopped_walk (p.resolve m) he h
      exact ⟨m, ns, e, c, hv, by simp [Children.find?], hc, by simpa [Children.clear]⟩

end

mutual

/-- A walk that comes to a file at which the visitor does not go on is stopped, there or before. -/
theorem Entry.walk_stops (e : Entry) (p : Path) (ns : List FileName) {c : Option Bytes}
    (hc : e.get? (ns.map FileName.text) = some (.file c)) (hclear : e.clear (ns.map FileName.text))
    (hv : visitFile (p.descend ns) ≠ .continue_) : (e.walk visitFile p).outcome.stopped := by
  match e, ns with
  | .file _, [] =>
    have hp : visitFile p ≠ .continue_ := hv
    unfold Entry.walk
    cases h : visitFile p with
    | continue_ => exact absurd h hp
    | terminate | throw => rfl
  | .file _, _ :: _ => cases hc
  | .dir _ _, [] => cases hc
  | .dir false _, _ :: _ => cases hclear
  | .dir true cs, n :: ns =>
    obtain ⟨e, hn, he⟩ := Option.bind_eq_some_iff.1 hc
    rw [Entry.walk, Walk.andThen_of_finished rfl]
    exact cs.walk_stops p n ns hn he hclear hv

theorem Children.walk_stops (cs : Children) (p : Path) (n : FileName) (ns : List FileName)
    {d : Entry} {c : Option Bytes} (hn : cs.find? n.text = some d)
    (hc : d.get? (ns.map FileName.text) = some (.file c))
    (hclear : cs.clear n.text (ns.map FileName.text))
    (hv : visitFile (p.descend (n :: ns)) ≠ .continue_) :
    (cs.walk visitFile p).outcome.stopped := by
  match cs with
  | .nil => cases hn
  | .cons m e rest =>
    rw [Children.walk]
    by_cases hm : m = n
    · subst hm
      obtain rfl : e = d := by simpa [Children.find?] using hn
      have hclear : e.clear (ns.map FileName.text) := by simpa [Children.clear] using hclear
      have hstop := e.walk_stops (p.resolve m) ns hc hclear hv
      rcases Walk.andThen_cases (e.walk visitFile (p.resolve m)) (rest.walk visitFile p) with
        ⟨hfinished, -⟩ | ⟨-, heq⟩
      · rw [hfinished] at hstop
        cases hstop
      · rwa [heq]
    · have hne : m.text ≠ n.text := fun h => hm (FileName.text_injective h)
      obtain ⟨hlistable, hrest⟩ : e.listable ∧ rest.clear n.text (ns.map FileName.text) := by
        simpa [Children.clear, hne] using hclear
      rcases Walk.andThen_cases (e.walk visitFile (p.resolve m)) (rest.walk visitFile p) with
        ⟨-, heq⟩ | ⟨hunfinished, heq⟩ <;> rw [heq]
      · exact rest.walk_stops p n ns (by simpa [Children.find?, hne] using hn) hc hrest hv
      · have hopened : (e.walk visitFile (p.resolve m)).outcome ≠ .ioException :=
          e.not_ioException_of_listable _ hlistable
        cases ho : (e.walk visitFile (p.resolve m)).outcome with
        | finished => exact absurd ho hunfinished
        | ioException => exact absurd ho hopened
        | terminated | unchecked => rfl

end

/-- A walk from `start` comes to what is at `ns` below it. -/
def FileSystem.Reaches (fs : FileSystem) (start : Path) (ns : List FileName) : Prop :=
  ∃ e, fs.entryAt start = some e ∧ e.clear (ns.map FileName.text)

/-- A walk from a directory below which everything can be opened comes to all that is there. -/
theorem FileSystem.reaches_of_listable {fs : FileSystem} {start : Path} {at_ : Location}
    {e d : Entry} {ns : List FileName} (hat : fs.locate start = some at_)
    (he : fs.entry at_ = some e) (hl : e.listable)
    (hd : fs.entry (at_ ++ ns.map FileName.text) = some d) : fs.Reaches start ns := by
  rw [entry_append, he] at hd
  exact ⟨e, by simp [entryAt, hat, he], e.clear_of_listable _ hl hd⟩

/-- The visitor has stopped a walk at a file that is there and that the walk has come to. -/
theorem FileSystem.stopped_walkFileTree {fs : FileSystem} {start : Path}
    (h : (fs.walkFileTree start visitFile).outcome.stopped) :
    ∃ ns loc, (visitFile (start.descend ns)).outcome (start.descend ns) =
        some (fs.walkFileTree start visitFile).outcome ∧
      fs.Reaches start ns ∧ fs.IsFile (start.descend ns) loc := by
  unfold walkFileTree at h ⊢
  split at h
  · cases h
  · rename_i e he
    obtain ⟨loc, hloc, hentry⟩ := Option.bind_eq_some_iff.1 he
    have hdistinct : e.distinct :=
      Entry.distinct_of_get? (e := .dir true fs.root) fs.distinct hentry
    obtain ⟨ns, c, hv, hc, hclear⟩ := e.stopped_walk start hdistinct h
    obtain ⟨hlocate, hfile⟩ := locate_descend hloc hentry hc
    exact ⟨ns, _, hv, ⟨e, he, hclear⟩, hlocate, c, hfile⟩

theorem FileSystem.walkFileTree_stops {fs : FileSystem} {start : Path} {ns : List FileName}
    {loc : Location} (hreaches : fs.Reaches start ns) (hfile : fs.IsFile (start.descend ns) loc)
    (hv : visitFile (start.descend ns) ≠ .continue_) :
    (fs.walkFileTree start visitFile).outcome.stopped := by
  obtain ⟨e, he, hclear⟩ := hreaches
  obtain ⟨at_, hat, hentry⟩ := Option.bind_eq_some_iff.1 he
  obtain ⟨d, hd⟩ := e.get?_of_clear _ hclear
  obtain ⟨hlocate, hplace⟩ := locate_descend hat hentry hd
  obtain ⟨hloc, content, hcontent⟩ := hfile
  obtain rfl := Option.some.inj (hlocate.symm.trans hloc)
  obtain rfl := Option.some.inj (hplace.symm.trans hcontent)
  rw [walkFileTree, he]
  exact e.walk_stops start ns hd hclear hv

/-- A walk that the visitor has terminated has come to a file that is there and that it accepts. -/
theorem FileSystem.terminated_walkFileTree {fs : FileSystem} {start : Path}
    (h : (fs.walkFileTree start visitFile).outcome = .terminated q) :
    visitFile q = .terminate ∧ (∃ ns, q = start.descend ns ∧ fs.Reaches start ns) ∧
      ∃ loc, fs.IsFile q loc := by
  obtain ⟨ns, loc, hv, hreaches, hfile⟩ :=
    stopped_walkFileTree (show (fs.walkFileTree start visitFile).outcome.stopped by rw [h]; rfl)
  rw [h] at hv
  cases hvisit : visitFile (start.descend ns) with
  | continue_ | throw => simp [hvisit, Visit.outcome] at hv
  | terminate =>
    obtain rfl : start.descend ns = q := by simpa [hvisit, Visit.outcome] using hv
    exact ⟨hvisit, ⟨ns, rfl, hreaches⟩, loc, hfile⟩

/-- A walk for one file below its start is stopped there, when it comes to it. -/
theorem FileSystem.walkFileTree_of_reaches {fs : FileSystem} {start : Path} {ns : List FileName}
    {loc : Location} (hreaches : fs.Reaches start ns) (hfile : fs.IsFile (start.descend ns) loc)
    (hv : ∀ f, visitFile f = if f = start.descend ns then .terminate else .continue_) :
    (fs.walkFileTree start visitFile).outcome = .terminated (start.descend ns) := by
  have hstop : (fs.walkFileTree start visitFile).outcome.stopped :=
    walkFileTree_stops hreaches hfile (by simp [hv])
  obtain ⟨ms, -, hms, -, -⟩ := stopped_walkFileTree hstop
  rw [hv] at hms
  split_ifs at hms with heq
  · rw [← heq]
    exact (Option.some.inj hms).symm
  · cases hms

theorem FileSystem.mem_walkFileTree {fs : FileSystem} {start : Path}
    (h : d ∈ (fs.walkFileTree start visitFile).opened) : ∃ ns, d = start.descend ns := by
  unfold walkFileTree at h
  split at h
  · cases h
  · exact Entry.mem_walk _ _ h

/-- A walk that opens a directory, or comes to a file other than its start, starts at a directory
that can be opened. -/
theorem Entry.dir_of_walk {e : Entry} {p : Path}
    (h : d ∈ (e.walk visitFile p).opened ∨
      (e.walk visitFile p).outcome = .terminated q ∧ q ≠ p) : ∃ cs, e = .dir true cs := by
  match e with
  | .file _ =>
    unfold Entry.walk at h
    split at h <;> simp at h
    exact absurd h.1.symm h.2
  | .dir false _ => simp [Entry.walk] at h
  | .dir true cs => exact ⟨cs, rfl⟩

theorem FileSystem.dir_of_walkFileTree {fs : FileSystem} {start : Path}
    (h : d ∈ (fs.walkFileTree start visitFile).opened ∨
      (fs.walkFileTree start visitFile).outcome = .terminated q ∧ q ≠ start) :
    ∃ loc cs, fs.locate start = some loc ∧ fs.entry loc = some (.dir true cs) := by
  unfold walkFileTree entryAt at h
  split at h
  · simp at h
  · rename_i e he
    obtain ⟨loc, hloc, hentry⟩ := Option.bind_eq_some_iff.1 he
    obtain ⟨cs, rfl⟩ := Entry.dir_of_walk h
    exact ⟨loc, cs, hloc, hentry⟩

/-- A directory that can be opened is opened when a walk starts there. -/
theorem FileSystem.start_mem_walkFileTree {fs : FileSystem} {start : Path} {loc : Location}
    {cs : Children} (hloc : fs.locate start = some loc) (he : fs.entry loc = some (.dir true cs)) :
    start ∈ (fs.walkFileTree start visitFile).opened := by
  simp [walkFileTree, entryAt, hloc, he, Entry.walk, Walk.andThen]

end FileTree
