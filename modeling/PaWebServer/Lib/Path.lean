import PaWebServer.Lib.Text

/-!
# Paths

`Path` follows `java.nio.file.Path` on Unix: `Paths.get` drops repeated and final slashes, keeps
the components `.` and `..`, and refuses a text with a NUL character.
-/

namespace FileTree

/-- The character that no path has. -/
def nul : Char := Char.ofNat 0

def dot : Text := ['.']

def dotdot : Text := ['.', '.']

/-- A component of a path. -/
def ValidName (n : Text) : Prop := n ≠ [] ∧ '/' ∉ n ∧ nul ∉ n

instance (n : Text) : Decidable (ValidName n) := inferInstanceAs (Decidable (_ ∧ _ ∧ _))

structure Path where
  absolute : Bool
  names : List Text
  valid : ∀ n ∈ names, ValidName n
  deriving DecidableEq

/-- The name of a file or a directory in its directory. -/
structure FileName where
  text : Text
  valid : ValidName text
  real : text ≠ dot ∧ text ≠ dotdot
  deriving DecidableEq

theorem FileName.text_injective : Function.Injective FileName.text := by
  rintro ⟨_, _, _⟩ ⟨_, _, _⟩ rfl
  rfl

theorem exists_fileNames {ns : List Text} (hvalid : ∀ n ∈ ns, ValidName n)
    (hreal : ∀ n ∈ ns, n ≠ dot ∧ n ≠ dotdot) : ∃ fs : List FileName, fs.map FileName.text = ns := by
  induction ns with
  | nil => exact ⟨[], rfl⟩
  | cons n ns ih =>
    obtain ⟨fs, hfs⟩ := ih (fun m hm => hvalid m (List.mem_cons_of_mem _ hm))
      fun m hm => hreal m (List.mem_cons_of_mem _ hm)
    exact ⟨⟨n, hvalid n List.mem_cons_self, hreal n List.mem_cons_self⟩ :: fs, by simp [hfs]⟩

/-- The pieces of a text between separators come from the text and have no separator. -/
theorem subset_of_mem_splitOn {α : Type*} [DecidableEq α] {a : α} {s w : List α}
    (h : w ∈ s.splitOn a) : a ∉ w ∧ w ⊆ s := by
  induction s generalizing w with
  | nil => simp_all
  | cons x s ih =>
    obtain ⟨p, ps, hp⟩ := List.exists_cons_of_ne_nil (List.splitOn_ne_nil a s)
    rw [List.splitOn_cons_eq_if_modifyHead] at h
    split_ifs at h with hx
    · rcases List.mem_cons.1 h with rfl | h
      · simp
      · exact ⟨(ih h).1, fun c hc => List.mem_cons_of_mem _ ((ih h).2 hc)⟩
    · rw [hp, List.modifyHead_cons] at h
      rcases List.mem_cons.1 h with rfl | h
      · have := ih (hp ▸ List.mem_cons_self)
        refine ⟨?_, List.cons_subset_cons _ this.2⟩
        simp only [List.mem_cons, not_or]
        exact ⟨fun he => hx (by simp [he]), this.1⟩
      · have := ih (hp ▸ List.mem_cons_of_mem _ h)
        exact ⟨this.1, fun c hc => List.mem_cons_of_mem _ (this.2 hc)⟩

theorem filter_intercalate {α : Type*} [DecidableEq α] {a : α} {ls : List (List α)}
    (h : ∀ l ∈ ls, a ∉ l) : ([a].intercalate ls).filter (· ≠ a) = ls.flatten := by
  have hkeep : ∀ l ∈ ls, l.filter (· ≠ a) = l := by
    intro l hl
    rw [List.filter_eq_self]
    intro c hc
    have hne : c ≠ a := fun he => h l hl (he ▸ hc)
    simpa using hne
  induction ls with
  | nil => rfl
  | cons l ls ih =>
    have hrest := ih (fun m hm => h m (List.mem_cons_of_mem _ hm))
      fun m hm => hkeep m (List.mem_cons_of_mem _ hm)
    cases ls with
    | nil => simpa using hkeep l List.mem_cons_self
    | cons m ms =>
      rw [List.intercalate_cons_cons, List.filter_append, List.filter_append, hrest,
        hkeep l List.mem_cons_self]
      simp

namespace Path

theorem ext {p q : Path} (habsolute : p.absolute = q.absolute) (hnames : p.names = q.names) :
    p = q := by
  cases p
  cases q
  simp_all

/-- `Paths.get(s)`, where the platform encodes names in UTF-8; `none` is its
InvalidPathException. -/
def get (s : Text) : Option Path :=
  if h : nul ∈ s then none
  else some
    { absolute := s.head? = some '/'
      names := (s.splitOn '/').filter (· ≠ [])
      valid := fun n hn => by
        obtain ⟨hn, hne⟩ := List.mem_filter.1 hn
        obtain ⟨hslash, hsub⟩ := subset_of_mem_splitOn hn
        exact ⟨by simpa using hne, hslash, fun hnul => h (hsub hnul)⟩ }

/-- `path.toString()`. -/
def toText (p : Path) : Text :=
  (if p.absolute then ['/'] else []) ++ ['/'].intercalate p.names

/-- The path of an entry of the directory. -/
def resolve (p : Path) (n : FileName) : Path where
  absolute := p.absolute
  names := p.names ++ [n.text]
  valid m hm := by
    rcases List.mem_append.1 hm with hm | hm
    · exact p.valid m hm
    · exact List.mem_singleton.1 hm ▸ n.valid

/-- The path of an entry below the directory. -/
def descend (p : Path) (ns : List FileName) : Path := ns.foldl resolve p

theorem descend_absolute (p : Path) (ns : List FileName) :
    (p.descend ns).absolute = p.absolute := by
  induction ns generalizing p with
  | nil => rfl
  | cons n ns ih => exact ih (p.resolve n)

theorem descend_names (p : Path) (ns : List FileName) :
    (p.descend ns).names = p.names ++ ns.map FileName.text := by
  induction ns generalizing p with
  | nil => simp [descend]
  | cons n ns ih =>
    change ((p.resolve n).descend ns).names = _
    rw [ih, List.map_cons, ← List.singleton_append, ← List.append_assoc]
    rfl

theorem splitOn_toText (p : Path) :
    (p.toText.splitOn '/').filter (· ≠ []) = p.names := by
  have hnames : (p.names).filter (· ≠ []) = p.names :=
    List.filter_eq_self.2 fun n hn => by simpa using (p.valid n hn).1
  have hsplit : ((['/'].intercalate p.names).splitOn '/').filter (· ≠ []) = p.names := by
    by_cases he : p.names = []
    · simp [he]
    · rw [List.splitOn_intercalate '/' (fun n hn => (p.valid n hn).2.1) he, hnames]
  unfold toText
  cases p.absolute with
  | true =>
    rw [if_pos rfl, List.singleton_append, List.splitOn_cons_eq_if_modifyHead, if_pos (by simp)]
    simpa using hsplit
  | false => simpa using hsplit

theorem head_toText (p : Path) : decide (p.toText.head? = some '/') = p.absolute := by
  unfold toText
  cases p.absolute with
  | true => simp
  | false =>
    rcases hn : p.names with _ | ⟨n, ns⟩
    · simp
    · obtain ⟨hne, hslash, -⟩ := p.valid n (by simp [hn])
      obtain ⟨c, n, rfl⟩ := List.exists_cons_of_ne_nil hne
      have hc : c ≠ '/' := fun h => hslash (by simp [h])
      cases ns <;> simp [List.intercalate, hc]

/-- Without its slashes the text of a path is the text of its components. -/
theorem filter_toText (p : Path) : p.toText.filter (· ≠ '/') = p.names.flatten := by
  unfold toText
  rw [List.filter_append, filter_intercalate fun n hn => (p.valid n hn).2.1]
  split_ifs <;> simp

theorem nul_notMem_toText (p : Path) : nul ∉ p.toText := by
  intro h
  have hmem : nul ∈ p.toText.filter (· ≠ '/') := List.mem_filter.2 ⟨h, by decide⟩
  rw [filter_toText] at hmem
  obtain ⟨n, hn, hnul⟩ := List.mem_flatten.1 hmem
  exact (p.valid n hn).2.2 hnul

/-- A path is what `Paths.get` makes of its text. -/
theorem get_toText (p : Path) : get p.toText = some p := by
  unfold get
  rw [dif_neg p.nul_notMem_toText]
  congr 1
  cases p
  simp only [mk.injEq]
  exact ⟨head_toText _, splitOn_toText _⟩

/-- `Paths.get` keeps every character that is not a slash. -/
theorem filter_of_get {s : Text} {p : Path} (h : get s = some p) :
    p.toText.filter (· ≠ '/') = s.filter (· ≠ '/') := by
  unfold get at h
  split_ifs at h
  obtain rfl := Option.some.inj h
  have hsplit := filter_intercalate fun n (hn : n ∈ s.splitOn '/') => (subset_of_mem_splitOn hn).1
  rw [List.intercalate_splitOn] at hsplit
  rw [filter_toText, List.flatten_filter_ne_nil, hsplit]

/-- The components of the path of a text. -/
def components (s : Text) : List Text := (s.splitOn '/').filter (· ≠ [])

theorem components_nil : components [] = [] := by decide

theorem components_append_slash (s t : Text) :
    components (s ++ '/' :: t) = components s ++ components t := by
  rw [components, List.splitOn_append_cons_self, List.filter_append]
  rfl

theorem components_slash (s : Text) : components ('/' :: s) = components s := by
  have h := components_append_slash [] s
  rwa [components_nil, List.nil_append, List.nil_append] at h

/-- A text with a slash has a last piece. -/
theorem exists_last_slash {s : Text} (h : '/' ∈ s) : ∃ a b, s = a ++ '/' :: b ∧ '/' ∉ b := by
  obtain ⟨b, a, hba, hb⟩ := List.eq_append_cons_of_mem (List.mem_reverse.2 h)
  refine ⟨a.reverse, b.reverse, ?_, by simpa using hb⟩
  have hs := congrArg List.reverse hba
  simpa using hs

theorem components_of_notMem {s : Text} (hne : s ≠ []) (h : '/' ∉ s) : components s = [s] := by
  rw [components, List.splitOn_eq_singleton h]
  simp [hne]

theorem validName_of_mem_components {s n : Text} (hs : nul ∉ s) (hn : n ∈ components s) :
    ValidName n := by
  obtain ⟨hmem, hne⟩ := List.mem_filter.1 hn
  obtain ⟨hslash, hsub⟩ := subset_of_mem_splitOn hmem
  exact ⟨by simpa using hne, hslash, fun hnul => hs (hsub hnul)⟩

theorem get_eq_none_iff {s : Text} : get s = none ↔ nul ∈ s := by
  unfold get
  split_ifs <;> simp [*]

theorem names_of_get {s : Text} {p : Path} (h : get s = some p) : p.names = components s := by
  unfold get at h
  split_ifs at h
  obtain rfl := Option.some.inj h
  rfl

theorem absolute_of_get {s : Text} {p : Path} (h : get s = some p) :
    p.absolute = decide (s.head? = some '/') := by
  unfold get at h
  split_ifs at h
  obtain rfl := Option.some.inj h
  rfl

theorem toText_injective : Function.Injective toText := fun p q h =>
  Option.some.inj (by rw [← get_toText, h, get_toText])

end Path

end FileTree
