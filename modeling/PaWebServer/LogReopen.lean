import PaWebServer.LogFile

/-!
# Opening and closing the log in one process

A process may construct several `LogsHandler`s: each constructor cuts the bracket line off the log
file, but none of them resets the static flag `closed`, so only the first call of `closeLogs`
appends the line again.  A later call finds the line at the end of the file exactly when the file
is still what the first call left (`closes_pair_up_iff`).
-/

namespace LogsHandler

/-! ## Operations -/

/-- What is done with the log in a process, one after another. -/
inductive Op where
  | construct
  | write (c : LogCall)
  | closeLogs
  deriving DecidableEq

/-- The constructor opens the file again; the static fields stay as they are. -/
def State.construct (s : State) : State := { s with file := initializeFile (some s.file) }

def State.exec (s : State) : Op → State
  | .construct => s.construct
  | .write c => s.write (logEntry c)
  | .closeLogs => s.closeLogs

/-- `P` holds each time `closeLogs` is called, of the file that the last call of it left, if there
was one, and of the state that the call finds. -/
def EveryClose (P : Option Bytes → State → Prop) : Option Bytes → State → List Op → Prop
  | _, _, [] => True
  | left, s, .closeLogs :: ops =>
    P left s ∧ EveryClose P (some s.closeLogs.file) s.closeLogs ops
  | left, s, op :: ops => EveryClose P left (s.exec op) ops

/-! ## Bracket lines -/

/-- How many lines of the file are a closing bracket and nothing else. -/
def bracketLines (file : Bytes) : ℕ := (Text.lines 10 file).count [125]

/-- The file ends with the trailer, and its bracket line is the only one. -/
def Closed (file : Bytes) : Prop := Text.utf8 trailer <:+ file ∧ bracketLines file = 1

instance : DecidablePred Closed := fun file =>
  inferInstanceAs (Decidable (Text.utf8 trailer <:+ file ∧ bracketLines file = 1))

theorem bracketLines_mono {f g : Bytes} (h : f <+: g) : bracketLines f ≤ bracketLines g :=
  (Text.lines_mono 10 h).sublist.count_le _

/-- What begins with a space starts no bracket line, on a line of its own or not. -/
theorem bracketLines_append_space (f x : Bytes) :
    bracketLines (f ++ 32 :: x) = bracketLines f + bracketLines (32 :: x) := by
  obtain ⟨rest, hrest, hlines⟩ := Text.exists_lines_append 10 f
  have hne (a b : Bytes) : ¬ a ++ 32 :: b = [125] := by
    intro h
    have hmem : (32 : UInt8) ∈ a ++ 32 :: b := by simp
    rw [h] at hmem
    exact absurd hmem (by decide)
  have hsame : (Text.lines 10 (rest ++ 32 :: x)).count [125] = bracketLines (32 :: x) := by
    have hsplit : (32 :: x).splitOn 10 = (x.splitOn 10).modifyHead (32 :: ·) :=
      Text.splitOn_append_of_notMem (a := [32]) (by decide) x
    rw [bracketLines, Text.lines, Text.lines, Text.splitOn_append_of_notMem hrest, hsplit]
    obtain ⟨w, ws, hw⟩ := List.exists_cons_of_ne_nil (List.splitOn_ne_nil (10 : UInt8) x)
    cases ws with
    | nil => simp [hw]
    | cons v vs =>
      rw [hw, List.modifyHead_cons, List.modifyHead_cons, List.dropLast_cons_cons,
        List.dropLast_cons_cons, List.count_cons_of_ne (hne rest w),
        List.count_cons_of_ne (show 32 :: w ≠ [125] from hne [] w)]
  calc (Text.lines 10 (f ++ 32 :: x)).count [125]
      = bracketLines f + (Text.lines 10 (rest ++ 32 :: x)).count [125] := by
        rw [hlines, List.count_append, bracketLines]
    _ = bracketLines f + bracketLines (32 :: x) := by rw [hsame]

theorem bracketLines_append_trailer (f : Bytes) :
    bracketLines (f ++ Text.utf8 trailer) = bracketLines f + 1 := by
  rw [utf8_trailer, bracketLines_append_space]
  rfl

theorem closed_append_trailer_iff (f : Bytes) :
    Closed (f ++ Text.utf8 trailer) ↔ bracketLines f = 0 := by
  rw [Closed, bracketLines_append_trailer]
  exact ⟨fun h => Nat.succ.inj h.2, fun h => ⟨List.suffix_append _ _, by rw [h]⟩⟩

/-- An entry begins with two spaces. -/
theorem exists_entryBytes_cons (c : LogCall) : ∃ x, entryBytes c = 32 :: x := ⟨_, rfl⟩

/-- No field of the entry holds a newline. -/
def OneLine (c : LogCall) : Prop :=
  '\n' ∉ c.method ∧ '\n' ∉ c.route ∧ '\n' ∉ c.origin ∧ '\n' ∉ c.timestamp

theorem OneLine.exists_line {c : LogCall} (h : OneLine c) :
    ∃ line, logEntry c = line ++ "\",\n".toList ∧ line.head? = some ' ' ∧ '\n' ∉ line := by
  have hstatus : '\n' ∉ Text.decimal c.statusHttp := fun hmem =>
    (Text.isDigit_of_mem_decimal hmem).elim (by decide) (by decide)
  obtain ⟨hmethod, hroute, horigin, htimestamp⟩ := h
  refine ⟨_, rfl, rfl, ?_⟩
  simp only [List.mem_append, not_or]
  refine ⟨⟨⟨⟨⟨⟨⟨⟨⟨?_, hroute⟩, ?_⟩, hmethod⟩, ?_⟩, horigin⟩, ?_⟩, hstatus⟩, ?_⟩, htimestamp⟩
    <;> decide

theorem OneLine.bracketLines_eq_zero {c : LogCall} (h : OneLine c) :
    bracketLines (entryBytes c) = 0 := by
  obtain ⟨line, hline, hhead, hno⟩ := h.exists_line
  obtain ⟨rest, rfl⟩ := List.head?_eq_some_iff.1 hhead
  have hbytes : entryBytes c = Text.utf8 (' ' :: rest ++ "\",".toList) ++ 10 :: [] := by
    rw [entryBytes, hline, Text.utf8_append, Text.utf8_append, List.append_assoc]
    rfl
  have hnl : (10 : UInt8) ∉ Text.utf8 (' ' :: rest ++ "\",".toList) := by
    intro hmem
    have hnew := Text.mem_of_mem_utf8 (c := '\n') (by decide) hmem
    exact (List.mem_append.1 hnew).elim hno (by decide)
  have hne : Text.utf8 (' ' :: rest ++ "\",".toList) ≠ [125] :=
    fun h => absurd (List.cons.inj h).1 (by decide)
  rw [hbytes, bracketLines, Text.lines_append_cons, List.splitOn_eq_singleton hnl,
    Text.lines_of_notMem List.not_mem_nil, List.append_nil, List.count_singleton,
    if_neg (by simpa using hne)]

/-- What `initializeFile` leaves of a file that is not empty. -/
theorem initializeFile_cuts {f : Bytes} (h : f ≠ []) : initializeFile (some f) <+: f := by
  have hpos : ¬ f.length = 0 := by simpa using h
  rw [initializeFile, if_neg hpos, removeClosingBracket]
  split_ifs
  · exact List.prefix_rfl
  · exact List.take_prefix _ _
  · exact List.take_prefix _ _

theorem bracketLines_initializeFile (f : Bytes) :
    bracketLines (initializeFile (some f)) ≤ bracketLines f := by
  by_cases h : f = []
  · subst h
    decide
  · exact bracketLines_mono (initializeFile_cuts h)

/-! ## After the first call -/

/-- What constructors and entries make of a file that `closeLogs` has left: it is the same, its
bracket line is cut, or there is something after it. -/
def Since (left file : Bytes) : Prop :=
  file = left ∨ bracketLines file = 0 ∨ ∃ x, file = left ++ 32 :: x ∧ bracketLines (32 :: x) = 0

variable {left f g : Bytes}

/-- A cut takes the newline of the bracket line first. -/
theorem Closed.since_of_cut (h : Closed left) (hg : g <+: left) : Since left g := by
  obtain ⟨⟨body, rfl⟩, hone⟩ := h
  have hbody : bracketLines body = 0 := by
    rw [bracketLines_append_trailer] at hone
    exact Nat.succ.inj hone
  have hsplit : body ++ Text.utf8 trailer = (body ++ [32, 32, 10, 125]) ++ [10] := by
    simp [utf8_trailer]
  rw [hsplit, List.prefix_concat_iff] at hg
  rcases hg with hg | hg
  · exact Or.inl (hg.trans hsplit.symm)
  · have hle := bracketLines_mono hg
    rw [bracketLines_append_space, hbody] at hle
    exact Or.inr (Or.inl (Nat.le_zero.1 hle))

theorem Since.construct (h : Since left f) (hleft : Closed left) :
    Since left (initializeFile (some f)) := by
  rcases h with rfl | hzero | ⟨x, rfl, hx⟩
  · have hne : f ≠ [] := by
      rintro rfl
      exact absurd hleft (by decide)
    exact hleft.since_of_cut (initializeFile_cuts hne)
  · exact Or.inr (Or.inl (Nat.le_zero.1 ((bracketLines_initializeFile f).trans hzero.le)))
  · have hcut := initializeFile_cuts (f := left ++ 32 :: x) (by simp)
    rcases List.prefix_or_prefix_of_prefix hcut (List.prefix_append left (32 :: x)) with hle | hge
    · exact hleft.since_of_cut hle
    · obtain ⟨u, hu⟩ := hge
      rw [← hu, List.prefix_append_right_inj] at hcut
      rw [← hu]
      cases u with
      | nil => exact Or.inl (List.append_nil left)
      | cons b u =>
        obtain rfl : b = 32 := by
          obtain ⟨v, hv⟩ := hcut
          exact (List.cons.inj hv).1
        exact Or.inr (Or.inr ⟨u, rfl, Nat.le_zero.1 ((bracketLines_mono hcut).trans hx.le)⟩)

theorem Since.write (h : Since left f) {c : LogCall} (hc : bracketLines (entryBytes c) = 0) :
    Since left (f ++ entryBytes c) := by
  obtain ⟨e, he⟩ := exists_entryBytes_cons c
  rw [he] at hc ⊢
  rcases h with rfl | hzero | ⟨x, rfl, hx⟩
  · exact Or.inr (Or.inr ⟨e, rfl, hc⟩)
  · exact Or.inr (Or.inl (by rw [bracketLines_append_space, hzero, hc]))
  · refine Or.inr (Or.inr ⟨x ++ 32 :: e, by simp, ?_⟩)
    rw [← List.cons_append, bracketLines_append_space, hx, hc]

/-- Behind the bracket line the file does not end with another one. -/
theorem not_closed_append {x : Bytes} (hx : bracketLines (32 :: x) = 0) :
    ¬ Closed (f ++ 32 :: x) := by
  rintro ⟨hsuffix, -⟩
  have hshort : ([10, 125, 10] : Bytes) <:+ f ++ 32 :: x := by
    refine List.IsSuffix.trans ⟨[32, 32], ?_⟩ hsuffix
    rw [utf8_trailer]
    rfl
  rcases List.suffix_or_suffix_of_suffix hshort (List.suffix_append f (32 :: x)) with h | h
  · obtain ⟨y, hy⟩ := h
    rw [← hy, bracketLines, Text.lines_append_cons, List.count_append] at hx
    exact absurd (Nat.eq_zero_of_add_eq_zero_left hx) (by decide)
  · have hmem : (32 : UInt8) ∈ ([10, 125, 10] : Bytes) := h.subset List.mem_cons_self
    exact absurd hmem (by decide)

theorem Since.closed_iff (h : Since left f) (hleft : Closed left) : Closed f ↔ f = left := by
  constructor
  · intro hf
    rcases h with rfl | hzero | ⟨x, rfl, hx⟩
    · rfl
    · rw [hf.2] at hzero
      cases hzero
    · exact absurd hf (not_closed_append hx)
  · rintro rfl
    exact hleft

/-! ## Calls of `closeLogs` -/

variable {s : State} {last : Option Bytes}

theorem State.closeLogs_of_closed (h : s.closed = true) : s.closeLogs = s := if_pos h

theorem State.closeLogs_file_of_open (h : s.closed = false) :
    s.closeLogs.file = s.file ++ Text.utf8 trailer := by
  simp [State.closeLogs, h]

theorem State.closeLogs_closed (s : State) : s.closeLogs.closed = true := by
  unfold State.closeLogs
  split_ifs with h
  · exact h
  · rfl

/-- The call leaves the file closed. -/
def Closes (_ : Option Bytes) (s : State) : Prop := Closed s.closeLogs.file

/-- The first call finds no bracket line in the file; a later one finds the file as the last one
left it. -/
def Untouched : Option Bytes → State → Prop
  | none, s => bracketLines s.file = 0
  | some left, s => s.file = left

/-- What the calls so far say about the flag, when each of them has left the file closed. -/
def Known : Option Bytes → State → Prop
  | none, s => s.closed = false
  | some left, s => s.closed = true ∧ Closed left

theorem Known.of_closed_eq {s' : State} (h : Known last s) (hc : s'.closed = s.closed) :
    Known last s' := by
  cases last with
  | none => exact hc.trans h
  | some left => exact ⟨hc.trans h.1, h.2⟩

theorem known_closeLogs (h : Closes last s) : Known (some s.closeLogs.file) s.closeLogs :=
  ⟨s.closeLogs_closed, h⟩

theorem Known.closes_of_untouched (h : Known last s) (hu : Untouched last s) : Closes last s := by
  cases last with
  | none =>
    rw [Closes, State.closeLogs_file_of_open h]
    exact (closed_append_trailer_iff s.file).2 hu
  | some left =>
    obtain rfl : s.file = left := hu
    rw [Closes, State.closeLogs_of_closed h.1]
    exact h.2

/-- What the file is since the last call. -/
def SinceLast (last : Option Bytes) (s : State) : Prop :=
  ∀ left, last = some left → Since left s.file

theorem Known.untouched_of_closes (h : Known last s) (hsince : SinceLast last s)
    (hc : Closes last s) : Untouched last s := by
  cases last with
  | none =>
    rw [Closes, State.closeLogs_file_of_open h] at hc
    exact (closed_append_trailer_iff s.file).1 hc
  | some left =>
    rw [Closes, State.closeLogs_of_closed h.1] at hc
    exact ((hsince left rfl).closed_iff h.2).1 hc

theorem everyClose_closes (ops : List Op) (h : Known last s)
    (hu : EveryClose Untouched last s ops) : EveryClose Closes last s ops := by
  induction ops generalizing last s with
  | nil => trivial
  | cons op ops ih =>
    cases op with
    | closeLogs =>
      have hc := h.closes_of_untouched hu.1
      exact ⟨hc, ih (known_closeLogs hc) hu.2⟩
    | construct => exact ih (h.of_closed_eq rfl) hu
    | write c => exact ih (h.of_closed_eq rfl) hu

theorem everyClose_untouched (ops : List Op) (h : Known last s) (hsince : SinceLast last s)
    (hclean : ∀ c, .write c ∈ ops → bracketLines (entryBytes c) = 0)
    (hc : EveryClose Closes last s ops) : EveryClose Untouched last s ops := by
  induction ops generalizing last s with
  | nil => trivial
  | cons op ops ih =>
    have hrest : ∀ c, .write c ∈ ops → bracketLines (entryBytes c) = 0 :=
      fun c hmem => hclean c (List.mem_cons_of_mem _ hmem)
    cases op with
    | closeLogs =>
      refine ⟨h.untouched_of_closes hsince hc.1, ih (known_closeLogs hc.1) ?_ hrest hc.2⟩
      rintro left ⟨⟩
      exact Or.inl rfl
    | construct =>
      refine ih (h.of_closed_eq rfl) (fun left hleft => ?_) hrest hc
      subst hleft
      exact (hsince left rfl).construct h.2
    | write c =>
      refine ih (h.of_closed_eq rfl) (fun left hleft => ?_) hrest hc
      exact (hsince left hleft).write (hclean c List.mem_cons_self)

/-- Of entries that hold no bracket line, both directions. -/
theorem everyClose_closes_iff_untouched (file : Option Bytes) (ops : List Op)
    (hclean : ∀ c, .write c ∈ ops → bracketLines (entryBytes c) = 0) :
    EveryClose Closes none (start file) ops ↔ EveryClose Untouched none (start file) ops := by
  have hknown : Known none (start file) := rfl
  refine ⟨everyClose_untouched ops hknown (fun left hleft => ?_) hclean,
    everyClose_closes ops hknown⟩
  cases hleft

/-- The call finds the file as the last one left it, if there was one. -/
def Kept (last : Option Bytes) (s : State) : Prop := ∀ left, last = some left → s.file = left

/-- When neither the file that the process has opened nor any entry holds a bracket line, the first
call finds none. -/
theorem everyClose_untouched_iff_kept (ops : List Op)
    (hclean : ∀ c, .write c ∈ ops → bracketLines (entryBytes c) = 0)
    (hfile : last = none → bracketLines s.file = 0) :
    EveryClose Untouched last s ops ↔ EveryClose Kept last s ops := by
  induction ops generalizing last s with
  | nil => exact Iff.rfl
  | cons op ops ih =>
    have hrest : ∀ c, .write c ∈ ops → bracketLines (entryBytes c) = 0 :=
      fun c hmem => hclean c (List.mem_cons_of_mem _ hmem)
    cases op with
    | closeLogs =>
      refine and_congr ?_ (ih hrest fun h => by cases h)
      cases last with
      | none => exact iff_of_true (hfile rfl) fun left hleft => by cases hleft
      | some left => exact ⟨fun h l hl => h.trans (Option.some.inj hl), fun h => h left rfl⟩
    | construct =>
      refine ih hrest fun hnone => ?_
      exact Nat.le_zero.1 ((bracketLines_initializeFile s.file).trans (hfile hnone).le)
    | write c =>
      refine ih hrest fun hnone => ?_
      obtain ⟨e, he⟩ := exists_entryBytes_cons c
      have hc := hclean c List.mem_cons_self
      show bracketLines (s.file ++ entryBytes c) = 0
      rw [he] at hc ⊢
      rw [bracketLines_append_space, hfile hnone, hc]

/-- From a file without a bracket line, with one-line entries: every call of `closeLogs` leaves the
file closed exactly when each but the first finds it as the last one left it. -/
theorem everyClose_closes_iff_kept (file : Option Bytes) (ops : List Op)
    (hfile : bracketLines (initializeFile file) = 0) (hone : ∀ c, .write c ∈ ops → OneLine c) :
    EveryClose Closes none (start file) ops ↔ EveryClose Kept none (start file) ops := by
  have hclean := fun c hc => (hone c hc).bracketLines_eq_zero
  rw [← everyClose_untouched_iff_kept ops hclean fun _ => hfile]
  exact everyClose_closes_iff_untouched file ops hclean

/-- Over any file that the process finds and any operations in it: if the first call of `closeLogs`
finds no bracket line in the file, and each later one finds the file as the last one left it, then
every call leaves the file closed.  When no entry holds a bracket line, every call does so exactly
in that case; and for entries of one line in a file without a bracket line, exactly when each call
but the first finds the file as the last one left it. -/
theorem closes_pair_up_iff (file : Option Bytes) (ops : List Op) :
    (EveryClose Untouched none (start file) ops → EveryClose Closes none (start file) ops) ∧
      ((∀ c, .write c ∈ ops → bracketLines (entryBytes c) = 0) →
        (EveryClose Closes none (start file) ops ↔
          EveryClose Untouched none (start file) ops)) ∧
      (bracketLines (initializeFile file) = 0 → (∀ c, .write c ∈ ops → OneLine c) →
        (EveryClose Closes none (start file) ops ↔ EveryClose Kept none (start file) ops)) :=
  ⟨everyClose_closes ops rfl, everyClose_closes_iff_untouched file ops,
    everyClose_closes_iff_kept file ops⟩

/-- An entry is logged, and two shutdown hooks close the log. -/
theorem closes_pair_up_sample :
    EveryClose Closes none (start none) [.write sampleCall, .closeLogs, .closeLogs] :=
  (closes_pair_up_iff none [.write sampleCall, .closeLogs, .closeLogs]).1
    ⟨by unfold Untouched; decide +kernel, rfl, trivial⟩

/-- The log is closed, a second `LogsHandler` is constructed, and the log is closed again. -/
theorem closeLogs_after_reopen :
    ¬ EveryClose Closes none (start none) [.closeLogs, .construct, .closeLogs] := by
  rintro ⟨-, h, -⟩
  have hclosed : Closed (start none).closeLogs.construct.closeLogs.file := h
  exact absurd hclosed (by decide)

end LogsHandler
