import PaWebServer.LogsHandler
import Mathlib.Tactic.SplitIfs
import Mathlib.Data.List.Basic

/-!
# The log file over restarts

A file in open form (`OpenForm`) is an opening brace and complete entries, with only spaces and
newlines between and after them: a consumer may append to it.  `initializeFile` always brings a
file that was closed back to open form (`initializeFile_closed`), and a run of processes that all
close the file loses nothing (`clean_restart`).  On a file that was not closed it cuts two or three
bytes whatever they are, and what it leaves is in open form exactly when none of the bytes that it
looks at or cuts is the comma of an entry (`restarts_open_iff`).
-/

namespace LogsHandler

/-! ## Bytes -/

/-- `{`. -/
abbrev brace : UInt8 := 123

/-- `,`. -/
abbrev comma : UInt8 := 44

/-- `"`. -/
abbrev quote : UInt8 := 34

/-- A space or a newline. -/
def IsGap (c : UInt8) : Prop := c = 32 ∨ c = 10

/-- The bytes of an entry in the file. -/
def entryBytes (c : LogCall) : Bytes := Text.utf8 (logEntry c)

theorem utf8_header : Text.utf8 header = [brace, 10] := by decide

theorem utf8_trailer : Text.utf8 trailer = [32, 32, 10, 125, 10] := by decide

theorem utf8_eq_comma : UInt8.ofNat ','.toNat = comma := rfl

/-- An entry ends with the quote of its last field, its comma and its newline. -/
theorem exists_entryBytes_eq (c : LogCall) : ∃ x, entryBytes c = x ++ [quote, comma, 10] := by
  unfold entryBytes logEntry
  rw [Text.utf8_append]
  exact ⟨_, congrArg _ (by decide)⟩

/-! ## What `removeClosingBracket` cuts -/

theorem removeClosingBracket_short {file : Bytes} (h : file.length < 3) :
    removeClosingBracket file = file :=
  if_pos h

theorem removeClosingBracket_append (x : Bytes) (p q r : UInt8) :
    removeClosingBracket (x ++ [p, q, r]) = if p = comma then x else x ++ [p] := by
  have hlen : (x ++ [p, q, r]).length = x.length + 3 := by simp
  unfold removeClosingBracket
  rw [hlen, if_neg (by omega), Nat.add_sub_cancel, List.getElem?_append_right le_rfl,
    utf8_eq_comma]
  simp only [Nat.sub_self, List.getElem?_cons_zero, Option.some.injEq]
  split_ifs
  · simp
  · rw [show x.length + 3 - 2 = x.length + 1 from rfl, List.take_length_add_append]
    rfl

/-! ## Open form -/

/-- The file is an opening brace, then the entries in order and complete, with spaces and newlines
between and after them and nothing else. -/
inductive OpenForm : List LogCall → Bytes → Prop
  | brace : OpenForm [] [brace]
  | gap {es f c} (h : OpenForm es f) (hc : IsGap c) : OpenForm es (f ++ [c])
  | entry {es f} (h : OpenForm es f) (e : LogCall) : OpenForm (es ++ [e]) (f ++ entryBytes e)

namespace OpenForm

variable {es : List LogCall} {f : Bytes}

theorem entries (h : OpenForm es f) (more : List LogCall) :
    OpenForm (es ++ more) (f ++ more.flatMap entryBytes) := by
  induction more generalizing es f with
  | nil => simpa using h
  | cons e more ih => simpa using ih (h.entry e)

theorem starts_with_brace (h : OpenForm es f) : f.head? = some LogsHandler.brace := by
  induction h with
  | brace => rfl
  | gap h hc ih => simp [List.head?_append, ih]
  | entry h e ih => simp [List.head?_append, ih]

/-- Nothing of an entry but its newline ends a file in open form. -/
theorem exists_last (h : OpenForm es f) :
    ∃ x c, f = x ++ [c] ∧ c ≠ comma ∧ c ≠ quote := by
  cases h with
  | brace => exact ⟨[], _, rfl, by decide, by decide⟩
  | @gap es g c h hc =>
    refine ⟨g, c, rfl, ?_, ?_⟩ <;> rcases hc with rfl | rfl <;> decide
  | @entry es g h e =>
    obtain ⟨x, hx⟩ := exists_entryBytes_eq e
    exact ⟨g ++ x ++ [quote, comma], 10, by simp [hx], by decide, by decide⟩

theorem not_quote_end {x : Bytes} : ¬ OpenForm es (x ++ [quote]) := by
  intro h
  obtain ⟨y, c, he, -, hc⟩ := h.exists_last
  exact hc (List.append_inj_right' he rfl |> List.singleton_inj.1).symm

/-- An open file that ends in a run of gaps of the trailer's length is open. -/
theorem gaps (h : OpenForm es f) : OpenForm es (f ++ [32, 32, 10]) := by
  have h₃ := ((h.gap (Or.inl rfl)).gap (Or.inl rfl)).gap (Or.inr rfl)
  simpa using h₃

end OpenForm

theorem openForm_header : OpenForm [] (Text.utf8 header) := by
  rw [utf8_header]
  exact OpenForm.brace.gap (Or.inr rfl)

/-! ## Files that a process leaves -/

theorem foldl_write_file (s : State) (es : List LogCall) :
    ((es.map logEntry).foldl State.write s).file = s.file ++ es.flatMap entryBytes := by
  induction es generalizing s with
  | nil => simp
  | cons e es ih =>
    rw [List.map_cons, List.foldl_cons, ih]
    simp [State.write, entryBytes]

theorem foldl_write_closed (s : State) (es : List LogCall) :
    ((es.map logEntry).foldl State.write s).closed = s.closed := by
  induction es generalizing s with
  | nil => rfl
  | cons e es ih => rw [List.map_cons, List.foldl_cons, ih]; rfl

/-- A process appends its entries to the file that it has opened, and the trailer when it closes
the log. -/
theorem Process.run_eq (p : Process) (file : Option Bytes) :
    p.run file = some (initializeFile file ++ p.entries.flatMap entryBytes ++
      if p.closes then Text.utf8 trailer else []) := by
  have hfile := foldl_write_file (start file) p.entries
  have hclosed := foldl_write_closed (start file) p.entries
  simp only [Process.run, State.closeLogs, hclosed, hfile]
  cases p.closes <;> simp [start]

/-- A file from which a process may start: there is none or an empty one, it is in open form, or it
is in open form but for the trailer. -/
def Left (written : List LogCall) (file : Option Bytes) : Prop :=
  (written = [] ∧ (file = none ∨ file = some [])) ∨
  (∃ f, file = some f ∧ OpenForm written f) ∨
  ∃ f, file = some (f ++ Text.utf8 trailer) ∧ OpenForm written f

theorem Process.run_left {written : List LogCall} {file : Option Bytes}
    (h : OpenForm written (initializeFile file)) (p : Process) :
    Left (written ++ p.entries) (p.run file) := by
  have hopen := h.entries p.entries
  rw [p.run_eq]
  cases p.closes
  · exact Or.inr (Or.inl ⟨_, by simp, hopen⟩)
  · exact Or.inr (Or.inr ⟨_, rfl, hopen⟩)

/-- On a closed file `initializeFile` removes the line of the bracket and nothing else. -/
theorem initializeFile_closed (f : Bytes) :
    initializeFile (some (f ++ Text.utf8 trailer)) = f ++ [32, 32, 10] := by
  rw [utf8_trailer]
  have hlen : ¬ (f ++ [32, 32, 10, 125, 10]).length = 0 := by simp
  rw [initializeFile, if_neg hlen,
    show f ++ [32, 32, 10, 125, 10] = (f ++ [32, 32]) ++ [10, 125, 10] by simp,
    removeClosingBracket_append, if_neg (by decide)]
  simp

/-! ## Restarts after any stop -/

/-- There is no file, or an empty one, or the file starts with the brace and none of the bytes at
which `removeClosingBracket` looks, or which it cuts before the last one, is a comma: the file does
not end with an entry, or with an entry and one more byte. -/
def Reopenable : Option Bytes → Prop
  | none | some [] => True
  | some (b :: f) =>
    b = brace ∧ (3 ≤ (b :: f).length →
      (b :: f)[(b :: f).length - 3]? ≠ some comma ∧ (b :: f)[(b :: f).length - 2]? ≠ some comma)

theorem reopenable_iff {f : Bytes} (h : f ≠ []) :
    Reopenable (some f) ↔ f.head? = some brace ∧
      (3 ≤ f.length → f[f.length - 3]? ≠ some comma ∧ f[f.length - 2]? ≠ some comma) := by
  cases f with
  | nil => exact absurd rfl h
  | cons b f => simp [Reopenable]

theorem reopenable_append_iff (x : Bytes) (p q r : UInt8) :
    Reopenable (some (x ++ [p, q, r])) ↔
      (x ++ [p, q, r]).head? = some brace ∧ p ≠ comma ∧ q ≠ comma := by
  have h₃ : (x ++ [p, q, r])[x.length + 3 - 3]? = some p := by simp
  have h₂ : (x ++ [p, q, r])[x.length + 3 - 2]? = some q := by simp
  rw [reopenable_iff (by simp), show (x ++ [p, q, r]).length = x.length + 3 by simp, h₃, h₂]
  simp

theorem initializeFile_append (x : Bytes) (p q r : UInt8) :
    initializeFile (some (x ++ [p, q, r])) = if p = comma then x else x ++ [p] := by
  have hlen : ¬ (x ++ [p, q, r]).length = 0 := by simp
  rw [initializeFile, if_neg hlen, removeClosingBracket_append]

/-- On a file in open form, with the last three bytes given: `initializeFile` leaves it in open
form when the first two of them are no commas. -/
theorem openForm_cut_iff {es : List LogCall} {x : Bytes} {p q r : UInt8}
    (h : OpenForm es (x ++ [p, q, r]))
    (hgood : p ≠ comma → q ≠ comma → OpenForm es (x ++ [p]))
    (hbad : p = comma ∨ q = comma → ∃ y, (if p = comma then x else x ++ [p]) = y ++ [quote]) :
    OpenForm es (initializeFile (some (x ++ [p, q, r]))) ↔
      Reopenable (some (x ++ [p, q, r])) := by
  rw [initializeFile_append, reopenable_append_iff]
  by_cases hc : p = comma ∨ q = comma
  · obtain ⟨y, hy⟩ := hbad hc
    rw [hy]
    exact iff_of_false OpenForm.not_quote_end fun ⟨_, hp, hq⟩ => hc.elim hp hq
  · push Not at hc
    rw [if_neg hc.1]
    exact iff_of_true (hgood hc.1 hc.2) ⟨h.starts_with_brace, hc⟩

/-- A file of fewer than three bytes stays as it is. -/
theorem openForm_short_iff {es : List LogCall} {f : Bytes} (h : OpenForm es f) (hne : f ≠ [])
    (hlen : f.length < 3) : OpenForm es (initializeFile (some f)) ↔ Reopenable (some f) := by
  have hpos : ¬ f.length = 0 := by simpa using hne
  rw [initializeFile, if_neg hpos, removeClosingBracket_short hlen, reopenable_iff hne]
  exact iff_of_true h ⟨h.starts_with_brace, fun h₃ => absurd hlen (by omega)⟩

/-- The file of a process that did not close the log: what is before its last byte decides. -/
theorem openForm_initializeFile_open_iff {es : List LogCall} {f : Bytes} (h : OpenForm es f) :
    OpenForm es (initializeFile (some f)) ↔ Reopenable (some f) := by
  cases h with
  | brace => exact openForm_short_iff .brace (by simp) (by decide)
  | @gap es g c hg hc =>
    cases hg with
    | brace => exact openForm_short_iff (OpenForm.brace.gap hc) (by simp) (by simp)
    | @gap es g' c' hg' hc' =>
      -- Two gap bytes are cut, and the byte before them is not the comma of an entry.
      obtain ⟨x, p, rfl, hp, -⟩ := hg'.exists_last
      have hopen := (hg'.gap hc').gap hc
      have hc'₂ : c' ≠ comma := by rcases hc' with rfl | rfl <;> decide
      simp only [List.append_assoc, List.cons_append, List.nil_append] at hopen ⊢
      exact openForm_cut_iff hopen (fun _ _ => hg') fun hcomma => (hcomma.elim hp hc'₂).elim
    | @entry es g' hg' e =>
      -- The comma and the newline of the entry are cut, with the gap byte after them.
      obtain ⟨x, hx⟩ := exists_entryBytes_eq e
      have hopen := (hg'.entry e).gap hc
      have hsplit : g' ++ entryBytes e ++ [c] = (g' ++ x ++ [quote]) ++ [comma, 10, c] := by
        simp [hx]
      rw [hsplit] at hopen ⊢
      exact openForm_cut_iff hopen (fun hp => absurd rfl hp) fun _ => ⟨_, if_pos rfl⟩
  | @entry es g hg e =>
    -- The comma and the newline of the entry are cut.
    obtain ⟨x, hx⟩ := exists_entryBytes_eq e
    have hopen := hg.entry e
    have hsplit : g ++ entryBytes e = (g ++ x) ++ [quote, comma, 10] := by simp [hx]
    rw [hsplit] at hopen ⊢
    exact openForm_cut_iff hopen (fun _ hq => absurd rfl hq) fun _ => ⟨_, if_neg (by decide)⟩

theorem openForm_initializeFile_iff {written : List LogCall} {file : Option Bytes}
    (h : Left written file) : OpenForm written (initializeFile file) ↔ Reopenable file := by
  rcases h with ⟨rfl, rfl | rfl⟩ | ⟨f, rfl, hf⟩ | ⟨f, rfl, hf⟩
  · exact iff_of_true openForm_header trivial
  · exact iff_of_true openForm_header trivial
  · exact openForm_initializeFile_open_iff hf
  · rw [initializeFile_closed]
    refine iff_of_true hf.gaps ?_
    rw [utf8_trailer, show f ++ [32, 32, 10, 125, 10] = (f ++ [32, 32]) ++ [10, 125, 10] by simp,
      reopenable_append_iff]
    exact ⟨by simp [List.head?_append, hf.starts_with_brace], by decide, by decide⟩

/-- `P` holds each time a process starts, of the entries written before and the file it finds. -/
def EveryStart (P : List LogCall → Option Bytes → Prop) :
    List LogCall → Option Bytes → List Process → Prop
  | _, _, [] => True
  | written, file, p :: ps =>
    P written file ∧ EveryStart P (written ++ p.entries) (p.run file) ps

/-- The process that starts leaves the file in open form. -/
def OpensFile (written : List LogCall) (file : Option Bytes) : Prop :=
  OpenForm written (initializeFile file)

theorem everyStart_opensFile_iff {written : List LogCall} {file : Option Bytes}
    (h : Left written file) (ps : List Process) :
    EveryStart OpensFile written file ps ↔
      EveryStart (fun _ file => Reopenable file) written file ps := by
  induction ps generalizing written file with
  | nil => exact Iff.rfl
  | cons p ps ih =>
    simp only [EveryStart, OpensFile, openForm_initializeFile_iff h]
    refine and_congr_right fun hre => ih ?_
    exact Process.run_left ((openForm_initializeFile_iff h).2 hre) p

theorem head_removeClosingBracket {f : Bytes} {b : UInt8}
    (h : (removeClosingBracket f).head? = some b) : f.head? = some b := by
  have htake : ∀ n, (f.take n).head? = some b → f.head? = some b := by
    intro n hn
    rw [List.head?_take] at hn
    split_ifs at hn
    exact hn
  unfold removeClosingBracket at h
  split_ifs at h
  · exact h
  · exact htake _ h
  · exact htake _ h

/-- A file that holds no brace, such as a blank one, never gets its opening brace. -/
theorem not_opensFile_of_no_brace {f : Bytes} (hne : f ≠ []) (hbrace : brace ∉ f)
    (written : List LogCall) : ¬ OpensFile written (some f) := by
  intro h
  have hpos : ¬ f.length = 0 := by simpa using hne
  have hhead := h.starts_with_brace
  rw [initializeFile, if_neg hpos] at hhead
  exact hbrace (List.mem_of_head? (head_removeClosingBracket hhead))

/-- From no file, an empty one, or one without a brace (a blank file has none), over any number of
processes, each stopped after any number of entries, before or after `closeLogs`: every start
leaves the file in open form if and only if every start finds a file that can be reopened. -/
theorem restarts_open_iff (file : Option Bytes) (ps : List Process)
    (hfile : ∀ f, file = some f → brace ∉ f) :
    EveryStart OpensFile [] file ps ↔ EveryStart (fun _ file => Reopenable file) [] file ps := by
  rcases file with _ | f
  · exact everyStart_opensFile_iff (Or.inl ⟨rfl, Or.inl rfl⟩) ps
  · by_cases hne : f = []
    · exact everyStart_opensFile_iff (Or.inl ⟨rfl, Or.inr (by rw [hne])⟩) ps
    · cases ps with
      | nil => exact Iff.rfl
      | cons p ps =>
        have hbrace := hfile f rfl
        exact iff_of_false (fun h => not_opensFile_of_no_brace hne hbrace [] h.1)
          fun h => hbrace (List.mem_of_head? ((reopenable_iff hne).1 h.1).1)

/-- The file shipped with the server is one newline; the server is stopped and started again. -/
theorem restarts_open_iff_newline :
    EveryStart OpensFile [] (some [10]) [⟨[sampleCall], false⟩, ⟨[], true⟩] ↔
      EveryStart (fun _ file => Reopenable file) [] (some [10])
        [⟨[sampleCall], false⟩, ⟨[], true⟩] :=
  restarts_open_iff (some [10]) _ (by rintro f ⟨⟩; decide)

/-- One entry is written, the process stops without `closeLogs`, and the next one starts: the
comma and the newline of the entry are gone.  A blank file does not get its brace. -/
theorem restart_after_stop_cuts_entry :
    ¬ EveryStart OpensFile [] none [⟨[sampleCall], false⟩, ⟨[], false⟩] ∧
      ¬ EveryStart OpensFile [] (some [10]) [⟨[], false⟩] := by
  refine ⟨fun ⟨_, h, _⟩ => ?_, fun ⟨h, _⟩ => ?_⟩
  · obtain ⟨x, c, he, -, hc⟩ := h.exists_last
    have hlast := congrArg List.getLast? he
    rw [List.getLast?_concat] at hlast
    exact hc (Option.some.inj (hlast.symm.trans (by decide +kernel)))
  · exact absurd h.starts_with_brace (by decide)

/-! ## Restarts after a clean stop -/

/-- The files that a list of processes, one after another, makes of the first file. -/
def runAll (file : Option Bytes) (ps : List Process) : Option Bytes :=
  ps.foldl (fun file p => p.run file) file

/-- The line of two spaces that `closeLogs` writes. -/
def blankLine : Bytes := Text.utf8 "  \n".toList

/-- The line of the closing bracket. -/
def bracketLine : Bytes := Text.utf8 "\x7d\n".toList

/-- What the sessions have put in the file before its last line: the entries of each session, and
after each session a line of two spaces. -/
def body (sessions : List (List LogCall)) : Bytes :=
  Text.utf8 header ++
    sessions.flatMap fun es => es.flatMap entryBytes ++ blankLine

/-- The processes that write the sessions, each of which closes the log. -/
def closing (sessions : List (List LogCall)) : List Process :=
  sessions.map fun es => ⟨es, true⟩

theorem utf8_trailer_split : Text.utf8 trailer = blankLine ++ bracketLine := by decide

theorem initializeFile_body (g : Bytes) :
    initializeFile (some (g ++ blankLine ++ bracketLine)) =
      g ++ blankLine := by
  rw [List.append_assoc, ← utf8_trailer_split, initializeFile_closed]
  rfl

/-- A process between two clean stops adds its entries and one blank line before the bracket. -/
theorem runAll_closed (g : Bytes) (sessions : List (List LogCall)) :
    runAll (some (g ++ blankLine ++ bracketLine)) (closing sessions) =
      some (g ++ blankLine ++
        (sessions.flatMap fun es => es.flatMap entryBytes ++ blankLine) ++
        bracketLine) := by
  induction sessions generalizing g with
  | nil => simp [runAll, closing]
  | cons es sessions ih =>
    have hrun := Process.run_eq ⟨es, true⟩
      (some (g ++ blankLine ++ bracketLine))
    rw [initializeFile_body, if_pos rfl, utf8_trailer_split, ← List.append_assoc] at hrun
    have hih := ih (g ++ blankLine ++ es.flatMap entryBytes)
    simp only [runAll, closing, List.map_cons, List.foldl_cons, hrun] at hih ⊢
    rw [hih]
    simp

/-- From no file or an empty one, over any number of processes that each write their entries and
then close the log: the file is the line of the brace, all entries in order with a line of spaces
after each session, and the line of the bracket; and the next `initializeFile` removes that last
line and nothing else. -/
theorem clean_restart (file : Option Bytes) (hfile : file = none ∨ file = some [])
    (first : List LogCall) (rest : List (List LogCall)) :
    runAll file (closing (first :: rest)) =
        some (body (first :: rest) ++ bracketLine) ∧
      initializeFile (runAll file (closing (first :: rest))) = body (first :: rest) := by
  have hstart : initializeFile file = Text.utf8 header := by
    rcases hfile with rfl | rfl <;> rfl
  have hrun := Process.run_eq ⟨first, true⟩ file
  rw [hstart, if_pos rfl, utf8_trailer_split, ← List.append_assoc] at hrun
  have hall : runAll file (closing (first :: rest)) =
      some (body (first :: rest) ++ bracketLine) := by
    have hrest := runAll_closed (Text.utf8 header ++ first.flatMap entryBytes) rest
    simp only [runAll, closing, List.map_cons, List.foldl_cons, hrun] at hrest ⊢
    rw [hrest]
    simp [body]
  refine ⟨hall, ?_⟩
  -- `body` ends with the blank line of its last session, whichever that is.
  obtain ⟨g, hg⟩ : ∃ g, body (first :: rest) = g ++ blankLine := by
    obtain ⟨init, last, hl⟩ := List.eq_nil_or_concat (first :: rest) |>.resolve_left (by simp)
    exact ⟨body init ++ last.flatMap entryBytes, by simp [hl, body]⟩
  rw [hall, hg, initializeFile_body]

/-- Two sessions from an empty file, the second one without entries. -/
theorem clean_restart_two_sessions :
    runAll (some []) (closing [[sampleCall], []]) =
        some (body [[sampleCall], []] ++ bracketLine) ∧
      initializeFile (runAll (some []) (closing [[sampleCall], []])) = body [[sampleCall], []] :=
  clean_restart (some []) (Or.inr rfl) [sampleCall] [[]]

end LogsHandler
