import PaWebServer.Lib.Text

/-!
# Lines of a stream

`readLine` of `java.io.BufferedReader`: a line ends with a line feed, with a carriage return, or
with both.  After a carriage return the reader skips a line feed in the next call, so a line that
ends with a carriage return hides an empty line that ends with a line feed.
-/

namespace BufferedReader

/-- The lines that the calls of `readLine` return for the characters of a stream.  `line` is what
the call has of its line, and `skipLF` is set when the line before has ended with a carriage return.
At the end of the stream the last line needs no terminator; when the stream fails instead, it is
lost. -/
def readLines (ends skipLF : Bool) (line : Text) : Text → List Text
  | [] => if ends && line ≠ [] then [line] else []
  | c :: cs =>
    if skipLF && c = '\n' then readLines ends false line cs
    else if c = '\n' then line :: readLines ends false [] cs
    else if c = '\r' then line :: readLines ends true [] cs
    else readLines ends false (line ++ [c]) cs

inductive Terminator where
  | lf
  | cr
  | crlf
  deriving DecidableEq

def Terminator.text : Terminator → Text
  | .lf => ['\n']
  | .cr => ['\r']
  | .crlf => ['\r', '\n']

/-- The text has no terminator in it. -/
def OneLine (l : Text) : Prop := '\n' ∉ l ∧ '\r' ∉ l

theorem oneLine_nil : OneLine [] := ⟨List.not_mem_nil, List.not_mem_nil⟩

theorem oneLine_cons_iff {c : Char} {l : Text} :
    OneLine (c :: l) ↔ c ≠ '\n' ∧ c ≠ '\r' ∧ OneLine l := by
  simp only [OneLine, List.mem_cons, not_or]
  tauto

theorem OneLine.concat {l : Text} {c : Char} (h : OneLine l) (hlf : c ≠ '\n') (hcr : c ≠ '\r') :
    OneLine (l ++ [c]) := by
  simpa [OneLine, hlf.symm, hcr.symm] using h

/-- What `readLine` returns has no terminator in it. -/
theorem oneLine_of_mem_readLines {ends skipLF : Bool} {line l : Text} {s : Text}
    (hline : OneLine line) (h : l ∈ readLines ends skipLF line s) : OneLine l := by
  induction s generalizing skipLF line with
  | nil =>
    rw [readLines] at h
    split_ifs at h
    · exact List.mem_singleton.1 h ▸ hline
    · cases h
  | cons c cs ih =>
    rw [readLines] at h
    split_ifs at h with hskip hlf hcr
    · exact ih hline h
    · rcases List.mem_cons.1 h with rfl | h
      · exact hline
      · exact ih oneLine_nil h
    · rcases List.mem_cons.1 h with rfl | h
      · exact hline
      · exact ih oneLine_nil h
    · exact ih (hline.concat hlf hcr) h

variable {ends skipLF : Bool} {line l : Text}

/-- The characters of a line are collected. -/
theorem readLines_append (h : OneLine l) (rest : Text) :
    readLines ends skipLF line (l ++ rest) =
      readLines ends (skipLF && l = []) (line ++ l) rest := by
  induction l generalizing skipLF line with
  | nil => simp
  | cons c l ih =>
    obtain ⟨hlf, hcr, hl⟩ := oneLine_cons_iff.1 h
    rw [List.cons_append, readLines]
    simp [hlf, hcr, ih hl]

/-- A terminator that is not skipped ends the line. -/
theorem readLines_terminator {t : Terminator} (h : ¬ (skipLF = true ∧ t = .lf)) (rest : Text) :
    readLines ends skipLF line (t.text ++ rest) =
      line :: readLines ends (t = .cr) [] rest := by
  cases t with
  | lf =>
    have hskip : skipLF = false := by simpa using h
    simp [Terminator.text, readLines, hskip]
  | cr => simp [Terminator.text, readLines]
  | crlf => simp [Terminator.text, readLines]

theorem readLines_skip (rest : Text) :
    readLines ends true line ('\n' :: rest) = readLines ends false line rest := by
  simp [readLines]

/-- A line and its terminator, after a line that ended with a carriage return or not. -/
theorem readLines_line (hl : OneLine l) {t : Terminator}
    (h : ¬ (skipLF = true ∧ l = [] ∧ t = .lf)) (rest : Text) :
    readLines ends skipLF [] (l ++ (t.text ++ rest)) =
      l :: readLines ends (t = .cr) [] rest := by
  rw [readLines_append hl, readLines_terminator _, List.nil_append]
  intro hskip
  simp only [Bool.and_eq_true, decide_eq_true_eq] at hskip
  exact h ⟨hskip.1.1, hskip.1.2, hskip.2⟩

/-- The characters of lines, each with a terminator of its own. -/
def sendLines (ls : List (Text × Terminator)) : Text := ls.flatMap fun p => p.1 ++ p.2.text

/-- Whether a line feed is skipped after the lines. -/
def skipAfter (skipLF : Bool) (ls : List (Text × Terminator)) : Bool :=
  ls.foldl (fun _ p => p.2 = .cr) skipLF

/-- Lines that are not empty are read as they were sent. -/
theorem readLines_sendLines {ls : List (Text × Terminator)} (hne : ∀ p ∈ ls, p.1 ≠ [])
    (hls : ∀ p ∈ ls, OneLine p.1) (rest : Text) :
    readLines ends skipLF [] (sendLines ls ++ rest) =
      ls.map Prod.fst ++ readLines ends (skipAfter skipLF ls) [] rest := by
  induction ls generalizing skipLF with
  | nil => rfl
  | cons p ls ih =>
    rw [sendLines, List.flatMap_cons, List.append_assoc, List.append_assoc,
      readLines_line (hls p List.mem_cons_self) fun h => hne p List.mem_cons_self h.2.1]
    exact congrArg (p.1 :: ·) (ih (fun q hq => hne q (List.mem_cons_of_mem p hq))
      fun q hq => hls q (List.mem_cons_of_mem p hq))

end BufferedReader
