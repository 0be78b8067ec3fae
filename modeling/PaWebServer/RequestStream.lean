import PaWebServer.Lib.BufferedReader
import PaWebServer.RequestReader

/-!
# The stream of a client

The lines of a request come from a `BufferedReader` over the characters that the client sends.  How
the client ends its lines does not change what is answered, and neither does what it sends after the
blank line (`run_stream`), with one exception: behind a header line that ends with a carriage return
alone, an empty line that ends with a line feed is not seen.
-/

namespace RequestThread

open BufferedReader

/-- A client that sends these characters before its stream ends or fails. -/
def Client.ofStream (stream : Text) (ending : Ending) (origin : Text) : Client where
  lines := (readLines (ending = .endOfStream) false [] stream).attach.map fun l =>
    ⟨l.1, oneLine_of_mem_readLines oneLine_nil l.2⟩
  ending := ending
  origin := origin

/-- The characters of the header lines, each with a terminator of its own. -/
def sendHeader (ls : List (Line × Terminator)) : Text :=
  sendLines (ls.map fun p => (p.1.text, p.2))

/-- The last header line ends with a carriage return alone, and the blank line is a line feed: it is
taken for the rest of the terminator before it. -/
def Hidden (ls : List (Line × Terminator)) (b : Line) (t : Terminator) : Prop :=
  skipAfter false (ls.map fun p => (p.1.text, p.2)) = true ∧ b.text = [] ∧ t = .lf

instance (ls : List (Line × Terminator)) (b : Line) (t : Terminator) :
    Decidable (Hidden ls b t) := inferInstanceAs (Decidable (_ ∧ _ ∧ _))

theorem map_text_ofStream (stream : Text) (ending : Ending) (origin : Text) :
    (Client.ofStream stream ending origin).lines.map Line.text =
      readLines (ending = .endOfStream) false [] stream := by
  rw [Client.ofStream, List.map_map]
  exact List.attach_map_subtype_val _

theorem text_injective : Function.Injective Line.text := by
  rintro ⟨s, hs⟩ ⟨t, ht⟩ h
  cases h
  rfl

/-- Lines are equal when their texts are. -/
theorem exists_eq_append {lines front : List Line} {more : List Text}
    (h : lines.map Line.text = front.map Line.text ++ more) :
    ∃ rest, lines = front ++ rest ∧ rest.map Line.text = more := by
  obtain ⟨l₁, l₂, rfl, hfront, hmore⟩ := List.map_eq_append_iff.1 h
  obtain rfl := List.map_injective_iff.2 text_injective hfront
  exact ⟨l₂, rfl, hmore⟩

section

variable {ls : List (Line × Terminator)} {b : Line} {t : Terminator}

/-- The lines of a client after the header lines. -/
theorem readLines_header (hls : ∀ p ∈ ls, Text.isBlank p.1.text = false) (ends : Bool)
    (rest : Text) :
    readLines ends false [] (sendHeader ls ++ rest) = (ls.map Prod.fst).map Line.text ++
      readLines ends (skipAfter false (ls.map fun p => (p.1.text, p.2))) [] rest := by
  have hne : ∀ p ∈ ls.map fun p => (p.1.text, p.2), p.1 ≠ [] := by
    intro p hp
    obtain ⟨q, hq, rfl⟩ := List.mem_map.1 hp
    intro hnil
    have hblank := hls q hq
    rw [show q.1.text = [] from hnil] at hblank
    cases hblank
  have hone : ∀ p ∈ ls.map fun p => (p.1.text, p.2), OneLine p.1 := by
    intro p hp
    obtain ⟨q, -, rfl⟩ := List.mem_map.1 hp
    exact q.1.oneLine
  rw [sendHeader, readLines_sendLines hne hone, List.map_map, List.map_map]
  rfl

/-- A blank line that is seen ends the request, and whatever comes after it is not read. -/
theorem exists_lines_of_not_hidden (hls : ∀ p ∈ ls, Text.isBlank p.1.text = false)
    (h : ¬ Hidden ls b t) (rest : Text) (ending : Ending) (origin : Text) :
    ∃ more, (Client.ofStream (sendHeader ls ++ (b.text ++ (t.text ++ rest))) ending origin).lines =
      ls.map Prod.fst ++ b :: more := by
  have htexts := map_text_ofStream (sendHeader ls ++ (b.text ++ (t.text ++ rest))) ending origin
  rw [readLines_header hls, readLines_line b.oneLine h] at htexts
  obtain ⟨more, hlines, hmore⟩ := exists_eq_append htexts
  obtain ⟨b', more', rfl, hb, -⟩ := List.map_eq_cons_iff.1 hmore
  obtain rfl := text_injective hb
  exact ⟨more', hlines⟩

/-- Behind a hidden blank line the header goes on. -/
theorem lines_of_hidden (hls : ∀ p ∈ ls, Text.isBlank p.1.text = false) (h : Hidden ls b t)
    (rest : Text) (ending : Ending) (origin : Text) :
    (Client.ofStream (sendHeader ls ++ (b.text ++ (t.text ++ rest))) ending origin).lines =
      ls.map Prod.fst ++ (Client.ofStream rest ending origin).lines := by
  obtain ⟨hskip, hb, rfl⟩ := h
  have htexts := map_text_ofStream (sendHeader ls ++ (b.text ++ (Terminator.lf.text ++ rest)))
    ending origin
  rw [readLines_header hls, hskip, hb] at htexts
  rw [List.nil_append, show Terminator.lf.text ++ rest = '\n' :: rest from rfl,
    readLines_skip, ← map_text_ofStream rest ending origin, ← List.map_append] at htexts
  rw [hb]
  exact List.map_injective_iff.2 text_injective htexts

/-! ## The run -/

/-- Of its client a run uses the request and the origin. -/
theorem run_client_congr (env : Env) {c d : Client}
    (hread : readRequest c.ending c.lines = readRequest d.ending d.lines)
    (horigin : c.origin = d.origin) :
    run { env with client := c } = run { env with client := d } := by
  obtain ⟨lines, ending, origin⟩ := c
  obtain rfl : origin = d.origin := horigin
  have hbody : body { env with client := ⟨lines, ending, d.origin⟩ } =
      body { env with client := d } := by
    unfold body
    dsimp only at hread ⊢
    rw [hread]
    rfl
  rw [run, run, hbody]

end

/-- However the header lines of a request and its blank line are terminated, and whatever the client
sends after them: the run is the one for a client that sends these lines and a blank line.  Only
where the blank line is a line feed behind a carriage return does the run take what follows for
header lines. -/
theorem run_stream (env : Env) (w : World) (ls : List (Line × Terminator))
    (hls : ∀ p ∈ ls, Text.isBlank p.1.text = false) (b : Line) (hb : Text.isBlank b.text = true)
    (t : Terminator) (rest : Text) (ending : Ending) (origin : Text) :
    exec (run { env with
      client := .ofStream (sendHeader ls ++ (b.text ++ (t.text ++ rest))) ending origin }) w =
    exec (run { env with
      client := ⟨if Hidden ls b t then ls.map Prod.fst ++ (Client.ofStream rest ending origin).lines
        else ls.map Prod.fst ++ [blankLine], ending, origin⟩ }) w := by
  split_ifs with h
  · rw [← lines_of_hidden hls h rest ending origin]
    rfl
  · obtain ⟨more, hlines⟩ := exists_lines_of_not_hidden hls h rest ending origin
    have hheader : ∀ l ∈ ls.map Prod.fst, Text.isBlank l.text = false := by
      intro l hl
      obtain ⟨p, hp, rfl⟩ := List.mem_map.1 hl
      exact hls p hp
    refine congrArg (exec · w) (run_client_congr env ?_ rfl)
    rw [hlines, readRequest_append hheader hb, readRequest_append hheader rfl]

/-- A server root without documents. -/
def emptyFiles : FileTree.FileSystem := ⟨.nil, [], by decide⟩

def quietEnv : Env := ⟨emptyFiles, ⟨[], .endOfStream, []⟩, false, false, fun _ => false⟩

/-- A header of two lines with different terminators. -/
def mixedHeader : List (Line × Terminator) := [(getRoot, .lf), (hostLine, .cr)]

theorem run_stream_mixedHeader :
    exec (run { quietEnv with
      client := .ofStream (sendHeader mixedHeader ++
        (blankLine.text ++ (Terminator.crlf.text ++ "rest".toList))) .endOfStream [] }) .init =
    exec (run { quietEnv with
      client := ⟨if Hidden mixedHeader blankLine .crlf then
          mixedHeader.map Prod.fst ++ (Client.ofStream "rest".toList .endOfStream []).lines
        else mixedHeader.map Prod.fst ++ [blankLine], .endOfStream, []⟩ }) .init :=
  run_stream quietEnv .init mixedHeader (by decide) blankLine rfl .crlf "rest".toList .endOfStream
    []

end RequestThread
