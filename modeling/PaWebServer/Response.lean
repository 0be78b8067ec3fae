import PaWebServer.Lib.Http
import PaWebServer.RequestThreadProof

/-!
# The response on the wire

What `sendResponse` writes is one HTTP/1.1 message with the page as its body, whatever the page
holds: the length of the page is among the header lines, and no header line is empty or broken.
-/

namespace RequestThread

open Http

/-- The bytes that `sendResponse` writes. -/
def responseBytes (contentPage : Bytes) : Bytes := (responseChunks contentPage).flatten

def statusLine : Bytes := Text.utf8 "HTTP/1.1 200 OK".toList

def contentTypeLine : Bytes := Text.utf8 "Content-Type: text/html".toList

def connectionLine : Bytes := Text.utf8 "Connection: keep-alive".toList

def contentLengthLine (n : ℕ) : Bytes :=
  Text.utf8 "Content-Length: ".toList ++ Text.utf8 (Text.decimal n)

theorem responseChunks_eq (contentPage : Bytes) :
    responseChunks contentPage =
      [terminated statusLine, terminated contentTypeLine, terminated connectionLine,
        Text.utf8 "Content-Length: ".toList, Text.utf8 (Text.decimal contentPage.length),
        [cr, lf], [cr, lf], contentPage] := by
  have hstatus : Text.utf8 "HTTP/1.1 200 OK\r\n".toList = terminated statusLine := by decide
  have htype : Text.utf8 "Content-Type: text/html\r\n".toList = terminated contentTypeLine := by
    decide
  have hconnection : Text.utf8 "Connection: keep-alive\r\n".toList = terminated connectionLine := by
    decide
  have hcrlf : Text.utf8 crlf = [cr, lf] := by decide
  unfold responseChunks
  rw [hcrlf]
  exact congrArg₂ _ hstatus (congrArg₂ _ htype (congrArg₂ _ hconnection rfl))

theorem responseBytes_eq (contentPage : Bytes) :
    responseBytes contentPage =
      [statusLine, contentTypeLine, connectionLine,
        contentLengthLine contentPage.length].flatMap terminated ++
          cr :: lf :: contentPage := by
  rw [responseBytes, responseChunks_eq]
  simp [terminated, contentLengthLine]

/-- The message that a page is sent as. -/
def message (contentPage : Bytes) : Message where
  status := 200
  headers :=
    [(Text.utf8 "content-type".toList, Text.utf8 "text/html".toList),
      (Text.utf8 "connection".toList, Text.utf8 "keep-alive".toList),
      (contentLengthName, Text.utf8 (Text.decimal contentPage.length))]
  body := contentPage

theorem isDigit_of_mem_length {n : ℕ} {b : UInt8} (h : b ∈ Text.utf8 (Text.decimal n)) :
    isDigit b :=
  isDigit_of_mem_utf8 (fun _ hc => isDigit_of_mem_decimal hc) b h

theorem readHeader_contentLength (n : ℕ) :
    readHeader (contentLengthLine n) =
      some (contentLengthName, Text.utf8 (Text.decimal n)) := by
  have hline : contentLengthLine n =
      Text.utf8 "Content-Length".toList ++ 58 :: 32 :: Text.utf8 (Text.decimal n) := by
    have hprefix : Text.utf8 "Content-Length: ".toList =
        Text.utf8 "Content-Length".toList ++ [58, 32] := by decide
    rw [contentLengthLine, hprefix, List.append_assoc]
    rfl
  have hname : (Text.utf8 "Content-Length".toList).map lower = contentLengthName := by decide
  rw [hline, readHeader_colon (by decide) (by decide), hname,
    trim_space fun b hb => isBlank_of_isDigit (isDigit_of_mem_length hb)]

theorem lines_not_broken (n : ℕ) :
    ∀ line ∈ [statusLine, contentTypeLine, connectionLine, contentLengthLine n],
      line ≠ [] ∧ lf ∉ line := by
  have hfixed : ∀ line ∈ [statusLine, contentTypeLine, connectionLine],
      line ≠ [] ∧ lf ∉ line := by decide
  have hlength : contentLengthLine n ≠ [] ∧ lf ∉ contentLengthLine n := by
    refine ⟨List.append_ne_nil_of_left_ne_nil (by decide) _, fun h => ?_⟩
    rcases List.mem_append.1 h with h | h
    · exact absurd h (by decide)
    · exact absurd (isDigit_of_mem_length h) (by decide)
  intro line hline
  simp only [List.mem_cons, List.not_mem_nil, or_false] at hline hfixed
  rcases hline with h | h | h | rfl
  · exact hfixed line (Or.inl h)
  · exact hfixed line (Or.inr (Or.inl h))
  · exact hfixed line (Or.inr (Or.inr h))
  · exact hlength

theorem contentLength_message (contentPage : Bytes) :
    contentLength (message contentPage).headers = some contentPage.length := by
  have hfilter : (message contentPage).headers.filter (·.1 = contentLengthName) =
      [(contentLengthName, Text.utf8 (Text.decimal contentPage.length))] := by
    rw [message, List.filter_cons_of_neg (by decide), List.filter_cons_of_neg (by decide),
      List.filter_cons_of_pos (by simp), List.filter_nil]
  rw [contentLength, hfilter]
  exact decimal_utf8_decimal contentPage.length

/-- The response to a page is read back, and nothing after it is read with it. -/
theorem read_responseBytes (contentPage rest : Bytes) :
    read (responseBytes contentPage ++ rest) = some (message contentPage, rest) := by
  have htype : readHeader contentTypeLine =
      some (Text.utf8 "content-type".toList, Text.utf8 "text/html".toList) := by decide
  have hconnection : readHeader connectionLine =
      some (Text.utf8 "connection".toList, Text.utf8 "keep-alive".toList) := by decide
  have hheaders : [contentTypeLine, connectionLine, contentLengthLine contentPage.length].mapM
      readHeader = some (message contentPage).headers := by
    simp only [List.mapM_cons, List.mapM_nil, htype, hconnection, readHeader_contentLength]
    rfl
  rw [responseBytes_eq, List.append_assoc]
  exact read_append (lines_not_broken _) (by decide) hheaders (contentLength_message contentPage)
    rest

/-- When no write fails, `sendResponse` adds one response to what the client has received; and a
client that reads HTTP/1.1 gets each page back from it, with no byte left over, and the pages of any
number of responses in a row. -/
theorem response_roundtrip :
    (∀ (env : Env) (w : World) (contentPage : Bytes), Succeeds env →
        exec (sendResponse env contentPage) w =
          (.ok (), { w with sent := w.sent ++ responseBytes contentPage })) ∧
      (∀ contentPage : Bytes,
        (read (responseBytes contentPage)).map (fun (m, rest) => (m.body, rest)) =
          some (contentPage, [])) ∧
      ∀ contents : List Bytes,
        (readAll (contents.flatMap responseBytes)).map (List.map Message.body) =
          some contents := by
  refine ⟨fun env w contentPage h => ?_, fun contentPage => ?_, fun contents => ?_⟩
  · rw [exec_sendResponse_succeeds h, responseBytes]
  · have h := read_responseBytes contentPage []
    rw [List.append_nil] at h
    rw [h]
    rfl
  · rw [readAll_flatMap read_responseBytes, Option.map_some, List.map_map]
    congr 1
    exact List.map_id contents

/-- Nothing fails. -/
def unfailing : Env := ⟨⟨.nil, [], rfl⟩, ⟨[], .endOfStream, []⟩, false, false, fun _ => false⟩

/-- The page is what ends the header lines. -/
theorem response_roundtrip_unfailing :
    exec (sendResponse unfailing [cr, lf, cr, lf]) World.init =
        (.ok (), { World.init with sent := responseBytes [cr, lf, cr, lf] }) ∧
      (read (responseBytes [cr, lf, cr, lf])).map (fun (m, rest) => (m.body, rest)) =
        some ([cr, lf, cr, lf], []) :=
  ⟨response_roundtrip.1 unfailing World.init [cr, lf, cr, lf] ⟨rfl, fun _ _ => rfl⟩,
    response_roundtrip.2.1 [cr, lf, cr, lf]⟩

end RequestThread
