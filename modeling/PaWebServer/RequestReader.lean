import PaWebServer.RequestThreadProof

/-!
# Reading a request

The loop of `run` collects lines up to a blank one, and what it has collected is split at spaces
as one text.  A client that closes its stream before a blank line ends the loop with an exception
(`survives_iff`), and the header lines leave the method and the route alone only behind a request
line with two spaces (`requestLineDecides_iff`).
-/

namespace RequestThread

/-! ## The loop -/

/-- The text that the loop collects from lines of which none is blank. -/
def requestText (lines : List Line) : Text := lines.flatMap fun l => l.text ++ crlf

theorem readRequest_append {ending : Ending} {lines : List Line} {b : Line}
    (h : ∀ l ∈ lines, Text.isBlank l.text = false) (hb : Text.isBlank b.text = true)
    (rest : List Line) :
    readRequest ending (lines ++ b :: rest) = .ok (requestText lines) := by
  induction lines with
  | nil => simp [readRequest, hb, requestText]
  | cons l lines ih =>
    have hl := h l List.mem_cons_self
    have hrest := ih fun m hm => h m (List.mem_cons_of_mem _ hm)
    simp [readRequest, hl, hrest, Except.map, requestText]

/-- Without a blank line the loop comes to the null that `readLine` returns at the end. -/
theorem readRequest_of_no_blank {lines : List Line}
    (h : ∀ l ∈ lines, Text.isBlank l.text = false) :
    readRequest .endOfStream lines = .error .unchecked := by
  induction lines with
  | nil => rfl
  | cons l lines ih =>
    have hl := h l List.mem_cons_self
    have hrest := ih fun m hm => h m (List.mem_cons_of_mem _ hm)
    simp [readRequest, hl, hrest, Except.map]

theorem exists_first_blank {lines : List Line} (h : ∃ l ∈ lines, Text.isBlank l.text = true) :
    ∃ front b rest, lines = front ++ b :: rest ∧ (∀ l ∈ front, Text.isBlank l.text = false) ∧
      Text.isBlank b.text = true := by
  induction lines with
  | nil => simp at h
  | cons l lines ih =>
    by_cases hl : Text.isBlank l.text = true
    · exact ⟨[], l, lines, rfl, by simp, hl⟩
    · obtain ⟨m, hm, hblank⟩ := h
      have hne : m ≠ l := by
        rintro rfl
        exact hl hblank
      have hm' : m ∈ lines := List.mem_of_ne_of_mem hne hm
      obtain ⟨front, b, rest, rfl, hfront, hb⟩ := ih ⟨m, hm', hblank⟩
      refine ⟨l :: front, b, rest, rfl, fun k hk => ?_, hb⟩
      rcases List.mem_cons.1 hk with rfl | hk
      · exact Bool.eq_false_iff.2 hl
      · exact hfront k hk

/-- The loop ends without an exception for a client that sends the lines and closes its stream, and
the client is taken for disconnected when none of the lines says anything. -/
def Survives (lines : List Line) : Prop :=
  (∃ request, readRequest .endOfStream lines = .ok request) ∧
    ((∀ l ∈ lines, Text.isBlank l.text = true) →
      ∀ (env : Env) (w : World), env.client.lines = lines → env.client.ending = .endOfStream →
        exec (run env) w = (.ok (), w))

theorem not_survives_of_no_blank {lines : List Line}
    (h : ∀ l ∈ lines, Text.isBlank l.text = false) : ¬ Survives lines := by
  rintro ⟨⟨request, hread⟩, -⟩
  rw [readRequest_of_no_blank h] at hread
  cases hread

/-- A request of which nothing is left is not answered. -/
theorem exec_run_of_empty {env : Env} {w : World}
    (h : readRequest env.client.ending env.client.lines = .ok []) :
    exec (run env) w = (.ok (), w) := by
  rw [exec_run]
  cases hstreams : env.streamsFail with
  | true => simp [body, hstreams, caught]
  | false => simp [body, hstreams, h, parse, caught]

/-- The reader survives a client exactly when one of the client's lines is blank. -/
theorem survives_iff (lines : List Line) :
    Survives lines ↔ ∃ l ∈ lines, Text.isBlank l.text = true := by
  constructor
  · intro h
    by_contra hno
    push Not at hno
    exact not_survives_of_no_blank (fun l hl => Bool.eq_false_iff.2 (hno l hl)) h
  · intro h
    obtain ⟨front, b, rest, rfl, hfront, hb⟩ := exists_first_blank h
    have hread : readRequest .endOfStream (front ++ b :: rest) = .ok (requestText front) :=
      readRequest_append hfront hb rest
    refine ⟨⟨_, hread⟩, fun hall env w hlines hending => exec_run_of_empty ?_⟩
    -- The blank line that ends the loop is the first of all.
    have hnil : front = [] := by
      rcases front with _ | ⟨l, front⟩
      · rfl
      · have hl := hall l (by simp)
        rw [hfront l List.mem_cons_self] at hl
        cases hl
    rw [hlines, hending, hread, hnil]
    rfl

/-- A client that connects and closes at once, and one that closes after its request line. -/
theorem closed_stream_not_survived :
    ¬ Survives [] ∧ ¬ Survives [⟨"GET / HTTP/1.1".toList, by decide⟩] :=
  ⟨not_survives_of_no_blank (by simp), not_survives_of_no_blank (by decide)⟩

/-! ## The request line -/

/-- What `run` makes of a request of these lines and a blank one after them. -/
def parseLines (lines : List Line) : Except Throwable (Option (Text × Text)) :=
  (readRequest .endOfStream (lines ++ [blankLine])).map parse

theorem parseLines_eq {lines : List Line} (h : ∀ l ∈ lines, Text.isBlank l.text = false) :
    parseLines lines = .ok (parse (requestText lines)) := by
  rw [parseLines, readRequest_append h rfl]
  rfl

/-- What comes after the first space of a request is not all spaces, since it ends a line. -/
theorem exists_ne_space (c s : Text) : ∃ x ∈ c ++ crlf ++ s, x ≠ ' ' :=
  ⟨'\r', by simp [crlf], by decide⟩

/-- The tokens of a request whose first line has a space. -/
theorem split_request {f : Line} {a c : Text} (hf : f.text = a ++ ' ' :: c) (ha : ' ' ∉ a)
    (headers : List Line) :
    Text.split ' ' (requestText (f :: headers)) =
      a :: Text.split ' ' (c ++ crlf ++ requestText headers) := by
  have htext : requestText (f :: headers) = a ++ ' ' :: (c ++ crlf ++ requestText headers) := by
    simp [requestText, hf]
  rw [htext, Text.split_append_cons ha (exists_ne_space c _)]

theorem requestText_ne_nil (f : Line) (headers : List Line) : requestText (f :: headers) ≠ [] := by
  simp [requestText, crlf]

/-- Behind two spaces the header lines are out of the way. -/
theorem parse_of_two_spaces {f : Line} {a b d : Text} (hf : f.text = a ++ ' ' :: (b ++ ' ' :: d))
    (ha : ' ' ∉ a) (hb : ' ' ∉ b) (headers : List Line) :
    parse (requestText (f :: headers)) = if b = favicon then none else some (a, b) := by
  have hrest : b ++ ' ' :: d ++ crlf ++ requestText headers =
      b ++ ' ' :: (d ++ crlf ++ requestText headers) := by simp
  rw [parse, if_neg (requestText_ne_nil f headers), split_request hf ha, hrest,
    Text.split_append_cons hb (exists_ne_space d _)]

/-- With one space the line end goes into the route. -/
theorem parse_of_one_space {f : Line} {a c : Text} (hf : f.text = a ++ ' ' :: c) (ha : ' ' ∉ a)
    (hc : ' ' ∉ c) : parse (requestText [f]) = some (a, c ++ crlf) := by
  have hspace : ' ' ∉ c ++ crlf ++ requestText [] := by
    simpa [requestText, crlf] using hc
  have hroute : c ++ crlf ++ requestText [] = c ++ crlf := by simp [requestText]
  have hne : c ++ crlf ≠ favicon := by
    intro h
    have hcr : '\r' ∈ c ++ crlf := by simp [crlf]
    rw [h] at hcr
    exact absurd hcr (by decide)
  rw [parse, if_neg (requestText_ne_nil f []), split_request hf ha, Text.split_of_notMem hspace,
    hroute]
  exact if_neg hne

/-- The header lines do not change what is parsed, and no line end gets into it. -/
def RequestLineDecides (f : Line) : Prop :=
  ∀ h₁ h₂ : List Line, (∀ l ∈ h₁ ++ h₂, Text.isBlank l.text = false) →
    parseLines (f :: h₁) = parseLines (f :: h₂) ∧
      ∀ method route, parseLines (f :: h₁) = .ok (some (method, route)) →
        ∀ c ∈ method ++ route, c ≠ '\r' ∧ c ≠ '\n'

theorem requestLineDecides_of_two_spaces {f : Line} (hf : Text.isBlank f.text = false)
    (h : 2 ≤ f.text.count ' ') : RequestLineDecides f := by
  have hmem : ' ' ∈ f.text := List.count_pos_iff.1 (by omega)
  obtain ⟨a, c, hac, ha⟩ := List.eq_append_cons_of_mem hmem
  have hcount : 1 ≤ c.count ' ' := by
    rw [hac, List.count_append, List.count_eq_zero_of_not_mem ha, List.count_cons_self] at h
    omega
  obtain ⟨b, d, rfl, hb⟩ := List.eq_append_cons_of_mem (List.count_pos_iff.1 hcount)
  have hparse : ∀ headers : List Line, (∀ l ∈ headers, Text.isBlank l.text = false) →
      parseLines (f :: headers) = .ok (if b = favicon then none else some (a, b)) := by
    intro headers hheaders
    rw [parseLines_eq (by simpa [hf] using hheaders), parse_of_two_spaces hac ha hb]
  intro h₁ h₂ hh
  rw [hparse h₁ fun l hl => hh l (List.mem_append_left _ hl),
    hparse h₂ fun l hl => hh l (List.mem_append_right _ hl)]
  refine ⟨rfl, fun method route heq e he => ?_⟩
  split_ifs at heq with hfavicon
  · cases heq
  · cases heq
    have hline : e ∈ f.text := by
      rw [hac]
      rcases List.mem_append.1 he with he | he <;> simp [he]
    exact ⟨fun hcr => f.oneLine.2 (hcr ▸ hline), fun hlf => f.oneLine.1 (hlf ▸ hline)⟩

def hostLine : Line := ⟨"Host: a".toList, by decide⟩

/-- Without a space there is one token, until a header line brings a space. -/
theorem parse_of_no_space {f : Line} (h : ' ' ∉ f.text) : parse (requestText [f]) = none := by
  have hspace : ' ' ∉ requestText [f] := by
    simpa [requestText, crlf] using h
  rw [parse, if_neg (requestText_ne_nil f []), Text.split_of_notMem hspace]

theorem parse_with_hostLine {f : Line} (h : ' ' ∉ f.text) :
    parse (requestText [f, hostLine]) =
      some (f.text ++ crlf ++ "Host:".toList, "a\r\n".toList) := by
  have hline : hostLine.text ++ crlf = "Host:".toList ++ ' ' :: "a\r\n".toList := by decide
  have htext : requestText [f, hostLine] = f.text ++ crlf ++ (hostLine.text ++ crlf) := by
    simp [requestText]
  have hsplit : requestText [f, hostLine] =
      (f.text ++ crlf ++ "Host:".toList) ++ ' ' :: "a\r\n".toList := by
    rw [htext, hline, List.append_assoc, List.append_assoc, List.append_assoc]
  have hfirst : ' ' ∉ f.text ++ crlf ++ "Host:".toList := by
    simpa [crlf] using h
  rw [parse, if_neg (requestText_ne_nil f _), hsplit,
    Text.split_append_cons hfirst ⟨'a', by decide, by decide⟩,
    Text.split_of_notMem (by decide)]
  exact if_neg (by decide)

theorem two_spaces_of_requestLineDecides {f : Line} (hf : Text.isBlank f.text = false)
    (h : RequestLineDecides f) : 2 ≤ f.text.count ' ' := by
  by_contra hlt
  by_cases hmem : ' ' ∈ f.text
  · obtain ⟨a, c, hac, ha⟩ := List.eq_append_cons_of_mem hmem
    have hc : ' ' ∉ c := by
      intro hc
      have hpos := List.count_pos_iff.2 hc
      rw [hac, List.count_append, List.count_cons_self] at hlt
      omega
    have hparse : parseLines [f] = .ok (parse (requestText [f])) :=
      parseLines_eq (by simpa using hf)
    rw [parse_of_one_space hac ha hc] at hparse
    have hcrlf := (h [] [] (by simp)).2 a (c ++ crlf) hparse '\r' (by simp [crlf])
    exact hcrlf.1 rfl
  · -- The first token comes from the request line, the second from a header line.
    have hsame := (h [] [hostLine] (by decide)).1
    rw [parseLines_eq (by simpa using hf), parseLines_eq (by simpa [hf] using by decide),
      parse_of_no_space hmem, parse_with_hostLine hmem] at hsame
    cases hsame

/-- Only the request line decides, and no line end gets into the method and the route, exactly when
the request line has two spaces. -/
theorem requestLineDecides_iff (f : Line) (hf : Text.isBlank f.text = false) :
    RequestLineDecides f ↔ 2 ≤ f.text.count ' ' :=
  ⟨two_spaces_of_requestLineDecides hf, requestLineDecides_of_two_spaces hf⟩

theorem getRoot_oneLine : '\n' ∉ "GET / HTTP/1.1".toList ∧ '\r' ∉ "GET / HTTP/1.1".toList := by
  decide

/-- The request line of a browser. -/
def getRoot : Line := ⟨"GET / HTTP/1.1".toList, getRoot_oneLine⟩

theorem requestLineDecides_iff_getRoot :
    Text.isBlank getRoot.text = false ∧
      (RequestLineDecides getRoot ↔ 2 ≤ getRoot.text.count ' ') :=
  ⟨by decide, requestLineDecides_iff getRoot (by decide)⟩

/-- The request line of a client that does not name a version. -/
def getRootOnly : Line := ⟨"GET /".toList, by decide⟩

theorem header_in_route :
    Text.isBlank getRootOnly.text = false ∧ ¬ RequestLineDecides getRootOnly := by
  refine ⟨by decide, fun h => ?_⟩
  have htwo := two_spaces_of_requestLineDecides (by decide) h
  exact absurd htwo (by decide)

end RequestThread
