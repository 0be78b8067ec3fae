import PaWebServer.Lib.PrefixCode
import PaWebServer.LogFile

/-!
# Reading the log back

A method, a route and an address without a space end at the first space of the text after them, and
a timestamp without a quote ends at the first quote.  So an entry can be told from what follows it
(`prefixFree_logEntry`) whatever else the client has put into its request, and a log file that is
closed in each of its sessions is the file of these sessions only (`closing_injective`).
-/

namespace LogsHandler

/-- The fields of a request that has been split at spaces, and a timestamp as it is formatted. -/
structure LogCall.Spaceless (c : LogCall) : Prop where
  route : ' ' ∉ c.route
  method : ' ' ∉ c.method
  origin : ' ' ∉ c.origin
  timestamp : '"' ∉ c.timestamp

/-- What stands between a field and the space after it. -/
def fieldEnd : Text := "\",".toList

/-- The keys of the format string, each with what stands before its value. -/
def routeLabel : Text := "  \"route\": \"".toList

def methodLabel : Text := "\"method\": \"".toList

def originLabel : Text := "\"origin\": \"".toList

def statusLabel : Text := "\"HTTP response status\": ".toList

def timestampLabel : Text := " \"timestamp\": \"".toList

theorem logEntry_append (c : LogCall) (r : Text) :
    logEntry c ++ r = routeLabel ++ (c.route ++ fieldEnd ++ [' '] ++ (methodLabel ++
      (c.method ++ fieldEnd ++ [' '] ++ (originLabel ++ (c.origin ++ fieldEnd ++ [' '] ++
        (statusLabel ++ (Text.decimal c.statusHttp ++ [','] ++ (timestampLabel ++
          (c.timestamp ++ ['"'] ++ (",\n".toList ++ r)))))))))) := by
  show routeLabel ++ c.route ++ (fieldEnd ++ [' '] ++ methodLabel) ++ c.method ++
      (fieldEnd ++ [' '] ++ originLabel) ++ c.origin ++ (fieldEnd ++ [' '] ++ statusLabel) ++
      Text.decimal c.statusHttp ++ ([','] ++ timestampLabel) ++ c.timestamp ++
      (['"'] ++ ",\n".toList) ++ r = _
  simp only [List.append_assoc]

/-- A field ends at the first space. -/
theorem field_unique {s t x y : Text} (hs : ' ' ∉ s) (ht : ' ' ∉ t)
    (h : s ++ fieldEnd ++ [' '] ++ x = t ++ fieldEnd ++ [' '] ++ y) : s = t ∧ x = y := by
  have hend : ' ' ∉ fieldEnd := by decide
  obtain ⟨hst, hxy⟩ := prefixFree_terminated ' ' (s ++ fieldEnd) (t ++ fieldEnd)
    (by simp [hs, hend]) (by simp [ht, hend]) x y h
  exact ⟨List.append_cancel_right hst, hxy⟩

theorem decimal_injective : Function.Injective Text.decimal := by
  intro m n h
  have hm := Text.ofDecimal?_decimal m
  rw [h, Text.ofDecimal?_decimal] at hm
  exact (Option.some.inj hm).symm

theorem comma_notMem_decimal (n : ℤ) : ',' ∉ Text.decimal n := by
  intro h
  rcases Text.isDigit_of_mem_decimal h with h | h
  · exact absurd h (by decide)
  · exact absurd h (by decide)

/-- An entry can be told from what follows it. -/
theorem prefixFree_logEntry : PrefixFree LogCall.Spaceless logEntry := by
  intro c d hc hd r s h
  rw [logEntry_append, logEntry_append] at h
  obtain ⟨hroute, h⟩ := field_unique hc.route hd.route (List.append_cancel_left h)
  obtain ⟨hmethod, h⟩ := field_unique hc.method hd.method (List.append_cancel_left h)
  obtain ⟨horigin, h⟩ := field_unique hc.origin hd.origin (List.append_cancel_left h)
  obtain ⟨hstatus, h⟩ := prefixFree_terminated ',' _ _ (comma_notMem_decimal _)
    (comma_notMem_decimal _) _ _ (List.append_cancel_left h)
  obtain ⟨htimestamp, h⟩ := prefixFree_terminated '"' _ _ hc.timestamp hd.timestamp _ _
    (List.append_cancel_left h)
  refine ⟨?_, List.append_cancel_left h⟩
  obtain ⟨method, route, origin, statusHttp, timestamp⟩ := c
  obtain ⟨method', route', origin', statusHttp', timestamp'⟩ := d
  obtain rfl := decimal_injective hstatus
  simp only at hroute hmethod horigin htimestamp
  rw [hroute, hmethod, horigin, htimestamp]

/-! ## Sessions -/

/-- The text of the line of spaces that ends a session. -/
def blankText : Text := "  \n".toList

/-- The text of the line of the bracket. -/
def bracketText : Text := "\x7d\n".toList

/-- The text of a session: its entries and the line of spaces. -/
def sessionText (es : List LogCall) : Text := es.flatMap logEntry ++ blankText

theorem blankText_eq : blankText = [' ', ' ', '\n'] := by decide

theorem bracketText_eq : bracketText = ['\x7d', '\n'] := by decide

theorem exists_routeLabel_eq : ∃ label, routeLabel = ' ' :: ' ' :: '"' :: label := ⟨_, rfl⟩

/-- An entry begins with two spaces and a quote. -/
theorem exists_logEntry_append (c : LogCall) (r : Text) :
    ∃ rest, logEntry c ++ r = ' ' :: ' ' :: '"' :: rest := by
  obtain ⟨label, hlabel⟩ := exists_routeLabel_eq
  rw [logEntry_append, hlabel]
  exact ⟨_, rfl⟩

theorem noWord_blankText (r : Text) : NoWord LogCall.Spaceless logEntry (blankText ++ r) := by
  intro c _ s h
  obtain ⟨rest, hrest⟩ := exists_logEntry_append c s
  rw [hrest, blankText_eq] at h
  simp at h

theorem prefixFree_sessionText :
    PrefixFree (fun es : List LogCall => ∀ c ∈ es, c.Spaceless) sessionText :=
  prefixFree_logEntry.block noWord_blankText

theorem noWord_bracketText :
    NoWord (fun es : List LogCall => ∀ c ∈ es, c.Spaceless) sessionText bracketText := by
  intro es _ s h
  rw [bracketText_eq, sessionText] at h
  cases es with
  | nil =>
    rw [blankText_eq] at h
    simp at h
  | cons c es =>
    rw [List.flatMap_cons, List.append_assoc, List.append_assoc] at h
    obtain ⟨rest, hrest⟩ := exists_logEntry_append c (es.flatMap logEntry ++ (blankText ++ s))
    rw [hrest] at h
    simp at h

theorem utf8_flatMap {α : Type*} (f : α → Text) (l : List α) :
    Text.utf8 (l.flatMap f) = l.flatMap fun a => Text.utf8 (f a) := List.flatMap_assoc

/-- Processes that all close the log add their sessions to what the first of them leaves of the
file. -/
theorem runAll_closing (file : Option Bytes) (first : List LogCall)
    (rest : List (List LogCall)) :
    runAll file (closing (first :: rest)) =
      some (initializeFile file ++
        Text.utf8 ((first :: rest).flatMap sessionText ++ bracketText)) := by
  have hrun := Process.run_eq ⟨first, true⟩ file
  have hrest := runAll_closed (initializeFile file ++ first.flatMap entryBytes) rest
  have hsession : ∀ es, Text.utf8 (sessionText es) = es.flatMap entryBytes ++ blankLine := by
    intro es
    rw [sessionText, Text.utf8_append, utf8_flatMap]
    rfl
  rw [if_pos rfl, utf8_trailer_split, ← List.append_assoc] at hrun
  simp only [runAll, closing, List.map_cons, List.foldl_cons, hrun] at hrest ⊢
  rw [hrest, Text.utf8_append, utf8_flatMap]
  simp only [hsession, List.flatMap_cons, List.append_assoc]
  rfl

/-- At most three bytes of a file are cut. -/
theorem length_le_initializeFile (f : Bytes) : f.length ≤ (initializeFile (some f)).length + 3 := by
  unfold initializeFile removeClosingBracket
  dsimp only
  split_ifs
  · omega
  · omega
  · rw [List.length_take]
    omega
  · rw [List.length_take]
    omega

/-- A session leaves a file that is not the one it has found. -/
theorem runAll_closing_ne (file : Option Bytes) (first : List LogCall)
    (rest : List (List LogCall)) : runAll file (closing (first :: rest)) ≠ file := by
  rw [runAll_closing]
  cases file with
  | none => exact Option.some_ne_none _
  | some f =>
    intro h
    have hlength := congrArg List.length (Option.some.inj h)
    have hcut := length_le_initializeFile f
    have hblank : (Text.utf8 blankText).length = 3 := by decide
    have hbracket : (Text.utf8 bracketText).length = 2 := by decide
    rw [List.flatMap_cons, sessionText] at hlength
    simp only [Text.utf8_append, List.length_append, hblank, hbracket] at hlength
    omega

/-- Two histories of sessions, each of any number of entries and closed at its end, leave the same
file only if they are the same sessions with the same entries in the same order. -/
theorem closing_injective {file : Option Bytes} {ss ts : List (List LogCall)}
    (hss : ∀ es ∈ ss, ∀ c ∈ es, c.Spaceless) (hts : ∀ es ∈ ts, ∀ c ∈ es, c.Spaceless)
    (h : runAll file (closing ss) = runAll file (closing ts)) : ss = ts := by
  cases ss with
  | nil =>
    cases ts with
    | nil => rfl
    | cons t ts => exact absurd h.symm (runAll_closing_ne file t ts)
  | cons s ss =>
    cases ts with
    | nil => exact absurd h (runAll_closing_ne file s ss)
    | cons t ts =>
      rw [runAll_closing, runAll_closing] at h
      have htext := Text.utf8_injective (List.append_cancel_left (Option.some.inj h))
      exact (prefixFree_sessionText.flatMap_append hss hts noWord_bracketText
        noWord_bracketText htext).1

end LogsHandler
