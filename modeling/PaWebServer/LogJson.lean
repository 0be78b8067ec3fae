import PaWebServer.Lib.Json
import PaWebServer.LogFile
import PaWebServer.RequestThread

/-!
# The log as JSON

`logRequest` puts the fields of a request between quotes as they are, so the text of an entry is
five members of a JSON object for as long as no field holds a quote, a backslash or a control
character.  Each entry brings the comma after it, and `closeLogs` writes the brace after the last
one.
-/

namespace LogsHandler

open Json

/-! ## The members of an entry -/

/-- The text can stand between quotes as it is. -/
def IsPlain (s : Text) : Prop := ∀ c ∈ s, unescaped c

instance (s : Text) : Decidable (IsPlain s) := List.decidableBAll _ s

/-- No field of the request holds a quote, a backslash or a control character. -/
structure LogCall.Plain (c : LogCall) : Prop where
  route : IsPlain c.route
  method : IsPlain c.method
  origin : IsPlain c.origin
  timestamp : IsPlain c.timestamp

def routeKey : Text := "route".toList

def methodKey : Text := "method".toList

def originKey : Text := "origin".toList

def statusKey : Text := "HTTP response status".toList

def timestampKey : Text := "timestamp".toList

/-- The members that an entry is meant to be. -/
def LogCall.fields (c : LogCall) : List (List ℕ × Value) :=
  [(utf16 routeKey, .string (utf16 c.route)), (utf16 methodKey, .string (utf16 c.method)),
    (utf16 originKey, .string (utf16 c.origin)), (utf16 statusKey, .number c.statusHttp),
    (utf16 timestampKey, .string (utf16 c.timestamp))]

def space : Text := [' ']

/-- The five members of an entry, after the white space `w` and before the text `r`. -/
def membersText (w : Text) (c : LogCall) (r : Text) : Text :=
  memberText w routeKey (stringText c.route ++ ',' ::
    memberText space methodKey (stringText c.method ++ ',' ::
      memberText space originKey (stringText c.origin ++ ',' ::
        memberText space statusKey (Text.decimal c.statusHttp ++ ',' ::
          memberText space timestampKey (stringText c.timestamp ++ r)))))

theorem logEntry_eq (c : LogCall) : logEntry c = membersText "  ".toList c ",\n".toList := by
  -- The pieces of the format string, cut where a member begins.
  show ("  ".toList ++ '"' :: (routeKey ++ ['"', ':', ' ', '"'])) ++ c.route ++
      ('"' :: ',' :: (space ++ '"' :: (methodKey ++ ['"', ':', ' ', '"']))) ++ c.method ++
      ('"' :: ',' :: (space ++ '"' :: (originKey ++ ['"', ':', ' ', '"']))) ++ c.origin ++
      ('"' :: ',' :: (space ++ '"' :: (statusKey ++ ['"', ':', ' ']))) ++
      Text.decimal c.statusHttp ++
      (',' :: (space ++ '"' :: (timestampKey ++ ['"', ':', ' ', '"']))) ++ c.timestamp ++
      '"' :: ",\n".toList = _
  simp only [membersText, memberText, stringText, List.append_assoc, List.cons_append,
    List.nil_append]

theorem membersText_append (w : Text) (c : LogCall) (r s : Text) :
    membersText w c r ++ s = membersText w c (r ++ s) := by
  simp only [membersText, memberText_append, List.append_assoc, List.cons_append]

theorem space_ws : ∀ c ∈ space, isWs c := List.all_eq_true.1 rfl

theorem routeKey_plain : IsPlain routeKey := by decide

theorem methodKey_plain : IsPlain methodKey := by decide

theorem originKey_plain : IsPlain originKey := by decide

theorem statusKey_plain : IsPlain statusKey := by decide

theorem timestampKey_plain : IsPlain timestampKey := by decide

/-! ## Plain entries -/

section

variable {w : Text} {c : LogCall}

theorem member_string {key raw : Text} (hw : ∀ c ∈ w, isWs c) (hkey : IsPlain key)
    (hraw : IsPlain raw) (r : Text) :
    Member (memberText w key (stringText raw ++ r)) (utf16 key, .string (utf16 raw)) r :=
  .of_memberText hw (body_of_unescaped hkey) (derives_stringText hraw r) .nil

theorem member_status (n : ℤ) (r : Text) :
    Member (memberText space statusKey (Text.decimal n ++ r)) (utf16 statusKey, .number n) r :=
  .of_memberText space_ws (body_of_unescaped statusKey_plain) (derives_decimal n r) .nil

theorem members_of_plain (hw : ∀ c ∈ w, isWs c) (hc : c.Plain) (r : Text) :
    Members (membersText w c r) c.fields r := by
  refine .cons (member_string hw routeKey_plain hc.route _) ?_
  refine .cons (member_string space_ws methodKey_plain hc.method _) ?_
  refine .cons (member_string space_ws originKey_plain hc.origin _) ?_
  refine .cons (member_status c.statusHttp _) ?_
  exact .one (member_string space_ws timestampKey_plain hc.timestamp r)

/-- After a plain entry and its comma the object goes on with more members. -/
theorem members_after_entry (hw : ∀ c ∈ w, isWs c) (hc : c.Plain) {s r : Text}
    {ms : List (List ℕ × Value)} (h : Members (membersText w c (',' :: s)) ms r)
    (hr : Closing r) : ∃ ms', Members s ms' r := by
  obtain ⟨ms₁, -, h⟩ := h.uncons hr (member_string hw routeKey_plain hc.route _)
  obtain ⟨ms₂, -, h⟩ := h.uncons hr (member_string space_ws methodKey_plain hc.method _)
  obtain ⟨ms₃, -, h⟩ := h.uncons hr (member_string space_ws originKey_plain hc.origin _)
  obtain ⟨ms₄, -, h⟩ := h.uncons hr (member_status c.statusHttp _)
  obtain ⟨ms₅, -, h⟩ := h.uncons hr (member_string space_ws timestampKey_plain hc.timestamp _)
  exact ⟨ms₅, h⟩

end

/-! ## An entry on its own -/

/-- The text of an entry without its comma and line end, in braces. -/
def objectText (c : LogCall) : Text := '{' :: ((logEntry c).dropLast.dropLast ++ ['}'])

theorem objectText_eq (c : LogCall) :
    objectText c = '{' :: membersText "  ".toList c ['}'] := by
  have hentry : logEntry c = membersText "  ".toList c [] ++ [',', '\n'] := by
    rw [logEntry_eq, membersText_append]
    rfl
  have hlast : (logEntry c).dropLast.dropLast = membersText "  ".toList c [] := by
    rw [hentry, List.dropLast_append_of_ne_nil (by simp), List.dropLast_append_of_ne_nil (by simp)]
    exact List.append_nil _
  rw [objectText, hlast, membersText_append]
  rfl

/-- A member that decodes to its own text is plain, and the next one follows it. -/
theorem plain_of_member {w key raw s r : Text} {ms : List (List ℕ × Value)}
    {m : List ℕ × Value} (hw : ∀ c ∈ w, isWs c) (hkey : IsPlain key)
    (h : Members (memberText w key (stringText raw ++ ',' :: s))
      ((utf16 key, .string (utf16 raw)) :: m :: ms) r) :
    IsPlain raw ∧ Members s (m :: ms) r := by
  cases h with
  | cons hm h =>
    obtain ⟨-, t, hv, ht⟩ := hm.memberText_inv hw (body_of_unescaped hkey) (stops_cons.2 rfl)
    obtain ⟨hraw, rfl⟩ := stringText_inv hv
    obtain ⟨-, rfl⟩ := List.cons.inj (ht.unique .nil (stops_cons.2 rfl) (stops_cons.2 rfl))
    exact ⟨hraw, h⟩

theorem plain_of_members {w : Text} {c : LogCall} {s r : Text} (hw : ∀ c ∈ w, isWs c)
    (hr : Closing r) (h : Members (membersText w c s) c.fields r) : c.Plain := by
  obtain ⟨hroute, h⟩ := plain_of_member hw routeKey_plain h
  obtain ⟨hmethod, h⟩ := plain_of_member space_ws methodKey_plain h
  obtain ⟨horigin, h⟩ := plain_of_member space_ws originKey_plain h
  obtain ⟨ms, hms, h⟩ := h.uncons hr (member_status c.statusHttp _)
  obtain ⟨-, rfl⟩ := List.cons.inj hms
  cases h with
  | one h =>
    obtain ⟨-, t, hv, -⟩ :=
      h.memberText_inv space_ws (body_of_unescaped timestampKey_plain) (stops_cons.2 rfl)
    exact ⟨hroute, hmethod, horigin, (stringText_inv hv).1⟩
  | cons _ h => cases h

theorem isText_of_plain {c : LogCall} (hc : c.Plain) :
    IsText (objectText c) (.object c.fields) := by
  rw [objectText_eq]
  exact ⟨_, [], .nil, .object (members_of_plain indent_ws hc _), .nil⟩

theorem plain_of_isText {c : LogCall} (h : IsText (objectText c) (.object c.fields)) :
    c.Plain := by
  rw [objectText_eq] at h
  obtain ⟨r, -, ⟨hv, -⟩ | ⟨ms, hv, h⟩⟩ := h.of_brace
  · cases hv
  · cases hv
    exact plain_of_members indent_ws closing_brace h

/-- An entry in braces is the object of its five fields, and no other value, exactly when each of
its fields can stand between quotes as it is. -/
theorem entry_decodes_iff (c : LogCall) :
    (∀ v, IsText (objectText c) v ↔ v = .object c.fields) ↔ c.Plain := by
  constructor
  · intro h
    exact plain_of_isText ((h _).2 rfl)
  · intro hc v
    constructor
    · intro h
      exact h.unique (isText_of_plain hc)
    · rintro rfl
      exact isText_of_plain hc

/-- The lines of a request whose route holds a quote. -/
def quotedRequest : List RequestThread.Line :=
  [⟨"GET /a\"b HTTP/1.1".toList, by decide⟩, RequestThread.blankLine]

/-- What `run` logs for it. -/
def quotedCall : LogCall where
  method := "GET".toList
  route := "/a\"b".toList
  origin := "127.0.0.1".toList
  statusHttp := 404
  timestamp := "2025-03-27 10:00:00".toList

/-- A client can choose a route with which the entry no longer decodes to the fields. -/
theorem quoted_route_not_decoded :
    (RequestThread.readRequest .endOfStream quotedRequest).map RequestThread.parse =
        .ok (some (quotedCall.method, quotedCall.route)) ∧
      ¬ ∀ v, IsText (objectText quotedCall) v ↔ v = .object quotedCall.fields := by
  constructor
  · rfl
  · intro h
    have hplain := plain_of_isText ((h _).2 rfl)
    exact absurd hplain.route (by decide)

/-! ## The closed file -/

/-- The bytes are a JSON text. -/
def JsonFile (file : Option Bytes) : Prop :=
  ∃ t v, file = some (Text.utf8 t) ∧ IsText t v

/-- What stands after the opening brace of a closed file. -/
def closedBody (es : List LogCall) : Text := '\n' :: (es.flatMap logEntry ++ trailer)

theorem closedBody_cons (e : LogCall) (es : List LogCall) :
    closedBody (e :: es) = membersText "\n  ".toList e (',' :: closedBody es) := by
  have hentry : '\n' :: logEntry e = membersText "\n  ".toList e ",\n".toList := by
    rw [logEntry_eq]
    rfl
  calc closedBody (e :: es)
      = ('\n' :: logEntry e) ++ (es.flatMap logEntry ++ trailer) := by simp [closedBody]
    _ = membersText "\n  ".toList e (',' :: closedBody es) := by
        rw [hentry, membersText_append]
        rfl

theorem run_closed (es : List LogCall) :
    (⟨es, true⟩ : Process).run none = some (Text.utf8 ('{' :: closedBody es)) := by
  have hentries : es.flatMap entryBytes = Text.utf8 (es.flatMap logEntry) := by
    show es.flatMap (fun e => Text.utf8 (logEntry e)) = _
    simp only [Text.utf8, List.flatMap_assoc]
  rw [Process.run_eq, hentries]
  show some (Text.utf8 header ++ Text.utf8 (es.flatMap logEntry) ++ Text.utf8 trailer) = _
  rw [← Text.utf8_append, ← Text.utf8_append, List.append_assoc]
  rfl

theorem jsonFile_run_iff (es : List LogCall) :
    JsonFile ((⟨es, true⟩ : Process).run none) ↔ ∃ v, IsText ('{' :: closedBody es) v := by
  constructor
  · rintro ⟨t, v, ht, hv⟩
    rw [run_closed] at ht
    obtain rfl := Text.utf8_injective (Option.some.inj ht)
    exact ⟨v, hv⟩
  · rintro ⟨v, hv⟩
    exact ⟨_, v, run_closed es, hv⟩

/-- Without entries there is only white space before the closing brace. -/
theorem ws_closedBody_nil : Ws (closedBody []) "\x7d\n".toList := by
  have hws : ∀ c ∈ "\n  \n".toList, isWs c := List.all_eq_true.1 rfl
  exact ws_append hws

/-- After the entries there is no member, although the last entry ends with a comma. -/
theorem not_members_closedBody {es : List LogCall} (hes : ∀ e ∈ es, e.Plain)
    {ms : List (List ℕ × Value)} {r : Text} : ¬ Members (closedBody es) ms ('}' :: r) := by
  induction es generalizing ms with
  | nil =>
    exact fun h => h.not_ws ws_closedBody_nil
  | cons e es ih =>
    intro h
    rw [closedBody_cons] at h
    obtain ⟨ms', h⟩ :=
      members_after_entry newline_indent_ws (hes e List.mem_cons_self) h closing_brace
    exact ih (fun d hd => hes d (List.mem_cons_of_mem _ hd)) h

theorem not_jsonFile_of_entry {e : LogCall} {es : List LogCall} (hes : ∀ d ∈ e :: es, d.Plain) :
    ¬ JsonFile ((⟨e :: es, true⟩ : Process).run none) := by
  rw [jsonFile_run_iff]
  rintro ⟨v, hv⟩
  obtain ⟨r, -, ⟨-, h⟩ | ⟨ms, -, h⟩⟩ := hv.of_brace
  · rw [closedBody_cons, membersText, memberText] at h
    have heq := h.unique (ws_append newline_indent_ws) (stops_cons.2 rfl) (stops_cons.2 rfl)
    cases heq
  · exact not_members_closedBody hes h

theorem jsonFile_of_no_entry : JsonFile ((⟨[], true⟩ : Process).run none) := by
  rw [jsonFile_run_iff]
  exact ⟨.object [], _, "\n".toList, .nil, .emptyObject ws_closedBody_nil, .cons rfl .nil⟩

/-- The closed log of plain requests is a JSON text exactly when no request has been logged. -/
theorem closed_log_json_iff (es : List LogCall) (hes : ∀ e ∈ es, e.Plain) :
    JsonFile ((⟨es, true⟩ : Process).run none) ↔ es = [] := by
  cases es with
  | nil => exact iff_of_true jsonFile_of_no_entry rfl
  | cons e es => exact iff_of_false (not_jsonFile_of_entry hes) (by simp)

theorem sampleCall_plain : sampleCall.Plain := by
  constructor <;> decide

theorem closed_log_json_iff_sample :
    JsonFile ((⟨[sampleCall], true⟩ : Process).run none) ↔ [sampleCall] = [] :=
  closed_log_json_iff [sampleCall] (by simpa using sampleCall_plain)

/-- One request that is logged and closed leaves a file that is not JSON. -/
theorem closed_log_of_one_not_json :
    sampleCall.Plain ∧ ¬ JsonFile ((⟨[sampleCall], true⟩ : Process).run none) :=
  ⟨sampleCall_plain, not_jsonFile_of_entry (by simpa using sampleCall_plain)⟩

end LogsHandler
