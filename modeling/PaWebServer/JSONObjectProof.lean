import PaWebServer.JSONObject
import PaWebServer.Lib.Json

/-!
# When a JSON object is JSON

A line of `toString` is the members of a JSON object, for keys and strings that need no escapes.
Between two lines there is no comma, so the whole text is JSON exactly when it has at most one line
(`toString_isText_iff`).
-/

namespace JSONObject

open Json

/-! ## Members -/

/-- The text between quotes is a JSON string. -/
def Printable (s : Text) : Prop := ∃ us, Body s us

/-- The value is no string, or one that can be printed. -/
def Value.Printable (value : Value) : Prop := ∀ s, value = .string s → JSONObject.Printable s

theorem printable_of_unescaped {s : Text} (h : ∀ c ∈ s, unescaped c) : Printable s :=
  ⟨_, body_of_unescaped h⟩

theorem Value.Printable.derives {value : Value} (h : value.Printable) :
    ∃ v, ∀ r, Derives (value.text ++ r) v r := by
  cases value with
  | string s =>
    obtain ⟨us, hs⟩ := h s rfl
    refine ⟨.string us, fun r => ?_⟩
    rw [Value.text, List.cons_append, List.append_assoc]
    exact .string (hs r)
  | int n => exact ⟨.number n, derives_decimal n⟩
  | bool b =>
    cases b with
    | true => exact ⟨.bool true, fun r => .true_⟩
    | false => exact ⟨.bool false, fun r => .false_⟩
  | null => exact ⟨.null, fun r => .null⟩

/-- The key and the value can be printed. -/
def PrintablePair (key : Text) (value : Value) : Prop := Printable key ∧ value.Printable

theorem append_member (w : Text) (p : Pair) (r : Text) :
    w ++ (member p ++ r) = memberText w p.1 (p.2.text ++ r) := by
  simp [member, memberText]

theorem append_members_cons (w : Text) (p q : Pair) (ps : List Pair) (r : Text) :
    w ++ (members (p :: q :: ps) ++ r) =
      memberText w p.1 (p.2.text ++ ',' :: (" ".toList ++ (members (q :: ps) ++ r))) := by
  rw [← append_member, members_cons_cons]
  simp

theorem exists_members_eq {ps : List Pair} (h : ps ≠ []) : ∃ t, members ps = '"' :: t := by
  match ps, h with
  | [p], _ => exact ⟨_, rfl⟩
  | p :: q :: ps, _ => exact ⟨_, rfl⟩

theorem space_ws : ∀ c ∈ " ".toList, isWs c := List.all_eq_true.1 rfl

section

variable {w : Text} {ps : List Pair} (hw : ∀ c ∈ w, isWs c) (hne : ps ≠ [])
  (hps : ∀ p ∈ ps, PrintablePair p.1 p.2)

include hw hne hps

/-- What is printed for the pairs is members of an object, up to white space after them. -/
theorem exists_derives_members {s r : Text} (hs : Ws s r) :
    ∃ ms, Members (w ++ (members ps ++ s)) ms r := by
  induction ps generalizing w with
  | nil => exact absurd rfl hne
  | cons p ps ih =>
    obtain ⟨⟨k, hkey⟩, hvalue⟩ := hps p List.mem_cons_self
    obtain ⟨v, hv⟩ := hvalue.derives
    cases ps with
    | nil =>
      rw [members, append_member]
      exact ⟨_, .one (.of_memberText hw hkey (hv s) hs)⟩
    | cons q ps =>
      obtain ⟨ms, hms⟩ :=
        ih space_ws (by simp) fun p hp => hps p (List.mem_cons_of_mem _ hp)
      rw [append_members_cons]
      exact ⟨_, .cons (.of_memberText hw hkey (hv _) .nil) hms⟩

/-- The members of one line with those of another one after it, on the next line, are not the
members of an object. -/
theorem not_members_of_quote_after {s t r : Text} {ms : List (List ℕ × Json.Value)}
    (hs : Follow s) (ht : Ws s ('"' :: t)) (hr : Closing r) :
    ¬ Members (w ++ (members ps ++ s)) ms r := by
  induction ps generalizing w ms with
  | nil => exact absurd rfl hne
  | cons p ps ih =>
    obtain ⟨⟨k, hkey⟩, hvalue⟩ := hps p List.mem_cons_self
    obtain ⟨v, hv⟩ := hvalue.derives
    cases ps with
    | nil =>
      rw [members, append_member]
      exact Members.not_quote_after hw hkey (hv s) hs ht hr
    | cons q ps =>
      rw [append_members_cons]
      intro h
      obtain ⟨ms', -, h⟩ := h.uncons hr (.of_memberText hw hkey (hv _) .nil)
      exact ih space_ws (by simp) (fun p hp => hps p (List.mem_cons_of_mem _ hp)) h

end

/-! ## Lines -/

variable {logs : List Iteration}

theorem mem_printed_iff {log : Iteration} : log ∈ printed logs ↔ log ∈ logs ∧ log.entries ≠ [] := by
  simp [printed]

/-- A line in braces is an object. -/
theorem line_isText {log : Iteration} (hne : log.entries ≠ [])
    (hps : ∀ p ∈ log.entries, PrintablePair p.1 p.2) :
    ∃ v, IsText ('{' :: (line log ++ ['}'])) v := by
  obtain ⟨ms, hms⟩ := exists_derives_members indent_ws hne hps (.nil (s := ['}']))
  refine ⟨.object ms, _, [], .nil, .object ?_, .nil⟩
  rwa [line, List.append_assoc]

theorem toString_of_printed_nil (h : printed logs = []) : ∃ v, IsText (toString logs) v := by
  rw [toString_eq, h]
  exact ⟨.object [], _, [], .nil, .emptyObject (.cons rfl .nil), .nil⟩

/-- The text from its first line on. -/
theorem toString_of_printed_cons {log : Iteration} {rest : List Iteration}
    (h : printed logs = log :: rest) :
    toString logs = '{' :: ("\n  ".toList ++ (members log.entries ++
      '\n' :: (rest.flatMap (fun log => line log ++ ['\n']) ++ ['}']))) := by
  rw [toString_eq, h, List.flatMap_cons, line]
  simp

theorem toString_of_printed_one {log : Iteration} (h : printed logs = [log])
    (hps : ∀ p ∈ log.entries, PrintablePair p.1 p.2) : ∃ v, IsText (toString logs) v := by
  have hmem : log ∈ printed logs := h ▸ List.mem_singleton_self log
  obtain ⟨ms, hms⟩ := exists_derives_members newline_indent_ws (mem_printed_iff.1 hmem).2 hps
    (.cons (c := '\n') rfl .nil : Ws ['\n', '}'] ['}'])
  rw [toString_of_printed_cons h]
  exact ⟨.object ms, _, [], .nil, .object hms, .nil⟩

/-- After the first line the text goes on with the key of the second one, and not with a comma. -/
theorem not_isText_of_two {log log' : Iteration} {rest : List Iteration}
    (h : printed logs = log :: log' :: rest) (hps : ∀ p ∈ log.entries, PrintablePair p.1 p.2) :
    ¬ ∃ v, IsText (toString logs) v := by
  have hmem (l : Iteration) (hl : l ∈ log :: log' :: rest) : l.entries ≠ [] :=
    (mem_printed_iff.1 (h ▸ hl)).2
  have hfirst := hmem log List.mem_cons_self
  obtain ⟨t, ht⟩ := exists_members_eq (hmem log' (by simp))
  rintro ⟨v, hv⟩
  rw [toString_of_printed_cons h] at hv
  obtain ⟨r, -, ⟨-, hws⟩ | ⟨ms, -, hms⟩⟩ := hv.of_brace
  · obtain ⟨u, hu⟩ := exists_members_eq hfirst
    rw [hu] at hws
    have heq := (ws_append newline_indent_ws).unique hws (stops_cons.2 rfl) (stops_cons.2 rfl)
    cases heq
  · rw [List.flatMap_cons, line, ht] at hms
    refine not_members_of_quote_after newline_indent_ws hfirst hps ?_
      (.cons rfl (.cons rfl (.cons rfl .nil))) closing_brace hms
    simp [Follow, follows, isWs]

/-- Whatever is put, with keys and strings that stand between quotes as they are, and in whatever
orders the entries are met: the text is JSON exactly when at most one entry is not empty, and each
line of it is, in braces, JSON. -/
theorem toString_isText_iff (ops : List Op) (logs : List Iteration)
    (hit : Iterates logs (run ops))
    (hops : ∀ key value, .put key value ∈ ops → PrintablePair key value) :
    ((∃ v, IsText (toString logs) v) ↔ ((run ops).filter (· ≠ ∅)).length ≤ 1) ∧
      ∀ log ∈ printed logs, ∃ v, IsText ('{' :: (line log ++ ['}'])) v := by
  have hpairs := (everyPair_run hops).of_iterates hit
  refine ⟨?_, fun log hlog => line_isText (mem_printed_iff.1 hlog).2 (hpairs log hlog)⟩
  rw [← map_printed hit, List.length_map]
  cases h : printed logs with
  | nil => exact iff_of_true (toString_of_printed_nil h) (by simp)
  | cons log rest =>
    have hlog := hpairs log (h ▸ List.mem_cons_self)
    cases rest with
    | nil => exact iff_of_true (toString_of_printed_one h hlog) (by simp)
    | cons log' rest => exact iff_of_false (not_isText_of_two h hlog) (by simp)

/-- Two pairs with an entry between them. -/
def sampleOps : List Op :=
  [.put "key1".toList (.string "value1".toList), .newEntry, .put "key2".toList (.int 123)]

def sampleLogs : List Iteration :=
  [AList.singleton "key1".toList (.string "value1".toList),
    AList.singleton "key2".toList (.int 123)]

example : toString sampleLogs = "\x7b\n  \"key1\": \"value1\"\n  \"key2\": 123\n\x7d".toList := by
  decide +kernel

theorem sampleOps_printable (key : Text) (value : Value) (h : .put key value ∈ sampleOps) :
    PrintablePair key value := by
  simp only [sampleOps, List.mem_cons, Op.put.injEq, reduceCtorEq, List.not_mem_nil, or_false,
    false_or] at h
  rcases h with ⟨rfl, rfl⟩ | ⟨rfl, rfl⟩
  · refine ⟨printable_of_unescaped (List.all_eq_true.1 rfl), ?_⟩
    rintro s ⟨⟩
    exact printable_of_unescaped (List.all_eq_true.1 rfl)
  · refine ⟨printable_of_unescaped (List.all_eq_true.1 rfl), ?_⟩
    rintro s ⟨⟩

theorem toString_isText_iff_sample :
    ((∃ v, IsText (toString sampleLogs) v) ↔ ((run sampleOps).filter (· ≠ ∅)).length ≤ 1) ∧
      ∀ log ∈ printed sampleLogs, ∃ v, IsText ('{' :: (line log ++ ['}'])) v :=
  toString_isText_iff sampleOps sampleLogs (by decide) sampleOps_printable

/-- A key that is a quote. -/
def quotedLogs : List Iteration := [AList.singleton "\"".toList .null]

/-- Two entries are printed without a comma between them, and a quote without an escape. -/
theorem toString_not_json :
    (Iterates sampleLogs (run sampleOps) ∧ ¬ ∃ v, IsText (toString sampleLogs) v) ∧
      Iterates quotedLogs (run [.put "\"".toList .null]) ∧
        ¬ ∃ v, IsText (toString quotedLogs) v := by
  have hit : Iterates sampleLogs (run sampleOps) := by decide
  have hpairs := (everyPair_run sampleOps_printable).of_iterates hit
  refine ⟨⟨hit, not_isText_of_two rfl (hpairs _ List.mem_cons_self)⟩, by decide, ?_⟩
  rintro ⟨v, hv⟩
  have htext : toString quotedLogs =
      '{' :: ("\n  ".toList ++ '"' :: '"' :: "\": null\n\x7d".toList) := by decide
  rw [htext] at hv
  obtain ⟨r, -, ⟨-, hws⟩ | ⟨ms, -, hms⟩⟩ := hv.of_brace
  · have heq := (ws_append newline_indent_ws).unique hws (stops_cons.2 rfl) (stops_cons.2 rfl)
    cases heq
  · obtain ⟨m, s, hm⟩ : ∃ m s,
        Member ("\n  ".toList ++ '"' :: '"' :: "\": null\n\x7d".toList) m s := by
      cases hms with
      | one hm | cons hm => exact ⟨_, _, hm⟩
    cases hm with
    | mk h₁ hk h₂ =>
      obtain ⟨-, rfl⟩ := List.cons.inj
        (h₁.unique (ws_append newline_indent_ws) (stops_cons.2 rfl) (stops_cons.2 rfl))
      -- The key ends at the quote that was put, and no colon follows it.
      obtain ⟨-, rfl⟩ := hk.unique .close
      have heq := h₂.unique .nil (stops_cons.2 rfl) (stops_cons.2 rfl)
      cases heq

end JSONObject
