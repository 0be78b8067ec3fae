import PaWebServer.JSONObject

/-!
# Reading a printed object

Where no key and no string holds a quote or a newline, the text of `toString` determines the
entries: each of its lines is one entry, and a quote ends a key or a string wherever commas, colons
and braces may stand in it (`decode_toString`).
-/

namespace JSONObject

/-! ## The decoder -/

/-- What is before the first character `c` and what is after it. -/
def cut (c : Char) (t : Text) : Option (Text × Text) :=
  match t.dropWhile (· ≠ c) with
  | [] => none
  | _ :: r => some (t.takeWhile (· ≠ c), r)

/-- A value that is printed without quotes. -/
def decodeWord (w : Text) : Option Value :=
  if w = "true".toList then some (.bool true)
  else if w = "false".toList then some (.bool false)
  else if w = "null".toList then some .null
  else (Text.ofDecimal? w).map .int

/-- The value at the start of the text, and what is after it. -/
def decodeValue : Text → Option (Value × Text)
  | '"' :: t => (cut '"' t).map fun (s, r) => (.string s, r)
  | t => (decodeWord (t.takeWhile (· ≠ ','))).map fun v => (v, t.dropWhile (· ≠ ','))

/-- The pair at the start of the text, and what is after it. -/
def decodePair : Text → Option (Pair × Text)
  | '"' :: t =>
    (cut '"' t).bind fun
      | (key, ':' :: ' ' :: t) => (decodeValue t).map fun (v, r) => (⟨key, v⟩, r)
      | _ => none
  | _ => none

/-- Pairs with separators between them, up to the end of the text; there are at most as many as the
first argument. -/
def decodePairs : ℕ → Text → Option (List Pair)
  | 0, _ => none
  | n + 1, t =>
    (decodePair t).bind fun
      | (p, []) => some [p]
      | (p, ',' :: ' ' :: r) => (decodePairs n r).map (p :: ·)
      | _ => none

def decodeLine : Text → Option Entry
  | ' ' :: ' ' :: t => (decodePairs t.length t).map List.toFinmap
  | _ => none

/-- The entries of a printed text. -/
def decode : Text → Option (List Entry)
  | '{' :: '\n' :: t =>
    if (t.splitOn '\n').getLast? = some ['}'] then (Text.lines '\n' t).mapM decodeLine else none
  | _ => none

/-! ## Values and pairs -/

/-- The text holds neither a quote nor a newline. -/
def Plain (s : Text) : Prop := '"' ∉ s ∧ '\n' ∉ s

instance : DecidablePred Plain := fun s => inferInstanceAs (Decidable ('"' ∉ s ∧ '\n' ∉ s))

/-- Neither the key nor, if the value is a string, the value holds a quote or a newline. -/
def PlainPair (key : Text) (value : Value) : Prop :=
  Plain key ∧ ∀ s, value = .string s → Plain s

theorem decide_ne_of_notMem {c : Char} {s : Text} (h : c ∉ s) :
    ∀ d ∈ s, decide (d ≠ c) = true := fun d hd => by
  rw [decide_eq_true_eq]
  rintro rfl
  exact h hd

theorem cut_append {c : Char} {s : Text} (h : c ∉ s) (r : Text) :
    cut c (s ++ c :: r) = some (s, r) := by
  have hall := decide_ne_of_notMem h
  rw [cut, List.dropWhile_append_of_pos hall, List.takeWhile_append_of_pos hall]
  simp

/-- The text is at its end or goes on with a separator. -/
def Separated (r : Text) : Prop := ∀ c ∈ r.head?, c = ','

/-- A value that is printed without quotes: it is read back, and it holds no character that the
format needs. -/
structure IsWord (value : Value) (w : Text) : Prop where
  decodes : decodeWord w = some value
  comma : ',' ∉ w
  quote : '"' ∉ w
  newline : '\n' ∉ w

theorem isWord_decimal (n : ℤ) : IsWord (.int n) (Text.decimal n) := by
  have hno {c : Char} (hc : c ≠ '-' ∧ c.isDigit = false) : c ∉ Text.decimal n := by
    intro hmem
    rcases Text.isDigit_of_mem_decimal hmem with h | h
    · exact hc.1 h
    · rw [hc.2] at h
      cases h
  have hne {c : Char} {s : Text} (hmem : c ∈ s) (hc : c ≠ '-' ∧ c.isDigit = false) :
      Text.decimal n ≠ s := by
    rintro rfl
    exact hno hc hmem
  have htrue : 't' ∈ "true".toList := by decide
  have hfalse : 'f' ∈ "false".toList := by decide
  have hnull : 'n' ∈ "null".toList := by decide
  refine ⟨?_, hno (by decide), hno (by decide), hno (by decide)⟩
  rw [decodeWord, if_neg (hne htrue (by decide)), if_neg (hne hfalse (by decide)),
    if_neg (hne hnull (by decide)), Text.ofDecimal?_decimal]
  rfl

theorem isWord_text {value : Value} (h : ∀ s, value ≠ .string s) : IsWord value value.text := by
  cases value with
  | string s => exact absurd rfl (h s)
  | int n => exact isWord_decimal n
  | bool b => cases b <;> constructor <;> decide
  | null => constructor <;> decide

theorem decodeValue_of_isWord {value : Value} {w r : Text} (h : IsWord value w)
    (hr : Separated r) : decodeValue (w ++ r) = some (value, r) := by
  have hall := decide_ne_of_notMem h.comma
  have hstop : r.takeWhile (· ≠ ',') = [] ∧ r.dropWhile (· ≠ ',') = r := by
    cases r with
    | nil => exact ⟨rfl, rfl⟩
    | cons c r =>
      obtain rfl := hr c rfl
      simp
  have hquote (t : Text) : w ++ r ≠ '"' :: t := by
    intro he
    cases w with
    | nil =>
      have hcomma := hr '"' (by rw [← List.nil_append r, he]; rfl)
      cases hcomma
    | cons d w =>
      obtain ⟨rfl, -⟩ := List.cons.inj he
      exact h.quote List.mem_cons_self
  rw [decodeValue, List.takeWhile_append_of_pos hall, List.dropWhile_append_of_pos hall, hstop.1,
    hstop.2, List.append_nil, h.decodes]
  · rfl
  · exact hquote

theorem decodeValue_text {key : Text} {value : Value} (h : PlainPair key value) {r : Text}
    (hr : Separated r) : decodeValue (value.text ++ r) = some (value, r) := by
  cases value with
  | string s =>
    have htext : Value.text (.string s) ++ r = '"' :: (s ++ '"' :: r) := by simp [Value.text]
    rw [htext, decodeValue, cut_append (h.2 s rfl).1]
    rfl
  | _ => exact decodeValue_of_isWord (isWord_text (by simp)) hr

theorem decodePair_member {p : Pair} (h : PlainPair p.1 p.2) {r : Text} (hr : Separated r) :
    decodePair (member p ++ r) = some (p, r) := by
  have htext : member p ++ r = '"' :: (p.1 ++ '"' :: ':' :: ' ' :: (p.2.text ++ r)) := by
    simp [member]
  rw [htext, decodePair, cut_append h.1.1, Option.bind_some]
  show (decodeValue (p.2.text ++ r)).map _ = _
  rw [decodeValue_text h hr]
  rfl

theorem decodePairs_members {ps : List Pair} (hne : ps ≠ [])
    (hps : ∀ p ∈ ps, PlainPair p.1 p.2) {n : ℕ} (hn : ps.length ≤ n) :
    decodePairs n (members ps) = some ps := by
  induction ps generalizing n with
  | nil => exact absurd rfl hne
  | cons p ps ih =>
    obtain ⟨m, rfl⟩ := Nat.exists_eq_add_one_of_ne_zero (Nat.ne_of_gt (Nat.lt_of_lt_of_le
      (Nat.succ_pos _) hn))
    have hp := hps p List.mem_cons_self
    cases ps with
    | nil =>
      have hend : decodePair (member p ++ []) = some (p, []) :=
        decodePair_member hp fun c hc => by cases hc
      rw [List.append_nil] at hend
      rw [members, decodePairs, hend]
      rfl
    | cons q ps =>
      have hnext : decodePair (member p ++ ',' :: ' ' :: members (q :: ps)) =
          some (p, ',' :: ' ' :: members (q :: ps)) :=
        decodePair_member hp fun c hc => (Option.some.inj hc).symm
      have hrest := ih (by simp) (fun p hp => hps p (List.mem_cons_of_mem _ hp))
        (Nat.le_of_succ_le_succ hn)
      rw [members_cons_cons, List.append_assoc]
      show decodePairs (m + 1) (member p ++ ',' :: ' ' :: members (q :: ps)) = _
      rw [decodePairs, hnext, Option.bind_some]
      show (decodePairs m (members (q :: ps))).map (p :: ·) = _
      rw [hrest]
      rfl

/-! ## Lines -/

theorem length_le_members (ps : List Pair) : ps.length ≤ (members ps).length := by
  match ps with
  | [] => exact Nat.zero_le _
  | [p] => simp [members, member]
  | p :: q :: ps =>
    have ih := length_le_members (q :: ps)
    have hseparator : (", ".toList : Text).length = 2 := rfl
    rw [members_cons_cons]
    simp only [List.length_append, List.length_cons, hseparator] at ih ⊢
    omega

theorem toFinmap_entries (log : Iteration) : (log.entries.toFinmap : Entry) = log.toFinmap := by
  refine Finmap.ext_lookup fun key => ?_
  rw [Finmap.dlookup_list_toFinmap, Finmap.lookup_toFinmap]
  rfl

theorem decodeLine_line {log : Iteration} (hne : log.entries ≠ [])
    (hps : ∀ p ∈ log.entries, PlainPair p.1 p.2) :
    decodeLine (line log) = some log.toFinmap := by
  show (decodePairs (members log.entries).length (members log.entries)).map List.toFinmap = _
  rw [decodePairs_members hne hps (length_le_members _), Option.map_some, toFinmap_entries]

theorem newline_notMem_member {p : Pair} (h : PlainPair p.1 p.2) : '\n' ∉ member p := by
  have htext : '\n' ∉ p.2.text := by
    cases hvalue : p.2 with
    | string s => simp [Value.text, (h.2 s hvalue).2]
    | _ => exact (isWord_text (by simp)).newline
  simp [member, h.1.2, htext]

theorem newline_notMem_line {log : Iteration} (hps : ∀ p ∈ log.entries, PlainPair p.1 p.2) :
    '\n' ∉ line log := by
  have hmembers : ∀ ps : List Pair, (∀ p ∈ ps, PlainPair p.1 p.2) → '\n' ∉ members ps := by
    intro ps
    induction ps with
    | nil => exact fun _ => List.not_mem_nil
    | cons p ps ih =>
      intro hps
      have hp := newline_notMem_member (hps p List.mem_cons_self)
      cases ps with
      | nil => exact hp
      | cons q ps =>
        have hrest := ih fun p hp => hps p (List.mem_cons_of_mem _ hp)
        rw [members_cons_cons]
        simp [hp, hrest]
  simp [line, hmembers log.entries hps]

theorem splitOn_lines {ls : List Text} (h : ∀ l ∈ ls, '\n' ∉ l) (s : Text) :
    (ls.flatMap (· ++ ['\n']) ++ s).splitOn '\n' = ls ++ s.splitOn '\n' := by
  induction ls with
  | nil => rfl
  | cons l ls ih =>
    rw [List.flatMap_cons, List.append_assoc, List.append_assoc, List.singleton_append,
      List.splitOn_append_cons_self_of_not_mem (h l List.mem_cons_self),
      ih fun l hl => h l (List.mem_cons_of_mem _ hl), List.cons_append]

theorem mapM_decodeLine {ls : List Iteration}
    (h : ∀ log ∈ ls, decodeLine (line log) = some log.toFinmap) :
    (ls.map line).mapM decodeLine = some (ls.map AList.toFinmap) := by
  induction ls with
  | nil => rfl
  | cons log ls ih =>
    rw [List.map_cons, List.mapM_cons, h log List.mem_cons_self,
      ih fun log hlog => h log (List.mem_cons_of_mem _ hlog)]
    rfl

/-- The decoder reads the entries that are printed, as maps. -/
theorem decode_toString_eq {logs : List Iteration}
    (hps : ∀ log ∈ printed logs, ∀ p ∈ log.entries, PlainPair p.1 p.2) :
    decode (toString logs) = some ((printed logs).map AList.toFinmap) := by
  have hlines : ∀ l ∈ (printed logs).map line, '\n' ∉ l := by
    intro l hl
    obtain ⟨log, hlog, rfl⟩ := List.mem_map.1 hl
    exact newline_notMem_line (hps log hlog)
  have hsplit : ((printed logs).flatMap (fun log => line log ++ ['\n']) ++ ['}']).splitOn '\n' =
      (printed logs).map line ++ [['}']] := by
    have hsplit := splitOn_lines hlines ['}']
    rwa [List.flatMap_map] at hsplit
  rw [toString_eq, decode, Text.lines, hsplit, if_pos (by simp), List.dropLast_concat]
  exact mapM_decodeLine fun log hlog =>
    decodeLine_line (by simpa using List.of_mem_filter hlog) (hps log hlog)

/-! ## What was put -/

/-- The pairs that were put in each entry, in order: `newEntry` begins another one. -/
def segments : List Op → List (List Pair)
  | [] => [[]]
  | .newEntry :: ops => [] :: segments ops
  | .put key value :: ops => (segments ops).modifyHead (⟨key, value⟩ :: ·)

/-- The last value that was put for the key. -/
def lastValue (puts : List Pair) (key : Text) : Option Value := puts.reverse.dlookup key

/-- The entry after the pairs have been put in it. -/
def fill (log : Entry) (puts : List Pair) : Entry :=
  puts.foldl (fun log p => log.insert p.1 p.2) log

theorem lookup_fill (puts : List Pair) (key : Text) :
    (fill ∅ puts).lookup key = lastValue puts key := by
  have hfill : fill ∅ puts = puts.reverse.toFinmap := by
    rw [fill, ← List.foldr_reverse]
    generalize puts.reverse = ps
    induction ps with
    | nil => rfl
    | cons p ps ih => rw [List.foldr_cons, ih, ← Finmap.toFinmap_cons]
  rw [hfill, Finmap.dlookup_list_toFinmap, lastValue]

/-- With an entry at its end, the object has one entry for each segment from there on. -/
theorem foldl_apply_concat (ops : List Op) (logs : Logs) (log : Entry) :
    ∃ puts rest, segments ops = puts :: rest ∧
      ops.foldl apply (logs ++ [log]) = logs ++ fill log puts :: rest.map (fill ∅) := by
  induction ops generalizing logs log with
  | nil => exact ⟨[], [], rfl, rfl⟩
  | cons op ops ih =>
    cases op with
    | newEntry =>
      obtain ⟨puts, rest, hseg, hfold⟩ := ih (logs ++ [log]) ∅
      refine ⟨[], puts :: rest, by rw [segments, hseg], ?_⟩
      rw [List.foldl_cons, apply, newEntry, hfold]
      simp [fill]
    | put key value =>
      obtain ⟨puts, rest, hseg, hfold⟩ := ih logs (log.insert key value)
      refine ⟨⟨key, value⟩ :: puts, rest, by rw [segments, hseg, List.modifyHead_cons], ?_⟩
      rw [List.foldl_cons, apply, put_concat, hfold]
      rfl

theorem fill_eq_empty_iff {puts : List Pair} : fill ∅ puts = ∅ ↔ puts = [] := by
  rcases List.eq_nil_or_concat puts with rfl | ⟨init, p, rfl⟩
  · exact iff_of_true rfl rfl
  · rw [List.concat_eq_append]
    refine iff_of_false (fun h => ?_) (by simp)
    have hlookup := congrArg (Finmap.lookup p.1) h
    rw [fill, List.foldl_append, List.foldl_cons, List.foldl_nil, Finmap.lookup_insert,
      Finmap.lookup_empty] at hlookup
    cases hlookup

theorem filter_run_eq_filter_segments (ops : List Op) :
    (run ops).filter (· ≠ ∅) = ((segments ops).map (fill ∅)).filter (· ≠ ∅) := by
  cases ops with
  | nil => rfl
  | cons op ops =>
    cases op with
    | newEntry =>
      obtain ⟨puts, rest, hseg, hfold⟩ := foldl_apply_concat ops [] ∅
      have hrun : run (.newEntry :: ops) = fill ∅ puts :: rest.map (fill ∅) := hfold
      rw [hrun, segments, hseg, List.map_cons, List.map_cons]
      exact (List.filter_cons_of_neg (by simp [fill])).symm
    | put key value =>
      obtain ⟨puts, rest, hseg, hfold⟩ := foldl_apply_concat ops [] ((∅ : Entry).insert key value)
      have hrun : run (.put key value :: ops) =
          fill ((∅ : Entry).insert key value) puts :: rest.map (fill ∅) := hfold
      rw [hrun, segments, hseg, List.modifyHead_cons, List.map_cons]
      rfl

/-- The entries that are not empty are the segments in which something was put, each with its last
values. -/
theorem filter_run (ops : List Op) :
    (run ops).filter (· ≠ ∅) = ((segments ops).filter (· ≠ [])).map (fill ∅) := by
  rw [filter_run_eq_filter_segments, List.filter_map]
  congr 1
  refine List.filter_congr fun puts _ => ?_
  simp [fill_eq_empty_iff]

/-- Whatever is put, with no quote and no newline in a key or a string, and in whatever orders the
entries are met: the decoder gives, in the order of their creation, the entries in which something
was put, each with the last value for each key; and what is deleted at the end of a line is the
separator after its last member. -/
theorem decode_toString (ops : List Op) (logs : List Iteration) (hit : Iterates logs (run ops))
    (hops : ∀ key value, .put key value ∈ ops → PlainPair key value) :
    (∃ entries, decode (toString logs) = some entries ∧
        List.Forall₂ (fun log puts => ∀ key, log.lookup key = lastValue puts key) entries
          ((segments ops).filter (· ≠ []))) ∧
      ∀ log ∈ printed logs, ∀ json,
        log.entries.foldl appendPair (json ++ "  ".toList) = json ++ line log ++ ", ".toList ∧
          appendLog json log = json ++ line log ++ ['\n'] := by
  have hps := (everyPair_run hops).of_iterates hit
  constructor
  · refine ⟨_, decode_toString_eq hps, ?_⟩
    rw [map_printed hit, filter_run, List.forall₂_map_left_iff, List.forall₂_same]
    exact fun puts _ => lookup_fill puts
  · intro log hlog json
    have hne : log.entries ≠ [] := by simpa using List.of_mem_filter hlog
    constructor
    · rw [foldl_appendPair _ hne, line, List.append_assoc json]
    · rw [appendLog_eq, if_neg hne, List.append_assoc]

/-- A key and a string that look like parts of the format, with another value put first and an entry
that stays empty. -/
def trickyOps : List Op :=
  [.newEntry, .newEntry, .put "a, b: \x7b".toList (.int 7),
    .put "a, b: \x7b".toList (.string ", 7".toList)]

def trickyLogs : List Iteration :=
  [∅, AList.singleton "a, b: \x7b".toList (.string ", 7".toList)]

theorem trickyOps_plain (key : Text) (value : Value) (h : .put key value ∈ trickyOps) :
    PlainPair key value := by
  simp only [trickyOps, List.mem_cons, Op.put.injEq, reduceCtorEq, List.not_mem_nil, or_false,
    false_or] at h
  rcases h with ⟨rfl, rfl⟩ | ⟨rfl, rfl⟩
  · refine ⟨by decide, ?_⟩
    rintro s ⟨⟩
  · refine ⟨by decide, ?_⟩
    rintro s ⟨⟩
    decide

theorem decode_toString_tricky :
    ∃ entries, decode (toString trickyLogs) = some entries ∧
      List.Forall₂ (fun log puts => ∀ key, log.lookup key = lastValue puts key) entries
        ((segments trickyOps).filter (· ≠ [])) :=
  (decode_toString trickyOps trickyLogs (by decide) trickyOps_plain).1

end JSONObject
