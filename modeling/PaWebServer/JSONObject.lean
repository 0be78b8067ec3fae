import PaWebServer.Lib.Text
import Mathlib.Data.Finmap

/-!
# JSON objects

`JSONObject` keeps a list of entries, each a map from keys to values.  `put` sets a key in the last
entry, `newEntry` adds an empty one, and `toString` prints a line for each entry that is not empty:
every member with a separator after it, of which the last one is deleted again (`toString_eq`).
-/

namespace JSONObject

/-- The values that are put under a key. -/
inductive Value where
  | string (s : Text)
  | int (n : ℤ)
  | bool (b : Bool)
  | null
  deriving DecidableEq

/-- `String.valueOf`. -/
def Value.valueOf : Value → Text
  | .string s => s
  | .int n => Text.decimal n
  | .bool true => "true".toList
  | .bool false => "false".toList
  | .null => "null".toList

/-- A key and its value. -/
abbrev Pair := Σ _ : Text, Value

/-- A `HashMap<String, Object>`. -/
abbrev Entry := Finmap fun _ : Text => Value

/-- A `HashMap` in the order in which a loop over its entry set meets its pairs. -/
abbrev Iteration := AList fun _ : Text => Value

/-- The field `objectLogs`. -/
abbrev Logs := List Entry

/-! ## Methods -/

def put (objectLogs : Logs) (key : Text) (value : Value) : Logs :=
  let objectLogs := if objectLogs.isEmpty then objectLogs ++ [∅] else objectLogs
  objectLogs.modify (objectLogs.length - 1) (·.insert key value)

def newEntry (objectLogs : Logs) : Logs := objectLogs ++ [∅]

/-- What the inner loop of `toString` appends for a pair. -/
def appendPair (json : Text) (entry : Pair) : Text :=
  let json := json ++ "\"".toList ++ entry.1 ++ "\": ".toList
  let json :=
    match entry.2 with
    | .string s => json ++ "\"".toList ++ s ++ "\"".toList
    | value => json ++ value.valueOf
  json ++ ", ".toList

/-- What the outer loop of `toString` appends for an entry. -/
def appendLog (json : Text) (log : Iteration) : Text :=
  if log.entries.isEmpty then json
  else
    let json := log.entries.foldl appendPair (json ++ "  ".toList)
    json.take (json.length - 2) ++ "\n".toList

/-- `toString`, for the orders in which the entries are met. -/
def toString (logs : List Iteration) : Text :=
  logs.foldl appendLog "\x7b\n".toList ++ "\x7d".toList

/-- The orders are ones in which the entries can be met: each is some order of its map. -/
def Iterates (logs : List Iteration) (objectLogs : Logs) : Prop :=
  logs.map AList.toFinmap = objectLogs

instance (logs : List Iteration) (objectLogs : Logs) : Decidable (Iterates logs objectLogs) :=
  inferInstanceAs (Decidable (logs.map AList.toFinmap = objectLogs))

/-- The calls that change the object. -/
inductive Op where
  | put (key : Text) (value : Value)
  | newEntry
  deriving DecidableEq

def apply (objectLogs : Logs) : Op → Logs
  | .put key value => put objectLogs key value
  | .newEntry => newEntry objectLogs

/-- The entries after the calls on a new object. -/
def run (ops : List Op) : Logs := ops.foldl apply []

/-! ## Pairs of the entries -/

theorem put_concat (objectLogs : Logs) (log : Entry) (key : Text) (value : Value) :
    put (objectLogs ++ [log]) key value = objectLogs ++ [log.insert key value] := by
  have hempty : (objectLogs ++ [log]).isEmpty = false := by simp
  simp only [put, hempty, Bool.false_eq_true, if_false, List.length_append, List.length_singleton,
    Nat.add_sub_cancel]
  rw [List.modify_eq_take_drop, List.take_left, List.drop_left]
  rfl

/-- Every pair of the entries meets `P`. -/
def EveryPair (P : Text → Value → Prop) (objectLogs : Logs) : Prop :=
  ∀ log ∈ objectLogs, ∀ key value, log.lookup key = some value → P key value

section

variable {P : Text → Value → Prop} {objectLogs : Logs}

theorem everyPair_singleton {log : Entry} :
    EveryPair P [log] ↔ ∀ key value, log.lookup key = some value → P key value := by
  simp [EveryPair]

theorem everyPair_append {logs : Logs} :
    EveryPair P (objectLogs ++ logs) ↔ EveryPair P objectLogs ∧ EveryPair P logs :=
  List.forall_mem_append

theorem everyPair_insert {log : Entry} {key : Text} {value : Value} (h : EveryPair P [log])
    (hnew : P key value) : EveryPair P [log.insert key value] := by
  rw [everyPair_singleton] at h ⊢
  intro k v hlookup
  by_cases hk : k = key
  · subst hk
    rw [Finmap.lookup_insert] at hlookup
    exact Option.some.inj hlookup ▸ hnew
  · rw [Finmap.lookup_insert_of_ne _ hk] at hlookup
    exact h k v hlookup

theorem everyPair_empty : EveryPair P [∅] := by
  rw [everyPair_singleton]
  intro k v hlookup
  cases hlookup

theorem EveryPair.apply {op : Op} (h : EveryPair P objectLogs)
    (hop : ∀ key value, op = .put key value → P key value) :
    EveryPair P (apply objectLogs op) := by
  cases op with
  | newEntry => exact everyPair_append.2 ⟨h, everyPair_empty⟩
  | put key value =>
    have hnew := hop key value rfl
    rcases List.eq_nil_or_concat objectLogs with rfl | ⟨logs, log, rfl⟩
    · exact everyPair_insert everyPair_empty hnew
    · rw [List.concat_eq_append] at h ⊢
      obtain ⟨hlogs, hlog⟩ := everyPair_append.1 h
      rw [JSONObject.apply, put_concat]
      exact everyPair_append.2 ⟨hlogs, everyPair_insert hlog hnew⟩

/-- A pair of an entry was put. -/
theorem everyPair_run {ops : List Op} (h : ∀ key value, .put key value ∈ ops → P key value) :
    EveryPair P (run ops) := by
  have hall : ∀ objectLogs, EveryPair P objectLogs → EveryPair P (ops.foldl apply objectLogs) := by
    induction ops with
    | nil => exact fun _ h => h
    | cons op ops ih =>
      intro objectLogs hlogs
      refine ih (fun key value hmem => h key value (List.mem_cons_of_mem _ hmem)) _ ?_
      exact hlogs.apply fun key value hop => h key value (hop ▸ List.mem_cons_self)
  exact hall [] fun _ hmem => by cases hmem

end

/-! ## The printed text -/

/-- A value as it is printed: a string between quotes. -/
def Value.text : Value → Text
  | .string s => '"' :: (s ++ ['"'])
  | value => value.valueOf

/-- A pair as it is printed. -/
def member (p : Pair) : Text := '"' :: (p.1 ++ '"' :: ':' :: ' ' :: p.2.text)

/-- Members with a separator between them. -/
def members : List Pair → Text
  | [] => []
  | [p] => member p
  | p :: ps => member p ++ ", ".toList ++ members ps

theorem members_cons_cons (p q : Pair) (ps : List Pair) :
    members (p :: q :: ps) = member p ++ ", ".toList ++ members (q :: ps) := rfl

/-- The line of an entry. -/
def line (log : Iteration) : Text := "  ".toList ++ members log.entries

theorem appendPair_eq (json : Text) (p : Pair) :
    appendPair json p = json ++ member p ++ ", ".toList := by
  obtain ⟨key, value⟩ := p
  cases value <;> simp [appendPair, member, Value.text]

/-- The inner loop ends with a separator after the last member. -/
theorem foldl_appendPair (json : Text) {ps : List Pair} (h : ps ≠ []) :
    ps.foldl appendPair json = json ++ members ps ++ ", ".toList := by
  induction ps generalizing json with
  | nil => exact absurd rfl h
  | cons p ps ih =>
    rw [List.foldl_cons, appendPair_eq]
    cases ps with
    | nil => rfl
    | cons q ps =>
      rw [ih _ (by simp), members_cons_cons]
      simp

/-- The deletion takes the separator after the last member and nothing else. -/
theorem appendLog_eq (json : Text) (log : Iteration) :
    appendLog json log =
      json ++ if log.entries = [] then [] else line log ++ ['\n'] := by
  unfold appendLog
  by_cases h : log.entries = []
  · simp [h]
  · have hempty : ¬ log.entries.isEmpty = true := by simpa using h
    rw [if_neg hempty, if_neg h, foldl_appendPair _ h]
    have hlength : (", ".toList : Text).length = 2 := rfl
    simp only [List.length_append, hlength, Nat.add_sub_cancel]
    rw [← List.length_append, ← List.length_append, List.take_left]
    simp [line]

/-- The entries that are printed. -/
def printed (logs : List Iteration) : List Iteration := logs.filter fun log => log.entries ≠ []

theorem toFinmap_eq_empty_iff {log : Iteration} : log.toFinmap = ∅ ↔ log.entries = [] := by
  rw [← Finmap.empty_toFinmap, AList.toFinmap_eq, AList.empty_entries, List.perm_nil]

/-- Each entry that is not empty is printed, whatever the orders. -/
theorem map_printed {logs : List Iteration} {objectLogs : Logs} (h : Iterates logs objectLogs) :
    (printed logs).map AList.toFinmap = objectLogs.filter (· ≠ ∅) := by
  obtain rfl : logs.map AList.toFinmap = objectLogs := h
  rw [List.filter_map, printed]
  congr 1
  refine List.filter_congr fun log _ => ?_
  simp [toFinmap_eq_empty_iff]

theorem EveryPair.of_iterates {P : Text → Value → Prop} {logs : List Iteration} {objectLogs : Logs}
    (h : EveryPair P objectLogs) (hit : Iterates logs objectLogs) :
    ∀ log ∈ printed logs, ∀ p ∈ log.entries, P p.1 p.2 := by
  intro log hlog p hp
  have hmem : log.toFinmap ∈ objectLogs := by
    rw [← hit]
    exact List.mem_map_of_mem (List.mem_of_mem_filter hlog)
  refine h _ hmem p.1 p.2 ?_
  rw [Finmap.lookup_toFinmap]
  exact AList.mem_lookup_iff.2 hp

theorem foldl_appendLog (json : Text) (logs : List Iteration) :
    logs.foldl appendLog json = json ++ (printed logs).flatMap fun log => line log ++ ['\n'] := by
  induction logs generalizing json with
  | nil => simp [printed]
  | cons log logs ih =>
    rw [List.foldl_cons, ih, appendLog_eq]
    by_cases h : log.entries = [] <;> simp [printed, h]

/-- The text is a line of the brace, a line for each entry that is not empty, and the bracket. -/
theorem toString_eq (logs : List Iteration) :
    toString logs =
      '{' :: '\n' :: ((printed logs).flatMap (fun log => line log ++ ['\n']) ++ ['}']) := by
  rw [toString, foldl_appendLog]
  rfl

end JSONObject
