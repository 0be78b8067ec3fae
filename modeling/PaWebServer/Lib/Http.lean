import PaWebServer.Lib.Text

/-!
# HTTP/1.1 responses

A reader of responses whose bodies are framed by their `Content-Length`: the status line, the
header lines up to the first empty line, and then as many bytes as the length says.
-/

namespace Http

def cr : UInt8 := 13

def lf : UInt8 := 10

/-- A line with its terminator. -/
def terminated (line : Bytes) : Bytes := line ++ [cr, lf]

/-! ## The head -/

/-- The lines up to the first empty one, and what follows it; `line` is what has been read of the
current line. -/
def readHead (line : Bytes) : Bytes → Option (List Bytes × Bytes)
  | [] => none
  | b :: rest =>
    if b = lf ∧ line.getLast? = some cr then
      if line = [cr] then some ([], rest)
      else (readHead [] rest).map fun (lines, body) => (line.dropLast :: lines, body)
    else readHead (line ++ [b]) rest

def isDigit (b : UInt8) : Bool := 48 ≤ b && b ≤ 57

/-- The number that a text of decimal digits spells. -/
def decimal? (ds : Bytes) : Option ℕ :=
  if ds ≠ [] ∧ ds.all isDigit then some (ds.foldl (fun n b => 10 * n + (b.toNat - 48)) 0)
  else none

def version : Bytes := Text.utf8 "HTTP/1.1 ".toList

/-- The status of a status line: three digits between the version and a space. -/
def readStatus (line : Bytes) : Option ℕ :=
  if version <+: line then
    match line.drop version.length with
    | a :: b :: c :: 32 :: _ => decimal? [a, b, c]
    | _ => none
  else none

/-- Space and tab. -/
def isBlank (b : UInt8) : Bool := b = 32 || b = 9

/-- Header names do not depend on the case of their letters. -/
def lower (b : UInt8) : UInt8 := if 65 ≤ b ∧ b ≤ 90 then b + 32 else b

/-- The name and the value of a header line. -/
def readHeader (line : Bytes) : Option (Bytes × Bytes) :=
  let name := line.takeWhile (· ≠ 58)
  match line.drop name.length with
  | _ :: value =>
    if name = [] then none
    else some (name.map lower, (value.dropWhile isBlank).rdropWhile isBlank)
  | [] => none

def contentLengthName : Bytes := Text.utf8 "content-length".toList

/-- The length of the body, which exactly one header says. -/
def contentLength (headers : List (Bytes × Bytes)) : Option ℕ :=
  match headers.filter (·.1 = contentLengthName) with
  | [(_, value)] => decimal? value
  | _ => none

/-! ## Messages -/

structure Message where
  status : ℕ
  headers : List (Bytes × Bytes)
  body : Bytes
  deriving DecidableEq

/-- The first message, and what follows it. -/
def read (bytes : Bytes) : Option (Message × Bytes) :=
  match readHead [] bytes with
  | some (statusLine :: fields, rest) => do
    let status ← readStatus statusLine
    let headers ← fields.mapM readHeader
    let length ← contentLength headers
    if length ≤ rest.length then some (⟨status, headers, rest.take length⟩, rest.drop length)
    else none
  | _ => none

/-! ## Heads that were written -/

theorem readHead_line {line : Bytes} (hline : line ≠ []) (hlf : lf ∉ line) (rest : Bytes) :
    readHead [] (terminated line ++ rest) =
      (readHead [] rest).map fun (lines, body) => (line :: lines, body) := by
  have hread : ∀ front back : Bytes, lf ∉ back → front ++ back ≠ [] →
      readHead front (back ++ cr :: lf :: rest) =
        (readHead [] rest).map fun (lines, body) => ((front ++ back) :: lines, body) := by
    intro front back hback hne
    induction back generalizing front with
    | nil =>
      rw [List.append_nil] at hne ⊢
      simp [readHead, cr, lf, hne]
    | cons b back ih =>
      have hb : b ≠ lf := fun hb => hback (hb ▸ List.mem_cons_self)
      rw [List.cons_append, readHead, if_neg (fun h => hb h.1),
        ih (front ++ [b]) (fun h => hback (List.mem_cons_of_mem _ h)) (by simp)]
      simp
  have h := hread [] line hlf hline
  simpa [terminated] using h

theorem readHead_end (rest : Bytes) : readHead [] (cr :: lf :: rest) = some ([], rest) := by
  simp [readHead, cr, lf]

/-- Lines that are neither empty nor broken are read back, up to the empty line. -/
theorem readHead_lines {lines : List Bytes} (h : ∀ line ∈ lines, line ≠ [] ∧ lf ∉ line)
    (rest : Bytes) :
    readHead [] (lines.flatMap terminated ++ cr :: lf :: rest) = some (lines, rest) := by
  induction lines with
  | nil => exact readHead_end rest
  | cons line lines ih =>
    obtain ⟨hne, hlf⟩ := h line List.mem_cons_self
    rw [List.flatMap_cons, List.append_assoc, readHead_line hne hlf,
      ih fun l hl => h l (List.mem_cons_of_mem _ hl)]
    rfl

theorem read_append {statusLine : Bytes} {fields : List Bytes} {status : ℕ}
    {headers : List (Bytes × Bytes)} {body : Bytes}
    (h : ∀ line ∈ statusLine :: fields, line ≠ [] ∧ lf ∉ line)
    (hstatus : readStatus statusLine = some status)
    (hheaders : fields.mapM readHeader = some headers)
    (hlength : contentLength headers = some body.length) (rest : Bytes) :
    read ((statusLine :: fields).flatMap terminated ++ cr :: lf :: (body ++ rest)) =
      some (⟨status, headers, body⟩, rest) := by
  rw [read, readHead_lines h]
  simp [hstatus, hheaders, hlength]

/-! ## Decimal numbers -/

theorem utf8_digits {ds : Text} (h : ∀ c ∈ ds, c.isDigit) :
    Text.utf8 ds = ds.map fun c => UInt8.ofNat c.toNat := by
  induction ds with
  | nil => rfl
  | cons c ds ih =>
    have hle : c.val.toNat ≤ 0x7f := by
      have hc := h c List.mem_cons_self
      simp only [Char.isDigit, Bool.and_eq_true, decide_eq_true_eq, UInt32.le_iff_toNat_le] at hc
      exact hc.2.trans (by decide)
    have hcons : Text.utf8 (c :: ds) = String.utf8EncodeChar c ++ Text.utf8 ds := rfl
    rw [hcons, ih fun d hd => h d (List.mem_cons_of_mem _ hd), String.utf8EncodeChar, if_pos hle]
    rfl

theorem toNat_digit {c : Char} (h : c.isDigit) :
    (UInt8.ofNat c.toNat).toNat = c.toNat ∧ 48 ≤ c.toNat ∧ c.toNat ≤ 57 := by
  simp only [Char.isDigit, Bool.and_eq_true, decide_eq_true_eq, UInt32.le_iff_toNat_le] at h
  have hlow : 48 ≤ c.toNat := h.1
  have hhigh : c.toNat ≤ 57 := h.2
  exact ⟨UInt8.toNat_ofNat_of_lt' (by change c.toNat < 256; omega), hlow, hhigh⟩

theorem isDigit_of_mem_utf8 {ds : Text} (h : ∀ c ∈ ds, c.isDigit) :
    ∀ b ∈ Text.utf8 ds, isDigit b := by
  rw [utf8_digits h]
  intro b hb
  obtain ⟨c, hc, rfl⟩ := List.mem_map.1 hb
  obtain ⟨heq, hlow, hhigh⟩ := toNat_digit (h c hc)
  simp only [isDigit, Bool.and_eq_true, decide_eq_true_eq, UInt8.le_iff_toNat_le, heq]
  exact ⟨hlow, hhigh⟩

theorem decimal_digits {ds : Text} (hne : ds ≠ []) (h : ∀ c ∈ ds, c.isDigit) :
    decimal? (Text.utf8 ds) = some (Nat.ofDigitChars 10 ds 0) := by
  have hall : (Text.utf8 ds).all isDigit = true := List.all_eq_true.2 (isDigit_of_mem_utf8 h)
  have hbytes : Text.utf8 ds ≠ [] := by
    rw [utf8_digits h]
    simpa using hne
  rw [decimal?, if_pos ⟨hbytes, hall⟩, utf8_digits h, List.foldl_map, Nat.ofDigitChars_eq_foldl]
  congr 1
  refine List.foldl_ext _ _ 0 fun n c hc => ?_
  rw [(toNat_digit (h c hc)).1]
  rfl

theorem isDigit_of_mem_decimal {n : ℕ} {c : Char} (h : c ∈ Text.decimal n) : c.isDigit :=
  Nat.isDigit_of_mem_toDigits (by omega) (by omega) h

/-- The decimal of a length is read back. -/
theorem decimal_utf8_decimal (n : ℕ) : decimal? (Text.utf8 (Text.decimal n)) = some n := by
  have hdigits : ∀ c ∈ Text.decimal n, c.isDigit := fun c hc => isDigit_of_mem_decimal hc
  have hne : Text.decimal n ≠ [] := Nat.toDigits_ne_nil
  rw [decimal_digits hne hdigits]
  exact congrArg some Nat.ofDigitChars_ten_toDigits

/-! ## Header lines -/

theorem readHeader_colon {name : Bytes} (hne : name ≠ []) (hcolon : 58 ∉ name) (value : Bytes) :
    readHeader (name ++ 58 :: value) =
      some (name.map lower, (value.dropWhile isBlank).rdropWhile isBlank) := by
  have hname : (name ++ 58 :: value).takeWhile (· ≠ 58) = name := by
    rw [List.takeWhile_append_of_pos fun b hb => by simpa using ne_of_mem_of_not_mem hb hcolon]
    simp
  rw [readHeader, hname]
  simp [hne]

/-- One space before a value is no part of it. -/
theorem trim_space {value : Bytes} (h : ∀ b ∈ value, isBlank b = false) :
    ((32 :: value).dropWhile isBlank).rdropWhile isBlank = value := by
  have hfront : (32 :: value).dropWhile isBlank = value := by
    rw [List.dropWhile_cons_of_pos rfl]
    cases value with
    | nil => rfl
    | cons b value => exact List.dropWhile_cons_of_neg (by simp [h b List.mem_cons_self])
  rw [hfront, List.rdropWhile_eq_self_iff]
  intro hne
  simp [h _ (List.getLast_mem hne)]

theorem isBlank_of_isDigit {b : UInt8} (h : isDigit b) : isBlank b = false := by
  simp only [isDigit, Bool.and_eq_true, decide_eq_true_eq, UInt8.le_iff_toNat_le] at h
  have hlow : 48 ≤ b.toNat := h.1
  by_contra hb
  simp only [isBlank, Bool.not_eq_false, Bool.or_eq_true, decide_eq_true_eq] at hb
  rcases hb with rfl | rfl <;> exact absurd hlow (by decide)

/-! ## Messages in a row -/

theorem length_readHead_lt {line bytes rest : Bytes} {lines : List Bytes}
    (h : readHead line bytes = some (lines, rest)) : rest.length < bytes.length := by
  induction bytes generalizing line lines with
  | nil => cases h
  | cons b bytes ih =>
    simp only [readHead] at h
    split_ifs at h
    · cases h
      simp
    · obtain ⟨⟨lines', rest'⟩, hread, heq⟩ := Option.map_eq_some_iff.1 h
      cases heq
      exact (ih hread).trans (Nat.lt_succ_self _)
    · exact (ih h).trans (Nat.lt_succ_self _)

theorem length_read_lt {bytes rest : Bytes} {m : Message} (h : read bytes = some (m, rest)) :
    rest.length < bytes.length := by
  unfold read at h
  split at h
  · rename_i hhead
    simp only [Option.bind_eq_bind, Option.bind_eq_some_iff] at h
    obtain ⟨status, -, headers, -, length, -, h⟩ := h
    split_ifs at h
    cases h
    have hlt := length_readHead_lt hhead
    simp only [List.length_drop]
    omega
  · cases h

/-- The messages of a stream that ends with the last of them. -/
def readAll (bytes : Bytes) : Option (List Message) :=
  if bytes = [] then some []
  else
    match h : read bytes with
    | some (m, rest) =>
      have := length_read_lt h
      (readAll rest).map (m :: ·)
    | none => none
termination_by bytes.length

theorem readAll_nil : readAll [] = some [] := by
  rw [readAll, if_pos rfl]

theorem readAll_of_read {bytes rest : Bytes} {m : Message} (h : read bytes = some (m, rest)) :
    readAll bytes = (readAll rest).map (m :: ·) := by
  have hne : bytes ≠ [] := by
    rintro rfl
    cases h
  rw [readAll, if_neg hne]
  split
  · rename_i hread
    rw [h] at hread
    cases hread
    rfl
  · rename_i hread
    rw [h] at hread
    cases hread

/-- Messages that are read back whatever follows them are read back from their concatenation. -/
theorem readAll_flatMap {α : Type*} {write : α → Bytes} {message : α → Message}
    (h : ∀ x rest, read (write x ++ rest) = some (message x, rest)) (xs : List α) :
    readAll (xs.flatMap write) = some (xs.map message) := by
  induction xs with
  | nil => exact readAll_nil
  | cons x xs ih =>
    rw [List.flatMap_cons, readAll_of_read (h x _), ih]
    rfl

end Http
