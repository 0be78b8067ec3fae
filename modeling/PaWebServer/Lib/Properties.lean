import Mathlib.Data.List.Nodup
import Mathlib.Tactic.SplitIfs

/-!
# Java property files

The text format of `java.util.Properties`, for a file read as ISO 8859-1: `load` cuts the file into
logical lines (comments and blank lines are skipped, a backslash at the end of a line joins the next
one), cuts each of them into a key and a value, and undoes the escapes of both; `store` writes one
line for each property, with escapes.  What is stored is loaded again (`load_store`).
-/

namespace Properties

/-- The UTF-16 code units of a `java.lang.String`. -/
abbrev JString := List UInt16

/-- A space, a tab or a form feed. -/
def isBlank (c : UInt16) : Bool := c = 32 || c = 9 || c = 12

/-- A line feed or a carriage return. -/
def isEol (c : UInt16) : Bool := c = 10 || c = 13

/-- `=` or `:`. -/
def isSeparator (c : UInt16) : Bool := c = 61 || c = 58

/-- `#` or `!`. -/
def isCommentMark (c : UInt16) : Bool := c = 35 || c = 33

abbrev backslash : UInt16 := 92

/-! ## Loading -/

/-- Where `readLine` is: what it has of the line, and its flags. -/
structure LineReader where
  lineBuf : JString
  skipWhiteSpace : Bool
  appendedLineBegin : Bool
  precedingBackslash : Bool
  inComment : Bool
  /-- The line has been joined after a carriage return, and a line feed may follow it. -/
  skipLF : Bool
  deriving DecidableEq

/-- The start of a call of `readLine`. -/
def LineReader.start : LineReader := ⟨[], true, false, false, false, false⟩

/-- The line at the end of the file. -/
def LineReader.finish (r : LineReader) : JString :=
  if r.precedingBackslash then r.lineBuf.dropLast else r.lineBuf

/-- The logical lines that `readLine` returns, one call after another. -/
def readLines (r : LineReader) : List UInt16 → List JString
  | [] => if r.inComment || r.lineBuf = [] then [] else [r.finish]
  | c :: cs =>
    if r.inComment then
      if isEol c then readLines { r with inComment := false, skipWhiteSpace := true } cs
      else readLines r cs
    else if r.skipLF && c = 10 then readLines { r with skipLF := false } cs
    else if r.skipWhiteSpace && (isBlank c || (!r.appendedLineBegin && isEol c)) then
      readLines { r with skipLF := false } cs
    else if r.lineBuf = [] && isCommentMark c then
      readLines ⟨r.lineBuf, false, false, r.precedingBackslash, true, false⟩ cs
    else if !isEol c then
      readLines
        ⟨r.lineBuf ++ [c], false, false, c = backslash && !r.precedingBackslash, false, false⟩ cs
    else if r.lineBuf = [] then
      readLines ⟨r.lineBuf, true, false, r.precedingBackslash, false, false⟩ cs
    else if cs = [] then [r.finish]
    else if r.precedingBackslash then
      readLines ⟨r.lineBuf.dropLast, true, true, false, false, c = 13⟩ cs
    else r.lineBuf :: readLines .start cs

/-- The key of a line, before its escapes are undone, and the rest from its separator on. -/
def splitKey (precedingBackslash : Bool) : JString → JString × JString
  | [] => ([], [])
  | c :: cs =>
    if (isSeparator c || isBlank c) && !precedingBackslash then ([], c :: cs)
    else
      let rest := splitKey (c = backslash && !precedingBackslash) cs
      (c :: rest.1, rest.2)

/-- The value without the blanks and the separator before it. -/
def trimValue (hasSep : Bool) : JString → JString
  | [] => []
  | c :: cs =>
    if isBlank c then trimValue hasSep cs
    else if !hasSep && isSeparator c then trimValue true cs
    else c :: cs

/-- The value of a line, before its escapes are undone, from what follows its key. -/
def splitValue : JString → JString
  | [] => []
  | c :: cs => trimValue (isSeparator c) cs

/-- The value of a hexadecimal digit. -/
def hexValue (c : UInt16) : Option ℕ :=
  if 48 ≤ c.toNat ∧ c.toNat ≤ 57 then some (c.toNat - 48)
  else if 97 ≤ c.toNat ∧ c.toNat ≤ 102 then some (c.toNat - 87)
  else if 65 ≤ c.toNat ∧ c.toNat ≤ 70 then some (c.toNat - 55)
  else none

/-- The unit that four hexadecimal digits stand for. -/
def hexUnit (a b c d : UInt16) : Option UInt16 := do
  let a ← hexValue a
  let b ← hexValue b
  let c ← hexValue c
  let d ← hexValue d
  return UInt16.ofNat (((a * 16 + b) * 16 + c) * 16 + d)

/-- What a backslash and the unit after it stand for. -/
def unescape (c : UInt16) : UInt16 :=
  if c = 116 then 9 else if c = 114 then 13 else if c = 110 then 10 else if c = 102 then 12 else c

/-- `loadConvert`: the escapes are undone; `none` for a malformed `\uxxxx`, which throws an
IllegalArgumentException. -/
def loadConvert : JString → Option JString
  | [] => some []
  | c :: cs =>
    if c ≠ backslash then (loadConvert cs).map (c :: ·)
    else
      match cs with
      -- A line does not end with a backslash that nothing escapes.
      | [] => some []
      | x :: cs =>
        if x = 117 then
          match cs with
          | h₃ :: h₂ :: h₁ :: h₀ :: cs =>
            (hexUnit h₃ h₂ h₁ h₀).bind fun u => (loadConvert cs).map (u :: ·)
          | _ => none
        else (loadConvert cs).map (unescape x :: ·)

/-- The key and the value of a logical line. -/
def entryOf (line : JString) : Option (JString × JString) :=
  let split := splitKey false line
  (loadConvert split.1).bind fun key =>
    (loadConvert (splitValue split.2)).map fun value => (key, value)

/-- `load`: the properties in the order in which they are put; `none` for an
IllegalArgumentException. -/
def load (file : List UInt8) : Option (List (JString × JString)) :=
  (readLines .start (file.map UInt8.toUInt16)).mapM entryOf

/-- `getProperty`: what has been put last under the key. -/
def getProperty (ps : List (JString × JString)) (key : JString) : Option JString :=
  ps.reverse.lookup key

/-! ## Storing -/

/-- An upper-case hexadecimal digit. -/
def hexDigit (n : ℕ) : UInt16 := UInt16.ofNat (if n < 10 then 48 + n else 55 + n)

/-- The escape of a unit by its hexadecimal digits. -/
def hexEscape (c : UInt16) : JString :=
  [backslash, 117, hexDigit (c.toNat / 4096), hexDigit (c.toNat / 256 % 16),
    hexDigit (c.toNat / 16 % 16), hexDigit (c.toNat % 16)]

/-- What `saveConvert` appends for one unit. -/
def saveUnit (escapeSpace : Bool) (c : UInt16) : JString :=
  if 61 < c.toNat ∧ c.toNat < 127 then if c = backslash then [backslash, backslash] else [c]
  else if c = 32 then if escapeSpace then [backslash, 32] else [32]
  else if c = 9 then [backslash, 116]
  else if c = 10 then [backslash, 110]
  else if c = 13 then [backslash, 114]
  else if c = 12 then [backslash, 102]
  else if isSeparator c || isCommentMark c then [backslash, c]
  else if c.toNat < 32 ∨ 126 < c.toNat then hexEscape c
  else [c]

/-- `saveConvert`: a space at the beginning is always escaped. -/
def saveConvert (escapeSpace : Bool) : JString → JString
  | [] => []
  | c :: cs => saveUnit true c ++ cs.flatMap (saveUnit escapeSpace)

/-- The line of a property. -/
def lineOf (p : JString × JString) : JString :=
  saveConvert true p.1 ++ 61 :: saveConvert false p.2

/-- `store` without comments: the line of the date, and the properties in the order in which the
table is iterated. -/
def store (lineSeparator date : JString) (ps : List (JString × JString)) : List UInt8 :=
  (35 :: date ++ lineSeparator ++ ps.flatMap fun p => lineOf p ++ lineSeparator).map
    UInt16.toUInt8

/-- In a table each key has been put once. -/
theorem getProperty_eq_some_iff {ps : List (JString × JString)}
    (hkeys : (ps.map Prod.fst).Nodup) {key value : JString} :
    getProperty ps key = some value ↔ (key, value) ∈ ps := by
  have hrev : (ps.reverse.map Prod.fst).Nodup := by
    rw [List.map_reverse]
    exact List.nodup_reverse.2 hkeys
  rw [getProperty, List.lookup_eq_some_iff, ← List.mem_reverse]
  constructor
  · rintro ⟨front, rest, heq, -⟩
    rw [heq]
    exact List.mem_append_right front List.mem_cons_self
  · intro hmem
    obtain ⟨front, rest, heq⟩ := List.append_of_mem hmem
    refine ⟨front, rest, heq, fun p hp => ?_⟩
    rw [heq, List.map_append, List.nodup_append] at hrev
    have hne := hrev.2.2 p.1 (List.mem_map_of_mem hp) key (by simp)
    simpa using hne.symm

/-! ## What is saved is read back -/

theorem hexValue_hexDigit {n : ℕ} (h : n < 16) : hexValue (hexDigit n) = some n := by
  have hall : ∀ k : Fin 16, hexValue (hexDigit k) = some k.val := by decide
  exact hall ⟨n, h⟩

/-- A hexadecimal digit is a unit without a meaning of its own. -/
theorem hexDigit_literal {n : ℕ} (h : n < 16) :
    hexDigit n ≠ backslash ∧ isSeparator (hexDigit n) = false ∧ isBlank (hexDigit n) = false ∧
      isEol (hexDigit n) = false := by
  have hall : ∀ k : Fin 16, hexDigit k ≠ backslash ∧ isSeparator (hexDigit k) = false ∧
      isBlank (hexDigit k) = false ∧ isEol (hexDigit k) = false := by decide
  exact hall ⟨n, h⟩

theorem hexUnit_hexEscape (c : UInt16) :
    hexUnit (hexDigit (c.toNat / 4096)) (hexDigit (c.toNat / 256 % 16))
      (hexDigit (c.toNat / 16 % 16)) (hexDigit (c.toNat % 16)) = some c := by
  have hlt := c.toNat_lt
  have hc : ((c.toNat / 4096 * 16 + c.toNat / 256 % 16) * 16 + c.toNat / 16 % 16) * 16 +
      c.toNat % 16 = c.toNat := by omega
  rw [hexUnit, hexValue_hexDigit (by omega), hexValue_hexDigit (by omega),
    hexValue_hexDigit (by omega), hexValue_hexDigit (by omega)]
  show some (UInt16.ofNat _) = some c
  rw [hc, UInt16.ofNat_toNat]

/-- A unit is saved as itself, as a backslash and one unit, or as four hexadecimal digits. -/
inductive Saved (c : UInt16) : JString → Prop
  | literal (hlt : c.toNat < 256) (hback : c ≠ backslash) (hsep : isSeparator c = false)
      (heol : isEol c = false) (hmark : isCommentMark c = false)
      (hblank : isBlank c = true → c = 32) : Saved c [c]
  | escaped {x} (hlt : x.toNat < 256) (hx : x ≠ 117) (hc : unescape x = c)
      (heol : isEol x = false) : Saved c [backslash, x]
  | hex : Saved c (hexEscape c)

theorem saved_saveUnit (escapeSpace : Bool) (c : UInt16) : Saved c (saveUnit escapeSpace c) := by
  unfold saveUnit
  split_ifs with h₁ h₂ h₃ h₄ h₅ h₆ h₇ h₈ h₉ h₁₀
  · subst h₂
    exact .escaped (by decide) (by decide) rfl rfl
  · have hne {d : UInt16} (hd : d.toNat ≤ 61) : c ≠ d := by
      rintro rfl
      omega
    exact .literal (by omega) h₂ (by simp [isSeparator, hne]) (by simp [isEol, hne])
      (by simp [isCommentMark, hne]) (by simp [isBlank, hne])
  · subst h₃
    exact .escaped (by decide) (by decide) rfl rfl
  · subst h₃
    exact .literal (by decide) (by decide) rfl rfl rfl fun _ => rfl
  · subst h₅
    exact .escaped (by decide) (by decide) rfl rfl
  · subst h₆
    exact .escaped (by decide) (by decide) rfl rfl
  · subst h₇
    exact .escaped (by decide) (by decide) rfl rfl
  · subst h₈
    exact .escaped (by decide) (by decide) rfl rfl
  · have hcases : (c = 61 ∨ c = 58) ∨ c = 35 ∨ c = 33 := by
      simpa only [isSeparator, isCommentMark, Bool.or_eq_true, decide_eq_true_eq] using h₉
    rcases hcases with (rfl | rfl) | rfl | rfl <;>
      exact .escaped (by decide) (by decide) rfl rfl
  · exact .hex
  · simp only [Bool.or_eq_true, not_or, Bool.not_eq_true] at h₉
    refine .literal (by omega) ?_ h₉.1 (by simp [isEol, h₆, h₇]) h₉.2
      (by simp [isBlank, h₃, h₅, h₈])
    rintro rfl
    exact h₁ (by decide)

/-- A blank stands for itself only where spaces are not escaped. -/
theorem saveUnit_true_ne {c : UInt16} (h : isBlank c = true) : saveUnit true c ≠ [c] := by
  simp only [isBlank, Bool.or_eq_true, decide_eq_true_eq] at h
  rcases h with (rfl | rfl) | rfl <;> decide

theorem loadConvert_cons_of_ne {c : UInt16} (h : c ≠ backslash) (cs : JString) :
    loadConvert (c :: cs) = (loadConvert cs).map (c :: ·) := by
  rw [loadConvert.eq_def]
  exact if_pos h

theorem loadConvert_escape {x : UInt16} (h : x ≠ 117) (cs : JString) :
    loadConvert (backslash :: x :: cs) = (loadConvert cs).map (unescape x :: ·) := by
  rw [loadConvert.eq_def]
  simp [h]

theorem loadConvert_saved {c : UInt16} {u : JString} (h : Saved c u) (rest : JString) :
    loadConvert (u ++ rest) = (loadConvert rest).map (c :: ·) := by
  cases h with
  | literal _ hback => exact loadConvert_cons_of_ne hback rest
  | escaped _ hx hc => rw [List.cons_append, List.singleton_append, loadConvert_escape hx, hc]
  | hex => simp [hexEscape, loadConvert, hexUnit_hexEscape]

theorem loadConvert_flatMap (escapeSpace : Bool) (s rest : JString) :
    loadConvert (s.flatMap (saveUnit escapeSpace) ++ rest) =
      (loadConvert rest).map (s ++ ·) := by
  induction s with
  | nil => simp
  | cons c s ih =>
    rw [List.flatMap_cons, List.append_assoc, loadConvert_saved (saved_saveUnit _ c), ih,
      Option.map_map]
    rfl

theorem loadConvert_saveConvert (escapeSpace : Bool) (s : JString) :
    loadConvert (saveConvert escapeSpace s) = some s := by
  cases s with
  | nil => rfl
  | cons c s =>
    have hrest := loadConvert_flatMap escapeSpace s []
    rw [List.append_nil] at hrest
    rw [saveConvert, loadConvert_saved (saved_saveUnit _ c), hrest]
    simp [loadConvert]

theorem saveConvert_true (s : JString) : saveConvert true s = s.flatMap (saveUnit true) := by
  cases s <;> rfl

/-! ## The key and the value of a saved line -/

theorem splitKey_cons {b : Bool} {c : UInt16} (h : (isSeparator c || isBlank c) = false ∨ b = true)
    (cs : JString) : splitKey b (c :: cs) =
      (c :: (splitKey (c = backslash && !b) cs).1, (splitKey (c = backslash && !b) cs).2) := by
  rw [splitKey]
  refine if_neg ?_
  rcases h with h | rfl
  · simp [h]
  · simp

theorem splitKey_literal {c : UInt16} (hback : c ≠ backslash) (hsep : isSeparator c = false)
    (hblank : isBlank c = false) (cs : JString) :
    splitKey false (c :: cs) = (c :: (splitKey false cs).1, (splitKey false cs).2) := by
  rw [splitKey_cons (Or.inl (by simp [hsep, hblank]))]
  simp [hback]

theorem splitKey_escape (x : UInt16) (cs : JString) :
    splitKey false (backslash :: x :: cs) =
      (backslash :: x :: (splitKey false cs).1, (splitKey false cs).2) := by
  rw [splitKey_cons (Or.inl rfl), show (decide (backslash = backslash) && !false) = true from rfl,
    splitKey_cons (Or.inr rfl)]
  simp

theorem splitKey_saved {c : UInt16} {u : JString} (h : Saved c u)
    (hkey : isBlank c = true → u ≠ [c]) (rest : JString) :
    splitKey false (u ++ rest) = (u ++ (splitKey false rest).1, (splitKey false rest).2) := by
  cases h with
  | literal _ hback hsep =>
    have hblank : isBlank c = false := by
      by_contra hb
      exact hkey (by simpa using hb) rfl
    exact splitKey_literal hback hsep hblank rest
  | @escaped x => exact splitKey_escape x rest
  | hex =>
    have hlt := c.toNat_lt
    have hdigit {n : ℕ} (hn : n < 16) (cs : JString) : splitKey false (hexDigit n :: cs) =
        (hexDigit n :: (splitKey false cs).1, (splitKey false cs).2) := by
      obtain ⟨hback, hsep, hblank, -⟩ := hexDigit_literal hn
      exact splitKey_literal hback hsep hblank cs
    simp only [hexEscape, List.cons_append, List.nil_append]
    rw [splitKey_escape, hdigit (by omega), hdigit (by omega), hdigit (by omega),
      hdigit (by omega)]

/-- The key ends at the sign after it. -/
theorem splitKey_saveConvert (s rest : JString) :
    splitKey false (saveConvert true s ++ 61 :: rest) = (saveConvert true s, 61 :: rest) := by
  rw [saveConvert_true]
  induction s with
  | nil => rfl
  | cons c s ih =>
    rw [List.flatMap_cons, List.append_assoc,
      splitKey_saved (saved_saveUnit true c) saveUnit_true_ne, ih]

/-- The first unit of a saved text ends no line and begins no comment. -/
theorem Saved.exists_cons {c : UInt16} {u : JString} (h : Saved c u) :
    ∃ d v, u = d :: v ∧ isEol d = false ∧ isCommentMark d = false ∧
      (isBlank d = true → isBlank c = true ∧ u = [c]) := by
  cases h with
  | literal _ _ _ heol hmark => exact ⟨c, [], rfl, heol, hmark, fun hb => ⟨hb, rfl⟩⟩
  | @escaped x => exact ⟨backslash, [x], rfl, rfl, rfl, nofun⟩
  | hex => exact ⟨backslash, _, rfl, rfl, rfl, nofun⟩

/-- Where blanks are escaped, it is no blank either. -/
theorem exists_cons_saveUnit_true (c : UInt16) :
    ∃ d v, saveUnit true c = d :: v ∧ isBlank d = false ∧ isEol d = false ∧
      isCommentMark d = false := by
  obtain ⟨d, v, hd, heol, hmark, hblank⟩ := (saved_saveUnit true c).exists_cons
  refine ⟨d, v, hd, ?_, heol, hmark⟩
  by_contra hb
  obtain ⟨hc, hself⟩ := hblank (by simpa using hb)
  exact saveUnit_true_ne hc hself

theorem splitValue_saveConvert (s : JString) :
    splitValue (61 :: saveConvert false s) = saveConvert false s := by
  cases s with
  | nil => rfl
  | cons c s =>
    obtain ⟨d, v, hd, hblank, -⟩ := exists_cons_saveUnit_true c
    rw [splitValue, show isSeparator 61 = true from rfl, saveConvert, hd, List.cons_append,
      trimValue, hblank]
    simp

theorem entryOf_lineOf (p : JString × JString) : entryOf (lineOf p) = some p := by
  rw [entryOf, lineOf, splitKey_saveConvert]
  simp only [splitValue_saveConvert, loadConvert_saveConvert]
  rfl

theorem mapM_entryOf_lineOf (ps : List (JString × JString)) :
    (ps.map lineOf).mapM entryOf = some ps := by
  induction ps with
  | nil => rfl
  | cons p ps ih =>
    rw [List.map_cons, List.mapM_cons, entryOf_lineOf, ih]
    rfl

/-! ## What is saved is one line -/

/-- The line so far, with the last unit a backslash that escapes or not. -/
abbrev LineReader.inside (buf : JString) (precedingBackslash : Bool) : LineReader :=
  ⟨buf, false, false, precedingBackslash, false, false⟩

theorem readLines_start_cons {c : UInt16} (hblank : isBlank c = false) (heol : isEol c = false)
    (hmark : isCommentMark c = false) (cs : List UInt16) :
    readLines .start (c :: cs) = readLines (.inside [c] (c = backslash)) cs := by
  simp [readLines, LineReader.start, hblank, heol, hmark]

theorem readLines_inside {buf : JString} (hne : buf ≠ []) (b : Bool) {c : UInt16}
    (heol : isEol c = false) (cs : List UInt16) :
    readLines (.inside buf b) (c :: cs) =
      readLines (.inside (buf ++ [c]) (c = backslash && !b)) cs := by
  simp [readLines, hne, heol]

/-- The rest of a saved unit, after its first unit. -/
theorem readLines_saved_tail {c d : UInt16} {v : JString} (h : Saved c (d :: v)) (buf : JString)
    (rest : List UInt16) :
    readLines (.inside (buf ++ [d]) (d = backslash)) (v ++ rest) =
      readLines (.inside (buf ++ d :: v) false) rest := by
  cases h with
  | literal _ hback => simp [hback]
  | escaped _ _ _ heol =>
    rw [List.singleton_append, readLines_inside (by simp) _ heol]
    simp
  | hex =>
    have hlt := c.toNat_lt
    have hdigit {buf : JString} (hne : buf ≠ []) {n : ℕ} (hn : n < 16) (cs : List UInt16) :
        readLines (.inside buf false) (hexDigit n :: cs) =
          readLines (.inside (buf ++ [hexDigit n]) false) cs := by
      obtain ⟨hback, -, -, heol⟩ := hexDigit_literal hn
      rw [readLines_inside hne false heol]
      simp [hback]
    simp only [List.cons_append, List.nil_append]
    rw [readLines_inside (by simp) _ rfl]
    simp only [decide_true, Bool.not_true, Bool.and_false]
    rw [hdigit (by simp) (by omega), hdigit (by simp) (by omega), hdigit (by simp) (by omega),
      hdigit (by simp) (by omega)]
    simp

theorem readLines_inside_saved {buf : JString} (hne : buf ≠ []) {c : UInt16} {u : JString}
    (h : Saved c u) (rest : List UInt16) :
    readLines (.inside buf false) (u ++ rest) = readLines (.inside (buf ++ u) false) rest := by
  obtain ⟨d, v, rfl, heol, -⟩ := h.exists_cons
  rw [List.cons_append, readLines_inside hne false heol, Bool.not_false, Bool.and_true]
  exact readLines_saved_tail h buf rest

theorem readLines_inside_flatMap {buf : JString} (hne : buf ≠ []) (escapeSpace : Bool)
    (s rest : JString) :
    readLines (.inside buf false) (s.flatMap (saveUnit escapeSpace) ++ rest) =
      readLines (.inside (buf ++ s.flatMap (saveUnit escapeSpace)) false) rest := by
  induction s generalizing buf with
  | nil => simp
  | cons c s ih =>
    rw [List.flatMap_cons, List.append_assoc,
      readLines_inside_saved hne (saved_saveUnit escapeSpace c), ih (by simp [hne]),
      List.append_assoc]

theorem readLines_inside_saveConvert {buf : JString} (hne : buf ≠ []) (escapeSpace : Bool)
    (s rest : JString) :
    readLines (.inside buf false) (saveConvert escapeSpace s ++ rest) =
      readLines (.inside (buf ++ saveConvert escapeSpace s) false) rest := by
  cases s with
  | nil => simp [saveConvert]
  | cons c s =>
    rw [saveConvert, List.append_assoc, readLines_inside_saved hne (saved_saveUnit true c),
      readLines_inside_flatMap (by simp [hne]), List.append_assoc]

/-- The first unit of a key begins a line: it is no blank and no comment mark. -/
theorem readLines_start_saveConvert (c : UInt16) (s rest : JString) :
    readLines .start (saveConvert true (c :: s) ++ rest) =
      readLines (.inside (saveConvert true (c :: s)) false) rest := by
  obtain ⟨d, v, hd, hblank, heol, hmark⟩ := exists_cons_saveUnit_true c
  have hsaved : Saved c (d :: v) := hd ▸ saved_saveUnit true c
  rw [saveConvert, hd, List.append_assoc, List.cons_append,
    readLines_start_cons hblank heol hmark]
  rw [← List.nil_append [d], readLines_saved_tail hsaved, List.nil_append,
    readLines_inside_flatMap (by simp)]

/-- A line ends at its first line feed or carriage return. -/
theorem readLines_inside_eol {buf : JString} (hne : buf ≠ []) {c : UInt16} (heol : isEol c = true)
    (cs : List UInt16) :
    readLines (.inside buf false) (c :: cs) = buf :: readLines .start cs := by
  cases cs with
  | nil => simp [readLines, hne, heol, LineReader.finish, LineReader.start]
  | cons d cs => simp [readLines, hne, heol]

theorem readLines_start_eols (sep rest : JString) (hsep : ∀ c ∈ sep, isEol c = true) :
    readLines .start (sep ++ rest) = readLines .start rest := by
  induction sep with
  | nil => rfl
  | cons c sep ih =>
    have heol := hsep c List.mem_cons_self
    rw [← ih fun d hd => hsep d (List.mem_cons_of_mem c hd)]
    simp [readLines, LineReader.start, heol]

theorem readLines_start_lineOf (p : JString × JString) (rest : List UInt16) :
    readLines .start (lineOf p ++ rest) = readLines (.inside (lineOf p) false) rest := by
  obtain ⟨key, value⟩ := p
  rw [lineOf]
  cases key with
  | nil =>
    rw [saveConvert, List.nil_append, List.cons_append, readLines_start_cons rfl rfl rfl]
    exact readLines_inside_saveConvert (by simp) false value rest
  | cons c key =>
    have hne : saveConvert true (c :: key) ≠ [] := by
      obtain ⟨d, v, hd, -⟩ := exists_cons_saveUnit_true c
      simp [saveConvert, hd]
    rw [List.append_assoc, readLines_start_saveConvert, List.cons_append,
      readLines_inside hne false rfl, show (decide ((61 : UInt16) = backslash) && !false) = false
        from rfl, readLines_inside_saveConvert (by simp), List.append_assoc]
    rfl

/-- The line of a property, with the separator after it, is read as one line. -/
theorem readLines_lineOf (p : JString × JString) {sep : JString} (hne : sep ≠ [])
    (hsep : ∀ c ∈ sep, isEol c = true) (rest : List UInt16) :
    readLines .start (lineOf p ++ sep ++ rest) = lineOf p :: readLines .start rest := by
  cases sep with
  | nil => exact absurd rfl hne
  | cons c sep =>
    rw [List.append_assoc, readLines_start_lineOf, List.cons_append,
      readLines_inside_eol (by simp [lineOf]) (hsep c List.mem_cons_self),
      readLines_start_eols sep rest fun d hd => hsep d (List.mem_cons_of_mem c hd)]

theorem readLines_flatMap_lineOf {sep : JString} (hne : sep ≠ [])
    (hsep : ∀ c ∈ sep, isEol c = true) (ps : List (JString × JString)) :
    readLines .start (ps.flatMap fun p => lineOf p ++ sep) = ps.map lineOf := by
  induction ps with
  | nil => rfl
  | cons p ps ih => rw [List.flatMap_cons, readLines_lineOf p hne hsep, ih, List.map_cons]

/-- A comment ends at its first line feed or carriage return. -/
theorem readLines_comment {comment : JString} (hcomment : ∀ c ∈ comment, isEol c = false)
    {sep : JString} (hne : sep ≠ []) (hsep : ∀ c ∈ sep, isEol c = true) (rest : List UInt16) :
    readLines .start (35 :: comment ++ sep ++ rest) = readLines .start rest := by
  have hin : ∀ comment : JString, (∀ c ∈ comment, isEol c = false) →
      readLines ⟨[], false, false, false, true, false⟩ (comment ++ (sep ++ rest)) =
        readLines ⟨[], false, false, false, true, false⟩ (sep ++ rest) := by
    intro comment hcomment
    induction comment with
    | nil => rfl
    | cons c comment ih =>
      rw [List.cons_append, readLines, if_pos rfl, hcomment c List.mem_cons_self]
      exact ih fun d hd => hcomment d (List.mem_cons_of_mem c hd)
  have hbegin : ∀ cs, readLines .start (35 :: cs) =
      readLines ⟨[], false, false, false, true, false⟩ cs := fun cs => rfl
  cases sep with
  | nil => exact absurd rfl hne
  | cons c sep =>
    rw [List.append_assoc, List.cons_append, hbegin, hin comment hcomment, List.cons_append,
      readLines, if_pos rfl, if_pos (hsep c List.mem_cons_self)]
    exact readLines_start_eols sep rest fun d hd => hsep d (List.mem_cons_of_mem c hd)

/-! ## The bytes of the file -/

theorem toUInt16_toUInt8 {c : UInt16} (h : c.toNat < 256) : c.toUInt8.toUInt16 = c := by
  apply UInt16.toNat_inj.mp
  rw [UInt8.toNat_toUInt16, UInt16.toNat_toUInt8]
  exact Nat.mod_eq_of_lt h

theorem map_toUInt16_toUInt8 {s : JString} (h : ∀ c ∈ s, c.toNat < 256) :
    (s.map UInt16.toUInt8).map UInt8.toUInt16 = s := by
  rw [List.map_map]
  conv_rhs => rw [← List.map_id s]
  exact List.map_congr_left fun c hc => toUInt16_toUInt8 (h c hc)

theorem isEol_toNat_lt {c : UInt16} (h : isEol c = true) : c.toNat < 256 := by
  simp only [isEol, Bool.or_eq_true, decide_eq_true_eq] at h
  rcases h with rfl | rfl <;> decide

theorem hexDigit_toNat_lt {n : ℕ} (h : n < 16) : (hexDigit n).toNat < 256 := by
  have hall : ∀ k : Fin 16, (hexDigit k).toNat < 256 := by decide
  exact hall ⟨n, h⟩

theorem Saved.toNat_lt {c : UInt16} {u : JString} (h : Saved c u) : ∀ d ∈ u, d.toNat < 256 := by
  cases h with
  | literal hlt => simpa using hlt
  | escaped hlt => simpa using ⟨(by decide : backslash.toNat < 256), hlt⟩
  | hex =>
    have hlt := c.toNat_lt
    simp only [hexEscape, List.forall_mem_cons]
    refine ⟨by decide, by decide, hexDigit_toNat_lt (by omega), hexDigit_toNat_lt (by omega),
      hexDigit_toNat_lt (by omega), hexDigit_toNat_lt (by omega), nofun⟩

theorem toNat_lt_of_mem_saveConvert {escapeSpace : Bool} {s : JString} {d : UInt16}
    (hd : d ∈ saveConvert escapeSpace s) : d.toNat < 256 := by
  cases s with
  | nil => exact absurd hd List.not_mem_nil
  | cons c s =>
    rcases List.mem_append.mp hd with hd | hd
    · exact (saved_saveUnit true c).toNat_lt d hd
    · obtain ⟨x, -, hd⟩ := List.mem_flatMap.mp hd
      exact (saved_saveUnit escapeSpace x).toNat_lt d hd

/-- What is stored is loaded again, whatever the line separator and the date are. -/
theorem load_store {sep date : JString} (hne : sep ≠ []) (hsep : ∀ c ∈ sep, isEol c = true)
    (hdate : ∀ c ∈ date, isEol c = false ∧ c.toNat < 256) (ps : List (JString × JString)) :
    load (store sep date ps) = some ps := by
  have hlatin : ∀ c ∈ 35 :: date ++ sep ++ ps.flatMap fun p => lineOf p ++ sep,
      c.toNat < 256 := by
    intro c hc
    rcases List.mem_append.mp hc with hc | hc
    · rcases List.mem_append.mp hc with hc | hc
      · rcases List.mem_cons.mp hc with rfl | hc
        · decide
        · exact (hdate c hc).2
      · exact isEol_toNat_lt (hsep c hc)
    · obtain ⟨p, -, hc⟩ := List.mem_flatMap.mp hc
      rcases List.mem_append.mp hc with hc | hc
      · rcases List.mem_append.mp hc with hc | hc
        · exact toNat_lt_of_mem_saveConvert hc
        · rcases List.mem_cons.mp hc with rfl | hc
          · decide
          · exact toNat_lt_of_mem_saveConvert hc
      · exact isEol_toNat_lt (hsep c hc)
  rw [load, store, map_toUInt16_toUInt8 hlatin,
    readLines_comment (fun c hc => (hdate c hc).1) hne hsep, readLines_flatMap_lineOf hne hsep,
    mapM_entryOf_lineOf]

end Properties
