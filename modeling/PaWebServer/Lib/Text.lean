import Mathlib.Data.List.DropRight
import Mathlib.Data.List.Infix
import Mathlib.Tactic.SplitIfs

/-!
# Java text

A `java.lang.String` is a list of characters.  The methods defined here follow the documentation
of `java.lang.String` in Java 17; the bytes of a text are its UTF-8 encoding.
-/

/-- The characters of a `java.lang.String`. -/
abbrev Text := List Char

/-- What a file or a socket carries. -/
abbrev Bytes := List UInt8

namespace Text

/-- `s.endsWith(suffix)`. -/
def endsWith (s suffix : Text) : Bool := suffix.isSuffixOf s

theorem endsWith_iff {s suffix : Text} : endsWith s suffix = true ↔ suffix <:+ s :=
  List.isSuffixOf_iff_suffix

theorem getLast?_of_endsWith {s suffix : Text} {c : Char} (h : endsWith s suffix = true)
    (hc : suffix.getLast? = some c) : s.getLast? = some c := by
  obtain ⟨t, rfl⟩ := endsWith_iff.1 h
  rw [List.getLast?_append, hc]
  rfl

/-- A text ends with one of two suffixes whose last characters differ. -/
theorem not_endsWith_of_endsWith {s t u : Text} {c d : Char} (h : endsWith s t = true)
    (hc : t.getLast? = some c) (hd : u.getLast? = some d) (hne : c ≠ d) :
    ¬ endsWith s u = true := by
  intro hu
  have hlast := (getLast?_of_endsWith h hc).symm.trans (getLast?_of_endsWith hu hd)
  exact hne (Option.some.inj hlast)

/-- `Character.isWhitespace`: the Unicode separators that are not non-breaking, and the control
characters 9 to 13 and 28 to 31. -/
def isWhitespace (c : Char) : Bool :=
  let v := c.val.toNat
  (9 ≤ v && v ≤ 13) || (28 ≤ v && v ≤ 32) || v == 0x1680 || (0x2000 ≤ v && v ≤ 0x2006) ||
    (0x2008 ≤ v && v ≤ 0x200A) || v == 0x2028 || v == 0x2029 || v == 0x205F || v == 0x3000

/-- `s.isBlank()`. -/
def isBlank (s : Text) : Bool := s.all isWhitespace

/-- `s.split(sep)` for a separator of one character: trailing empty pieces are dropped, and a text
without the separator is its only piece. -/
def split (sep : Char) (s : Text) : List Text :=
  if sep ∈ s then (s.splitOn sep).rdropWhile (·.isEmpty) else [s]

theorem split_of_notMem {sep : Char} {s : Text} (h : sep ∉ s) : split sep s = [s] := if_neg h

theorem exists_piece {sep : Char} {s : Text} (h : ∃ c ∈ s, c ≠ sep) :
    ∃ w ∈ s.splitOn sep, w ≠ [] := by
  induction s with
  | nil => simp at h
  | cons d s ih =>
    rw [List.splitOn_cons_eq_if_modifyHead]
    by_cases hd : d = sep
    · subst hd
      obtain ⟨c, hc, hne⟩ := h
      obtain ⟨w, hw, hw'⟩ := ih ⟨c, List.mem_of_ne_of_mem hne hc, hne⟩
      rw [if_pos (beq_self_eq_true d)]
      exact ⟨w, List.mem_cons_of_mem _ hw, hw'⟩
    · obtain ⟨p, ps, hp⟩ := List.exists_cons_of_ne_nil (List.splitOn_ne_nil sep s)
      rw [if_neg (by simpa using hd), hp]
      exact ⟨d :: p, List.mem_cons_self, by simp⟩

theorem rdropWhile_cons {α : Type*} {p : α → Bool} {a : α} {l : List α} (h : ∃ x ∈ l, ¬ p x) :
    (a :: l).rdropWhile p = a :: l.rdropWhile p := by
  have hne : l.reverse.dropWhile p ≠ [] := by
    intro hnil
    obtain ⟨x, hx, hpx⟩ := h
    exact hpx (List.dropWhile_eq_nil_iff.1 hnil x (List.mem_reverse.2 hx))
  rw [List.rdropWhile, List.reverse_cons, List.dropWhile_append,
    if_neg (by simpa using hne), List.reverse_append]
  rfl

/-- The first piece ends at the first separator; the rest is split alone when it is not all
separators. -/
theorem split_append_cons {sep : Char} {a c : Text} (ha : sep ∉ a) (hc : ∃ x ∈ c, x ≠ sep) :
    split sep (a ++ sep :: c) = a :: split sep c := by
  obtain ⟨w, hw, hne⟩ := exists_piece hc
  have hsplit : (a ++ sep :: c).splitOn sep = a :: c.splitOn sep := by
    rw [List.splitOn_append_cons_self, List.splitOn_eq_singleton ha]
    rfl
  have hleft : split sep (a ++ sep :: c) = a :: (c.splitOn sep).rdropWhile (·.isEmpty) := by
    rw [split, if_pos (by simp), hsplit, rdropWhile_cons ⟨w, hw, by simpa using hne⟩]
  rw [hleft]
  by_cases hsep : sep ∈ c
  · rw [split, if_pos hsep]
  · obtain ⟨x, hx, -⟩ := hc
    have hempty : c.isEmpty = false := by
      simpa using List.ne_nil_of_mem hx
    rw [split_of_notMem hsep, List.splitOn_eq_singleton hsep, List.rdropWhile_singleton,
      if_neg (by simp [hempty])]

theorem split_ne_nil {sep : Char} {s : Text} (h : ∃ x ∈ s, x ≠ sep) : split sep s ≠ [] := by
  obtain ⟨w, hw, hne⟩ := exists_piece h
  unfold split
  split_ifs with hsep
  · rw [Ne, List.rdropWhile_eq_nil_iff]
    exact fun hall => hne (by simpa using hall w hw)
  · simp

/-! ## Lines -/

section Lines

variable {α : Type*} [DecidableEq α] {nl : α}

theorem splitOn_append_of_notMem {a : List α} (ha : nl ∉ a) (s : List α) :
    (a ++ s).splitOn nl = (s.splitOn nl).modifyHead (a ++ ·) := by
  induction a with
  | nil =>
    show s.splitOn nl = (s.splitOn nl).modifyHead id
    rw [List.modifyHead_id, id]
  | cons x a ih =>
    obtain ⟨hx, ha⟩ : nl ≠ x ∧ nl ∉ a := by simpa using ha
    rw [List.cons_append, List.splitOn_cons_eq_if_modifyHead, if_neg (by simpa using Ne.symm hx),
      ih ha, List.modifyHead_modifyHead]
    rfl

/-- The lines that end with the newline `nl`; what is after the last newline is not one. -/
def lines (nl : α) (s : List α) : List (List α) := (s.splitOn nl).dropLast

theorem lines_of_notMem {s : List α} (h : nl ∉ s) : lines nl s = [] := by
  rw [lines, List.splitOn_eq_singleton h, List.dropLast_singleton]

theorem lines_append_cons (s t : List α) :
    lines nl (s ++ nl :: t) = s.splitOn nl ++ lines nl t := by
  rw [lines, List.splitOn_append_cons_self,
    List.dropLast_append_of_ne_nil (List.splitOn_ne_nil nl t), lines]

/-- The lines of a text stay when something is appended: only what is after the last newline can
become part of another line. -/
theorem exists_lines_append (nl : α) (s : List α) :
    ∃ rest, nl ∉ rest ∧ ∀ t, lines nl (s ++ t) = lines nl s ++ lines nl (rest ++ t) := by
  induction s using List.reverseRecOn with
  | nil => exact ⟨[], List.not_mem_nil, fun t => rfl⟩
  | append_singleton s x ih =>
    obtain ⟨rest, hrest, hlines⟩ := ih
    by_cases hx : x = nl
    · subst hx
      refine ⟨[], List.not_mem_nil, fun t => ?_⟩
      rw [List.append_assoc, List.singleton_append, lines_append_cons, lines_append_cons]
      simp [lines]
    · have hnew : nl ∉ rest ++ [x] := by simp [hrest, Ne.symm hx]
      refine ⟨rest ++ [x], hnew, fun t => ?_⟩
      rw [List.append_assoc, hlines, hlines [x], lines_of_notMem hnew, List.append_nil,
        List.append_assoc]

theorem lines_mono (nl : α) {s t : List α} (h : s <+: t) : lines nl s <+: lines nl t := by
  obtain ⟨u, rfl⟩ := h
  obtain ⟨rest, -, hlines⟩ := exists_lines_append nl s
  exact ⟨_, (hlines u).symm⟩

end Lines

/-- `%d`: an integer in decimal. -/
def decimal : Int → Text
  | .ofNat n => Nat.toDigits 10 n
  | .negSucc n => '-' :: Nat.toDigits 10 (n + 1)

theorem isDigit_of_mem_decimal {n : Int} {c : Char} (h : c ∈ decimal n) :
    c = '-' ∨ c.isDigit = true := by
  cases n with
  | ofNat n => exact Or.inr (Nat.isDigit_of_mem_toDigits (by omega) (by omega) h)
  | negSucc n =>
    exact (List.mem_cons.1 h).imp_right (Nat.isDigit_of_mem_toDigits (by omega) (by omega))

/-- The number that a text of digits is. -/
def ofDigits? (ds : Text) : Option ℕ :=
  if ds ≠ [] ∧ ds.all Char.isDigit then some (Nat.ofDigitChars 10 ds 0) else none

/-- The integer that a text in decimal is. -/
def ofDecimal? : Text → Option Int
  | '-' :: ds => (ofDigits? ds).map fun n => -(n : Int)
  | ds => (ofDigits? ds).map Int.ofNat

theorem ofDigits?_toDigits (n : ℕ) : ofDigits? (Nat.toDigits 10 n) = some n := by
  have hall : (Nat.toDigits 10 n).all Char.isDigit = true :=
    List.all_eq_true.2 fun _ hc => Nat.isDigit_of_mem_toDigits (by omega) (by omega) hc
  rw [ofDigits?, if_pos ⟨Nat.toDigits_ne_nil, hall⟩, Nat.ofDigitChars_ten_toDigits]

theorem ofDecimal?_decimal (n : Int) : ofDecimal? (decimal n) = some n := by
  cases n with
  | ofNat n =>
    have hne (ds : Text) : Nat.toDigits 10 n ≠ '-' :: ds := by
      intro h
      have hmem : '-' ∈ Nat.toDigits 10 n := h ▸ List.mem_cons_self
      exact absurd (Nat.isDigit_of_mem_toDigits (by omega) (by omega) hmem) (by decide)
    rw [decimal, ofDecimal?, ofDigits?_toDigits]
    · rfl
    · exact hne
  | negSucc n =>
    rw [decimal, ofDecimal?, ofDigits?_toDigits]
    rfl

/-- The UTF-8 bytes of a text. -/
def utf8 (s : Text) : Bytes := s.flatMap String.utf8EncodeChar

theorem utf8_append (s t : Text) : utf8 (s ++ t) = utf8 s ++ utf8 t := List.flatMap_append

/-- An ASCII byte of the encoding is one of the characters. -/
theorem mem_of_mem_utf8 {c : Char} (hc : c.toNat < 128) {s : Text}
    (h : UInt8.ofNat c.toNat ∈ utf8 s) : c ∈ s := by
  obtain ⟨d, hd, hmem⟩ := List.mem_flatMap.1 h
  have hbyte (n : ℕ) (he : UInt8.ofNat c.toNat = UInt8.ofNat n) : c.toNat = n % 256 := by
    have := congrArg UInt8.toNat he
    rw [UInt8.toNat_ofNat', UInt8.toNat_ofNat'] at this
    omega
  unfold String.utf8EncodeChar at hmem
  simp only at hmem
  split_ifs at hmem with h₁ h₂ h₃
  · have heq := hbyte _ (List.mem_singleton.1 hmem)
    have hdc : d.toNat = c.toNat := by
      change c.toNat = d.toNat % 256 at heq
      change d.toNat ≤ 127 at h₁
      omega
    rwa [Char.toNat_inj.1 hdc] at hd
  all_goals simp only [List.mem_cons, List.not_mem_nil, or_false] at hmem
  · rcases hmem with he | he <;> have := hbyte _ he <;> omega
  · rcases hmem with he | he | he <;> have := hbyte _ he <;> omega
  · rcases hmem with he | he | he | he <;> have := hbyte _ he <;> omega

theorem utf8_injective : Function.Injective utf8 := by
  intro s t h
  have hencode : s.utf8Encode = t.utf8Encode := congrArg List.toByteArray h
  rw [← String.toByteArray_ofList, ← String.toByteArray_ofList, String.toByteArray_inj] at hencode
  exact String.ofList_injective hencode

end Text
