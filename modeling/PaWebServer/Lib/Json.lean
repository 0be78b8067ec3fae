import PaWebServer.Lib.Text
import Mathlib.Algebra.Order.Ring.Rat

/-!
# JSON

The grammar of JSON texts, as relations between the text before a production, what the production
stands for, and the text after it.  A string stands for its UTF-16 code units, since an escape can
name half of a surrogate pair, and a number for a rational.
-/

namespace Json

/-! ## White space -/

def isWs (c : Char) : Bool := c = ' ' || c = '\t' || c = '\n' || c = '\r'

inductive Ws : Text → Text → Prop
  | nil {s} : Ws s s
  | cons {c s r} (hc : isWs c) (h : Ws s r) : Ws (c :: s) r

/-! ## Strings -/

/-- The UTF-16 code units of a character. -/
def units (c : Char) : List ℕ :=
  if c.toNat < 0x10000 then [c.toNat]
  else [0xD800 + (c.toNat - 0x10000) / 0x400, 0xDC00 + (c.toNat - 0x10000) % 0x400]

/-- The UTF-16 code units of a text. -/
def utf16 (s : Text) : List ℕ := s.flatMap units

/-- A character that a string holds as it is: neither a quote, nor a backslash, nor a control
character. -/
def unescaped (c : Char) : Bool := c ≠ '"' && c ≠ '\\' && 0x20 ≤ c.toNat

/-- The code unit of an escape of two characters. -/
def escape? : Char → Option ℕ
  | '"' => some 0x22
  | '\\' => some 0x5C
  | '/' => some 0x2F
  | 'b' => some 0x08
  | 'f' => some 0x0C
  | 'n' => some 0x0A
  | 'r' => some 0x0D
  | 't' => some 0x09
  | _ => none

def hexDigit? (c : Char) : Option ℕ :=
  if '0' ≤ c ∧ c ≤ '9' then some (c.toNat - 48)
  else if 'a' ≤ c ∧ c ≤ 'f' then some (c.toNat - 87)
  else if 'A' ≤ c ∧ c ≤ 'F' then some (c.toNat - 55)
  else none

/-- A string after its opening quote, with the closing one. -/
inductive Chars : Text → List ℕ → Text → Prop
  | close {r} : Chars ('"' :: r) [] r
  | plain {c s us r} (hc : unescaped c) (h : Chars s us r) : Chars (c :: s) (units c ++ us) r
  | escape {e u s us r} (he : escape? e = some u) (h : Chars s us r) :
      Chars ('\\' :: e :: s) (u :: us) r
  | hex {a b c d k l m n s us r} (ha : hexDigit? a = some k) (hb : hexDigit? b = some l)
      (hc : hexDigit? c = some m) (hd : hexDigit? d = some n) (h : Chars s us r) :
      Chars ('\\' :: 'u' :: a :: b :: c :: d :: s) ((((k * 16 + l) * 16 + m) * 16 + n) :: us) r

/-! ## Numbers -/

/-- One digit or more. -/
inductive Digits : Text → Text → Text → Prop
  | one {c r} (hc : c.isDigit) : Digits (c :: r) [c] r
  | cons {c s ds r} (hc : c.isDigit) (h : Digits s ds r) : Digits (c :: s) (c :: ds) r

/-- The number that a list of digits spells. -/
def digitsValue (ds : Text) : ℕ := Nat.ofDigitChars 10 ds 0

/-- The digits before the point, without a leading zero. -/
inductive IntPart : Text → ℕ → Text → Prop
  | zero {r} : IntPart ('0' :: r) 0 r
  | digits {c s ds r} (hc : c ≠ '0') (h : Digits (c :: s) ds r) :
      IntPart (c :: s) (digitsValue ds) r

inductive Frac : Text → ℚ → Text → Prop
  | absent {r} : Frac r 0 r
  | present {s ds r} (h : Digits s ds r) : Frac ('.' :: s) (digitsValue ds / 10 ^ ds.length) r

inductive Exponent : Text → ℤ → Text → Prop
  | absent {r} : Exponent r 0 r
  | bare {e s ds r} (he : e = 'e' ∨ e = 'E') (h : Digits s ds r) :
      Exponent (e :: s) (digitsValue ds) r
  | plus {e s ds r} (he : e = 'e' ∨ e = 'E') (h : Digits s ds r) :
      Exponent (e :: '+' :: s) (digitsValue ds) r
  | minus {e s ds r} (he : e = 'e' ∨ e = 'E') (h : Digits s ds r) :
      Exponent (e :: '-' :: s) (-digitsValue ds) r

inductive Unsigned : Text → ℚ → Text → Prop
  | mk {s n s₁ f s₂ k r} (hi : IntPart s n s₁) (hf : Frac s₁ f s₂) (hk : Exponent s₂ k r) :
      Unsigned s ((n + f) * 10 ^ k) r

inductive Number : Text → ℚ → Text → Prop
  | nonneg {s q r} (h : Unsigned s q r) : Number s q r
  | neg {s q r} (h : Unsigned s q r) : Number ('-' :: s) (-q) r

/-! ## Values -/

/-- What a JSON text stands for; an object has its members in the order of the text. -/
inductive Value where
  | null
  | bool (b : Bool)
  | number (q : ℚ)
  | string (us : List ℕ)
  | array (vs : List Value)
  | object (ms : List (List ℕ × Value))

mutual

inductive Derives : Text → Value → Text → Prop
  | null {r} : Derives ('n' :: 'u' :: 'l' :: 'l' :: r) .null r
  | true_ {r} : Derives ('t' :: 'r' :: 'u' :: 'e' :: r) (.bool true) r
  | false_ {r} : Derives ('f' :: 'a' :: 'l' :: 's' :: 'e' :: r) (.bool false) r
  | number {s q r} (h : Number s q r) : Derives s (.number q) r
  | string {s us r} (h : Chars s us r) : Derives ('"' :: s) (.string us) r
  | emptyArray {s r} (h : Ws s (']' :: r)) : Derives ('[' :: s) (.array []) r
  | array {s vs r} (h : Elements s vs (']' :: r)) : Derives ('[' :: s) (.array vs) r
  | emptyObject {s r} (h : Ws s ('}' :: r)) : Derives ('{' :: s) (.object []) r
  | object {s ms r} (h : Members s ms ('}' :: r)) : Derives ('{' :: s) (.object ms) r

/-- One value or more, with commas between them. -/
inductive Elements : Text → List Value → Text → Prop
  | one {s v s₁ s₂ r} (h₁ : Ws s s₁) (hv : Derives s₁ v s₂) (h₂ : Ws s₂ r) : Elements s [v] r
  | cons {s v s₁ s₂ s₃ vs r} (h₁ : Ws s s₁) (hv : Derives s₁ v s₂) (h₂ : Ws s₂ (',' :: s₃))
      (h : Elements s₃ vs r) : Elements s (v :: vs) r

/-- A key and a value. -/
inductive Member : Text → List ℕ × Value → Text → Prop
  | mk {s k s₁ s₂ s₃ s₄ v s₅ r} (h₁ : Ws s ('"' :: s₁)) (hk : Chars s₁ k s₂)
      (h₂ : Ws s₂ (':' :: s₃)) (h₃ : Ws s₃ s₄) (hv : Derives s₄ v s₅) (h₄ : Ws s₅ r) :
      Member s (k, v) r

/-- One member or more, with commas between them. -/
inductive Members : Text → List (List ℕ × Value) → Text → Prop
  | one {s m r} (h : Member s m r) : Members s [m] r
  | cons {s m s₁ ms r} (hm : Member s m (',' :: s₁)) (h : Members s₁ ms r) :
      Members s (m :: ms) r

end

/-- The whole text is one value, with white space around it. -/
def IsText (t : Text) (v : Value) : Prop := ∃ s r, Ws t s ∧ Derives s v r ∧ Ws r []

/-! ## What a production leaves -/

/-- The text is at its end, or goes on with a character that `p` refuses. -/
def Stops (p : Char → Bool) (r : Text) : Prop := ∀ c ∈ r.head?, p c = false

theorem stops_cons {p : Char → Bool} {c : Char} {r : Text} : Stops p (c :: r) ↔ p c = false := by
  simp [Stops]

theorem ws_append {w r : Text} (hw : ∀ c ∈ w, isWs c) : Ws (w ++ r) r := by
  induction w with
  | nil => exact .nil
  | cons c w ih => exact .cons (hw c List.mem_cons_self) (ih fun d hd => hw d (.tail _ hd))

theorem indent_ws : ∀ c ∈ "  ".toList, isWs c := List.all_eq_true.1 rfl

theorem newline_indent_ws : ∀ c ∈ "\n  ".toList, isWs c := List.all_eq_true.1 rfl

theorem Ws.unique {s r r' : Text} (h : Ws s r) (h' : Ws s r') (hr : Stops isWs r)
    (hr' : Stops isWs r') : r = r' := by
  induction h with
  | nil =>
    cases h' with
    | nil => rfl
    | cons hc => exact absurd hc (by simp [stops_cons.1 hr])
  | cons hc _ ih =>
    cases h' with
    | nil => exact absurd hc (by simp [stops_cons.1 hr'])
    | cons _ h' => exact ih h' hr

theorem Chars.unique {s : Text} {us us' : List ℕ} {r r' : Text} (h : Chars s us r)
    (h' : Chars s us' r') : us = us' ∧ r = r' := by
  induction h generalizing us' with
  | close =>
    cases h' with
    | close => exact ⟨rfl, rfl⟩
    | plain hc => exact absurd hc (by decide)
  | plain hc _ ih =>
    cases h' with
    | close => exact absurd hc (by decide)
    | plain _ h' => exact ⟨congrArg _ (ih h').1, (ih h').2⟩
    | escape | hex => exact absurd hc (by decide)
  | escape he _ ih =>
    cases h' with
    | plain hc => exact absurd hc (by decide)
    | escape he' h' =>
      obtain rfl := Option.some.inj (he.symm.trans he')
      exact ⟨congrArg _ (ih h').1, (ih h').2⟩
    | hex => cases he
  | hex ha hb hc hd _ ih =>
    cases h' with
    | plain hc => exact absurd hc (by decide)
    | escape he => cases he
    | hex ha' hb' hc' hd' h' =>
      obtain rfl := Option.some.inj (ha.symm.trans ha')
      obtain rfl := Option.some.inj (hb.symm.trans hb')
      obtain rfl := Option.some.inj (hc.symm.trans hc')
      obtain rfl := Option.some.inj (hd.symm.trans hd')
      exact ⟨congrArg _ (ih h').1, (ih h').2⟩

/-! ## Numbers end at one place -/

/-- A character that could go on with a number. -/
def numeric (c : Char) : Bool := c.isDigit || c = '.' || c = 'e' || c = 'E'

theorem Stops.digit {r : Text} (h : Stops numeric r) : Stops Char.isDigit r := by
  intro c hc
  have := h c hc
  simp_all [numeric]

theorem Digits.head {s ds r : Text} (h : Digits s ds r) : ∃ c t, s = c :: t ∧ c.isDigit := by
  cases h with
  | one hc | cons hc => exact ⟨_, _, rfl, hc⟩

theorem Digits.unique {s ds ds' r r' : Text} (h : Digits s ds r) (h' : Digits s ds' r')
    (hr : Stops Char.isDigit r) (hr' : Stops Char.isDigit r') : ds = ds' ∧ r = r' := by
  induction h generalizing ds' with
  | one =>
    cases h' with
    | one => exact ⟨rfl, rfl⟩
    | cons _ h' =>
      obtain ⟨c, t, rfl, hc⟩ := h'.head
      exact absurd hc (by simp [stops_cons.1 hr])
  | cons _ h ih =>
    cases h' with
    | one =>
      obtain ⟨c, t, rfl, hc⟩ := h.head
      exact absurd hc (by simp [stops_cons.1 hr'])
    | cons _ h' => exact ⟨congrArg _ (ih h' hr).1, (ih h' hr).2⟩

theorem IntPart.unique {s r r' : Text} {n n' : ℕ} (h : IntPart s n r) (h' : IntPart s n' r')
    (hr : Stops Char.isDigit r) (hr' : Stops Char.isDigit r') : n = n' ∧ r = r' := by
  cases h with
  | zero =>
    cases h' with
    | zero => exact ⟨rfl, rfl⟩
    | digits hc => exact absurd rfl hc
  | digits hc h =>
    cases h' with
    | zero => exact absurd rfl hc
    | digits _ h' =>
      obtain ⟨rfl, rfl⟩ := h.unique h' hr hr'
      exact ⟨rfl, rfl⟩

theorem Frac.unique {s r r' : Text} {f f' : ℚ} (h : Frac s f r) (h' : Frac s f' r')
    (hr : Stops Char.isDigit r ∧ Stops (· = '.') r)
    (hr' : Stops Char.isDigit r' ∧ Stops (· = '.') r') : f = f' ∧ r = r' := by
  cases h with
  | absent =>
    cases h' with
    | absent => exact ⟨rfl, rfl⟩
    | present => exact absurd (stops_cons.1 hr.2) (by simp)
  | present h =>
    cases h' with
    | absent => exact absurd (stops_cons.1 hr'.2) (by simp)
    | present h' =>
      obtain ⟨rfl, rfl⟩ := h.unique h' hr.1 hr'.1
      exact ⟨rfl, rfl⟩

theorem Frac.stops {s r : Text} {f : ℚ} (h : Frac s f r) (hr : Stops Char.isDigit r) :
    Stops Char.isDigit s := by
  cases h with
  | absent => exact hr
  | present => exact stops_cons.2 rfl

theorem Exponent.stops {s r : Text} {k : ℤ} (h : Exponent s k r) (hr : Stops numeric r) :
    Stops Char.isDigit s ∧ Stops (· = '.') s := by
  cases h with
  | absent =>
    refine ⟨hr.digit, fun c hc => ?_⟩
    have := hr c hc
    simp_all [numeric]
  | bare he | plus he | minus he => rcases he with rfl | rfl <;> simp [stops_cons]

theorem Exponent.unique {s r r' : Text} {k k' : ℤ} (h : Exponent s k r) (h' : Exponent s k' r')
    (hr : Stops numeric r) (hr' : Stops numeric r') : k = k' ∧ r = r' := by
  have hletter : ∀ {e : Char} {t : Text}, e = 'e' ∨ e = 'E' → ¬ Stops numeric (e :: t) := by
    rintro e t (rfl | rfl) hs <;> exact absurd (stops_cons.1 hs) (by decide)
  have hsign : ∀ {c : Char} {t ds u : Text}, Digits (c :: t) ds u → c ≠ '+' ∧ c ≠ '-' := by
    intro c t ds u hd
    obtain ⟨_, _, he, hc⟩ := hd.head
    obtain ⟨rfl, -⟩ := List.cons.inj he
    constructor <;> rintro rfl <;> exact absurd hc (by decide)
  cases h with
  | absent =>
    cases h' with
    | absent => exact ⟨rfl, rfl⟩
    | bare he | plus he | minus he => exact absurd hr (hletter he)
  | bare he h =>
    cases h' with
    | absent => exact absurd hr' (hletter he)
    | bare _ h' =>
      obtain ⟨rfl, rfl⟩ := h.unique h' hr.digit hr'.digit
      exact ⟨rfl, rfl⟩
    | plus => exact absurd rfl (hsign h).1
    | minus => exact absurd rfl (hsign h).2
  | plus he h =>
    cases h' with
    | absent => exact absurd hr' (hletter he)
    | bare _ h' => exact absurd rfl (hsign h').1
    | plus _ h' =>
      obtain ⟨rfl, rfl⟩ := h.unique h' hr.digit hr'.digit
      exact ⟨rfl, rfl⟩
  | minus he h =>
    cases h' with
    | absent => exact absurd hr' (hletter he)
    | bare _ h' => exact absurd rfl (hsign h').2
    | minus _ h' =>
      obtain ⟨rfl, rfl⟩ := h.unique h' hr.digit hr'.digit
      exact ⟨rfl, rfl⟩

theorem IntPart.head {s r : Text} {n : ℕ} (h : IntPart s n r) :
    ∃ c t, s = c :: t ∧ c.isDigit := by
  cases h with
  | zero => exact ⟨_, _, rfl, rfl⟩
  | digits _ h => exact h.head

theorem Unsigned.unique {s r r' : Text} {q q' : ℚ} (h : Unsigned s q r) (h' : Unsigned s q' r')
    (hr : Stops numeric r) (hr' : Stops numeric r') : q = q' ∧ r = r' := by
  obtain ⟨hi, hf, hk⟩ := h
  obtain ⟨hi', hf', hk'⟩ := h'
  have hpoint := hk.stops hr
  have hpoint' := hk'.stops hr'
  obtain ⟨rfl, rfl⟩ := hi.unique hi' (hf.stops hpoint.1) (hf'.stops hpoint'.1)
  obtain ⟨rfl, rfl⟩ := hf.unique hf' hpoint hpoint'
  obtain ⟨rfl, rfl⟩ := hk.unique hk' hr hr'
  exact ⟨rfl, rfl⟩

theorem Number.head {s r : Text} {q : ℚ} (h : Number s q r) :
    ∃ c t, s = c :: t ∧ (c.isDigit ∨ c = '-') := by
  cases h with
  | nonneg h =>
    obtain ⟨hi, -, -⟩ := h
    obtain ⟨c, t, rfl, hc⟩ := hi.head
    exact ⟨c, t, rfl, Or.inl hc⟩
  | neg => exact ⟨_, _, rfl, Or.inr rfl⟩

theorem Number.unique {s r r' : Text} {q q' : ℚ} (h : Number s q r) (h' : Number s q' r')
    (hr : Stops numeric r) (hr' : Stops numeric r') : q = q' ∧ r = r' := by
  have hminus : ∀ {t u : Text} {p : ℚ}, ¬ Unsigned ('-' :: t) p u := by
    rintro t u p ⟨hi, -, -⟩
    obtain ⟨_, _, he, hc⟩ := hi.head
    obtain ⟨rfl, -⟩ := List.cons.inj he
    exact absurd hc (by decide)
  cases h with
  | nonneg h =>
    cases h' with
    | nonneg h' => exact h.unique h' hr hr'
    | neg => exact absurd h hminus
  | neg h =>
    cases h' with
    | nonneg h' => exact absurd h' hminus
    | neg h' =>
      obtain ⟨rfl, rfl⟩ := h.unique h' hr hr'
      exact ⟨rfl, rfl⟩

/-! ## A text stands for one value -/

/-- A character with which a value can start. -/
def opens (c : Char) : Bool :=
  c.isDigit || c = '-' || c = 'n' || c = 't' || c = 'f' || c = '"' || c = '[' || c = '{'

/-- A character that can follow a value. -/
def follows (c : Char) : Bool := isWs c || c = ',' || c = ']' || c = '}'

theorem Derives.head {s r : Text} {v : Value} (h : Derives s v r) :
    ∃ c t, s = c :: t ∧ opens c := by
  cases h with
  | number h =>
    obtain ⟨c, t, rfl, hc⟩ := h.head
    exact ⟨c, t, rfl, by rcases hc with hc | rfl <;> simp_all [opens]⟩
  | _ => exact ⟨_, _, rfl, rfl⟩

theorem isWs_of_opens {c : Char} (h : opens c) : isWs c = false := by
  cases hc : isWs c with
  | false => rfl
  | true =>
    simp only [isWs, Bool.or_eq_true, decide_eq_true_eq] at hc
    rcases hc with ((rfl | rfl) | rfl) | rfl <;> exact absurd h (by decide)

theorem Derives.stops {s r : Text} {v : Value} (h : Derives s v r) : Stops isWs s := by
  obtain ⟨c, t, rfl, hc⟩ := h.head
  exact stops_cons.2 (isWs_of_opens hc)

/-- The text is at its end, or goes on with what can follow a value. -/
def Follow (r : Text) : Prop := ∀ c ∈ r.head?, follows c

theorem Ws.follow {s r : Text} (h : Ws s r) (hr : Follow r) : Follow s := by
  cases h with
  | nil => exact hr
  | cons hc => simp [Follow, follows, hc]

theorem Follow.stops {r : Text} (h : Follow r) : Stops numeric r := by
  intro c hc
  have := h c hc
  simp only [follows, isWs, Bool.or_eq_true, decide_eq_true_eq] at this
  rcases this with (((((rfl | rfl) | rfl) | rfl) | rfl) | rfl) | rfl <;> decide

/-- The text goes on with a comma or a closing bracket. -/
def Delimited (r : Text) : Prop := ∃ c t, r = c :: t ∧ (c = ',' ∨ c = ']' ∨ c = '}')

theorem Delimited.follow {r : Text} (h : Delimited r) : Follow r := by
  obtain ⟨c, t, rfl, hc⟩ := h
  rcases hc with rfl | rfl | rfl <;> simp [Follow, follows]

theorem Delimited.stops {r : Text} (h : Delimited r) : Stops isWs r := by
  obtain ⟨c, t, rfl, hc⟩ := h
  rcases hc with rfl | rfl | rfl <;> exact stops_cons.2 rfl

/-- The text goes on with a closing bracket. -/
def Closing (r : Text) : Prop := ∃ c t, r = c :: t ∧ (c = ']' ∨ c = '}')

theorem Closing.delimited {r : Text} (h : Closing r) : Delimited r := by
  obtain ⟨c, t, rfl, hc⟩ := h
  exact ⟨c, t, rfl, Or.inr hc⟩

theorem Closing.ne_comma {r t : Text} (h : Closing r) : r ≠ ',' :: t := by
  rintro rfl
  obtain ⟨c, u, he, hc⟩ := h
  obtain ⟨rfl, -⟩ := List.cons.inj he
  rcases hc with hc | hc <;> cases hc

theorem delimited_comma {t : Text} : Delimited (',' :: t) := ⟨_, _, rfl, Or.inl rfl⟩

theorem closing_bracket {t : Text} : Closing (']' :: t) := ⟨_, _, rfl, Or.inl rfl⟩

theorem closing_brace {t : Text} : Closing ('}' :: t) := ⟨_, _, rfl, Or.inr rfl⟩

/-- What is in brackets starts with a value, so the brackets are not empty. -/
theorem Elements.not_ws {s r t : Text} {vs : List Value} (h : Elements s vs r) :
    ¬ Ws s (']' :: t) := by
  have hstart : ∃ u v w, Ws s u ∧ Derives u v w := by
    cases h with
    | one h₁ hv | cons h₁ hv => exact ⟨_, _, _, h₁, hv⟩
  obtain ⟨u, v, w, hu, hv⟩ := hstart
  intro hws
  have heq := hu.unique hws hv.stops (stops_cons.2 rfl)
  obtain ⟨c, x, rfl, hc⟩ := hv.head
  obtain ⟨rfl, -⟩ := List.cons.inj heq
  exact absurd hc (by decide)

theorem Members.not_ws {s r t : Text} {ms : List (List ℕ × Value)} (h : Members s ms r) :
    ¬ Ws s ('}' :: t) := by
  have hstart : ∃ u, Ws s ('"' :: u) := by
    cases h with
    | one h | cons h => cases h with | mk h₁ => exact ⟨_, h₁⟩
  obtain ⟨u, hu⟩ := hstart
  intro hws
  have heq := hu.unique hws (stops_cons.2 rfl) (stops_cons.2 rfl)
  cases heq

mutual

theorem Derives.unique {s r r' : Text} {v v' : Value} (h : Derives s v r) (h' : Derives s v' r')
    (hr : Follow r) (hr' : Follow r') : v = v' ∧ r = r' := by
  have hnumber : ∀ {c : Char} {t u : Text} {q : ℚ}, c.isDigit = false → c ≠ '-' →
      ¬ Number (c :: t) q u := by
    intro c t u q hc hne hn
    obtain ⟨_, _, he, hd⟩ := hn.head
    obtain ⟨rfl, -⟩ := List.cons.inj he
    simp_all
  match h with
  | .null =>
    cases h' with
    | null => exact ⟨rfl, rfl⟩
    | number h' => exact absurd h' (hnumber rfl (by decide))
  | .true_ =>
    cases h' with
    | true_ => exact ⟨rfl, rfl⟩
    | number h' => exact absurd h' (hnumber rfl (by decide))
  | .false_ =>
    cases h' with
    | false_ => exact ⟨rfl, rfl⟩
    | number h' => exact absurd h' (hnumber rfl (by decide))
  | .number h =>
    cases h' with
    | number h' =>
      obtain ⟨rfl, rfl⟩ := h.unique h' hr.stops hr'.stops
      exact ⟨rfl, rfl⟩
    | _ => exact absurd h (hnumber rfl (by decide))
  | .string h =>
    cases h' with
    | string h' =>
      obtain ⟨rfl, rfl⟩ := h.unique h'
      exact ⟨rfl, rfl⟩
    | number h' => exact absurd h' (hnumber rfl (by decide))
  | .emptyArray h =>
    cases h' with
    | emptyArray h' =>
      obtain ⟨-, rfl⟩ := List.cons.inj (h.unique h' (stops_cons.2 rfl) (stops_cons.2 rfl))
      exact ⟨rfl, rfl⟩
    | array h' => exact absurd h h'.not_ws
    | number h' => exact absurd h' (hnumber rfl (by decide))
  | .array h =>
    cases h' with
    | emptyArray h' => exact absurd h' h.not_ws
    | array h' =>
      obtain ⟨rfl, he⟩ := h.unique h' closing_bracket closing_bracket
      obtain ⟨-, rfl⟩ := List.cons.inj he
      exact ⟨rfl, rfl⟩
    | number h' => exact absurd h' (hnumber rfl (by decide))
  | .emptyObject h =>
    cases h' with
    | emptyObject h' =>
      obtain ⟨-, rfl⟩ := List.cons.inj (h.unique h' (stops_cons.2 rfl) (stops_cons.2 rfl))
      exact ⟨rfl, rfl⟩
    | object h' => exact absurd h h'.not_ws
    | number h' => exact absurd h' (hnumber rfl (by decide))
  | .object h =>
    cases h' with
    | emptyObject h' => exact absurd h' h.not_ws
    | object h' =>
      obtain ⟨rfl, he⟩ := h.unique h' closing_brace closing_brace
      obtain ⟨-, rfl⟩ := List.cons.inj he
      exact ⟨rfl, rfl⟩
    | number h' => exact absurd h' (hnumber rfl (by decide))
termination_by structural h

theorem Elements.unique {s r r' : Text} {vs vs' : List Value} (h : Elements s vs r)
    (h' : Elements s vs' r') (hr : Closing r) (hr' : Closing r') : vs = vs' ∧ r = r' := by
  match h with
  | .one h₁ hv h₂ =>
    cases h' with
    | one h₁' hv' h₂' =>
      obtain rfl := h₁.unique h₁' hv.stops hv'.stops
      obtain ⟨rfl, rfl⟩ := hv.unique hv' (h₂.follow hr.delimited.follow)
        (h₂'.follow hr'.delimited.follow)
      exact ⟨rfl, h₂.unique h₂' hr.delimited.stops hr'.delimited.stops⟩
    | cons h₁' hv' h₂' =>
      obtain rfl := h₁.unique h₁' hv.stops hv'.stops
      obtain ⟨rfl, rfl⟩ := hv.unique hv' (h₂.follow hr.delimited.follow)
        (h₂'.follow delimited_comma.follow)
      exact absurd (h₂.unique h₂' hr.delimited.stops delimited_comma.stops) hr.ne_comma
  | .cons h₁ hv h₂ h =>
    cases h' with
    | one h₁' hv' h₂' =>
      obtain rfl := h₁.unique h₁' hv.stops hv'.stops
      obtain ⟨rfl, rfl⟩ := hv.unique hv' (h₂.follow delimited_comma.follow)
        (h₂'.follow hr'.delimited.follow)
      exact absurd (h₂'.unique h₂ hr'.delimited.stops delimited_comma.stops) hr'.ne_comma
    | cons h₁' hv' h₂' h' =>
      obtain rfl := h₁.unique h₁' hv.stops hv'.stops
      obtain ⟨rfl, rfl⟩ := hv.unique hv' (h₂.follow delimited_comma.follow)
        (h₂'.follow delimited_comma.follow)
      obtain ⟨-, rfl⟩ :=
        List.cons.inj (h₂.unique h₂' delimited_comma.stops delimited_comma.stops)
      obtain ⟨rfl, rfl⟩ := h.unique h' hr hr'
      exact ⟨rfl, rfl⟩
termination_by structural h

theorem Member.unique {s r r' : Text} {m m' : List ℕ × Value} (h : Member s m r)
    (h' : Member s m' r') (hr : Delimited r) (hr' : Delimited r') : m = m' ∧ r = r' := by
  match h with
  | .mk h₁ hk h₂ h₃ hv h₄ =>
    cases h' with
    | mk h₁' hk' h₂' h₃' hv' h₄' =>
      obtain ⟨-, rfl⟩ := List.cons.inj (h₁.unique h₁' (stops_cons.2 rfl) (stops_cons.2 rfl))
      obtain ⟨rfl, rfl⟩ := hk.unique hk'
      obtain ⟨-, rfl⟩ := List.cons.inj (h₂.unique h₂' (stops_cons.2 rfl) (stops_cons.2 rfl))
      obtain rfl := h₃.unique h₃' hv.stops hv'.stops
      obtain ⟨rfl, rfl⟩ := hv.unique hv' (h₄.follow hr.follow) (h₄'.follow hr'.follow)
      exact ⟨rfl, h₄.unique h₄' hr.stops hr'.stops⟩
termination_by structural h

theorem Members.unique {s r r' : Text} {ms ms' : List (List ℕ × Value)} (h : Members s ms r)
    (h' : Members s ms' r') (hr : Closing r) (hr' : Closing r') : ms = ms' ∧ r = r' := by
  match h with
  | .one h =>
    cases h' with
    | one h' =>
      obtain ⟨rfl, rfl⟩ := h.unique h' hr.delimited hr'.delimited
      exact ⟨rfl, rfl⟩
    | cons hm' => exact absurd (h.unique hm' hr.delimited delimited_comma).2 hr.ne_comma
  | .cons hm h =>
    cases h' with
    | one h' => exact absurd (hm.unique h' delimited_comma hr'.delimited).2.symm hr'.ne_comma
    | cons hm' h' =>
      obtain ⟨rfl, he⟩ := hm.unique hm' delimited_comma delimited_comma
      obtain ⟨-, rfl⟩ := List.cons.inj he
      obtain ⟨rfl, rfl⟩ := h.unique h' hr hr'
      exact ⟨rfl, rfl⟩
termination_by structural h

end

/-- A text stands for one value. -/
theorem IsText.unique {t : Text} {v v' : Value} (h : IsText t v) (h' : IsText t v') : v = v' := by
  obtain ⟨s, r, hs, hv, hr⟩ := h
  obtain ⟨s', r', hs', hv', hr'⟩ := h'
  obtain rfl := hs.unique hs' hv.stops hv'.stops
  have hend : Follow [] := by simp [Follow]
  exact (hv.unique hv' (hr.follow hend) (hr'.follow hend)).1

/-! ## Texts of values -/

theorem utf16_append (s t : Text) : utf16 (s ++ t) = utf16 s ++ utf16 t := List.flatMap_append

/-- A text that needs no escapes is its own string. -/
theorem chars_of_unescaped {s r : Text} (h : ∀ c ∈ s, unescaped c) :
    Chars (s ++ '"' :: r) (utf16 s) r := by
  induction s with
  | nil => exact .close
  | cons c s ih =>
    exact .plain (h c List.mem_cons_self) (ih fun d hd => h d (List.mem_cons_of_mem _ hd))

/-- The text between quotes is a string. -/
def Body (s : Text) (us : List ℕ) : Prop := ∀ r, Chars (s ++ '"' :: r) us r

theorem body_of_unescaped {s : Text} (h : ∀ c ∈ s, unescaped c) : Body s (utf16 s) :=
  fun _ => chars_of_unescaped h

theorem digits_append {ds r : Text} (hne : ds ≠ []) (h : ∀ c ∈ ds, c.isDigit) :
    Digits (ds ++ r) ds r := by
  induction ds with
  | nil => exact absurd rfl hne
  | cons c ds ih =>
    have hc := h c List.mem_cons_self
    cases ds with
    | nil => exact .one hc
    | cons d ds => exact .cons hc (ih (by simp) fun e he => h e (List.mem_cons_of_mem _ he))

/-- A decimal has no leading zero. -/
theorem head_toDigits {n : ℕ} (hn : 0 < n) : ∃ c t, Nat.toDigits 10 n = c :: t ∧ c ≠ '0' := by
  induction n using Nat.strongRecOn with
  | _ n ih =>
    by_cases hlt : n < 10
    · refine ⟨n.digitChar, [], Nat.toDigits_of_lt_base hlt, ?_⟩
      have hdigit : ∀ m < 10, 0 < m → m.digitChar ≠ '0' := by decide
      exact hdigit n hlt hn
    · obtain ⟨c, t, ht, hc⟩ := ih (n / 10) (by omega) (by omega)
      refine ⟨c, t ++ [(n % 10).digitChar], ?_, hc⟩
      rw [Nat.toDigits_of_base_le (by omega) (by omega), ht, List.cons_append]

theorem intPart_toDigits (n : ℕ) (r : Text) : IntPart (Nat.toDigits 10 n ++ r) n r := by
  rcases Nat.eq_zero_or_pos n with rfl | hn
  · exact .zero
  · obtain ⟨c, t, ht, hc⟩ := head_toDigits hn
    have hdigits : Digits (Nat.toDigits 10 n ++ r) (Nat.toDigits 10 n) r :=
      digits_append Nat.toDigits_ne_nil fun c hc =>
        Nat.isDigit_of_mem_toDigits (by omega) (by omega) hc
    have hvalue : digitsValue (Nat.toDigits 10 n) = n := Nat.ofDigitChars_ten_toDigits
    rw [ht] at hdigits hvalue ⊢
    exact hvalue ▸ IntPart.digits hc hdigits

theorem unsigned_toDigits (n : ℕ) (r : Text) : Unsigned (Nat.toDigits 10 n ++ r) n r := by
  have h := Unsigned.mk (intPart_toDigits n r) .absent .absent
  simpa using h

/-- An integer in decimal is a number. -/
theorem number_decimal (n : ℤ) (r : Text) : Number (Text.decimal n ++ r) n r := by
  cases n with
  | ofNat n => exact .nonneg (unsigned_toDigits n r)
  | negSucc n =>
    have h := Number.neg (unsigned_toDigits (n + 1) r)
    rwa [show -((n + 1 : ℕ) : ℚ) = ((Int.negSucc n : ℤ) : ℚ) by simp [Int.negSucc_eq]] at h

/-! ## Strings that decode to their own text -/

theorem length_units_pos (c : Char) : 0 < (units c).length := by
  unfold units
  split <;> simp

theorem hexDigit_ne_quote {c : Char} {n : ℕ} (h : hexDigit? c = some n) : c ≠ '"' := by
  rintro rfl
  simp [hexDigit?] at h

theorem count_quote_units (c : Char) : (units c).count 0x22 = if c = '"' then 1 else 0 := by
  have hval : c.toNat = 0x22 ↔ c = '"' := by
    rw [← Char.ofNat_toNat c]
    constructor
    · intro h
      simpa using congrArg Char.ofNat h
    · intro h
      simp_all
  unfold units
  split
  · by_cases hc : c = '"'
    · simp [hc]
    · simp [hc, hval]
  · rename_i hbig
    have hc : c ≠ '"' := by
      rintro rfl
      exact hbig (by decide)
    rw [if_neg hc, List.count_eq_zero]
    simp only [List.mem_cons, List.not_mem_nil, or_false]
    omega

theorem count_quote_utf16 (s : Text) : (utf16 s).count 0x22 = s.count '"' := by
  induction s with
  | nil => rfl
  | cons c s ih =>
    have hcons : utf16 (c :: s) = units c ++ utf16 s := rfl
    rw [hcons, List.count_append, count_quote_units, ih, List.count_cons]
    simp only [beq_iff_eq]
    omega

/-- What a string is, up to its closing quote: an escape is longer than what it stands for, and
each quote in it is escaped. -/
theorem Chars.exists_body {s : Text} {us : List ℕ} {r : Text} (h : Chars s us r) :
    ∃ body, s = body ++ '"' :: r ∧ us.length ≤ (utf16 body).length ∧
      (us.length = (utf16 body).length → ∀ c ∈ body, unescaped c) ∧
      body.count '"' ≤ us.count 0x22 := by
  have hcons : ∀ c t, utf16 (c :: t) = units c ++ utf16 t := fun _ _ => rfl
  induction h with
  | close => exact ⟨[], rfl, by simp⟩
  | @plain c _ us _ hc _ ih =>
    obtain ⟨body, rfl, hle, heq, hcount⟩ := ih
    refine ⟨c :: body, rfl, ?_, ?_, ?_⟩
    · simp only [hcons, List.length_append]
      omega
    · intro hlen
      simp only [hcons, List.length_append, Nat.add_left_cancel_iff] at hlen
      simpa [hc] using heq hlen
    · have hne : c ≠ '"' := by
        rintro rfl
        exact absurd hc (by decide)
      rw [List.count_cons_of_ne hne, List.count_append]
      omega
  | @escape e u _ us _ he _ ih =>
    obtain ⟨body, rfl, hle, -, hcount⟩ := ih
    have hpos := length_units_pos e
    have hslash : (units '\\').length = 1 := rfl
    refine ⟨'\\' :: e :: body, rfl, ?_, ?_, ?_⟩
    · simp only [hcons, List.length_append, List.length_cons]
      omega
    · intro hlen
      simp only [hcons, List.length_append, List.length_cons] at hlen
      omega
    · rw [List.count_cons_of_ne (by decide), List.count_cons, List.count_cons]
      by_cases hquote : e = '"'
      · subst hquote
        cases he
        simp only [beq_self_eq_true, if_true]
        omega
      · simp only [beq_iff_eq, hquote, if_false]
        omega
  | @hex a b c d _ _ _ _ _ us _ ha hb hc hd _ ih =>
    obtain ⟨body, rfl, hle, -, hcount⟩ := ih
    have hpos := length_units_pos a
    have hslash : (units '\\').length = 1 := rfl
    refine ⟨'\\' :: 'u' :: a :: b :: c :: d :: body, rfl, ?_, ?_, ?_⟩
    · simp only [hcons, List.length_append, List.length_cons]
      omega
    · intro hlen
      simp only [hcons, List.length_append, List.length_cons] at hlen
      omega
    · rw [List.count_cons_of_ne (by decide), List.count_cons_of_ne (by decide),
        List.count_cons_of_ne (hexDigit_ne_quote ha), List.count_cons_of_ne (hexDigit_ne_quote hb),
        List.count_cons_of_ne (hexDigit_ne_quote hc), List.count_cons_of_ne (hexDigit_ne_quote hd),
        List.count_cons]
      omega

/-- A text between quotes decodes to itself only where it needs no escapes. -/
theorem unescaped_of_chars {raw rest r : Text} (h : Chars (raw ++ '"' :: rest) (utf16 raw) r) :
    ∀ c ∈ raw, unescaped c := by
  obtain ⟨body, hbody, hle, heq, hcount⟩ := h.exists_body
  rcases List.append_eq_append_iff.1 hbody with ⟨x, rfl, hx⟩ | ⟨x, rfl, hx⟩
  · rcases x with _ | ⟨c, x⟩
    · exact fun c hc => heq (by simp) c (by simpa using hc)
    · obtain ⟨rfl, -⟩ := List.cons.inj hx
      rw [count_quote_utf16, List.count_append, List.count_cons_self] at hcount
      omega
  · rcases x with _ | ⟨c, x⟩
    · simpa using heq (by simp)
    · have hpos := length_units_pos c
      have hcons : utf16 (c :: x) = units c ++ utf16 x := rfl
      simp only [utf16_append, hcons, List.length_append] at hle
      omega

/-! ## Members as they are written -/

/-- A member as a program writes it: white space, the key in quotes, a colon, a space and the text
of the value. -/
def memberText (w key value : Text) : Text := w ++ '"' :: (key ++ '"' :: ':' :: ' ' :: value)

theorem memberText_append (w key value r : Text) :
    memberText w key value ++ r = memberText w key (value ++ r) := by
  simp [memberText]

section

variable {w key : Text} {k : List ℕ} (hw : ∀ c ∈ w, isWs c) (hkey : Body key k)

include hw hkey

theorem Member.of_memberText {s t r : Text} {v : Value} (hv : Derives s v t) (ht : Ws t r) :
    Member (memberText w key s) (k, v) r :=
  .mk (ws_append hw) (hkey _) .nil (.cons rfl .nil) hv ht

theorem Member.memberText_inv {s r : Text} {k' : List ℕ} {v : Value} (hs : Stops isWs s)
    (h : Member (memberText w key s) (k', v) r) :
    k' = k ∧ ∃ t, Derives s v t ∧ Ws t r := by
  cases h with
  | mk h₁ hk h₂ h₃ hv h₄ =>
    obtain ⟨-, rfl⟩ :=
      List.cons.inj (h₁.unique (ws_append hw) (stops_cons.2 rfl) (stops_cons.2 rfl))
    obtain ⟨rfl, rfl⟩ := hk.unique (hkey _)
    obtain ⟨-, rfl⟩ := List.cons.inj (h₂.unique .nil (stops_cons.2 rfl) (stops_cons.2 rfl))
    obtain rfl := h₃.unique (.cons rfl .nil) hv.stops hs
    exact ⟨rfl, _, hv, h₄⟩

/-- A member with a quote after it, and not a comma, is no part of an object. -/
theorem Members.not_quote_after {s t u r : Text} {v : Value} {ms : List (List ℕ × Value)}
    (hv : Derives s v t) (ht : Follow t) (hu : Ws t ('"' :: u)) (hr : Closing r) :
    ¬ Members (memberText w key s) ms r := by
  intro h
  obtain ⟨m, r', hm, hr'⟩ : ∃ m r', Member (memberText w key s) m r' ∧ Delimited r' := by
    cases h with
    | one hm => exact ⟨_, _, hm, hr.delimited⟩
    | cons hm => exact ⟨_, _, hm, delimited_comma⟩
  obtain ⟨-, t', hv', ht'⟩ := hm.memberText_inv hw hkey hv.stops
  obtain ⟨-, rfl⟩ := hv.unique hv' ht (ht'.follow hr'.follow)
  have heq := hu.unique ht' (stops_cons.2 rfl) hr'.stops
  obtain ⟨c, x, rfl, hc⟩ := hr'
  obtain ⟨rfl, -⟩ := List.cons.inj heq
  revert hc
  decide

end

/-- The text of a string: the raw characters between quotes. -/
def stringText (raw : Text) : Text := '"' :: (raw ++ ['"'])

theorem stringText_append (raw r : Text) : stringText raw ++ r = '"' :: (raw ++ '"' :: r) := by
  simp [stringText]

theorem derives_stringText {raw : Text} (h : ∀ c ∈ raw, unescaped c) (r : Text) :
    Derives (stringText raw ++ r) (.string (utf16 raw)) r := by
  rw [stringText_append]
  exact .string (chars_of_unescaped h)

theorem stringText_inv {raw r t : Text}
    (h : Derives (stringText raw ++ r) (.string (utf16 raw)) t) :
    (∀ c ∈ raw, unescaped c) ∧ t = r := by
  rw [stringText_append] at h
  cases h with
  | string h =>
    have hraw := unescaped_of_chars h
    exact ⟨hraw, (h.unique (chars_of_unescaped hraw)).2⟩

theorem derives_decimal (n : ℤ) (r : Text) : Derives (Text.decimal n ++ r) (.number n) r :=
  .number (number_decimal n r)

/-- The members of a text start with its first member. -/
theorem Members.uncons {t s r : Text} {m : List ℕ × Value} {ms : List (List ℕ × Value)}
    (h : Members t ms r) (hr : Closing r) (hm : Member t m (',' :: s)) :
    ∃ ms', ms = m :: ms' ∧ Members s ms' r := by
  cases h with
  | one h => exact absurd (h.unique hm hr.delimited delimited_comma).2 hr.ne_comma
  | cons hm' h =>
    obtain ⟨rfl, he⟩ := hm'.unique hm delimited_comma delimited_comma
    obtain ⟨-, rfl⟩ := List.cons.inj he
    exact ⟨_, rfl, h⟩

/-- A text that starts with a brace is an object, and nothing follows its closing brace but white
space. -/
theorem IsText.of_brace {s : Text} {v : Value} (h : IsText ('{' :: s) v) :
    ∃ r, Ws r [] ∧
      ((v = .object [] ∧ Ws s ('}' :: r)) ∨ ∃ ms, v = .object ms ∧ Members s ms ('}' :: r)) := by
  obtain ⟨t, r, ht, hv, hr⟩ := h
  obtain rfl := ht.unique .nil hv.stops (stops_cons.2 rfl)
  refine ⟨r, hr, ?_⟩
  cases hv with
  | number h =>
    obtain ⟨_, _, he, hd⟩ := h.head
    obtain ⟨rfl, -⟩ := List.cons.inj he
    exact absurd hd (by decide)
  | emptyObject h => exact Or.inl ⟨rfl, h⟩
  | object h => exact Or.inr ⟨_, rfl, h⟩

end Json
