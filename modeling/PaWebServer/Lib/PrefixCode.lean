import Mathlib.Data.List.Basic

/-!
# Prefix codes

A code whose words can be told from what follows them: where a word begins, it and the rest are
determined.  The words of a list can be told apart when what follows the last of them is no word
(`PrefixFree.flatMap_append`), and lists with a separator after each are a prefix code again
(`PrefixFree.block`).
-/

variable {α β : Type*} {valid : α → Prop} {enc : α → List β}

/-- Where the word of a valid element begins, the element and what follows are determined. -/
def PrefixFree (valid : α → Prop) (enc : α → List β) : Prop :=
  ∀ a b, valid a → valid b → ∀ r s, enc a ++ r = enc b ++ s → a = b ∧ r = s

/-- No word of a valid element begins here. -/
def NoWord (valid : α → Prop) (enc : α → List β) (r : List β) : Prop :=
  ∀ a, valid a → ∀ s, r ≠ enc a ++ s

/-- A word up to the first `x`. -/
theorem prefixFree_terminated (x : β) : PrefixFree (fun a : List β => x ∉ a) fun a => a ++ [x] := by
  intro a b ha hb r s h
  simp only [List.append_assoc, List.singleton_append] at h
  induction a generalizing b with
  | nil =>
    cases b with
    | nil => exact ⟨rfl, List.tail_eq_of_cons_eq h⟩
    | cons c b => exact absurd (List.head_eq_of_cons_eq h) (List.ne_of_not_mem_cons hb)
  | cons c a ih =>
    cases b with
    | nil => exact absurd (List.head_eq_of_cons_eq h).symm (List.ne_of_not_mem_cons ha)
    | cons d b =>
      obtain rfl := List.head_eq_of_cons_eq h
      obtain ⟨rfl, hrest⟩ := ih b (List.not_mem_of_not_mem_cons ha)
        (List.not_mem_of_not_mem_cons hb) (List.tail_eq_of_cons_eq h)
      exact ⟨rfl, hrest⟩

theorem PrefixFree.flatMap_append (h : PrefixFree valid enc) {as bs : List α}
    (has : ∀ a ∈ as, valid a) (hbs : ∀ b ∈ bs, valid b) {r s : List β}
    (hr : NoWord valid enc r) (hs : NoWord valid enc s)
    (heq : as.flatMap enc ++ r = bs.flatMap enc ++ s) : as = bs ∧ r = s := by
  induction as generalizing bs with
  | nil =>
    cases bs with
    | nil => exact ⟨rfl, heq⟩
    | cons b bs =>
      rw [List.flatMap_cons, List.append_assoc] at heq
      exact absurd heq (hr b (hbs b List.mem_cons_self) _)
  | cons a as ih =>
    cases bs with
    | nil =>
      rw [List.flatMap_cons, List.append_assoc] at heq
      exact absurd heq.symm (hs a (has a List.mem_cons_self) _)
    | cons b bs =>
      rw [List.flatMap_cons, List.flatMap_cons, List.append_assoc, List.append_assoc] at heq
      obtain ⟨rfl, hrest⟩ := h a b (has a List.mem_cons_self) (hbs b List.mem_cons_self) _ _ heq
      obtain ⟨rfl, hend⟩ := ih (fun c hc => has c (List.mem_cons_of_mem a hc))
        (fun c hc => hbs c (List.mem_cons_of_mem a hc)) hrest
      exact ⟨rfl, hend⟩

/-- The words of a list and a separator after them. -/
theorem PrefixFree.block (h : PrefixFree valid enc) {sep : List β}
    (hsep : ∀ r, NoWord valid enc (sep ++ r)) :
    PrefixFree (fun as : List α => ∀ a ∈ as, valid a) fun as => as.flatMap enc ++ sep := by
  intro as bs has hbs r s heq
  rw [List.append_assoc, List.append_assoc] at heq
  obtain ⟨rfl, hrest⟩ := h.flatMap_append has hbs (hsep r) (hsep s) heq
  exact ⟨rfl, List.append_cancel_left hrest⟩
