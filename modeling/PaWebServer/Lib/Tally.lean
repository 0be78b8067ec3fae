import Mathlib.Algebra.BigOperators.Group.Finset.Basic
import Mathlib.Algebra.Order.BigOperators.Group.Finset

/-!
# Sums and collections over the threads of a family

Threads `0, …, n - 1` each have a place `pc i` in their program; a weight on places gives a sum
over the family, and a step of one thread changes the sum by the change of its own weight.  What
the threads have in their hands is a list (`gather`), which changes in the same way.
-/

namespace Tally

variable {α : Type*} {n i : ℕ}

/-- The sum of a weight over the first `n` threads. -/
def total (n : ℕ) (weight : α → ℕ) (pc : ℕ → α) : ℕ := ∑ i ∈ Finset.range n, weight (pc i)

theorem total_update (hi : i < n) (weight : α → ℕ) (pc : ℕ → α) (x : α) :
    total n weight (Function.update pc i x) + weight (pc i) = total n weight pc + weight x := by
  have hmem : i ∈ Finset.range n := Finset.mem_range.2 hi
  have hrest : ∑ k ∈ (Finset.range n).erase i, weight (Function.update pc i x k) =
      ∑ k ∈ (Finset.range n).erase i, weight (pc k) :=
    Finset.sum_congr rfl fun k hk => by rw [Function.update_of_ne (Finset.ne_of_mem_erase hk)]
  unfold total
  rw [← Finset.add_sum_erase _ _ hmem, ← Finset.add_sum_erase _ (fun k => weight (pc k)) hmem,
    hrest, Function.update_self]
  omega

/-- A thread moves and one more is started. -/
theorem total_update_succ (hi : i < n) (weight : α → ℕ) (pc : ℕ → α) (x y : α) :
    total (n + 1) weight (Function.update (Function.update pc i x) n y) + weight (pc i) =
      total n weight pc + weight x + weight y := by
  have hmoved := total_update hi weight pc x
  have hrest : ∀ k ∈ Finset.range n,
      weight (Function.update (Function.update pc i x) n y k) =
        weight (Function.update pc i x k) := fun k hk => by
    rw [Function.update_of_ne (Finset.mem_range.1 hk).ne]
  have hsum : total (n + 1) weight (Function.update (Function.update pc i x) n y) =
      total n weight (Function.update pc i x) + weight y := by
    unfold total
    rw [Finset.sum_range_succ, Finset.sum_congr rfl hrest, Function.update_self]
  omega

theorem weight_le_total (hi : i < n) (weight : α → ℕ) (pc : ℕ → α) :
    weight (pc i) ≤ total n weight pc :=
  Finset.single_le_sum (f := fun k => weight (pc k)) (fun _ _ => Nat.zero_le _)
    (Finset.mem_range.2 hi)

theorem total_eq_zero_iff {weight : α → ℕ} {pc : ℕ → α} :
    total n weight pc = 0 ↔ ∀ i < n, weight (pc i) = 0 := by
  simp [total, Finset.sum_eq_zero_iff]

theorem total_le {weight : α → ℕ} {bound : ℕ} (h : ∀ x, weight x ≤ bound) (pc : ℕ → α) :
    total n weight pc ≤ n * bound := by
  have := Finset.sum_le_card_nsmul (Finset.range n) (fun i => weight (pc i)) bound
    fun i _ => h (pc i)
  simpa [total] using this

/-! ## Collections -/

variable {β : Type*} {f g : ℕ → Option β}

/-- What the first `n` threads have, one after another. -/
def gather (n : ℕ) (f : ℕ → Option β) : List β := (List.range n).filterMap f

theorem gather_succ (n : ℕ) (f : ℕ → Option β) :
    gather (n + 1) f = gather n f ++ (f n).toList := by
  rw [gather, List.range_succ, List.filterMap_append, List.filterMap_cons]
  cases f n <;> rfl

theorem gather_congr (h : ∀ k < n, g k = f k) : gather n g = gather n f :=
  List.filterMap_congr fun k hk => h k (List.mem_range.1 hk)

/-- What the threads have is no more than the sum of a weight that each thread with something in its
hands has. -/
theorem length_gather_le {weight : α → ℕ} {pc : ℕ → α}
    (h : ∀ k < n, (f k).isSome = true → 1 ≤ weight (pc k)) :
    (gather n f).length ≤ total n weight pc := by
  induction n with
  | zero => exact Nat.le_refl 0
  | succ n ih =>
    have hrest := ih fun k hk => h k (by omega)
    have hone : (f n).toList.length ≤ weight (pc n) := by
      cases hf : f n with
      | none => exact Nat.zero_le _
      | some b => exact h n (by omega) (by rw [hf]; rfl)
    rw [gather_succ, List.length_append, total, Finset.sum_range_succ]
    exact Nat.add_le_add hrest hone

theorem gather_eq_nil (h : ∀ k < n, f k = none) : gather n f = [] :=
  List.filterMap_eq_nil_iff.2 fun k hk => h k (List.mem_range.1 hk)

theorem gather_getElem? (l : List β) : gather l.length (fun i => l[i]?) = l := by
  induction l using List.reverseRecOn with
  | nil => rfl
  | append_singleton l b ih =>
    have hold : ∀ k < l.length, (l ++ [b])[k]? = l[k]? := fun k hk => List.getElem?_append_left hk
    rw [List.length_append, List.length_singleton, gather_succ, gather_congr hold, ih]
    simp

/-- Only the `i`-th thread changes what it has. -/
theorem gather_perm (hi : i < n) (h : ∀ k < n, k ≠ i → g k = f k) :
    (gather n g ++ (f i).toList).Perm (gather n f ++ (g i).toList) := by
  induction n with
  | zero => exact absurd hi (Nat.not_lt_zero i)
  | succ n ih =>
    rw [gather_succ, gather_succ, List.append_assoc, List.append_assoc]
    rcases Nat.lt_succ_iff_lt_or_eq.1 hi with hi | rfl
    · have hn : g n = f n := h n (by omega) (by omega)
      have hrest := ih hi fun k hk => h k (by omega)
      rw [hn]
      refine (List.perm_append_comm.append_left _).trans ?_
      rw [← List.append_assoc]
      refine (hrest.append_right _).trans ?_
      rw [List.append_assoc]
      exact List.perm_append_comm.append_left _
    · rw [gather_congr fun k hk => h k (by omega) (by omega)]
      exact List.perm_append_comm.append_left _

/-- How many of the threads have `b`. -/
theorem count_gather_eq_total [DecidableEq β] (n : ℕ) (f : ℕ → Option β) (b : β) :
    (gather n f).count b = total n (fun o => if o = some b then 1 else 0) f := by
  induction n with
  | zero => rfl
  | succ n ih =>
    rw [gather_succ, List.count_append, ih, total, total, Finset.sum_range_succ]
    cases h : f n with
    | none => simp
    | some c => simp [List.count_singleton]

theorem count_gather [BEq β] [LawfulBEq β] (hi : i < n) (h : ∀ k < n, k ≠ i → g k = f k) (b : β) :
    (gather n g).count b + (f i).toList.count b = (gather n f).count b + (g i).toList.count b := by
  have := (gather_perm hi h).count_eq b
  rwa [List.count_append, List.count_append] at this

/-- When each element gives at most one result, each result is that of a different element. -/
theorem exists_forall₂_of_flatMap {γ : Type*} {f : α → List β} {g : γ → β} {as : List α}
    {cs : List γ} (hone : ∀ a ∈ as, (f a).length ≤ 1) (h : cs.map g = as.flatMap f) :
    ∃ bs, bs.Sublist as ∧ List.Forall₂ (fun a c => f a = [g c]) bs cs := by
  induction as generalizing cs with
  | nil => exact ⟨[], .slnil, by simp [List.map_eq_nil_iff.1 h]⟩
  | cons a as ih =>
    have hrest : ∀ b ∈ as, (f b).length ≤ 1 := fun b hb => hone b (List.mem_cons_of_mem a hb)
    rw [List.flatMap_cons] at h
    match hf : f a, hone a List.mem_cons_self with
    | [], _ =>
      rw [hf, List.nil_append] at h
      obtain ⟨bs, hsub, hall⟩ := ih hrest h
      exact ⟨bs, hsub.cons a, hall⟩
    | [b], _ =>
      rw [hf] at h
      obtain ⟨c, cs, rfl, rfl, hcs⟩ := List.map_eq_cons_iff.1 h
      obtain ⟨bs, hsub, hall⟩ := ih hrest hcs
      exact ⟨a :: bs, hsub.cons_cons a, .cons hf hall⟩

/-- Each element on the right belongs to one on the left. -/
theorem exists_of_mem_right {α β : Type*} {R : α → β → Prop} {as : List α} {bs : List β}
    (h : List.Forall₂ R as bs) {b : β} (hb : b ∈ bs) : ∃ a ∈ as, R a b := by
  induction h with
  | nil => cases hb
  | cons hab _ ih =>
    rcases List.mem_cons.1 hb with rfl | hb
    · exact ⟨_, List.mem_cons_self, hab⟩
    · obtain ⟨a, ha, hr⟩ := ih hb
      exact ⟨a, List.mem_cons_of_mem _ ha, hr⟩

end Tally
