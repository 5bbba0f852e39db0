import Mathlib.Data.List.Sort
import Mathlib.Algebra.BigOperators.Group.Finset.Basic

namespace HabaneroUpc.Buckets

variable {α : Type*} {b : α → Nat} {l : List α} {t : Nat}

theorem countP_lt_succ (b : α → Nat) (l : List α) (t : Nat) :
    l.countP (b · < t + 1) = l.countP (b · < t) + l.countP (b · = t) := by
  induction l with
  | nil => rfl
  | cons x l ih =>
      simp only [List.countP_cons, ih, decide_eq_true_eq]
      split_ifs <;> omega

/-- The sizes of the first buckets together. -/
theorem sum_countP (b : α → Nat) (l : List α) (t : Nat) :
    ∑ u ∈ Finset.range t, l.countP (b · = u) = l.countP (b · < t) := by
  induction t with
  | zero => simp
  | succ t ih => rw [Finset.sum_range_succ, ih, countP_lt_succ]

theorem countP_lt_of_forall (h : ∀ x ∈ l, b x < t) : l.countP (b · < t) = l.length := by
  rw [List.countP_eq_length]
  simpa using h

/-- A list that is in the order of its buckets is cut in two by any of them. -/
theorem eq_filter_append (hl : l.Pairwise fun x y => b x ≤ b y) (t : Nat) :
    l = l.filter (b · < t) ++ l.filter (t ≤ b ·) := by
  induction l with
  | nil => rfl
  | cons x l ih =>
      obtain ⟨hx, hl⟩ := List.pairwise_cons.mp hl
      by_cases hlt : b x < t
      · rw [List.filter_cons_of_pos (by simpa using hlt), List.filter_cons_of_neg (by simpa using hlt),
          List.cons_append, ← ih hl]
      · have hnone : l.filter (b · < t) = [] := by
          rw [List.filter_eq_nil_iff]
          intro y hy
          have hle := hx y hy
          simp only [decide_eq_true_eq]
          omega
        have hall : l.filter (t ≤ b ·) = l := by
          rw [List.filter_eq_self]
          intro y hy
          have hle := hx y hy
          simp only [decide_eq_true_eq]
          omega
        rw [List.filter_cons_of_neg (by simpa using hlt), List.filter_cons_of_pos (by simpa using hlt),
          hnone, hall, List.nil_append]

/-- There a bucket is one piece, which starts behind those before it. -/
theorem take_drop_eq_filter (hl : l.Pairwise fun x y => b x ≤ b y) (t : Nat) :
    (l.drop (l.countP (b · < t))).take (l.countP (b · = t)) = l.filter (b · = t) := by
  have hrest := eq_filter_append (hl.filter (t ≤ b ·)) (t + 1)
  have heq : (l.filter (t ≤ b ·)).filter (b · < t + 1) = l.filter (b · = t) := by
    rw [List.filter_filter]
    refine List.filter_congr fun x _ => ?_
    rw [← Bool.decide_and]
    exact decide_eq_decide.mpr (by omega)
  have hdrop : l.drop (l.countP (b · < t)) = l.filter (t ≤ b ·) := by
    conv_lhs => rw [eq_filter_append hl t]
    rw [List.drop_left' (by
      rw [← eq_filter_append hl t, List.countP_eq_length_filter])]
  rw [hdrop, hrest, heq, List.take_left' (List.countP_eq_length_filter ..).symm]

/-- All buckets together hold what the list holds. -/
theorem flatMap_filter_perm (h : ∀ x ∈ l, b x < t) :
    ((List.range t).flatMap fun u => l.filter (b · = u)).Perm l := by
  have hcount (t : Nat) : ((List.range t).flatMap fun u => l.filter (b · = u)).Perm
      (l.filter (b · < t)) := by
    induction t with
    | zero => simp
    | succ t ih =>
        rw [List.range_succ, List.flatMap_append, List.flatMap_singleton]
        refine (ih.append_right _).trans ?_
        have hlow : (l.filter (b · < t + 1)).filter (b · < t) = l.filter (b · < t) := by
          rw [List.filter_filter]
          refine List.filter_congr fun x _ => ?_
          rw [← Bool.decide_and]
          exact decide_eq_decide.mpr (by omega)
        have hhigh : (l.filter (b · < t + 1)).filter (fun x => !decide (b x < t)) =
            l.filter (b · = t) := by
          rw [List.filter_filter]
          refine List.filter_congr fun x _ => ?_
          rw [← decide_not, ← Bool.decide_and]
          exact decide_eq_decide.mpr (by omega)
        have hperm := List.filter_append_perm (fun x => decide (b x < t)) (l.filter (b · < t + 1))
        rwa [hlow, hhigh] at hperm
  refine (hcount t).trans ?_
  rw [List.filter_eq_self.mpr (by simpa using h)]

/-- Buckets that are in order, one after the other, are in order together. -/
theorem sorted_flatMap [LinearOrder α] {pieces : Nat → List α} (hb : ∀ x y, x ≤ y → b x ≤ b y)
    (hpieces : ∀ u < t, (pieces u).SortedLE ∧ ∀ x ∈ pieces u, b x = u) :
    ((List.range t).flatMap pieces).SortedLE := by
  apply List.Pairwise.sortedLE
  rw [List.pairwise_flatMap]
  constructor
  · intro u hu
    exact (hpieces u (List.mem_range.mp hu)).1.pairwise
  · refine List.pairwise_lt_range.imp_of_mem fun {u v} hu hv huv x hx y hy => ?_
    have hxu := (hpieces u (List.mem_range.mp hu)).2 x hx
    have hyv := (hpieces v (List.mem_range.mp hv)).2 y hy
    refine (le_total x y).resolve_right fun hle => ?_
    have hbuckets := hb y x hle
    omega

end HabaneroUpc.Buckets
