import Mathlib.Algebra.BigOperators.Group.List.Basic
import Mathlib.Algebra.Order.Monoid.Unbundled.Basic
import Mathlib.Algebra.Order.Monoid.Defs
import Mathlib.Data.List.Induction
import Mathlib.Order.Bounds.Basic

namespace HabaneroUpc.Alignment

inductive Column (α β : Type*)
  | both (x : α) (y : β)
  | left (x : α)
  | top (y : β)

structure Scoring (α β M : Type*) where
  both : α → β → M
  left : α → M
  top : β → M

variable {α β M : Type*}

namespace Column

def fst? : Column α β → Option α
  | both x _ => some x
  | left x => some x
  | top _ => none

def snd? : Column α β → Option β
  | both _ y => some y
  | left _ => none
  | top y => some y

end Column

def Scoring.column (sc : Scoring α β M) : Column α β → M
  | .both x y => sc.both x y
  | .left x => sc.left x
  | .top y => sc.top y

def Aligns (cols : List (Column α β)) (xs : List α) (ys : List β) : Prop :=
  cols.filterMap Column.fst? = xs ∧ cols.filterMap Column.snd? = ys

section

variable [AddCommMonoid M]

def Scoring.score (sc : Scoring α β M) (cols : List (Column α β)) : M := (cols.map sc.column).sum

theorem Scoring.score_append (sc : Scoring α β M) (cols : List (Column α β)) (c : Column α β) :
    sc.score (cols ++ [c]) = sc.score cols + sc.column c := by
  simp [Scoring.score]

variable [LinearOrder M]

def firstRow (sc : Scoring α β M) (x : Nat → α) : Nat → M
  | 0 => 0
  | j + 1 => firstRow sc x j + sc.left (x j)

def nextRow (sc : Scoring α β M) (x : Nat → α) (y : β) (prev : Nat → M) : Nat → M
  | 0 => prev 0 + sc.top y
  | j + 1 =>
      max (max (nextRow sc x y prev j + sc.left (x j)) (prev (j + 1) + sc.top y))
        (prev j + sc.both (x j) y)

def table (sc : Scoring α β M) (x : Nat → α) (y : Nat → β) : Nat → Nat → M
  | 0 => firstRow sc x
  | i + 1 => nextRow sc x (y i) (table sc x y i)

end

section

variable {x : Nat → α} {y : Nat → β} {cols : List (Column α β)}

def upTo (x : Nat → α) (n : Nat) : List α := (List.range n).map x

theorem upTo_succ (x : Nat → α) (n : Nat) : upTo x (n + 1) = upTo x n ++ [x n] := by
  simp [upTo, List.range_succ]

theorem append_eq_upTo {xs : List α} {a : α} {n : Nat} (h : xs ++ [a] = upTo x n) :
    ∃ j, n = j + 1 ∧ xs = upTo x j ∧ a = x j := by
  cases n with
  | zero => simp [upTo] at h
  | succ j =>
      rw [upTo_succ, List.append_singleton_inj] at h
      exact ⟨j, rfl, h.1, h.2⟩

theorem Aligns.append {xs : List α} {ys : List β} (h : Aligns cols xs ys) (c : Column α β) :
    Aligns (cols ++ [c]) (xs ++ c.fst?.toList) (ys ++ c.snd?.toList) := by
  obtain ⟨rfl, rfl⟩ := h
  cases c <;> simp [Aligns, Column.fst?, Column.snd?]

theorem Aligns.both {i j : Nat} (h : Aligns cols (upTo x j) (upTo y i)) :
    Aligns (cols ++ [.both (x j) (y i)]) (upTo x (j + 1)) (upTo y (i + 1)) := by
  rw [upTo_succ, upTo_succ]
  exact h.append (.both (x j) (y i))

theorem Aligns.left {i j : Nat} (h : Aligns cols (upTo x j) (upTo y i)) :
    Aligns (cols ++ [.left (x j)]) (upTo x (j + 1)) (upTo y i) := by
  have happend := h.append (.left (x j))
  rwa [show (Column.left (x j) : Column α β).snd?.toList = [] from rfl, List.append_nil,
    show (Column.left (x j) : Column α β).fst?.toList = [x j] from rfl, ← upTo_succ] at happend

theorem Aligns.top {i j : Nat} (h : Aligns cols (upTo x j) (upTo y i)) :
    Aligns (cols ++ [.top (y i)]) (upTo x j) (upTo y (i + 1)) := by
  have happend := h.append (.top (y i))
  rwa [show (Column.top (y i) : Column α β).fst?.toList = [] from rfl, List.append_nil,
    show (Column.top (y i) : Column α β).snd?.toList = [y i] from rfl, ← upTo_succ] at happend

variable [AddCommMonoid M] [LinearOrder M] {sc : Scoring α β M}

theorem exists_aligns (sc : Scoring α β M) (x : Nat → α) (y : Nat → β) (i j : Nat) :
    ∃ cols, Aligns cols (upTo x j) (upTo y i) ∧ sc.score cols = table sc x y i j := by
  induction i generalizing j with
  | zero =>
      induction j with
      | zero => exact ⟨[], ⟨rfl, rfl⟩, rfl⟩
      | succ j ih =>
          obtain ⟨cols, hcols, hscore⟩ := ih
          exact ⟨_, hcols.left, by rw [sc.score_append, hscore]; rfl⟩
  | succ i ih =>
      induction j with
      | zero =>
          obtain ⟨cols, hcols, hscore⟩ := ih 0
          exact ⟨_, hcols.top, by rw [sc.score_append, hscore]; rfl⟩
      | succ j ihj =>
          -- the last column of a best alignment is the one whose score is the maximum
          change ∃ cols, _ ∧ _ = max (max (table sc x y (i + 1) j + sc.left (x j))
            (table sc x y i (j + 1) + sc.top (y i))) (table sc x y i j + sc.both (x j) (y i))
          rcases max_choice (max (table sc x y (i + 1) j + sc.left (x j))
            (table sc x y i (j + 1) + sc.top (y i))) (table sc x y i j + sc.both (x j) (y i))
            with hmax | hmax
          · rw [hmax]
            rcases max_choice (table sc x y (i + 1) j + sc.left (x j))
              (table sc x y i (j + 1) + sc.top (y i)) with hmax | hmax
            · obtain ⟨cols, hcols, hscore⟩ := ihj
              exact ⟨_, hcols.left, by rw [hmax, sc.score_append, hscore]; rfl⟩
            · obtain ⟨cols, hcols, hscore⟩ := ih (j + 1)
              exact ⟨_, hcols.top, by rw [hmax, sc.score_append, hscore]; rfl⟩
          · obtain ⟨cols, hcols, hscore⟩ := ih j
            exact ⟨_, hcols.both, by rw [hmax, sc.score_append, hscore]; rfl⟩

theorem left_le_table (sc : Scoring α β M) (x : Nat → α) (y : Nat → β) (i j : Nat) :
    table sc x y i j + sc.left (x j) ≤ table sc x y i (j + 1) := by
  cases i with
  | zero => exact le_refl _
  | succ i => exact (le_max_left _ _).trans (le_max_left _ _)

theorem top_le_table (sc : Scoring α β M) (x : Nat → α) (y : Nat → β) (i j : Nat) :
    table sc x y i j + sc.top (y i) ≤ table sc x y (i + 1) j := by
  cases j with
  | zero => exact le_refl _
  | succ j => exact (le_max_right _ _).trans (le_max_left _ _)

theorem both_le_table (sc : Scoring α β M) (x : Nat → α) (y : Nat → β) (i j : Nat) :
    table sc x y i j + sc.both (x j) (y i) ≤ table sc x y (i + 1) (j + 1) :=
  le_max_right _ _

variable [IsOrderedAddMonoid M]

theorem score_le_table {i j : Nat} (h : Aligns cols (upTo x j) (upTo y i)) :
    sc.score cols ≤ table sc x y i j := by
  induction cols using List.reverseRecOn generalizing i j with
  | nil =>
      cases i <;> cases j <;> simp [Aligns, upTo] at h
      exact le_refl _
  | append_singleton cols c ih =>
      obtain ⟨hfst, hsnd⟩ := (show Aligns cols _ _ from ⟨rfl, rfl⟩).append c
      have hx := hfst.symm.trans h.1
      have hy := hsnd.symm.trans h.2
      rw [sc.score_append]
      cases c with
      | both a b =>
          obtain ⟨j, rfl, hxs, rfl⟩ := append_eq_upTo hx
          obtain ⟨i, rfl, hys, rfl⟩ := append_eq_upTo hy
          exact (add_le_add_left (ih ⟨hxs, hys⟩) _).trans (both_le_table sc x y i j)
      | left a =>
          obtain ⟨j, rfl, hxs, rfl⟩ := append_eq_upTo hx
          have hys : cols.filterMap Column.snd? = upTo y i := by simpa [Column.snd?] using hy
          exact (add_le_add_left (ih ⟨hxs, hys⟩) _).trans (left_le_table sc x y i j)
      | top b =>
          obtain ⟨i, rfl, hys, rfl⟩ := append_eq_upTo hy
          have hxs : cols.filterMap Column.fst? = upTo x j := by simpa [Column.fst?] using hx
          exact (add_le_add_left (ih ⟨hxs, hys⟩) _).trans (top_le_table sc x y i j)

/-- The table holds the scores of best alignments. -/
theorem table_isGreatest (sc : Scoring α β M) (x : Nat → α) (y : Nat → β) (i j : Nat) :
    IsGreatest {m | ∃ cols, Aligns cols (upTo x j) (upTo y i) ∧ sc.score cols = m}
      (table sc x y i j) := by
  refine ⟨exists_aligns sc x y i j, ?_⟩
  rintro m ⟨cols, hcols, rfl⟩
  exact score_le_table hcols

end

end HabaneroUpc.Alignment
