import HabaneroUpc.ForasyncAny
import HabaneroUpc.Lib.ForkJoin
import HabaneroUpc.VictimSort
import Mathlib.Data.List.Sort

namespace HabaneroUpc.SampleSort

open Interleaving Rearrange ForkJoin
open ForasyncAny (inInt inInt_iff)

variable {κ : Type} [LinearOrder κ]

abbrev Keys (κ : Type) := Int → κ

def scanUp (pivot : κ) (data : Keys κ) : Nat → Int → Option (Int × List Int) :=
  VictimSort.scan (fun i => data i < pivot) 1

def scanDown (pivot : κ) (data : Keys κ) : Nat → Int → Option (Int × List Int) :=
  VictimSort.scan (fun j => pivot < data j) (-1)

def swap (i j : Int) (data : Keys κ) : Keys κ :=
  let tmp := data i
  Function.update (Function.update data i (data j)) j tmp

def partitionLoop (pivot : κ) : Nat → Keys κ → Int → Int → Option (Keys κ × Int × List Int)
  | 0, _, _, _ => none
  | fuel + 1, data, i, j =>
      if i ≤ j then do
        let (i, up) ← scanUp pivot data fuel i
        let (j, down) ← scanDown pivot data fuel j
        if i ≤ j then
          (partitionLoop pivot fuel (swap i j data) (i + 1) (j - 1)).map
            fun r => (r.1, r.2.1, up ++ down ++ [i, j] ++ r.2.2)
        else (partitionLoop pivot fuel data i j).map fun r => (r.1, r.2.1, up ++ down ++ r.2.2)
      else some (data, i, [])

/-- No result is an int that overflows, or too little fuel. -/
def partition (fuel : Nat) (data : Keys κ) (left right : Int) : Option (Keys κ × Int × List Int) :=
  if inInt (left + right) then
    let middle := (left + right).tdiv 2
    (partitionLoop (data middle) fuel data left right).map fun r => (r.1, r.2.1, middle :: r.2.2)
  else none

def compare (a b : κ) : Int := if a < b then -1 else if a = b then 0 else 1

def qsort (data : Keys κ) (left right k : Int) : κ :=
  if left ≤ k ∧ k ≤ right then
    (((Int.range left (right + 1)).map data).mergeSort fun a b => compare a b ≤ 0).getD
      (k - left).toNat (data k)
  else data k

def asyncs (t : Segment) (index : Int) : List Segment :=
  (if t.left < index - 1 then [⟨t.left, index - 1⟩] else []) ++
    if index < t.right then [⟨index, t.right⟩] else []

/-- hcpp_sort up to the end of its finish, which waits for the asyncs. -/
def hcppSort (granularity : Int) : Body κ := fun t data =>
  if inInt (t.right - t.left) && inInt (t.right - t.left + 1) then
    if granularity < t.right - t.left + 1 then
      (partition ((t.right - t.left).toNat + 3) data t.left t.right).map fun (data, index, _) =>
        (data, asyncs t index)
    else some (qsort data t.left t.right, [])
  else none

section Partition

/-- The keys as victims of no rank: partition is the one that sorts the victims. -/
def records (data : Keys κ) : VictimSort.Victims κ := fun k => ⟨data k, 0⟩

omit [LinearOrder κ] in
theorem records_swap (i j : Int) (data : Keys κ) :
    VictimSort.swapVictims i j (records data) = records (swap i j data) := by
  funext k
  simp only [VictimSort.swapVictims, records, swap, Function.update_apply]
  split
  · rfl
  · split <;> rfl

theorem records_partitionLoop (pivot : κ) (fuel : Nat) (data : Keys κ) (i j : Int) :
    VictimSort.partitionLoop pivot fuel (records data) i j =
      (partitionLoop pivot fuel data i j).map fun r => (records r.1, r.2) := by
  induction fuel generalizing data i j with
  | zero => rfl
  | succ fuel ih =>
      rw [VictimSort.partitionLoop, partitionLoop]
      split
      · change (scanUp pivot data fuel i).bind _ = _
        cases hup : scanUp pivot data fuel i with
        | none => rfl
        | some up =>
            change (scanDown pivot data fuel j).bind _ = _
            cases hdown : scanDown pivot data fuel j with
            | none => rfl
            | some down =>
                simp only [Option.bind_some, Option.bind_eq_bind]
                split
                · rw [records_swap, ih, Option.map_map, Option.map_map]
                  rfl
                · rw [ih, Option.map_map, Option.map_map]
                  rfl
      · rfl

theorem records_partition (fuel : Nat) (data : Keys κ) {left right : Int}
    (hfits : inInt (left + right) = true) :
    VictimSort.partition fuel (records data) left right =
      (partition fuel data left right).map fun r => (records r.1, r.2) := by
  rw [VictimSort.partition, partition, if_pos hfits]
  change Option.map _ (VictimSort.partitionLoop (data _) fuel (records data) left right) = _
  rw [records_partitionLoop, Option.map_map, Option.map_map]
  rfl

omit [LinearOrder κ] in
theorem records_rearranged {data data' : Keys κ} {l r : Int}
    (h : Rearranged l r (records data) (records data')) : Rearranged l r data data' := by
  obtain ⟨σ, hσ, heq⟩ := h
  refine ⟨σ, hσ, ?_⟩
  funext k
  exact congrArg VictimSort.VictimInfo.distance (congrFun heq k)

theorem partition_spec (data : Keys κ) {l r : Int} (hpos : 0 ≤ l) (hlt : l < r)
    (hfits : inInt (l + r) = true) :
    ∃ data' index accesses pivot,
      partition ((r - l).toNat + 3) data l r = some (data', index, accesses) ∧
      Rearranged l r data data' ∧ (∀ k, l ≤ k → k < index → data' k ≤ pivot) ∧
      (∀ k, index ≤ k → k ≤ r → pivot ≤ data' k) ∧ l < index ∧ index ≤ r ∧
      ∀ k ∈ accesses, l ≤ k ∧ k ≤ r := by
  obtain ⟨v, index, accesses, pivot, hrun, hsplit, hl, -, hr, hinside⟩ :=
    VictimSort.partition_spec (v := records data) hpos hlt.le
  have hrun := hrun ((r - l).toNat + 3) (by omega)
  rw [records_partition _ data hfits] at hrun
  obtain ⟨⟨data', index', accesses'⟩, hpartition, heq⟩ := Option.map_eq_some_iff.mp hrun
  cases heq
  refine ⟨data', index, accesses, pivot, hpartition, records_rearranged hsplit.moved, ?_, ?_, hl,
    hr hlt, hinside⟩
  · intro k hk hindex
    exact hsplit.low k hk hindex
  · intro k hindex hk
    exact hsplit.high k (by omega) hk

end Partition

section Bodies

variable {data : Keys κ} {l r : Int}

theorem compare_nonpos {a b : κ} : compare a b ≤ 0 ↔ a ≤ b := by
  rw [compare]
  split
  · rename_i hlt
    simp [hlt.le]
  · split
    · rename_i heq
      simp [heq]
    · rename_i hlt hne
      simpa using fun hle => hne (le_antisymm hle (not_lt.mp hlt))

theorem sorted_range {f : Keys κ} (h : ∀ a b, l ≤ a → a < b → b ≤ r → f a ≤ f b) :
    ((Int.range l (r + 1)).map f).SortedLE := by
  have hrange : (Int.range l (r + 1)).Pairwise (· < ·) := by
    rw [Int.range, List.pairwise_map]
    exact List.pairwise_lt_range.imp fun hlt => by omega
  refine List.Pairwise.sortedLE (List.pairwise_map.mpr (hrange.imp_of_mem fun ha hb hlt => ?_))
  rw [Int.mem_range_iff] at ha hb
  exact h _ _ ha.1 hlt (by omega)

theorem qsort_values (data : Keys κ) (l r : Int) :
    (Int.range l (r + 1)).map (qsort data l r) =
      ((Int.range l (r + 1)).map data).mergeSort fun a b => compare a b ≤ 0 := by
  refine List.ext_getElem (by simp) fun n hn hn' => ?_
  have hlt : n < (r + 1 - l).toNat := by simpa [Int.range] using hn
  have hlt' : n < (Int.range l (r + 1)).length := by simpa using hn
  have hget : (Int.range l (r + 1))[n] = l + n := by simp [Int.range]
  rw [List.getElem_map, hget, qsort, if_pos (by omega), add_sub_cancel_left, Int.toNat_natCast,
    List.getD_eq_getElem _ _ hn']

theorem qsort_rearranged (data : Keys κ) (l r : Int) : Rearranged l r data (qsort data l r) := by
  apply rearranged_of_perm
  · intro k hk
    rw [qsort, if_neg (by omega)]
  · rw [qsort_values]
    exact List.mergeSort_perm _ _

theorem qsort_ordered (data : Keys κ) {a b : Int} (ha : l ≤ a) (hab : a < b) (hb : b ≤ r) :
    qsort data l r a ≤ qsort data l r b := by
  have hsorted := @List.pairwise_mergeSort κ (fun a b => decide (compare a b ≤ 0))
    (fun a b c h h' => by
      simp only [decide_eq_true_eq, compare_nonpos] at h h' ⊢
      exact h.trans h')
    (fun a b => by
      simp only [Bool.or_eq_true, decide_eq_true_eq, compare_nonpos]
      exact le_total a b) ((Int.range l (r + 1)).map data)
  rw [← qsort_values, List.pairwise_map, List.pairwise_iff_getElem] at hsorted
  have hlength : (Int.range l (r + 1)).length = (r + 1 - l).toNat := by simp [Int.range]
  have hle := hsorted (a - l).toNat (b - l).toNat (by omega) (by omega) (by omega)
  have hget (k : Int) (hk : l ≤ k) (hlt : (k - l).toNat < (Int.range l (r + 1)).length) :
      (Int.range l (r + 1))[(k - l).toNat] = k := by
    simp only [Int.range, List.getElem_map, List.getElem_range]
    omega
  rw [hget a ha, hget b (by omega)] at hle
  exact compare_nonpos.mp (by simpa using hle)

def weight (t : Segment) : Nat := 2 + 4 * (t.right - t.left).toNat

theorem mem_asyncs {t p : Segment} {index : Int} : p ∈ asyncs t index ↔
    (t.left < index - 1 ∧ p = ⟨t.left, index - 1⟩) ∨ (index < t.right ∧ p = ⟨index, t.right⟩) := by
  rw [asyncs, List.mem_append, List.mem_ite_nil_right, List.mem_ite_nil_right, List.mem_singleton,
    List.mem_singleton]

theorem asyncs_apart (t : Segment) (index k : Int) : (asyncs t index).countP (·.Has k) ≤ 1 := by
  have hsingle (c : Prop) [Decidable c] (p : Segment) :
      (if c then [p] else []).countP (·.Has k) ≤ if p.Has k then 1 else 0 := by
    split <;> simp [List.countP_cons]
  have hone (p : Segment) : (if p.Has k then 1 else 0) ≤ 1 := by
    split <;> simp
  have hlow := hsingle (t.left < index - 1) ⟨t.left, index - 1⟩
  have hhigh := hsingle (index < t.right) ⟨index, t.right⟩
  rw [asyncs, List.countP_append]
  by_cases hk : k < index
  · rw [if_neg (fun h : Segment.Has _ k => absurd h.1 (not_le.mpr hk))] at hhigh
    have hle := hone ⟨t.left, index - 1⟩
    omega
  · rw [if_neg (fun h : Segment.Has _ k => hk (Int.lt_of_le_sub_one h.2))] at hlow
    have hle := hone ⟨index, t.right⟩
    omega

theorem asyncs_shorter {t : Segment} {index : Int} (hl : t.left < index) (hr : index ≤ t.right) :
    ((asyncs t index).map weight).sum + 2 ≤ weight t := by
  rw [asyncs]
  split <;> split <;> simp only [List.nil_append, List.append_nil, List.cons_append, List.map_cons,
    List.map_nil, List.sum_cons, List.sum_nil, weight] <;> omega

theorem hcppSort_divides {granularity : Int} (hg : 1 ≤ granularity) (t₀ : Segment)
    (hpos : 0 ≤ t₀.left) :
    DividesBelow (fun a b : κ => a ≤ b) weight (hcppSort granularity) t₀ := by
  intro t data data' parts hl hr hbody
  rw [hcppSort, Option.ite_none_right_eq_some] at hbody
  obtain ⟨-, hbody⟩ := hbody
  by_cases hlarge : granularity < t.right - t.left + 1
  · rw [if_pos hlarge] at hbody
    obtain ⟨⟨data₁, index, accesses⟩, hpartition, heq⟩ := Option.map_eq_some_iff.mp hbody
    cases heq
    have hfits : inInt (t.left + t.right) = true := by
      rw [partition, Option.ite_none_right_eq_some] at hpartition
      exact hpartition.1
    obtain ⟨_, _, _, pivot, hrun, hmoved, hlow, hhigh, hindexl, hindexr, -⟩ :=
      partition_spec data (show 0 ≤ t.left by omega) (show t.left < t.right by omega) hfits
    rw [hpartition] at hrun
    cases hrun
    refine ⟨hmoved, ?_, asyncs_apart t index, ?_, asyncs_shorter hindexl hindexr⟩
    · intro p hp
      rcases mem_asyncs.mp hp with ⟨hlt, rfl⟩ | ⟨hlt, rfl⟩
      · exact ⟨le_refl _, by simp only; omega, by simp only; omega⟩
      · exact ⟨hindexl.le, le_refl _, by simp only; omega⟩
    · intro a b ha hab hb
      by_cases hbl : b < index
      · exact .inr ⟨_, mem_asyncs.mpr (.inl ⟨by omega, rfl⟩), ha, by simp only; omega⟩
      · by_cases hal : index ≤ a
        · exact .inr ⟨_, mem_asyncs.mpr (.inr ⟨by omega, rfl⟩), hal, hb⟩
        · exact .inl ((hlow a ha (by omega)).trans (hhigh b (by omega) hb))
  · rw [if_neg hlarge] at hbody
    cases hbody
    refine ⟨qsort_rearranged data _ _, nofun, fun _ => Nat.zero_le 1, ?_, ?_⟩
    · exact fun a b ha hab hb => .inl (qsort_ordered data ha hab hb)
    · simp [weight]

theorem hcppSort_total_below {granularity : Int} (hg : 1 ≤ granularity) (t₀ : Segment)
    (hpos : 0 ≤ t₀.left) (hbound : t₀.right < 2 ^ 30) :
    TotalBelow (hcppSort (κ := κ) granularity) t₀ := by
  intro t data hl hr hle
  have hsize : (inInt (t.right - t.left) && inInt (t.right - t.left + 1)) = true := by
    rw [Bool.and_eq_true, inInt_iff, inInt_iff]
    omega
  rw [hcppSort, if_pos hsize]
  by_cases hlarge : granularity < t.right - t.left + 1
  · obtain ⟨data', index, accesses, -, hrun, -⟩ := partition_spec data (show 0 ≤ t.left by omega)
      (show t.left < t.right by omega) (inInt_iff.mpr (by omega))
    rw [if_pos hlarge, hrun]
    exact ⟨_, _, rfl⟩
  · rw [if_neg hlarge]
    exact ⟨_, _, rfl⟩

end Bodies

section Runs

variable {ι : Type*} [Fintype ι] [DecidableEq ι] {granularity left right : Int} {data : Keys κ}
  {s : Global ι (Worker κ) (Memory κ)}

def sortSystem (ι : Type*) (granularity : Int) (data : Keys κ) (left right : Int) :
    System ι ForkJoin.Act (Worker κ) (Memory κ) := system ι (hcppSort granularity) data ⟨left, right⟩

/-- hcpp_sort has no data race: the indices that two running tasks access are
apart, none is outside of the array, and what a task has read is not overwritten. -/
theorem hcppSort_apart (hg : 1 ≤ granularity) (hpos : 0 ≤ left) (hle : left ≤ right + 1)
    (hbound : right < 2 ^ 30) (hs : Reachable (sortSystem ι granularity data left right) s) :
    (∀ i t seen, s.proc i = some (t, seen) → left ≤ t.left ∧ t.right ≤ right ∧
      (∀ k, t.Has k → seen k = s.shared.data k) ∧
      (granularity < t.right - t.left + 1 → ∃ data' index accesses,
        partition ((t.right - t.left).toNat + 3) seen t.left t.right = some (data', index, accesses) ∧
        ∀ k ∈ accesses, t.Has k)) ∧
    ∀ i j, i ≠ j → ∀ t seen u seen', s.proc i = some (t, seen) → s.proc j = some (u, seen') →
      ∀ k, ¬(t.Has k ∧ u.Has k) := by
  have hbody := hcppSort_divides (κ := κ) hg ⟨left, right⟩ hpos
  have hinv := inv_reachable hbody hle hs
  constructor
  · intro i t seen hi
    have hbounds := hinv.inside t (mem_live hi)
    simp only at hbounds
    refine ⟨hbounds.1, hbounds.2.1, hinv.seen i t seen hi, fun hlarge => ?_⟩
    obtain ⟨data', index, accesses, -, hrun, -, -, -, -, -, hinside⟩ :=
      partition_spec seen (hpos.trans hbounds.1) (show t.left < t.right by omega)
        (inInt_iff.mpr (by omega))
    exact ⟨data', index, accesses, hrun, hinside⟩
  · intro i j hij t seen u seen' hi hj k
    exact apart_of_running hbody hle hs hij hi hj k

def fourKeys (k : Int) : Nat := (7 - k).toNat

theorem hcppSort_apart_four : ∃ s : Global Bool (Worker Nat) (Memory Nat),
    (s.proc false).map Prod.fst = some ⟨0, 1⟩ ∧ (s.proc true).map Prod.fst = some ⟨2, 3⟩ ∧
      ∀ i j, i ≠ j → ∀ t seen u seen', s.proc i = some (t, seen) → s.proc j = some (u, seen') →
        ∀ k, ¬(t.Has k ∧ u.Has k) := by
  have hs := after_reachable (sortSystem Bool 1 fourKeys 0 3)
    [(false, .take ⟨0, 3⟩), (false, .finish), (false, .take ⟨0, 1⟩), (true, .take ⟨2, 3⟩)]
  exact ⟨_, by decide +kernel, by decide +kernel,
    (hcppSort_apart (le_refl 1) (le_refl 0) (by decide) (by decide) hs).2⟩

/-- When its finish is over, the keys from left to right are in order, and no
other key has been touched. -/
theorem hcppSort_sorts (hg : 1 ≤ granularity) (hpos : 0 ≤ left) (hle : left ≤ right + 1)
    (hs : Reachable (sortSystem ι granularity data left right) s) (hend : complete s) :
    (Int.range left (right + 1)).map s.shared.data =
      ((Int.range left (right + 1)).map data).mergeSort ∧
    ∀ k, k < left ∨ right < k → s.shared.data k = data k := by
  obtain ⟨hmoved, hordered⟩ := complete_spec (hcppSort_divides hg ⟨left, right⟩ hpos) hle hs hend
  refine ⟨?_, fun k hk => hmoved.outside hk⟩
  exact (hmoved.perm.trans (List.mergeSort_perm _ _).symm).eq_of_sortedLE (sorted_range hordered)
    List.sortedLE_mergeSort

theorem exists_complete [Nonempty ι] (hg : 1 ≤ granularity) (hpos : 0 ≤ left)
    (hle : left ≤ right + 1) (hbound : right < 2 ^ 30) (data : Keys κ) :
    ∃ s, Reachable (sortSystem ι granularity data left right) s ∧ complete s := by
  obtain ⟨-, acts, s, hrun, hend⟩ := completes (hcppSort_divides hg ⟨left, right⟩ hpos)
    (hcppSort_total_below hg ⟨left, right⟩ hpos hbound) hle
    (show Reachable (sortSystem ι granularity data left right) _ from .init)
  exact ⟨s, reachable_of_run .init acts hrun, hend⟩

/-- On any number of workers and in any order of the tasks, hcpp_sort ends and
has then sorted the keys from left to right. -/
theorem hcppSort_total [Nonempty ι] (hg : 1 ≤ granularity) (hpos : 0 ≤ left)
    (hle : left ≤ right + 1) (hbound : right < 2 ^ 30)
    (hs : Reachable (sortSystem ι granularity data left right) s) :
    (∃ bound, ∀ acts s', (sortSystem ι granularity data left right).run s acts = some s' →
      acts.length ≤ bound) ∧
    (∃ acts s', (sortSystem ι granularity data left right).run s acts = some s' ∧ complete s') ∧
    (complete s →
      (Int.range left (right + 1)).map s.shared.data =
        ((Int.range left (right + 1)).map data).mergeSort ∧
      ∀ k, k < left ∨ right < k → s.shared.data k = data k) := by
  obtain ⟨hlength, hends⟩ := completes (hcppSort_divides hg ⟨left, right⟩ hpos)
    (hcppSort_total_below hg ⟨left, right⟩ hpos hbound) hle hs
  exact ⟨⟨_, hlength⟩, hends, hcppSort_sorts hg hpos hle hs⟩

theorem hcppSort_total_four : ∃ s : Global (Fin 2) (Worker Nat) (Memory Nat),
    Reachable (sortSystem (Fin 2) 1 fourKeys 0 3) s ∧
      (Int.range 0 4).map s.shared.data = [4, 5, 6, 7] := by
  have hle : (0 : Int) ≤ 3 + 1 := by decide
  obtain ⟨s, hs, hend⟩ := exists_complete (ι := Fin 2) (le_refl 1) (le_refl 0) hle (by decide) fourKeys
  refine ⟨s, hs, ((hcppSort_total (le_refl 1) (le_refl 0) hle (by decide) hs).2.2 hend).1.trans ?_⟩
  exact (List.mergeSort_eq_insertionSort (· ≤ ·) _).trans (by decide)

end Runs

end HabaneroUpc.SampleSort
