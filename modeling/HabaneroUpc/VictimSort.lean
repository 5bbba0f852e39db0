import HabaneroUpc.Lib.Rearrange

namespace HabaneroUpc.VictimSort

open Rearrange

structure VictimInfo (δ : Type) where
  distance : δ
  rank : Nat

abbrev Victims (δ : Type) := Int → VictimInfo δ

variable {δ : Type}

def swapVictims (i j : Int) (victims : Victims δ) : Victims δ :=
  let rank := (victims i).rank
  let distance := (victims i).distance
  let victims := Function.update victims i ⟨(victims j).distance, (victims j).rank⟩
  Function.update victims j ⟨distance, rank⟩

theorem swapVictims_eq (i j : Int) (victims : Victims δ) :
    swapVictims i j victims = victims ∘ Equiv.swap i j := by
  funext k
  simp only [swapVictims, Function.comp_apply, Equiv.swap_apply_def]
  by_cases hj : k = j
  · subst hj
    by_cases hi : k = i <;> simp [hi]
  · by_cases hi : k = i
    · subst hi
      simp [Function.update_of_ne hj]
    · simp [hi, hj]

/-- The two inner loops of partition: an index moves on as long as a condition
on its entry holds. Also returned are the indices that are read. -/
def scan (continues : Int → Bool) (step : Int) : Nat → Int → Option (Int × List Int)
  | 0, _ => none
  | fuel + 1, i =>
      if continues i then (scan continues step fuel (i + step)).map fun r => (r.1, i :: r.2)
      else some (i, [i])

structure Topology where
  col : Int
  row : Int
  cage : Int
  slot : Int
  anode : Int

namespace Topology

def valid (t : Topology) : Bool :=
  0 ≤ t.col ∧ 0 ≤ t.row ∧ 0 ≤ t.cage ∧ 0 ≤ t.slot ∧ 0 ≤ t.anode

def squares (my p : Topology) : Int :=
  (my.col - p.col) ^ 2 + (my.row - p.row) ^ 2 + (my.cage - p.cage) ^ 2 + (my.slot - p.slot) ^ 2 +
    (my.anode - p.anode) ^ 2

end Topology

def fillRanks (me : Nat) : Nat → Nat → Nat → Victims δ → Victims δ
  | 0, _, _, victims => victims
  | left + 1, i, j, victims =>
      if i ≠ me then
        fillRanks me left (i + 1) (j + 1)
          (Function.update victims j { victims j with rank := i })
      else fillRanks me left (i + 1) j victims

def fillDistances (sqrt : Int → δ) (topoAll : Nat → Topology) (me : Nat) :
    Nat → Nat → Victims δ → Option (Victims δ)
  | 0, _, victims => some victims
  | left + 1, i, victims =>
      let p := topoAll (victims i).rank
      if p.valid then
        fillDistances sqrt topoAll me left (i + 1)
          (Function.update victims i { victims i with distance := sqrt ((topoAll me).squares p) })
      else none

section Init

variable {me : Nat}

theorem fillRanks_before (left i j : Nat) (v : Victims δ) {k : Int} (hk : k < j) :
    fillRanks me left i j v k = v k := by
  induction left generalizing i j v with
  | zero => rfl
  | succ left ih =>
      rw [fillRanks]
      split
      · rw [ih (i + 1) (j + 1) _ (by omega), Function.update_of_ne (by omega)]
      · exact ih (i + 1) j v hk

theorem fillRanks_ranks (me left i j : Nat) (v : Victims δ) :
    ((Int.range j (j + ((List.range' i left).filter (· ≠ me)).length)).map
      fun k => (fillRanks me left i j v k).rank) = (List.range' i left).filter (· ≠ me) := by
  induction left generalizing i j v with
  | zero => simp [Loops.range_eq_nil]
  | succ left ih =>
      rw [fillRanks, List.range'_succ]
      by_cases hi : i = me
      · rw [if_neg (by simpa using hi), List.filter_cons_of_neg (by simpa using hi)]
        exact ih (i + 1) j v
      · rw [if_pos hi, List.filter_cons_of_pos (by simpa using hi), List.length_cons,
          Loops.range_cons (by push_cast; omega), List.map_cons]
        congr 1
        · rw [fillRanks_before _ _ _ _ (by push_cast; omega), Function.update_self]
        · have hrest := ih (i + 1) (j + 1) (Function.update v j { v j with rank := i })
          have hfirst : (j : Int) + 1 = ((j + 1 : Nat) : Int) := by push_cast; rfl
          have hlast (m : Nat) : (j : Int) + ((m + 1 : Nat) : Int) = ((j + 1 : Nat) : Int) + m := by
            push_cast
            ring
          rw [hfirst, hlast]
          exact hrest

theorem others_eq (ranks me : Nat) :
    (List.range' 0 ranks).filter (· ≠ me) = (List.range ranks).erase me := by
  rw [List.nodup_range.erase_eq_filter, List.range_eq_range']
  apply List.filter_congr
  intro i _
  rw [bne, decide_not, beq_eq_decide]

theorem fillRanks_all {ranks me : Nat} (hme : me < ranks) (v : Victims δ) :
    (Int.range 0 (ranks - 1)).map (fun k => (fillRanks me ranks 0 0 v k).rank) =
      (List.range ranks).erase me := by
  have hlength : ((List.range' 0 ranks).filter (· ≠ me)).length = ranks - 1 := by
    rw [others_eq, List.length_erase_of_mem (List.mem_range.mpr hme), List.length_range]
  have hranks := fillRanks_ranks me ranks 0 0 v
  rw [hlength, others_eq] at hranks
  rw [← hranks]
  congr 2
  omega

theorem fillDistances_spec (sqrt : Int → δ) (topoAll : Nat → Topology) (me left i : Nat)
    (v : Victims δ) (hvalid : ∀ k : Nat, i ≤ k → k < i + left → (topoAll (v k).rank).valid = true) :
    ∃ v', fillDistances sqrt topoAll me left i v = some v' ∧ (∀ k, (v' k).rank = (v k).rank) ∧
      (∀ k : Int, k < i → v' k = v k) ∧ ∀ k : Int, i ≤ k → k < i + left →
        (v' k).distance = sqrt ((topoAll me).squares (topoAll (v k).rank)) := by
  induction left generalizing i v with
  | zero => exact ⟨v, rfl, fun _ => rfl, fun _ _ => rfl, fun k hk hlt => by omega⟩
  | succ left ih =>
      have hranks : ∀ k : Int, (Function.update v i { v i with
          distance := sqrt ((topoAll me).squares (topoAll (v i).rank)) } k).rank = (v k).rank := by
        intro k
        by_cases hk : k = i
        · rw [hk, Function.update_self]
        · rw [Function.update_of_ne hk]
      obtain ⟨v', hrun, hrank, hbefore, hdistance⟩ := ih (i + 1) (Function.update v i { v i with
          distance := sqrt ((topoAll me).squares (topoAll (v i).rank)) }) (by
            intro k hk hlt
            rw [hranks]
            exact hvalid k (by omega) (by omega))
      refine ⟨v', ?_, fun k => (hrank k).trans (hranks k), ?_, ?_⟩
      · rw [fillDistances]
        simp only [hvalid i (le_refl i) (by omega), if_true]
        exact hrun
      · intro k hk
        rw [hbefore k (by push_cast; omega), Function.update_of_ne (by omega)]
      · intro k hk hlt
        by_cases hki : k = i
        · rw [hki, hbefore i (by push_cast; omega), Function.update_self]
        · rw [hdistance k (by push_cast; omega) (by push_cast at hlt ⊢; omega), hranks]

def Measured (sqrt : Int → δ) (topoAll : Nat → Topology) (me : Nat) (x : VictimInfo δ) : Prop :=
  x.distance = sqrt ((topoAll me).squares (topoAll x.rank))

theorem fill_spec {sqrt : Int → δ} {topoAll : Nat → Topology} {ranks : Nat} (hme : me < ranks)
    (hvalid : ∀ q < ranks, (topoAll q).valid = true) (v : Victims δ) :
    ∃ v', fillDistances sqrt topoAll me (ranks - 1) 0 (fillRanks me ranks 0 0 v) = some v' ∧
      (Int.range 0 (ranks - 1)).map (fun k => (v' k).rank) = (List.range ranks).erase me ∧
      ∀ k : Int, 0 ≤ k → k ≤ ranks - 2 → Measured sqrt topoAll me (v' k) := by
  have hranks := fillRanks_all hme v
  have hlt : ∀ k : Int, 0 ≤ k → k < ranks - 1 → (fillRanks me ranks 0 0 v k).rank < ranks := by
    intro k hk hlt
    have hmem : (fillRanks me ranks 0 0 v k).rank ∈ (List.range ranks).erase me := by
      rw [← hranks]
      exact List.mem_map.mpr ⟨k, Int.mem_range_iff.mpr ⟨hk, hlt⟩, rfl⟩
    exact List.mem_range.mp (List.mem_of_mem_erase hmem)
  obtain ⟨v', hrun, hrank, _, hdistance⟩ :=
    fillDistances_spec sqrt topoAll me (ranks - 1) 0 (fillRanks me ranks 0 0 v) (by
      intro k _ hk
      exact hvalid _ (hlt k (by omega) (by omega)))
  refine ⟨v', hrun, ?_, ?_⟩
  · simp only [hrank, hranks]
  · intro k hk hk'
    rw [Measured, hrank]
    exact hdistance k hk (by push_cast; omega)

end Init

variable [LinearOrder δ]

def scanUp (pivot : δ) (victims : Victims δ) : Nat → Int → Option (Int × List Int) :=
  scan (fun i => (victims i).distance < pivot) 1

def scanDown (pivot : δ) (victims : Victims δ) : Nat → Int → Option (Int × List Int) :=
  scan (fun j => pivot < (victims j).distance) (-1)

/-- The outer loop of partition: the array, the value of i that is returned and
the indices accessed. -/
def partitionLoop (pivot : δ) :
    Nat → Victims δ → Int → Int → Option (Victims δ × Int × List Int)
  | 0, _, _, _ => none
  | fuel + 1, victims, i, j =>
      if i ≤ j then do
        let (i, up) ← scanUp pivot victims fuel i
        let (j, down) ← scanDown pivot victims fuel j
        if i ≤ j then
          (partitionLoop pivot fuel (swapVictims i j victims) (i + 1) (j - 1)).map
            fun r => (r.1, r.2.1, up ++ down ++ [i, j] ++ r.2.2)
        else (partitionLoop pivot fuel victims i j).map fun r => (r.1, r.2.1, up ++ down ++ r.2.2)
      else some (victims, i, [])

def partition (fuel : Nat) (victims : Victims δ) (left right : Int) :
    Option (Victims δ × Int × List Int) :=
  let middle := (left + right).tdiv 2
  (partitionLoop (victims middle).distance fuel victims left right).map
    fun r => (r.1, r.2.1, middle :: r.2.2)

structure Access where
  left : Int
  right : Int
  index : Int

def qsortVictims : Nat → Victims δ → Int → Int → Option (Victims δ × List Access)
  | 0, _, _, _ => none
  | fuel + 1, victims, left, right => do
      let (victims, index, accesses) ← partition fuel victims left right
      let (victims, accessesLow) ←
        (if left < index - 1 then qsortVictims fuel victims left (index - 1)
          else some (victims, []))
      let (victims, accessesHigh) ←
        (if index < right then qsortVictims fuel victims index right else some (victims, []))
      return (victims, accesses.map (fun k => ⟨left, right, k⟩) ++ accessesLow ++ accessesHigh)

def vsinit (sqrt : Int → δ) (topoAll : Nat → Topology) (ranks me fuel : Nat)
    (victims : Victims δ) : Option (Victims δ) := do
  let victims ← fillDistances sqrt topoAll me (ranks - 1) 0 (fillRanks me ranks 0 0 victims)
  (if 2 < ranks then (qsortVictims fuel victims 0 (ranks - 2)).map (·.1) else some victims)

section Partition

variable {l r i j : Int} {pivot : δ} {v₀ v : Victims δ}

theorem fuel_succ {bound fuel : Nat} (h : bound < fuel) : ∃ fuel', fuel = fuel' + 1 :=
  ⟨fuel - 1, by omega⟩

/-- A scan stops at the first entry that does not continue it, and no later
than at any given one. -/
theorem scan_spec (continues : Int → Bool) (step : Int) (d : Nat) (i : Int)
    (hstop : continues (i + d * step) = false) :
    ∃ e accesses, e ≤ d ∧
      (∀ fuel, d < fuel → scan continues step fuel i = some (i + e * step, accesses)) ∧
      continues (i + e * step) = false ∧ (∀ e' < e, continues (i + e' * step) = true) ∧
      ∀ k ∈ accesses, ∃ e' ≤ e, k = i + ((e' : Nat) : Int) * step := by
  induction d generalizing i with
  | zero =>
      refine ⟨0, [i], le_refl 0, ?_, by simpa using hstop, by simp, by simp⟩
      intro fuel hfuel
      obtain ⟨fuel, rfl⟩ := fuel_succ hfuel
      simp [scan, show continues i = false by simpa using hstop]
  | succ d ih =>
      by_cases hi : continues i = true
      · have hshift (e : Nat) : i + step + e * step = i + ((e + 1 : Nat) : Int) * step := by
          push_cast
          ring
        rw [← hshift] at hstop
        obtain ⟨e, accesses, hle, hscan, hlast, hbefore, haccesses⟩ := ih (i + step) hstop
        refine ⟨e + 1, i :: accesses, by omega, ?_, by rwa [← hshift], ?_, ?_⟩
        · intro fuel hfuel
          obtain ⟨fuel, rfl⟩ := fuel_succ hfuel
          rw [scan, if_pos hi, hscan fuel (by omega), Option.map_some, hshift]
        · intro e' he'
          cases e' with
          | zero => simpa using hi
          | succ e' =>
              rw [← hshift]
              exact hbefore e' (by omega)
        · intro k hk
          rcases List.mem_cons.mp hk with rfl | hk
          · exact ⟨0, by omega, by simp⟩
          · obtain ⟨e', he', rfl⟩ := haccesses k hk
            exact ⟨e' + 1, by omega, hshift e'⟩
      · refine ⟨0, [i], by omega, ?_, by simpa using hi, by simp, by simp⟩
        intro fuel hfuel
        obtain ⟨fuel, rfl⟩ := fuel_succ hfuel
        rw [scan, if_neg hi]
        simp

theorem scanUp_spec {a : Int} (hle : i ≤ a) (ha : pivot ≤ (v a).distance) :
    ∃ i' accesses, i ≤ i' ∧ i' ≤ a ∧
      (∀ fuel, (a - i).toNat < fuel → scanUp pivot v fuel i = some (i', accesses)) ∧
      pivot ≤ (v i').distance ∧ (∀ k, i ≤ k → k < i' → (v k).distance ≤ pivot) ∧
      ∀ k ∈ accesses, i ≤ k ∧ k ≤ i' := by
  have hstop : decide ((v (i + ((a - i).toNat : Int) * 1)).distance < pivot) = false := by
    rw [show i + ((a - i).toNat : Int) * 1 = a by omega, decide_eq_false_iff_not, not_lt]
    exact ha
  obtain ⟨e, accesses, he, hscan, hlast, hbefore, haccesses⟩ :=
    scan_spec (fun i => (v i).distance < pivot) 1 (a - i).toNat i hstop
  simp only [mul_one, decide_eq_false_iff_not, not_lt, decide_eq_true_eq] at hscan hlast hbefore
  refine ⟨i + e, accesses, by omega, by omega, hscan, hlast, ?_, ?_⟩
  · intro k hk hlt
    have hk' := hbefore (k - i).toNat (by omega)
    rw [show i + ((k - i).toNat : Int) = k by omega] at hk'
    exact hk'.le
  · intro k hk
    obtain ⟨e', he', rfl⟩ := haccesses k hk
    omega

theorem scanDown_spec {b : Int} (hle : b ≤ j) (hb : (v b).distance ≤ pivot) :
    ∃ j' accesses, b ≤ j' ∧ j' ≤ j ∧
      (∀ fuel, (j - b).toNat < fuel → scanDown pivot v fuel j = some (j', accesses)) ∧
      (v j').distance ≤ pivot ∧ (∀ k, j' < k → k ≤ j → pivot ≤ (v k).distance) ∧
      ∀ k ∈ accesses, j' ≤ k ∧ k ≤ j := by
  have hstop : decide (pivot < (v (j + ((j - b).toNat : Int) * -1)).distance) = false := by
    rw [show j + ((j - b).toNat : Int) * -1 = b by omega, decide_eq_false_iff_not, not_lt]
    exact hb
  obtain ⟨e, accesses, he, hscan, hlast, hbefore, haccesses⟩ :=
    scan_spec (fun j => pivot < (v j).distance) (-1) (j - b).toNat j hstop
  simp only [mul_neg, mul_one, decide_eq_false_iff_not, not_lt, decide_eq_true_eq]
    at hscan hlast hbefore
  refine ⟨j + -e, accesses, by omega, by omega, hscan, hlast, ?_, ?_⟩
  · intro k hlt hk
    have hk' := hbefore (j - k).toNat (by omega)
    rw [show j + -((j - k).toNat : Int) = k by omega] at hk'
    exact hk'.le
  · intro k hk
    obtain ⟨e', he', rfl⟩ := haccesses k hk
    omega

structure Split (l r : Int) (pivot : δ) (v₀ v : Victims δ) (i j : Int) : Prop where
  moved : Rearranged l r v₀ v
  low : ∀ k, l ≤ k → k < i → (v k).distance ≤ pivot
  high : ∀ k, j < k → k ≤ r → pivot ≤ (v k).distance

theorem Split.swap (h : Split l r pivot v₀ v i j) (hi : l ≤ i) (hle : i ≤ j) (hj : j ≤ r)
    (hhigh : pivot ≤ (v i).distance) (hlow : (v j).distance ≤ pivot) :
    Split l r pivot v₀ (swapVictims i j v) (i + 1) (j - 1) := by
  rw [swapVictims_eq]
  refine ⟨h.moved.trans (swap_rearranged (by omega) (by omega)), ?_, ?_⟩
  · intro k hk hlt
    rw [Function.comp_apply]
    by_cases hki : k = i
    · rwa [hki, Equiv.swap_apply_left]
    · rw [Equiv.swap_apply_of_ne_of_ne hki (by omega)]
      exact h.low k hk (by omega)
  · intro k hlt hk
    rw [Function.comp_apply]
    by_cases hkj : k = j
    · rwa [hkj, Equiv.swap_apply_right]
    · rw [Equiv.swap_apply_of_ne_of_ne (by omega) hkj]
      exact h.high k (by omega) hk

/-- One turn of the outer loop, with an entry on which each inner loop has to
stop. -/
theorem turn_spec (h : Split l r pivot v₀ v i j) (hl : l ≤ i) (hle : i ≤ j) (hr : j ≤ r) {a b : Int}
    (hia : i ≤ a) (har : a ≤ r) (ha : pivot ≤ (v a).distance) (hlb : l ≤ b) (hbj : b ≤ j)
    (hb : (v b).distance ≤ pivot) :
    ∃ v' i' j' accesses,
      (∀ fuel, (a - i).toNat < fuel → (j - b).toNat < fuel →
        partitionLoop pivot (fuel + 1) v i j =
          (partitionLoop pivot fuel v' i' j').map fun x => (x.1, x.2.1, accesses ++ x.2.2)) ∧
      Split l r pivot v₀ v' i' j' ∧ (∀ k ∈ accesses, l ≤ k ∧ k ≤ r) ∧
      i ≤ i' ∧ (a ≤ j + 1 → i' ≤ j + 1) ∧ j' ≤ j ∧
      (i' ≤ j' ∨ a ≤ b → i < i' ∧ i' ≤ a + 1 ∧ j' < j) := by
  obtain ⟨i₁, up, hi₁, hi₁a, hup, hiHigh, hiLow, hupAccesses⟩ := scanUp_spec hia ha
  obtain ⟨j₁, down, hbj₁, hj₁, hdown, hjLow, hjHigh, hdownAccesses⟩ := scanDown_spec hbj hb
  have hscanned : Split l r pivot v₀ v i₁ j₁ := by
    refine ⟨h.moved, ?_, ?_⟩
    · intro k hk hlt
      by_cases hki : k < i
      · exact h.low k hk hki
      · exact hiLow k (by omega) hlt
    · intro k hlt hk
      by_cases hkj : j < k
      · exact h.high k hkj hk
      · exact hjHigh k hlt (by omega)
  have hscans : ∀ k ∈ up ++ down, l ≤ k ∧ k ≤ r := by
    intro k hk
    rcases List.mem_append.mp hk with hk | hk
    · have hbounds := hupAccesses k hk
      omega
    · have hbounds := hdownAccesses k hk
      omega
  by_cases hcross : i₁ ≤ j₁
  · refine ⟨swapVictims i₁ j₁ v, i₁ + 1, j₁ - 1, up ++ down ++ [i₁, j₁], ?_,
      hscanned.swap (by omega) hcross (by omega) hiHigh hjLow, ?_, by omega, by omega, by omega,
      by omega⟩
    · intro fuel hfuelUp hfuelDown
      simp only [partitionLoop, if_pos hle, hup fuel hfuelUp, hdown fuel hfuelDown,
        Option.bind_eq_bind, Option.bind_some, if_pos hcross]
    · intro k hk
      rcases List.mem_append.mp hk with hk | hk
      · exact hscans k hk
      · simp only [List.mem_cons, List.not_mem_nil, or_false] at hk
        omega
  · refine ⟨v, i₁, j₁, up ++ down, ?_, hscanned, hscans, by omega, by omega, by omega, by omega⟩
    intro fuel hfuelUp hfuelDown
    simp only [partitionLoop, if_pos hle, hup fuel hfuelUp, hdown fuel hfuelDown,
      Option.bind_eq_bind, Option.bind_some, if_neg hcross]

/-- Once both indices have moved, the entries that they have passed stop them. -/
theorem partitionLoop_spec (h : Split l r pivot v₀ v i j) (hl : l < i) (hr : j < r) :
    ∃ v' index accesses,
      (∀ fuel, (j + 1 - i).toNat + 1 < fuel →
        partitionLoop pivot fuel v i j = some (v', index, accesses)) ∧
      Split l r pivot v₀ v' index (index - 1) ∧ i ≤ index ∧ index ≤ max i (j + 1) ∧
      ∀ k ∈ accesses, l ≤ k ∧ k ≤ r := by
  generalize hm : (j + 1 - i).toNat = m
  induction m using Nat.strong_induction_on generalizing v i j with
  | _ m ih =>
      by_cases hle : i ≤ j
      · obtain ⟨v', i', j', accesses, hturn, hsplit, hinside, hi', hi'j, hj', hprogress⟩ :=
          turn_spec h hl.le hle hr.le (a := j + 1) (b := i - 1) (by omega) (by omega)
            (h.high _ (by omega) (by omega)) (by omega) (by omega) (h.low _ (by omega) (by omega))
        obtain ⟨w, index, rest, hrest, hresult, hlow, hhigh, hrestInside⟩ :=
          ih (j' + 1 - i').toNat (by omega) hsplit (by omega) (by omega) rfl
        refine ⟨w, index, accesses ++ rest, ?_, hresult, by omega, by omega, ?_⟩
        · intro fuel hfuel
          obtain ⟨fuel, rfl⟩ := fuel_succ hfuel
          rw [hturn fuel (by omega) (by omega), hrest fuel (by omega), Option.map_some]
        · intro k hk
          rcases List.mem_append.mp hk with hk | hk
          · exact hinside k hk
          · exact hrestInside k hk
      · refine ⟨v, i, [], ?_, ⟨h.moved, h.low, ?_⟩, le_refl i, by omega, by simp⟩
        · intro fuel hfuel
          obtain ⟨fuel, rfl⟩ := fuel_succ hfuel
          rw [partitionLoop, if_neg hle]
        · intro k hk
          exact h.high k (by omega)

/-- The middle entry stops both indices in the first turn, so that both parts
are shorter than the segment. -/
theorem partition_spec (hpos : 0 ≤ l) (hle : l ≤ r) :
    ∃ v' index accesses pivot,
      (∀ fuel, (r - l).toNat + 2 < fuel →
        partition fuel v l r = some (v', index, accesses)) ∧
      Split l r pivot v v' index (index - 1) ∧ l < index ∧ index ≤ r + 1 ∧
      (l < r → index ≤ r) ∧ ∀ k ∈ accesses, l ≤ k ∧ k ≤ r := by
  have hmiddle : l ≤ (l + r).tdiv 2 ∧ (l + r).tdiv 2 ≤ r ∧ (l < r → (l + r).tdiv 2 < r) := by
    rw [Int.tdiv_eq_ediv_of_nonneg (by omega)]
    omega
  have hstart : Split l r (v ((l + r).tdiv 2)).distance v v l r :=
    ⟨refl l r v, by omega, by omega⟩
  obtain ⟨v₁, i₁, j₁, accesses, hturn, hsplit, hinside, hi₁, _, hj₁, hmoved⟩ :=
    turn_spec hstart (le_refl l) hle (le_refl r) hmiddle.1 hmiddle.2.1 (le_refl _) hmiddle.1
      hmiddle.2.1 (le_refl _)
  obtain ⟨hi₁l, hi₁m, hj₁r⟩ := hmoved (.inr (le_refl _))
  obtain ⟨v₂, index, rest, hrest, hresult, hlow, hhigh, hrestInside⟩ :=
    partitionLoop_spec hsplit hi₁l hj₁r
  refine ⟨v₂, index, (l + r).tdiv 2 :: (accesses ++ rest), (v ((l + r).tdiv 2)).distance, ?_,
    hresult, by omega, by omega, by omega, ?_⟩
  · intro fuel hfuel
    obtain ⟨fuel, rfl⟩ := fuel_succ hfuel
    rw [partition, hturn fuel (by omega) (by omega), hrest fuel (by omega)]
    rfl
  · intro k hk
    rcases List.mem_cons.mp hk with rfl | hk
    · exact ⟨hmiddle.1, hmiddle.2.1⟩
    · rcases List.mem_append.mp hk with hk | hk
      · exact hinside k hk
      · exact hrestInside k hk

end Partition

def Sorted (l r : Int) (v : Victims δ) : Prop :=
  ∀ a b, l ≤ a → a ≤ b → b ≤ r → (v a).distance ≤ (v b).distance

section Sorting

variable {l r : Int} {v v' w : Victims δ}

theorem Sorted.of_short (h : r ≤ l) : Sorted l r v := by
  intro a b ha hab hb
  rw [show a = b by omega]

theorem Sorted.congr (h : Sorted l r v) (heq : ∀ k, l ≤ k → k ≤ r → w k = v k) : Sorted l r w := by
  intro a b ha hab hb
  rw [heq a ha (by omega), heq b (by omega) hb]
  exact h a b ha hab hb

/-- Two sorted parts on the two sides of the pivot are sorted together. -/
theorem Sorted.append {index : Int} {pivot : δ} (hlow : Sorted l (index - 1) v)
    (hhigh : Sorted index r v) (hle : ∀ k, l ≤ k → k ≤ index - 1 → (v k).distance ≤ pivot)
    (hge : ∀ k, index ≤ k → k ≤ r → pivot ≤ (v k).distance) : Sorted l r v := by
  intro a b ha hab hb
  by_cases hbl : b ≤ index - 1
  · exact hlow a b ha hab hbl
  · by_cases hah : index ≤ a
    · exact hhigh a b hah hab hb
    · exact (hle a ha (by omega)).trans (hge b (by omega) hb)

def SortsPart (fuel : Nat) (v : Victims δ) (l r : Int) : Option (Victims δ × List Access) :=
  if l < r then qsortVictims fuel v l r else some (v, [])

structure Sorts (l r : Int) (v v' : Victims δ) (accesses : List Access) : Prop where
  moved : Rearranged l r v v'
  sorted : Sorted l r v'
  inside : ∀ a ∈ accesses, l ≤ a.left ∧ a.left ≤ a.index ∧ a.index ≤ a.right ∧ a.right ≤ r

/-- Entries that partition has put on their side of the pivot stay there. -/
theorem Split.sorts {index : Int} {pivot : δ} {v₁ v₂ v₃ : Victims δ}
    {low high : List Access} (hsplit : Split l r pivot v v₁ index (index - 1))
    (hl : l < index) (hr : index ≤ r + 1) (hlow : Sorts l (index - 1) v₁ v₂ low)
    (hhigh : Sorts index r v₂ v₃ high) : Rearranged l r v v₃ ∧ Sorted l r v₃ := by
  have hlowKept : ∀ k, l ≤ k → k ≤ index - 1 → v₃ k = v₂ k :=
    fun k _ hk => hhigh.moved.outside (by omega)
  have hhighKept : ∀ k, index ≤ k → k ≤ r → v₂ k = v₁ k :=
    fun k hk _ => hlow.moved.outside (by omega)
  have hle : ∀ k, l ≤ k → k ≤ index - 1 → (v₂ k).distance ≤ pivot :=
    hlow.moved.forall_inside (p := fun x => x.distance ≤ pivot)
      fun k hk hk' => hsplit.low k hk (by omega)
  have hge : ∀ k, index ≤ k → k ≤ r → pivot ≤ (v₃ k).distance := by
    apply hhigh.moved.forall_inside (p := fun x => pivot ≤ x.distance)
    intro k hk hk'
    rw [hhighKept k hk hk']
    exact hsplit.high k (by omega) hk'
  constructor
  · exact (hsplit.moved.trans (hlow.moved.mono (le_refl l) (by omega))).trans
      (hhigh.moved.mono hl.le (le_refl r))
  · refine (hlow.sorted.congr hlowKept).append hhigh.sorted ?_ hge
    intro k hk hk'
    rw [hlowKept k hk hk']
    exact hle k hk hk'

theorem qsortVictims_sorts (v : Victims δ) (hpos : 0 ≤ l) (hle : l ≤ r) :
    ∃ v' accesses, Sorts l r v v' accesses ∧
      ∀ fuel, 2 * (r - l).toNat + 3 < fuel → qsortVictims fuel v l r = some (v', accesses) := by
  generalize hm : (r - l).toNat = m
  induction m using Nat.strong_induction_on generalizing v l r with
  | _ m ih =>
      obtain ⟨v₁, index, accesses, pivot, hpartition, hsplit, hindex, hindexr, hshorter, hinside⟩ :=
        partition_spec (v := v) hpos hle
      have hpart (v : Victims δ) {a b : Int} (ha : l ≤ a) (hlt : a < b → b - a < r - l) :
          ∃ v' accesses, Sorts a b v v' accesses ∧ ∀ fuel, 2 * m + 2 < fuel →
            SortsPart fuel v a b = some (v', accesses) := by
        by_cases hab : a < b
        · have hshort := hlt hab
          obtain ⟨v', accesses, hsorts, hrun⟩ :=
            ih (b - a).toNat (by omega) v (by omega) hab.le rfl
          refine ⟨v', accesses, hsorts, ?_⟩
          intro fuel hfuel
          rw [SortsPart, if_pos hab, hrun fuel (by omega)]
        · refine ⟨v, [], ⟨refl a b v, .of_short (not_lt.mp hab), by simp⟩, ?_⟩
          intro fuel _
          rw [SortsPart, if_neg hab]
      obtain ⟨v₂, low, hlow, hlowRun⟩ := hpart v₁ (b := index - 1) (le_refl l) (by omega)
      obtain ⟨v₃, high, hhigh, hhighRun⟩ := hpart v₂ (b := r) hindex.le (by omega)
      obtain ⟨hmoved, hsorted⟩ := hsplit.sorts hindex hindexr hlow hhigh
      refine ⟨v₃, accesses.map (fun k => ⟨l, r, k⟩) ++ low ++ high, ⟨hmoved, hsorted, ?_⟩, ?_⟩
      · intro a ha
        rw [List.mem_append, List.mem_append, List.mem_map] at ha
        rcases ha with (⟨k, hk, rfl⟩ | ha) | ha
        · exact ⟨le_refl l, (hinside k hk).1, (hinside k hk).2, le_refl r⟩
        · have hbounds := hlow.inside a ha
          omega
        · have hbounds := hhigh.inside a ha
          omega
      · intro fuel hfuel
        obtain ⟨fuel, rfl⟩ := fuel_succ hfuel
        have hlowRun := hlowRun fuel (by omega)
        have hhighRun := hhighRun fuel (by omega)
        rw [SortsPart] at hlowRun hhighRun
        simp only [qsortVictims, hpartition fuel (by omega), hlowRun, hhighRun,
          Option.bind_eq_bind, Option.bind_some, Option.pure_def]

end Sorting

section Nearest

variable {sqrt : Int → δ} {topoAll : Nat → Topology} {ranks me : Nat}

theorem vsinit_nearest (hme : me < ranks) (hranks : 2 ≤ ranks)
    (hvalid : ∀ q < ranks, (topoAll q).valid = true) (v : Victims δ) :
    ∃ v', (∀ fuel, 2 * ranks + 3 < fuel → vsinit sqrt topoAll ranks me fuel v = some v') ∧
      ((Int.range 0 (ranks - 1)).map fun k => (v' k).rank).Perm ((List.range ranks).erase me) ∧
      (∀ k : Int, 0 ≤ k → k ≤ ranks - 2 → Measured sqrt topoAll me (v' k)) ∧
      Sorted 0 (ranks - 2) v' := by
  obtain ⟨w, hfill, hrank, hmeasured⟩ := fill_spec hme hvalid v
  have hsort : ∃ v' accesses, Sorts 0 (ranks - 2) w v' accesses ∧
      ∀ fuel, 2 * ranks + 3 < fuel →
        (if 2 < ranks then (qsortVictims fuel w 0 (ranks - 2)).map (·.1) else some w) =
          some v' := by
    by_cases h : 2 < ranks
    · obtain ⟨v', accesses, hsorts, hrun⟩ :=
        qsortVictims_sorts w (le_refl 0) (r := ranks - 2) (by omega)
      refine ⟨v', accesses, hsorts, ?_⟩
      intro fuel hfuel
      rw [if_pos h, hrun fuel (by omega), Option.map_some]
    · refine ⟨w, [], ⟨refl _ _ w, .of_short (by omega), by simp⟩, ?_⟩
      intro fuel _
      rw [if_neg h]
  obtain ⟨v', accesses, hsorts, hrun⟩ := hsort
  refine ⟨v', ?_, ?_, hsorts.moved.forall_inside hmeasured, hsorts.sorted⟩
  · intro fuel hfuel
    rw [vsinit, hfill, Option.bind_eq_bind, Option.bind_some, hrun fuel hfuel]
  · have hperm := (hsorts.moved.perm).map VictimInfo.rank
    rw [List.map_map, List.map_map, show (ranks : Int) - 2 + 1 = ranks - 1 by omega] at hperm
    rw [← hrank]
    exact hperm

end Nearest

/-- qsort_victims ends and sorts its segment, partition never leaves the one it
is called for, and vsinit puts all other places in the order of their distance. -/
theorem victims_sorted (sqrt : Int → δ) :
    (∀ (v : Victims δ) (left right : Int), 0 ≤ left → left ≤ right →
      ∃ v' accesses,
        (∀ fuel, 2 * (right - left).toNat + 3 < fuel →
          qsortVictims fuel v left right = some (v', accesses)) ∧
        (∀ a ∈ accesses,
          left ≤ a.left ∧ a.left ≤ a.index ∧ a.index ≤ a.right ∧ a.right ≤ right) ∧
        (∀ k, k < left ∨ right < k → v' k = v k) ∧
        ((Int.range left (right + 1)).map v').Perm ((Int.range left (right + 1)).map v) ∧
        Sorted left right v') ∧
    ∀ (topoAll : Nat → Topology) (ranks me : Nat) (v : Victims δ), 2 ≤ ranks → me < ranks →
      (∀ q < ranks, (topoAll q).valid = true) →
      ∃ v', (∀ fuel, 2 * ranks + 3 < fuel → vsinit sqrt topoAll ranks me fuel v = some v') ∧
        ((Int.range 0 (ranks - 1)).map fun k => (v' k).rank).Perm ((List.range ranks).erase me) ∧
        (∀ k : Int, 0 ≤ k → k ≤ ranks - 2 → Measured sqrt topoAll me (v' k)) ∧
        Sorted 0 (ranks - 2) v' := by
  constructor
  · intro v left right hpos hle
    obtain ⟨v', accesses, hsorts, hrun⟩ := qsortVictims_sorts v hpos hle
    exact ⟨v', accesses, hrun, hsorts.inside, fun k hk => hsorts.moved.outside hk,
      hsorts.moved.perm, hsorts.sorted⟩
  · intro topoAll ranks me v hranks hme hvalid
    exact vsinit_nearest hme hranks hvalid v

theorem victims_sorted_line :
    (∃ v' accesses, qsortVictims 10 (fun k => ⟨5 - k, k.toNat⟩) 0 3 = some (v', accesses) ∧
      Sorted (δ := Int) 0 3 v') ∧
    ∃ v' : Victims Int, vsinit id (fun q => ⟨q, 0, 0, 0, 0⟩) 4 2 12 (fun _ => ⟨0, 0⟩) = some v' ∧
      Sorted 0 2 v' := by
  obtain ⟨hqsort, hvsinit⟩ := victims_sorted (δ := Int) id
  constructor
  · obtain ⟨v', accesses, hrun, _, _, _, hsorted⟩ :=
      hqsort (fun k => ⟨5 - k, k.toNat⟩) 0 3 (by decide) (by decide)
    exact ⟨v', accesses, hrun 10 (by decide), hsorted⟩
  · obtain ⟨v', hrun, _, _, hsorted⟩ :=
      hvsinit (fun q => ⟨q, 0, 0, 0, 0⟩) 4 2 (fun _ => ⟨0, 0⟩) (by decide) (by decide) (by
        intro q _
        simp [Topology.valid])
    exact ⟨v', hrun 12 (by decide), hsorted⟩

end HabaneroUpc.VictimSort
