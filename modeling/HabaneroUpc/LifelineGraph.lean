import HabaneroUpc.DistWs
import HabaneroUpc.Lib.Circulant
import Mathlib.Analysis.Complex.ExponentialBounds
import Mathlib.Data.Nat.Log
import Mathlib.Tactic.IntervalCases

namespace HabaneroUpc.LifelineGraph

open Circulant

variable {n : Nat}

/-- upperBound of search_for_lifelines(true): the natural logarithm, truncated. -/
noncomputable def logRanks (n : Nat) : Nat := ⌊Real.log n⌋₊

def Lifeline (c : Config n) (me v : Fin n) : Prop :=
  ∃ i < c.logRanks, ∀ ch, v = lifelineVictim c me ch i

/-- Work that a place holds spreads to all: the lifelines of a place go to
distinct other places, and all places are connected in few hops. -/
structure Spreads (c : Config n) : Prop where
  distinct : ∀ me ch i j, i < j → j < c.logRanks → lifelineVictim c me ch i ≠ lifelineVictim c me ch j
  other : ∀ me ch i, i < c.logRanks → lifelineVictim c me ch i ≠ me
  connected : ∀ a b, Relation.ReflTransGen (Lifeline c) a b
  diameter : ∀ a b, ∃ h ≤ Nat.clog 2 n, Hops (Lifeline c) h a b

def Power (k j : Nat) : Prop := ∃ i < k, j = 2 ^ i

theorem lifelineVictim_val {c : Config n} (hlife : c.lifelines = true) (me : Fin n) (ch : Choice n)
    (i : Nat) : (lifelineVictim c me ch i).val = (2 ^ i + me.val) % n := by
  simp [lifelineVictim, hlife]

theorem lifeline_eq {c : Config n} (hlife : c.lifelines = true) :
    Lifeline c = Jump n (Power c.logRanks) := by
  funext me v
  apply propext
  constructor
  · rintro ⟨i, hi, hv⟩
    refine ⟨2 ^ i, ⟨i, hi, rfl⟩, ?_⟩
    rw [hv ⟨me, none⟩, lifelineVictim_val hlife]
  · rintro ⟨_, ⟨i, hi, rfl⟩, hv⟩
    refine ⟨i, hi, fun ch => Fin.ext ?_⟩
    rw [hv, lifelineVictim_val hlife]

theorem exp_pow_le (hn : n ≠ 0) : 2718 ^ logRanks n ≤ n * 1000 ^ logRanks n := by
  have hpos : (0 : ℝ) < n := by positivity
  have hlog : (logRanks n : ℝ) ≤ Real.log n := Nat.floor_le (Real.log_natCast_nonneg n)
  have hexp : Real.exp 1 ^ logRanks n ≤ n := by
    rw [← Real.exp_nat_mul, mul_one]
    exact (Real.le_log_iff_exp_le hpos).mp hlog
  have he : (2718 / 1000 : ℝ) ≤ Real.exp 1 := by
    have hgt := Real.exp_one_gt_d9
    linarith
  have hpow : (2718 / 1000 : ℝ) ^ logRanks n ≤ n := (pow_le_pow_left₀ (by norm_num) he _).trans hexp
  rw [div_pow, div_le_iff₀ (by positivity)] at hpow
  exact_mod_cast hpow

theorem le_logRanks {k : Nat} (hn : n ≠ 0) (h : 2719 ^ k ≤ n * 1000 ^ k) : k ≤ logRanks n := by
  have hpos : (0 : ℝ) < n := by positivity
  have he : Real.exp 1 ≤ (2719 / 1000 : ℝ) := by
    have hlt := Real.exp_one_lt_d9
    linarith
  have hpow : (2719 / 1000 : ℝ) ^ k ≤ n := by
    rw [div_pow, div_le_iff₀ (by positivity)]
    exact_mod_cast h
  apply Nat.le_floor
  rw [Real.le_log_iff_exp_le hpos, ← mul_one (k : ℝ), Real.exp_nat_mul]
  exact (pow_le_pow_left₀ (Real.exp_pos 1).le he k).trans hpow

theorem two_pow_le {k : Nat} (hexp : 2718 ^ k ≤ n * 1000 ^ k) : 2 ^ k ≤ n := by
  have hle : 2000 ^ k ≤ 2718 ^ k := Nat.pow_le_pow_left (by norm_num) _
  rw [show 2000 = 2 * 1000 by norm_num, Nat.mul_pow] at hle
  exact Nat.le_of_mul_le_mul_right (hle.trans hexp) (by positivity)

theorem power_lt {i : Nat} (hn : n ≠ 0) (hi : i < logRanks n) : 2 ^ i < n :=
  (Nat.pow_lt_pow_right (by norm_num) hi).trans_le (two_pow_le (exp_pow_le hn))

theorem pow_grows {k : Nat} (hk : 10 ≤ k) : 2 * k * 1000 ^ k < 1359 ^ k := by
  induction k, hk using Nat.le_induction with
  | base => norm_num
  | succ k hk ih =>
      have hpos : 0 < 1000 ^ k := by positivity
      rw [pow_succ, pow_succ]
      nlinarith

/-- k dimensions reach half of 2 ^ k places in a hop, which is too little for
all the distances among e ^ k places in a number of hops logarithmic in them. -/
theorem few_places {k m : Nat} (hk : 1 ≤ k) (hexp : 2718 ^ k ≤ n * 1000 ^ k) (hlow : 2 ^ (m - 1) < n)
    (hup : n ≤ 2 ^ m) (hdistance : n - 1 ≤ m * 2 ^ (k - 1)) : n = 3 ∨ n = 9 ∨ n = 21 ∧ k = 3 := by
  have hkm : k ≤ m :=
    (Nat.pow_le_pow_iff_right (by norm_num)).mp ((two_pow_le hexp).trans hup)
  obtain ⟨j, rfl⟩ := Nat.exists_eq_add_of_le hkm
  have hj : 2 ^ j ≤ k + j := by
    have hle : 2 ^ (k + j - 1) ≤ (k + j) * 2 ^ (k - 1) := by omega
    rw [show k + j - 1 = j + (k - 1) by omega, Nat.pow_add] at hle
    exact Nat.le_of_mul_le_mul_right hle (by positivity)
  have hjk : j ≤ k := by
    cases j with
    | zero => omega
    | succ j =>
        have hlt := Nat.lt_two_pow_self (n := j)
        rw [pow_succ] at hj
        omega
  have hk9 : k < 10 := by
    by_contra hge
    have hgrows := pow_grows (Nat.le_of_not_lt hge)
    have htwo : 2 ^ k * 1359 ^ k ≤ 2 ^ k * (2 ^ j * 1000 ^ k) := by
      rw [← Nat.mul_pow, ← Nat.mul_assoc, ← Nat.pow_add]
      exact hexp.trans (Nat.mul_le_mul_right _ hup)
    have hle := Nat.le_of_mul_le_mul_left htwo (by positivity)
    have hmore : 2 ^ j * 1000 ^ k ≤ 2 * k * 1000 ^ k := Nat.mul_le_mul_right _ (by omega)
    omega
  have hj3 : j ≤ 3 := by
    by_contra hge
    have hpow : 2 ^ j = 2 ^ (j - 4) * 2 ^ 4 := by
      rw [← Nat.pow_add, Nat.sub_add_cancel (by omega)]
    have hlt := Nat.lt_two_pow_self (n := j - 4)
    omega
  interval_cases k <;> interval_cases j <;> norm_num at hexp hlow hup hdistance hj <;> omega

theorem power_le {k j : Nat} (h : Power k j) : j ≤ 2 ^ (k - 1) := by
  obtain ⟨i, hi, rfl⟩ := h
  exact Nat.pow_le_pow_right (by norm_num) (by omega)

/-- Jumps of 1, 2 and 4 either are all 4 or fall short of that by 2. -/
theorem sum_power_three (js : List Nat) (h : ∀ j ∈ js, Power 3 j) :
    js.sum = 4 * js.length ∨ js.sum + 2 ≤ 4 * js.length := by
  induction js with
  | nil => exact .inl rfl
  | cons j js ih =>
      obtain ⟨⟨i, hi, rfl⟩, hjs⟩ := List.forall_mem_cons.mp h
      have ih := ih hjs
      simp only [List.sum_cons, List.length_cons]
      interval_cases i <;> norm_num <;> omega

theorem far_of_twenty_one {h : Nat} {a b : Fin 21} (ha : a.val = 0) (hb : b.val = 19) (hle : h ≤ 5) :
    ¬Hops (Jump 21 (Power 3)) h a b := by
  intro hw
  obtain ⟨js, rfl, hjs, hjump⟩ := hops_iff.mp hw
  have hsum := sum_power_three js hjs
  omega

theorem distinct_lifelines {c : Config n} (hlife : c.lifelines = true) (hlog : c.logRanks = logRanks n)
    (hn : n ≠ 0) (me : Fin n) (ch : Choice n) (i j : Nat) (hij : i < j) (hj : j < c.logRanks) :
    lifelineVictim c me ch i ≠ lifelineVictim c me ch j := by
  intro heq
  have hlt := power_lt hn (hlog ▸ hj)
  have hpow : 2 ^ i < 2 ^ j := Nat.pow_lt_pow_right (by norm_num) hij
  have hval := congrArg Fin.val heq
  rw [lifelineVictim_val hlife, lifelineVictim_val hlife] at hval
  have hmod := Nat.ModEq.add_right_cancel' me.val hval
  rw [Nat.ModEq, Nat.mod_eq_of_lt hlt, Nat.mod_eq_of_lt (hpow.trans hlt)] at hmod
  omega

theorem lifeline_other {c : Config n} (hlife : c.lifelines = true) (hlog : c.logRanks = logRanks n)
    (hn : n ≠ 0) (me : Fin n) (ch : Choice n) (i : Nat) (hi : i < c.logRanks) :
    lifelineVictim c me ch i ≠ me := by
  intro heq
  have hlt := power_lt hn (hlog ▸ hi)
  have hval := congrArg Fin.val heq
  rw [lifelineVictim_val hlife] at hval
  have hmod : 2 ^ i + me.val ≡ 0 + me.val [MOD n] := by
    rw [Nat.ModEq, hval, Nat.zero_add, Nat.mod_eq_of_lt me.isLt]
  have hzero := Nat.ModEq.add_right_cancel' me.val hmod
  rw [Nat.ModEq, Nat.mod_eq_of_lt hlt, Nat.zero_mod] at hzero
  exact absurd hzero (by positivity)

theorem connected_of_dimension {k : Nat} (hk : 1 ≤ k) (a b : Fin n) :
    Relation.ReflTransGen (Jump n (Power k)) a b := by
  obtain ⟨d, -, hw⟩ := hops_of_one (S := Power k) ⟨0, hk, rfl⟩ a b
  exact hw.reaches

theorem places_of_spreads {c : Config n} (hlife : c.lifelines = true) (hlog : c.logRanks = logRanks n)
    (hn : 2 ≤ n) (hspreads : Spreads c) : n = 3 ∨ n = 9 := by
  have hdistance : n - 1 ≤ Nat.clog 2 n * 2 ^ (logRanks n - 1) := by
    obtain ⟨h, hh, hw⟩ := hspreads.diameter ⟨0, by omega⟩ ⟨n - 1, by omega⟩
    rw [lifeline_eq hlife, hlog] at hw
    have hle := hw.distance_le (fun _ => power_le) (Nat.zero_le _)
    exact hle.trans (Nat.mul_le_mul_right _ hh)
  have hpos : 1 ≤ logRanks n := by
    by_contra hzero
    obtain ⟨h, -, hw⟩ := hspreads.diameter ⟨0, by omega⟩ ⟨1, by omega⟩
    rw [lifeline_eq hlife, hlog, Nat.lt_one_iff.mp (Nat.lt_of_not_le hzero)] at hw
    have hnone (j : Nat) (hj : Power 0 j) : j ≤ 0 := absurd hj.choose_spec.1 (Nat.not_lt_zero _)
    have hle : 1 - 0 ≤ h * 0 := hw.distance_le hnone (Nat.zero_le _)
    omega
  rcases few_places hpos (exp_pow_le (by omega)) (Nat.pow_pred_clog_lt_self (by norm_num) hn)
    (Nat.le_pow_clog (by norm_num) n) hdistance with h | h | ⟨rfl, hthree⟩
  · exact .inl h
  · exact .inr h
  · obtain ⟨h, hh, hw⟩ := hspreads.diameter ⟨0, by norm_num⟩ ⟨19, by norm_num⟩
    have hclog : Nat.clog 2 21 ≤ 5 := Nat.clog_le_of_le_pow (by norm_num)
    rw [lifeline_eq hlife, hlog, hthree] at hw
    exact absurd hw (far_of_twenty_one rfl rfl (hh.trans hclog))

theorem spreads_three {c : Config 3} (hlife : c.lifelines = true) (hlog : c.logRanks = logRanks 3) :
    Spreads c := by
  have hone : 1 ≤ c.logRanks := hlog ▸ le_logRanks (by norm_num) (by norm_num)
  have hclog : 2 ≤ Nat.clog 2 3 := (Nat.lt_clog_iff_pow_lt (by norm_num)).mpr (by norm_num)
  refine ⟨distinct_lifelines hlife hlog (by norm_num), lifeline_other hlife hlog (by norm_num), ?_, ?_⟩
  · rw [lifeline_eq hlife]
    exact connected_of_dimension hone
  · intro a b
    obtain ⟨d, hd, hw⟩ := hops_of_one (S := Power c.logRanks) ⟨0, hone, rfl⟩ a b
    rw [lifeline_eq hlife]
    exact ⟨d, by omega, hw⟩

theorem spreads_nine {c : Config 9} (hlife : c.lifelines = true) (hlog : c.logRanks = logRanks 9) :
    Spreads c := by
  have htwo : 2 ≤ c.logRanks := hlog ▸ le_logRanks (by norm_num) (by norm_num)
  have hclog : 4 ≤ Nat.clog 2 9 := (Nat.lt_clog_iff_pow_lt (by norm_num)).mpr (by norm_num)
  refine ⟨distinct_lifelines hlife hlog (by norm_num), lifeline_other hlife hlog (by norm_num), ?_, ?_⟩
  · rw [lifeline_eq hlife]
    exact connected_of_dimension (by omega)
  · intro a b
    obtain ⟨d, hd, hw⟩ := hops_of_two (S := Power c.logRanks) ⟨0, by omega, rfl⟩ ⟨1, htwo, rfl⟩ a b
    rw [lifeline_eq hlife]
    exact ⟨d, by omega, hw⟩

/-- The natural logarithm gives too few dimensions for all other numbers of places. -/
theorem lifelines_spread_iff (c : Config n) (hlife : c.lifelines = true) (hlog : c.logRanks = logRanks n)
    (hn : 2 ≤ n) : Spreads c ↔ n = 3 ∨ n = 9 := by
  constructor
  · exact places_of_spreads hlife hlog hn
  · rintro (rfl | rfl)
    · exact spreads_three hlife hlog
    · exact spreads_nine hlife hlog

theorem logRanks_two : logRanks 2 = 0 := by
  rw [logRanks, Nat.floor_eq_zero, Nat.cast_two]
  have hlt := Real.log_two_lt_d9
  linarith

theorem lifelines_connected_iff {c : Config n} (hlife : c.lifelines = true)
    (hlog : c.logRanks = logRanks n) (hn : 2 ≤ n) :
    (∀ a b, Relation.ReflTransGen (Lifeline c) a b) ↔ 3 ≤ n := by
  rw [lifeline_eq hlife, hlog]
  constructor
  · intro hconnected
    by_contra hlt
    obtain rfl : n = 2 := by omega
    rw [logRanks_two] at hconnected
    rcases (hconnected 0 1).cases_head with h | ⟨v, ⟨j, ⟨i, hi, -⟩, -⟩, -⟩
    · exact absurd h (by decide)
    · exact absurd hi (Nat.not_lt_zero i)
  · intro h
    exact connected_of_dimension (le_logRanks (by omega) (by omega))

theorem lifelines_spread_three :
    ∃ c : Config 3, c.lifelines = true ∧ c.logRanks = logRanks 3 ∧ Spreads c := by
  obtain ⟨c, hlife, hlog⟩ : ∃ c : Config 3, c.lifelines = true ∧ c.logRanks = logRanks 3 :=
    ⟨⟨.glb, false, true, fun _ => 1, 1, fun _ => 1, logRanks 3, fun _ => Nat.one_pos, by norm_num⟩,
      rfl, rfl⟩
  exact ⟨c, hlife, hlog, (lifelines_spread_iff c hlife hlog (by norm_num)).mpr (.inl rfl)⟩

-- Two places have no lifelines, and neither can be reached from the other.
theorem two_places_unconnected :
    ∃ c : Config 2, c.lifelines = true ∧ c.logRanks = logRanks 2 ∧ ¬Spreads c := by
  obtain ⟨c, hlife, hlog⟩ : ∃ c : Config 2, c.lifelines = true ∧ c.logRanks = logRanks 2 :=
    ⟨⟨.glb, false, true, fun _ => 1, 1, fun _ => 1, logRanks 2, fun _ => Nat.one_pos, by norm_num⟩,
      rfl, rfl⟩
  refine ⟨c, hlife, hlog, fun hspreads => ?_⟩
  have hplaces := (lifelines_connected_iff hlife hlog (by norm_num)).mp hspreads.connected
  omega

end HabaneroUpc.LifelineGraph
