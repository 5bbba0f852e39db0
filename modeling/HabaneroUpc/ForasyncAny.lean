import HabaneroUpc.Lib.TaskPool
import Mathlib.Algebra.Order.Ring.Int

namespace HabaneroUpc.ForasyncAny

open TaskPool

/-- The values of a C++ int. An operation whose result is none of them has
undefined behaviour. -/
def inInt (x : Int) : Bool := -2 ^ 31 ≤ x ∧ x < 2 ^ 31

theorem inInt_iff {x : Int} : inInt x = true ↔ -2147483648 ≤ x ∧ x < 2147483648 := by
  simp [inInt]

structure LoopDomain where
  low : Int
  high : Int
  stride : Int
  tile : Int
  stride_pos : 1 ≤ stride
  tile_pos : 1 ≤ tile

namespace LoopDomain

variable (ld : LoopDomain)

def mid : Int := (ld.high + ld.low).tdiv 2

def lower : LoopDomain := { ld with high := ld.mid }

def upper : LoopDomain := { ld with low := ld.mid }

def splits : Prop := ld.tile < ld.high - ld.low

instance : Decidable ld.splits := inferInstanceAs (Decidable (_ < _))

theorem mid_bounds : ld.high + ld.low ≤ 2 * ld.mid + 1 ∧ 2 * ld.mid ≤ ld.high + ld.low + 1 := by
  have h := Int.mul_tdiv_add_tmod (ld.high + ld.low) 2
  have hlt := Int.tmod_lt_of_pos (ld.high + ld.low) (b := 2) (by decide)
  have hgt := Int.lt_tmod_of_pos (ld.high + ld.low) (b := 2) (by decide)
  simp only [mid]
  omega

variable {ld}

theorem mid_strict (h : ld.splits) : ld.low < ld.mid ∧ ld.mid < ld.high := by
  have hmid := ld.mid_bounds
  have htile := ld.tile_pos
  simp only [splits] at h
  omega

end LoopDomain

/-- A task that is about to call forasyncAny1D_recursive, or in the loop of
forasyncAny1D_runner. -/
inductive Task
  | recursive (loop : LoopDomain)
  | runner (i : Int) (loop0 : LoopDomain)

/-- forasyncAny1D_recursive, up to its next call, and one iteration of the loop
of forasyncAny1D_runner: the tasks that go on, and the index passed to lambda.
No result is undefined behaviour. -/
def run : Task → Option (List Task × List Int)
  | .recursive loop =>
      if inInt (loop.high - loop.low) then
        if loop.splits then
          if inInt (loop.high + loop.low) then
            some ([.recursive loop.upper, .recursive loop.lower], [])
          else none
        else some ([.runner loop.low loop], [])
      else none
  | .runner i loop0 =>
      if i < loop0.high then
        if inInt (i + loop0.stride) then some ([.runner (i + loop0.stride) loop0], [i]) else none
      else some ([], [])

def forasyncAny1D (ι : Type*) (loop : LoopDomain) : Pool ι Task Int := ⟨{.recursive loop}, 0⟩

def plainFrom (ld : LoopDomain) (i : Int) : Option (List Int) :=
  if i < ld.high then
    if inInt (i + ld.stride) then (plainFrom ld (i + ld.stride)).map (i :: ·) else none
  else some []
termination_by (ld.high - i).toNat
decreasing_by
  have h := ld.stride_pos
  omega

def plainLoop (ld : LoopDomain) : Option (List Int) := plainFrom ld ld.low

def indices (ld : LoopDomain) (i : Int) : List Int :=
  if i < ld.high then i :: indices ld (i + ld.stride) else []
termination_by (ld.high - i).toNat
decreasing_by
  have h := ld.stride_pos
  omega

section

variable {ld : LoopDomain} {i : Int}

theorem plainFrom_of_lt (h : i < ld.high) (hint : inInt (i + ld.stride) = true) :
    plainFrom ld i = (plainFrom ld (i + ld.stride)).map (i :: ·) := by
  rw [plainFrom, if_pos h, if_pos hint]

theorem plainFrom_overflow (h : i < ld.high) (hint : ¬inInt (i + ld.stride) = true) :
    plainFrom ld i = none := by
  rw [plainFrom, if_pos h, if_neg hint]

theorem plainFrom_of_le (h : ¬i < ld.high) : plainFrom ld i = some [] := by
  rw [plainFrom, if_neg h]

theorem indices_of_lt (h : i < ld.high) : indices ld i = i :: indices ld (i + ld.stride) := by
  rw [indices, if_pos h]

theorem indices_of_le (h : ¬i < ld.high) : indices ld i = [] := by
  rw [indices, if_neg h]

end

theorem mem_indices (ld : LoopDomain) (i x : Int) :
    x ∈ indices ld i ↔ i ≤ x ∧ x < ld.high ∧ ld.stride ∣ x - i := by
  induction i using indices.induct ld with
  | case1 i hi ih =>
      have hpos := ld.stride_pos
      rw [indices_of_lt hi, List.mem_cons, ih]
      constructor
      · rintro (rfl | ⟨hle, hlt, hdvd⟩)
        · exact ⟨le_refl _, hi, by simp⟩
        · refine ⟨by omega, hlt, ?_⟩
          have hsum := Int.dvd_add hdvd (Int.dvd_refl ld.stride)
          rwa [show x - (i + ld.stride) + ld.stride = x - i by omega] at hsum
      · rintro ⟨hle, hlt, hdvd⟩
        rcases Int.lt_or_eq_of_le hle with h | rfl
        · have hstep := Int.le_of_dvd (by omega) hdvd
          refine .inr ⟨by omega, hlt, ?_⟩
          have hdiff := Int.dvd_sub hdvd (Int.dvd_refl ld.stride)
          rwa [show x - i - ld.stride = x - (i + ld.stride) by omega] at hdiff
        · exact .inl rfl
  | case2 i hi =>
      rw [indices_of_le hi]
      simp only [List.not_mem_nil, false_iff]
      omega

theorem plainFrom_eq_some (ld : LoopDomain) (i : Int) (l : List Int) :
    plainFrom ld i = some l ↔ l = indices ld i ∧ ∀ x ∈ indices ld i, inInt (x + ld.stride) = true := by
  induction i using indices.induct ld generalizing l with
  | case1 i hi ih =>
      rw [indices_of_lt hi]
      by_cases hint : inInt (i + ld.stride) = true
      · simp only [plainFrom_of_lt hi hint, Option.map_eq_some_iff, ih, List.forall_mem_cons, hint,
          true_and]
        constructor
        · rintro ⟨_, ⟨rfl, hall⟩, rfl⟩
          exact ⟨rfl, hall⟩
        · rintro ⟨rfl, hall⟩
          exact ⟨_, ⟨rfl, hall⟩, rfl⟩
      · rw [plainFrom_overflow hi hint]
        constructor
        · intro h
          cases h
        · intro h
          exact absurd (h.2 i List.mem_cons_self) hint
  | case2 i hi =>
      rw [plainFrom_of_le hi, indices_of_le hi, Option.some.injEq]
      exact ⟨fun h => ⟨h.symm, fun x hx => absurd hx List.not_mem_nil⟩, fun h => h.1.symm⟩

theorem indices_upper (ld : LoopDomain) (i : Int) : indices ld.upper i = indices ld i := by
  induction i using indices.induct ld with
  | case1 i hi ih =>
      rw [indices_of_lt hi, @indices_of_lt ld.upper i hi]
      exact congrArg (i :: ·) ih
  | case2 i hi => rw [indices_of_le hi, @indices_of_le ld.upper i hi]

/-- Halving loses and repeats nothing if the midpoint is on the grid. -/
theorem indices_split {ld : LoopDomain} (h : ld.splits) (i : Int) (hi : i ≤ ld.mid)
    (hdvd : ld.stride ∣ ld.mid - i) :
    indices ld.lower i ++ indices ld.upper ld.mid = indices ld i := by
  have hmid := (LoopDomain.mid_strict h).2
  have hpos := ld.stride_pos
  induction i using indices.induct ld with
  | case1 i hlt ih =>
      rcases Int.lt_or_eq_of_le hi with hi | rfl
      · have hstep := Int.le_of_dvd (by omega) hdvd
        have hdiff := Int.dvd_sub hdvd (Int.dvd_refl ld.stride)
        rw [show ld.mid - i - ld.stride = ld.mid - (i + ld.stride) by omega] at hdiff
        rw [indices_of_lt hlt, indices_of_lt (show i < ld.lower.high from hi), List.cons_append]
        exact congrArg (i :: ·) (ih (by omega) hdiff)
      · have hended : indices ld.lower ld.mid = [] := indices_of_le (Int.lt_irrefl _)
        rw [hended, List.nil_append, indices_upper]
  | case2 i hge => omega

theorem nodup_indices (ld : LoopDomain) (i : Int) : (indices ld i).Nodup := by
  induction i using indices.induct ld with
  | case1 i hi ih =>
      have hpos := ld.stride_pos
      rw [indices_of_lt hi, List.nodup_cons, mem_indices]
      exact ⟨by omega, ih⟩
  | case2 i hi =>
      rw [indices_of_le hi]
      exact List.nodup_nil

inductive Halving (ld : LoopDomain) : LoopDomain → Prop
  | root : Halving ld ld
  | lower {r} (h : Halving ld r) (hs : r.splits) : Halving ld r.lower
  | upper {r} (h : Halving ld r) (hs : r.splits) : Halving ld r.upper

namespace Halving

variable {ld r r' : LoopDomain}

theorem trans (h : Halving ld r) (h' : Halving r r') : Halving ld r' := by
  induction h' with
  | root => exact h
  | lower _ hs ih => exact .lower ih hs
  | upper _ hs ih => exact .upper ih hs

theorem stride (h : Halving ld r) : r.stride = ld.stride := by
  induction h with
  | root => rfl
  | lower _ _ ih => exact ih
  | upper _ _ ih => exact ih

/-- The root or a range that is not empty, inside the root. -/
theorem inside (h : Halving ld r) : r = ld ∨ ld.low ≤ r.low ∧ r.low < r.high ∧ r.high ≤ ld.high := by
  induction h with
  | root => exact .inl rfl
  | @lower r _ hs ih =>
      have hmid := LoopDomain.mid_strict hs
      refine .inr ?_
      simp only [LoopDomain.lower]
      rcases ih with rfl | ih <;> omega
  | @upper r _ hs ih =>
      have hmid := LoopDomain.mid_strict hs
      refine .inr ?_
      simp only [LoopDomain.upper]
      rcases ih with rfl | ih <;> omega

end Halving

def executes (ld : LoopDomain) : Multiset Int :=
  if ld.splits then executes ld.upper + executes ld.lower else indices ld ld.low
termination_by (ld.high - ld.low).toNat
decreasing_by
  all_goals
    have h := LoopDomain.mid_strict ‹_›
    simp only [LoopDomain.upper, LoopDomain.lower]
    omega

theorem executes_of_splits {ld : LoopDomain} (h : ld.splits) :
    executes ld = executes ld.upper + executes ld.lower := by
  rw [executes, if_pos h]

theorem executes_tile {ld : LoopDomain} (h : ¬ld.splits) : executes ld = indices ld ld.low := by
  rw [executes, if_neg h]

def Task.executes : Task → Multiset Int
  | .recursive loop => ForasyncAny.executes loop
  | .runner i loop0 => indices loop0 i

theorem run_executes (t : Task) (spawned : List Task) (out : List Int)
    (h : run t = some (spawned, out)) :
    (spawned.map Task.executes).sum + (out : Multiset Int) = t.executes := by
  cases t with
  | recursive loop =>
      simp only [run] at h
      split at h
      · by_cases hs : loop.splits
        · rw [if_pos hs] at h
          split at h <;> cases h
          simp [Task.executes, executes_of_splits hs]
        · rw [if_neg hs] at h
          cases h
          simp [Task.executes, executes_tile hs]
      · cases h
  | runner i loop0 =>
      simp only [run] at h
      split at h
      · split at h <;> cases h
        simp [Task.executes, indices_of_lt ‹i < loop0.high›, add_comm, Multiset.singleton_add]
      · cases h
        simp [Task.executes, indices_of_le ‹¬i < loop0.high›]

def Task.steps : Task → Nat
  | .recursive loop => max 2 (4 * (loop.high - loop.low).toNat - 1)
  | .runner i loop0 => (loop0.high - i).toNat + 1

theorem run_steps (t : Task) (spawned : List Task) (out : List Int)
    (h : run t = some (spawned, out)) : (spawned.map Task.steps).sum + 1 ≤ t.steps := by
  cases t with
  | recursive loop =>
      have htile := loop.tile_pos
      simp only [run] at h
      split at h
      · by_cases hs : loop.splits
        · have hmid := LoopDomain.mid_strict hs
          rw [if_pos hs] at h
          split at h <;> cases h
          simp only [Task.steps, LoopDomain.upper, LoopDomain.lower, List.map_cons, List.map_nil,
            List.sum_cons, List.sum_nil]
          omega
        · rw [if_neg hs] at h
          cases h
          simp only [Task.steps, List.map_cons, List.map_nil, List.sum_cons, List.sum_nil]
          omega
      · cases h
  | runner i loop0 =>
      have hstride := loop0.stride_pos
      simp only [run] at h
      split at h
      · split at h <;> cases h
        simp only [Task.steps, List.map_cons, List.map_nil, List.sum_cons, List.sum_nil]
        omega
      · cases h
        simp [Task.steps]

/-- A range that is not empty executes at least its first index. -/
theorem low_mem_executes (ld : LoopDomain) (h : ld.low < ld.high) : ld.low ∈ executes ld := by
  induction ld using executes.induct with
  | case1 ld hs _ ih =>
      rw [executes_of_splits hs]
      exact Multiset.mem_add.mpr (.inr (ih (LoopDomain.mid_strict hs).1))
  | case2 ld hs =>
      rw [executes_tile hs]
      exact (mem_indices ld _ _).mpr ⟨le_refl _, h, by simp⟩

theorem executes_sub {ld r : LoopDomain} (h : Halving ld r) {x : Int} (hx : x ∈ executes r) :
    x ∈ executes ld := by
  induction h with
  | root => exact hx
  | lower _ hs ih =>
      apply ih
      rw [executes_of_splits hs]
      exact Multiset.mem_add.mpr (.inr hx)
  | upper _ hs ih =>
      apply ih
      rw [executes_of_splits hs]
      exact Multiset.mem_add.mpr (.inl hx)

/-- Every range that is halved has its midpoint on the grid of its stride. -/
def OnGrid (ld : LoopDomain) : Prop :=
  ∀ r, Halving ld r → r.splits → r.stride ∣ r.mid - r.low

theorem executes_onGrid (ld : LoopDomain) (h : OnGrid ld) : executes ld = indices ld ld.low := by
  induction ld using executes.induct with
  | case1 ld hs ihu ihl =>
      have hlower : OnGrid ld.lower := fun r hr => h r ((Halving.root.lower hs).trans hr)
      have hupper : OnGrid ld.upper := fun r hr => h r ((Halving.root.upper hs).trans hr)
      have hmid := LoopDomain.mid_strict hs
      rw [executes_of_splits hs, ihu hupper, ihl hlower, add_comm, Multiset.coe_add]
      exact congrArg _ (indices_split hs ld.low (by omega) (h ld .root hs))
  | case2 ld hs => exact executes_tile hs

/-- The first index of a range and of its upper half are both executed, so that
they are indices of the plain loop only if they are a multiple of the stride apart. -/
theorem onGrid_of_executes {ld : LoopDomain} (h : executes ld = indices ld ld.low) : OnGrid ld := by
  intro r hr hs
  have hmid := LoopDomain.mid_strict hs
  have hgrid {x : Int} (hx : x ∈ executes r) : ld.stride ∣ x - ld.low := by
    have hroot := executes_sub hr hx
    rw [h] at hroot
    exact ((mem_indices ld _ _).mp hroot).2.2
  have hlow := hgrid (low_mem_executes r (by omega))
  have hupper := hgrid (executes_sub (.upper .root hs) (low_mem_executes r.upper hmid.2))
  have hdiff := Int.dvd_sub hupper hlow
  rw [hr.stride]
  rwa [show r.upper.low - ld.low - (r.low - ld.low) = r.mid - r.low by
    simp only [LoopDomain.upper]; omega] at hdiff

structure Preserves (n : Nat) (ld : LoopDomain) : Prop where
  defined : ∀ k Q, Runs run k (forasyncAny1D (Fin n) ld) Q → ∀ t ∈ Q.tasks, (run t).isSome
  terminates : ∃ bound, ∀ k Q, Runs run k (forasyncAny1D (Fin n) ld) Q → k ≤ bound
  executed : ∃ l, plainLoop ld = some l ∧ l.Nodup ∧
    ∀ k Q, Runs run k (forasyncAny1D (Fin n) ld) Q → Q.tasks = 0 → Q.done.map Prod.snd = l

/-- What the code relies on. Only the ranges that are halved matter, so that a
stride of 1 and a tile as long as the range meet the last condition. -/
structure Regular (ld : LoopDomain) : Prop where
  difference : inInt (ld.high - ld.low) = true
  sums : ∀ r, Halving ld r → r.splits → inInt (r.high + r.low) = true
  increments : ∀ i, ld.low ≤ i → i < ld.high → ld.stride ∣ i - ld.low → inInt (i + ld.stride) = true
  grid : OnGrid ld

theorem plainLoop_eq_some (ld : LoopDomain) (l : List Int) :
    plainLoop ld = some l ↔ l = indices ld ld.low ∧ ∀ i, ld.low ≤ i → i < ld.high →
      ld.stride ∣ i - ld.low → inInt (i + ld.stride) = true := by
  simp only [plainLoop, plainFrom_eq_some, mem_indices, and_imp]

variable {n k : Nat} {ld r : LoopDomain} {Q : Pool (Fin n) Task Int}

theorem executed_eq (h : Runs run k (forasyncAny1D (Fin n) ld) Q) (hQ : Q.tasks = 0) :
    Q.done.map Prod.snd = executes ld := by
  have hconserved := h.conserved run_executes
  simpa [hQ, forasyncAny1D, Task.executes] using hconserved

/-- In a job without undefined behaviour every range of the halving comes up. -/
theorem halving_run (hn : 0 < n)
    (hdefined : ∀ k Q, Runs run k (forasyncAny1D (Fin n) ld) Q → ∀ t ∈ Q.tasks, (run t).isSome)
    (h : Halving ld r) : ∃ k Q, Runs run k (forasyncAny1D (Fin n) ld) Q ∧ .recursive r ∈ Q.tasks := by
  have hsplit {r : LoopDomain} (hs : r.splits)
      (ih : ∃ k Q, Runs run k (forasyncAny1D (Fin n) ld) Q ∧ .recursive r ∈ Q.tasks) :
      ∃ k Q, Runs run k (forasyncAny1D (Fin n) ld) Q ∧
        .recursive r.upper ∈ Q.tasks ∧ .recursive r.lower ∈ Q.tasks := by
    obtain ⟨k, ⟨tasks, done⟩, hQ, hr⟩ := ih
    have hsome := hdefined k _ hQ _ hr
    obtain ⟨rest, rfl⟩ := Multiset.exists_cons_of_mem hr
    obtain ⟨⟨spawned, out⟩, hrun⟩ := Option.isSome_iff_exists.mp hsome
    refine ⟨k + 1, _, .step hQ (.step ⟨0, hn⟩ hrun), ?_⟩
    simp only [run, if_pos hs] at hrun
    split at hrun
    · split at hrun <;> cases hrun
      simp
    · cases hrun
  induction h with
  | root => exact ⟨0, _, .refl _, Multiset.mem_singleton_self _⟩
  | lower _ hs ih =>
      obtain ⟨k, Q, hQ, -, hlower⟩ := hsplit hs ih
      exact ⟨k, Q, hQ, hlower⟩
  | upper _ hs ih =>
      obtain ⟨k, Q, hQ, hupper, -⟩ := hsplit hs ih
      exact ⟨k, Q, hQ, hupper⟩

theorem regular_of_preserves (hn : 0 < n) (h : Preserves n ld) : Regular ld := by
  obtain ⟨l, hl, -, hexecuted⟩ := h.executed
  obtain ⟨rfl, hincrements⟩ := (plainLoop_eq_some ld _).mp hl
  have hdefined {r : LoopDomain} (hr : Halving ld r) : (run (.recursive r)).isSome := by
    obtain ⟨k, Q, hQ, hmem⟩ := halving_run hn h.defined hr
    exact h.defined k Q hQ _ hmem
  refine ⟨?_, ?_, hincrements, ?_⟩
  · have hroot := hdefined .root
    simp only [run] at hroot
    split at hroot
    · assumption
    · cases hroot
  · intro r hr hs
    have hsome := hdefined hr
    simp only [run, if_pos hs] at hsome
    split at hsome
    · split at hsome
      · assumption
      · cases hsome
    · cases hsome
  · have : Nonempty (Fin n) := ⟨⟨0, hn⟩⟩
    obtain ⟨k, Q, hQ, hended⟩ := Runs.completes run_steps h.defined
    apply onGrid_of_executes
    rw [← executed_eq hQ hended, hexecuted k Q hQ hended]

def Placed (ld : LoopDomain) : Task → Prop
  | .recursive r => Halving ld r ∧ ld.stride ∣ r.low - ld.low
  | .runner i r => Halving ld r ∧ ld.stride ∣ i - ld.low ∧ r.low ≤ i

theorem placed_run (hgrid : OnGrid ld) (t : Task) (spawned : List Task) (out : List Int)
    (ht : Placed ld t) (h : run t = some (spawned, out)) : ∀ u ∈ spawned, Placed ld u := by
  cases t with
  | recursive r =>
      obtain ⟨hr, hdvd⟩ := ht
      simp only [run] at h
      split at h
      · by_cases hs : r.splits
        · rw [if_pos hs] at h
          split at h <;> cases h
          have hmid := Int.dvd_add (hr.stride ▸ hgrid r hr hs) hdvd
          rw [show r.mid - r.low + (r.low - ld.low) = r.mid - ld.low by omega] at hmid
          simp only [List.forall_mem_cons, List.not_mem_nil, false_implies, implies_true, and_true]
          exact ⟨⟨hr.upper hs, hmid⟩, hr.lower hs, hdvd⟩
        · rw [if_neg hs] at h
          cases h
          simp only [List.forall_mem_singleton]
          exact ⟨hr, hdvd, le_refl _⟩
      · cases h
  | runner i r =>
      obtain ⟨hr, hdvd, hle⟩ := ht
      have hpos := r.stride_pos
      simp only [run] at h
      split at h
      · split at h <;> cases h
        have hnext := Int.dvd_add hdvd (Int.dvd_refl ld.stride)
        rw [show i - ld.low + ld.stride = i + ld.stride - ld.low by omega] at hnext
        simp only [List.forall_mem_singleton]
        exact ⟨hr, hr.stride ▸ hnext, by omega⟩
      · cases h
        exact fun u hu => absurd hu List.not_mem_nil

theorem placed_defined (h : Regular ld) {t : Task} (ht : Placed ld t) : (run t).isSome := by
  cases t with
  | recursive r =>
      have hdifference : inInt (r.high - r.low) = true := by
        have hroot := inInt_iff.mp h.difference
        rw [inInt_iff]
        rcases ht.1.inside with rfl | hinside <;> omega
      simp only [run, if_pos hdifference]
      by_cases hs : r.splits
      · rw [if_pos hs, if_pos (h.sums r ht.1 hs)]
        rfl
      · rw [if_neg hs]
        rfl
  | runner i r =>
      obtain ⟨hr, hdvd, hle⟩ := ht
      simp only [run]
      by_cases hi : i < r.high
      · have hint : inInt (i + r.stride) = true := by
          rw [hr.stride]
          apply h.increments i _ _ hdvd <;> rcases hr.inside with rfl | hinside <;> omega
        rw [if_pos hi, if_pos hint]
        rfl
      · rw [if_neg hi]
        rfl

theorem preserves_of_regular (h : Regular ld) : Preserves n ld := by
  refine ⟨?_, ?_, indices ld ld.low, ?_, nodup_indices ld ld.low, ?_⟩
  · intro k Q hQ t ht
    refine placed_defined h (hQ.invariant (placed_run h.grid) ?_ t ht)
    intro t ht
    rw [Multiset.mem_singleton.mp ht]
    exact ⟨.root, by simp⟩
  · refine ⟨Task.steps (.recursive ld), fun k Q hQ => ?_⟩
    have hle := hQ.bounded run_steps
    simp only [forasyncAny1D, Multiset.map_singleton, Multiset.sum_singleton] at hle
    omega
  · exact (plainLoop_eq_some ld _).mpr ⟨rfl, h.increments⟩
  · intro k Q hQ hended
    rw [executed_eq hQ hended, executes_onGrid ld h.grid]

theorem forasyncAny1D_preserves (hn : 0 < n) (ld : LoopDomain) : Preserves n ld ↔ Regular ld :=
  ⟨regular_of_preserves hn, preserves_of_regular⟩

/-- With a stride of 1 every midpoint is on the grid. -/
theorem regular_stride_one (hstride : ld.stride = 1) (hlow : -2 ^ 30 ≤ ld.low) (hlow' : ld.low < 2 ^ 30)
    (hhigh : -2 ^ 30 ≤ ld.high) (hhigh' : ld.high < 2 ^ 30) : Regular ld := by
  refine ⟨inInt_iff.mpr (by omega), ?_, ?_, ?_⟩
  · intro r hr _
    rw [inInt_iff]
    rcases hr.inside with rfl | hinside <;> omega
  · intro i hle hlt _
    rw [inInt_iff]
    omega
  · intro r hr _
    rw [hr.stride, hstride]
    exact one_dvd _

theorem forasyncAny1D_preserves_unit : Preserves 2 ⟨0, 10, 1, 2, by decide, by decide⟩ :=
  (forasyncAny1D_preserves (by decide) _).mpr
    (regular_stride_one rfl (by decide) (by decide) (by decide) (by decide))

-- The plain loop executes 0, 3, 6 and 9; the upper half starts at 5.
theorem forasyncAny1D_stride_three : ¬Preserves 2 ⟨0, 10, 3, 2, by decide, by decide⟩ := by
  intro h
  have hgrid := (regular_of_preserves (by decide) h).grid _ .root (by decide)
  exact absurd hgrid (by decide)

end HabaneroUpc.ForasyncAny
