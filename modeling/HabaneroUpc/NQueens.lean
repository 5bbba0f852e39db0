import HabaneroUpc.Lib.TaskPool
import Mathlib.Data.Fintype.Pi
import Mathlib.Data.Fintype.BigOperators
import Mathlib.Data.List.GetD
import Mathlib.Data.List.OfFn

namespace HabaneroUpc.NQueens

open TaskPool

/-- ok, which returns 1 when two of the first n queens attack each other. -/
def ok (n : Nat) (A : List Int) : Nat :=
  if (List.range n).any fun i =>
      (List.range' (i + 1) (n - (i + 1))).any fun j =>
        let p := A.getD i 0
        let q := A.getD j 0
        q = p ∨ q = p - (j - i) ∨ q = p + (j - i)
  then 1 else 0

def child (A : List Int) (i : Nat) : List Int := A ++ [(i : Int)]

/-- The boards whose number nqueens_serial adds to the counter of its worker,
with so many queens to go. -/
def nqueensSerial (size : Nat) : Nat → List Int → List (List Int)
  | 0, A => [A]
  | depth + 1, A => (List.range size).flatMap fun i =>
      if ok (A.length + 1) (child A i) = 0 then nqueensSerial size depth (child A i) else []

inductive Task
  | kernel (A : List Int)
  | loop (A : List Int) (i : Nat)

/-- nqueens_kernel up to its loop, and one turn of the loop. An access past the
end of A has no result. -/
def run (size : Nat) (threshold : Int) : Task → Option (List Task × List (List Int))
  | .kernel A =>
      if threshold ≤ A.length then
        if A.length ≤ size then some ([], nqueensSerial size (size - A.length) A) else none
      else some ([.loop A 0], [])
  | .loop A i =>
      if i < size then
        if A.length < size then
          some ((if ok (A.length + 1) (child A i) = 0 then [.kernel (child A i)] else []) ++
            [.loop A (i + 1)], [])
        else none
      else some ([], [])

def start (ι : Type*) : Pool ι Task (List Int) := ⟨{.kernel []}, 0⟩

def localSolutions {ι : Type*} [DecidableEq ι] (Q : Pool ι Task (List Int)) (worker : ι) : Nat :=
  Q.done.countP fun e => e.1 = worker

def result {ranks workers : Nat} (Q : Pool (Fin ranks × Fin workers) Task (List Int)) : Nat :=
  ∑ rank, ∑ wid, localSolutions Q (rank, wid)

def Peaceful (A : List Int) : Prop :=
  ∀ i j, i < j → j < A.length → A.getD j 0 ≠ A.getD i 0 ∧
    A.getD j 0 ≠ A.getD i 0 - (j - i) ∧ A.getD j 0 ≠ A.getD i 0 + (j - i)

/-- The ways to put a queen in every row of the board. -/
def Placement (n : Nat) : Type :=
  {f : Fin n → Fin n // ∀ i j, i < j → (f j : Int) ≠ f i ∧
    (f j : Int) ≠ f i - ((j : Nat) - (i : Nat)) ∧ (f j : Int) ≠ f i + ((j : Nat) - (i : Nat))}

instance (n : Nat) : Fintype (Placement n) :=
  inferInstanceAs (Fintype {_f : Fin n → Fin n // _})

def Placement.board {n : Nat} (f : Placement n) : List Int := List.ofFn fun i => (f.val i : Int)

variable {size n : Nat} {threshold : Int} {A B : List Int}

theorem ok_eq_zero : ok A.length A = 0 ↔ Peaceful A := by
  have hok : ok A.length A = 0 ↔ ¬∃ i, i < A.length ∧ ∃ j, (i + 1 ≤ j ∧ j < i + 1 + (A.length - (i + 1))) ∧
      (A.getD j 0 = A.getD i 0 ∨ A.getD j 0 = A.getD i 0 - (j - i) ∨
        A.getD j 0 = A.getD i 0 + (j - i)) := by
    simp only [ok, List.any_eq_true, List.mem_range, List.mem_range'_1, decide_eq_true_eq]
    split <;> simp_all
  rw [hok, Peaceful]
  constructor
  · intro h i j hij hj
    refine ⟨fun heq => h ⟨i, by omega, j, by omega, .inl heq⟩,
      fun heq => h ⟨i, by omega, j, by omega, .inr (.inl heq)⟩,
      fun heq => h ⟨i, by omega, j, by omega, .inr (.inr heq)⟩⟩
  · rintro h ⟨i, hi, j, hj, heq⟩
    obtain ⟨h₁, h₂, h₃⟩ := h i j (by omega) (by omega)
    tauto

theorem Peaceful.of_prefix (h : Peaceful B) (hAB : A <+: B) : Peaceful A := by
  obtain ⟨S, rfl⟩ := hAB
  intro i j hij hj
  have hpair := h i j hij (by rw [List.length_append]; omega)
  rwa [List.getD_append _ _ _ _ hj, List.getD_append _ _ _ _ (by omega)] at hpair

theorem length_child (A : List Int) (i : Nat) : (child A i).length = A.length + 1 := by
  simp [child]

theorem ok_child (A : List Int) (i : Nat) :
    ok (A.length + 1) (child A i) = 0 ↔ Peaceful (child A i) := by
  rw [← length_child A i, ok_eq_zero]

/-- The boards below a peaceful one are the peaceful boards that continue it. -/
theorem mem_nqueensSerial (depth : Nat) (hA : Peaceful A) :
    B ∈ nqueensSerial size depth A ↔
      Peaceful B ∧ ∃ S : List Nat, S.length = depth ∧ (∀ i ∈ S, i < size) ∧ B = A ++ S.map Nat.cast := by
  induction depth generalizing A with
  | zero =>
      rw [nqueensSerial, List.mem_singleton]
      constructor
      · rintro rfl
        exact ⟨hA, [], rfl, by simp, by simp⟩
      · rintro ⟨-, S, hS, -, rfl⟩
        rw [List.length_eq_zero_iff.mp hS, List.map_nil, List.append_nil]
  | succ depth ih =>
      simp only [nqueensSerial, List.mem_flatMap, List.mem_range]
      constructor
      · rintro ⟨i, hi, hB⟩
        split at hB
        · rename_i hchild
          obtain ⟨hpeaceful, S, rfl, hS, rfl⟩ := (ih ((ok_child A i).mp hchild)).mp hB
          refine ⟨hpeaceful, i :: S, rfl, List.forall_mem_cons.mpr ⟨hi, hS⟩, ?_⟩
          simp [child]
        · cases hB
      · rintro ⟨hB, S, hS, hsize, rfl⟩
        cases S with
        | nil => cases hS
        | cons i S =>
            have happend : A ++ (i :: S).map Nat.cast = child A i ++ S.map Nat.cast := by
              simp [child]
            obtain ⟨hi, hsize⟩ := List.forall_mem_cons.mp hsize
            have hchild : Peaceful (child A i) :=
              hB.of_prefix (happend ▸ List.prefix_append (child A i) (S.map Nat.cast))
            refine ⟨i, hi, ?_⟩
            rw [if_pos ((ok_child A i).mpr hchild)]
            exact (ih hchild).mpr ⟨hB, S, Nat.succ.inj hS, hsize, happend⟩

theorem prefix_of_mem (depth : Nat) (hB : B ∈ nqueensSerial size depth A) : A <+: B := by
  induction depth generalizing A with
  | zero =>
      rw [nqueensSerial, List.mem_singleton] at hB
      rw [hB]
  | succ depth ih =>
      obtain ⟨i, -, hB⟩ := List.mem_flatMap.mp hB
      split at hB
      · exact (List.prefix_append A _).trans (ih hB)
      · cases hB

theorem nodup_nqueensSerial (size depth : Nat) (A : List Int) :
    (nqueensSerial size depth A).Nodup := by
  induction depth generalizing A with
  | zero => exact List.nodup_singleton A
  | succ depth ih =>
      rw [nqueensSerial, List.nodup_flatMap]
      constructor
      · intro i _
        split
        · exact ih (child A i)
        · exact List.nodup_nil
      · refine List.nodup_range.pairwise_of_forall_ne fun i _ j _ hne B hi hj => hne ?_
        -- a board shows which child it is below
        have hbelow {k : Nat} (hk : B ∈ if ok (A.length + 1) (child A k) = 0 then
            nqueensSerial size depth (child A k) else []) : child A k <+: B := by
          split at hk
          · exact prefix_of_mem depth hk
          · cases hk
        have hsame := List.prefix_of_prefix_length_le (hbelow hi) (hbelow hj)
          (by rw [length_child, length_child])
        have heq := hsame.eq_of_length (by rw [length_child, length_child])
        simpa [child] using heq

theorem Placement.peaceful (f : Placement n) : Peaceful f.board := by
  intro i j hij hj
  have hj' : j < n := by simpa [Placement.board] using hj
  have hpair := f.property ⟨i, by omega⟩ ⟨j, hj'⟩ hij
  simpa [Placement.board, List.getD, hj', show i < n by omega] using hpair

theorem Placement.board_injective : Function.Injective (Placement.board (n := n)) := by
  intro f g h
  apply Subtype.ext
  funext i
  have hi := congrFun (List.ofFn_injective h) i
  exact Fin.ext (by exact_mod_cast hi)

theorem nqueensSerial_nil (size : Nat) :
    (nqueensSerial size size [] : Multiset (List Int)) =
      (Finset.univ : Finset (Placement size)).val.map Placement.board := by
  have hnil : Peaceful [] := fun i j _ hj => absurd hj (Nat.not_lt_zero j)
  refine (Multiset.Nodup.ext (Multiset.coe_nodup.mpr (nodup_nqueensSerial size size []))
    (Finset.univ.nodup.map Placement.board_injective)).mpr fun B => ?_
  rw [Multiset.mem_coe, mem_nqueensSerial size hnil, Multiset.mem_map]
  constructor
  · rintro ⟨hB, S, rfl, hsize, rfl⟩
    refine ⟨⟨fun i => ⟨S[i], hsize _ (List.getElem_mem _)⟩, fun i j hij => ?_⟩, Finset.mem_univ _, ?_⟩
    · have hpair := hB i j hij (by simp)
      simpa [List.getD] using hpair
    · simp only [Placement.board, List.nil_append]
      refine List.ext_getElem (by simp) fun k hk hk' => by simp
  · rintro ⟨f, -, rfl⟩
    refine ⟨f.peaceful, List.ofFn fun i => (f.val i : Nat), by simp, ?_, ?_⟩
    · intro i hi
      obtain ⟨k, rfl⟩ := List.mem_ofFn.mp hi
      exact (f.val k).isLt
    · simp [Placement.board, List.map_ofFn, Function.comp_def]

/-- The boards that a task leads to, whoever runs it and what it spawns. -/
def Task.boards (size : Nat) : Task → Multiset (List Int)
  | .kernel A => nqueensSerial size (size - A.length) A
  | .loop A i => ((List.range' i (size - i)).flatMap fun i =>
      if ok (A.length + 1) (child A i) = 0 then
        nqueensSerial size (size - (A.length + 1)) (child A i) else [] : List (List Int))

theorem run_boards (hthreshold : threshold ≤ size) (t : Task) (spawned : List Task)
    (out : List (List Int)) (h : run size threshold t = some (spawned, out)) :
    (spawned.map (Task.boards size)).sum + (out : Multiset (List Int)) = t.boards size := by
  cases t with
  | kernel A =>
      simp only [run] at h
      split at h
      · split at h <;> cases h
        simp [Task.boards]
      · cases h
        have hlt : A.length < size := by omega
        obtain ⟨depth, hdepth⟩ : ∃ depth, size - A.length = depth + 1 :=
          ⟨size - A.length - 1, by omega⟩
        have hrest : size - (A.length + 1) = depth := by omega
        simp [Task.boards, hdepth, hrest, nqueensSerial, List.range_eq_range']
  | loop A i =>
      simp only [run] at h
      split at h
      · rename_i hi
        split at h <;> cases h
        have hrange : List.range' i (size - i) = i :: List.range' (i + 1) (size - (i + 1)) := by
          rw [show size - i = size - (i + 1) + 1 by omega, List.range'_succ]
        have hchild : size - (child A i).length = size - (A.length + 1) := by rw [length_child]
        simp only [Task.boards, hrange, List.flatMap_cons, ← Multiset.coe_add, List.map_append,
          List.sum_append, List.map_cons, List.map_nil, List.sum_cons, List.sum_nil, add_zero,
          Multiset.coe_nil]
        split <;> simp [Task.boards, hchild]
      · cases h
        have hempty : size - i = 0 := by omega
        simp [Task.boards, hempty]

def steps (size : Nat) : Nat → Nat
  | 0 => 1
  | depth + 1 => size * (steps size depth + 1) + 2

def Task.steps (size : Nat) : Task → Nat
  | .kernel A => NQueens.steps size (size - A.length)
  | .loop A i => (size - i) * (NQueens.steps size (size - (A.length + 1)) + 1) + 1

theorem run_steps (hthreshold : threshold ≤ size) (t : Task) (spawned : List Task)
    (out : List (List Int)) (h : run size threshold t = some (spawned, out)) :
    (spawned.map (Task.steps size)).sum + 1 ≤ t.steps size := by
  cases t with
  | kernel A =>
      simp only [run] at h
      split at h
      · split at h <;> cases h
        simp only [Task.steps, List.map_nil, List.sum_nil]
        cases size - A.length <;> simp [NQueens.steps]
      · cases h
        obtain ⟨depth, hdepth⟩ : ∃ depth, size - A.length = depth + 1 :=
          ⟨size - A.length - 1, by omega⟩
        have hrest : size - (A.length + 1) = depth := by omega
        simp [Task.steps, hdepth, hrest, NQueens.steps]
  | loop A i =>
      simp only [run] at h
      split at h
      · split at h <;> cases h
        have hsucc : size - i = size - (i + 1) + 1 := by omega
        simp only [Task.steps, hsucc, Nat.succ_mul, List.map_append, List.sum_append, List.map_cons,
          List.map_nil, List.sum_cons, List.sum_nil]
        split
        · simp [Task.steps, length_child]
          omega
        · simp
      · cases h
        simp [Task.steps]

def Task.fits (size : Nat) : Task → Prop
  | .kernel A => A.length ≤ size
  | .loop A _ => A.length < size

theorem run_fits (hthreshold : threshold ≤ size) (t : Task) (spawned : List Task)
    (out : List (List Int)) (ht : t.fits size) (h : run size threshold t = some (spawned, out)) :
    ∀ u ∈ spawned, u.fits size := by
  cases t with
  | kernel A =>
      simp only [run] at h
      split at h
      · split at h <;> cases h
        exact fun u hu => absurd hu List.not_mem_nil
      · cases h
        simp only [List.mem_singleton, forall_eq, Task.fits]
        omega
  | loop A i =>
      simp only [run] at h
      split at h
      · split at h <;> cases h
        intro u hu
        rcases List.mem_append.mp hu with hu | hu
        · split at hu
          · rw [List.mem_singleton.mp hu, Task.fits, length_child]
            exact ht
          · cases hu
        · rw [List.mem_singleton.mp hu]
          exact ht
      · cases h
        exact fun u hu => absurd hu List.not_mem_nil

theorem isSome_of_fits {t : Task} (ht : t.fits size) : (run size threshold t).isSome := by
  cases t with
  | kernel A =>
      simp only [run]
      split
      · rw [if_pos (show A.length ≤ size from ht), Option.isSome_some]
      · rw [Option.isSome_some]
  | loop A i =>
      simp only [run]
      split
      · rw [if_pos (show A.length < size from ht), Option.isSome_some]
      · rw [Option.isSome_some]

section Runs

variable {ι : Type*} {k : Nat} {Q : Pool ι Task (List Int)}

theorem fits_runs (hthreshold : threshold ≤ size) (h : Runs (run size threshold) k (start ι) Q) :
    ∀ t ∈ Q.tasks, t.fits size := by
  refine h.invariant (run_fits hthreshold) fun t ht => ?_
  rw [Multiset.mem_singleton.mp ht]
  exact Nat.zero_le size

/-- A run that has come to its end has recorded every placement once, whichever
worker ran which task. -/
theorem boards_ended (hthreshold : threshold ≤ size)
    (h : Runs (run size threshold) k (start ι) Q) (hQ : Q.tasks = 0) :
    Q.done.map Prod.snd = (Finset.univ : Finset (Placement size)).val.map Placement.board := by
  have hconserved := h.conserved (run_boards hthreshold)
  rw [← nqueensSerial_nil]
  simpa [hQ, start, Task.boards] using hconserved

theorem sum_localSolutions [Fintype ι] [DecidableEq ι] (Q : Pool ι Task (List Int)) :
    ∑ worker, localSolutions Q worker = Multiset.card Q.done := by
  simp only [localSolutions]
  induction Q.done using Multiset.induction_on with
  | empty => simp
  | cons e done ih =>
      simp only [Multiset.countP_cons, Finset.sum_add_distrib, ih, Multiset.card_cons,
        Finset.sum_ite_eq, Finset.mem_univ, if_true]

/-- For every number of ranks and workers, and in every order and placement of
the tasks, the ranks sum up the number of placements. -/
theorem result_ended {ranks workers : Nat} {Q : Pool (Fin ranks × Fin workers) Task (List Int)}
    (hthreshold : threshold ≤ size) (h : Runs (run size threshold) k (start _) Q)
    (hQ : Q.tasks = 0) : result Q = Fintype.card (Placement size) := by
  have hboards := congrArg Multiset.card (boards_ended hthreshold h hQ)
  rw [Multiset.card_map, Multiset.card_map] at hboards
  rw [result, ← Fintype.sum_prod_type (localSolutions Q), sum_localSolutions, hboards]
  rfl

theorem result_ended_four :
    ∃ k Q, Runs (run 4 2) k (start (Fin 2 × Fin 3)) Q ∧ Q.tasks = 0 ∧ result Q = 2 := by
  have hthreshold : (2 : Int) ≤ (4 : Nat) := by decide
  obtain ⟨k, Q, h, hQ⟩ := Runs.completes (P := start (Fin 2 × Fin 3)) (run_steps hthreshold)
    fun k Q h t ht => isSome_of_fits (fits_runs hthreshold h t ht)
  refine ⟨k, Q, h, hQ, (result_ended hthreshold h hQ).trans ?_⟩
  decide +kernel

/-- No run goes past the end of a board or goes on for ever. -/
theorem runs_end [Nonempty ι] (hthreshold : threshold ≤ size) :
    (∀ k Q, Runs (run size threshold) k (start ι) Q → k ≤ NQueens.steps size size ∧
      ∀ t ∈ Q.tasks, (run size threshold t).isSome) ∧
    ∃ k Q, Runs (run size threshold) k (start ι) Q ∧ Q.tasks = 0 := by
  have hdefined (k : Nat) (Q : Pool ι Task (List Int)) (h : Runs (run size threshold) k (start ι) Q)
      (t : Task) (ht : t ∈ Q.tasks) : (run size threshold t).isSome :=
    isSome_of_fits (fits_runs hthreshold h t ht)
  refine ⟨fun k Q h => ⟨?_, hdefined k Q h⟩, Runs.completes (run_steps hthreshold) hdefined⟩
  have hbound := h.bounded (run_steps hthreshold)
  simp only [start, Multiset.map_singleton, Multiset.sum_singleton, Task.steps, List.length_nil,
    Nat.sub_zero] at hbound
  omega

theorem runs_end_four : ∃ k Q, Runs (run 4 2) k (start (Fin 1)) Q ∧ Q.tasks = 0 :=
  (runs_end (by decide)).2

end Runs

end HabaneroUpc.NQueens
