import HabaneroUpc.DequeFifo

namespace HabaneroUpc.SemiConcDeque

open Interleaving RingBuffer

variable {ι : Type*} [DecidableEq ι] {w : Nat} {comm i j : ι} {s : Global ι (Worker w) (Deque ι w)}

/-- The deque never holds more entries than it has cells, and a push never
writes into the cell of an entry that has not been popped. -/
structure WithinCapacity (s : Global ι (Worker w) (Deque ι w)) : Prop where
  order : 0 ≤ s.shared.deqTail - s.shared.deqHead
  capacity : s.shared.deqTail - s.shared.deqHead ≤ semiConcurrentDequeSize
  apart : ∀ i entry index copied, (s.proc i).pc = .push (.write entry index copied) →
    ∀ k, s.shared.deqHead ≤ k → k < s.shared.deqTail → slot k ≠ index

theorem withinCapacity_of_inv (h : DequeInv comm s) : WithinCapacity s where
  order := by
    have horder := h.common.order
    omega
  capacity := h.common.capacity
  apart i entry index copied hpc k hhead htail := by
    have hroom := (h.own i).room (by rw [hpc]; rfl)
    have hwritten := (h.own i).written
    rw [hpc] at hwritten
    rw [hwritten.1, slot_of_nonneg (h.common.nonneg.trans hhead)]
    exact cell_ne htail (by omega)

/-- In every run in which no push enters its critical section with a full deque,
the deque stays within its capacity. -/
theorem within_capacity
    (hs : ReachableWhen (semiConcDeque comm w) (fun s i a => entersBelowCapacity s i a = true) s) :
    WithinCapacity s :=
  withinCapacity_of_inv (dequeInv_reachable hs)

theorem within_capacity_pushed :
    ((semiConcDeque false 1).after pushedTwice).shared.deqTail = 2 ∧
      WithinCapacity ((semiConcDeque false 1).after pushedTwice) :=
  ⟨by decide, within_capacity (after_reachableWhen _ entersBelowCapacity _ (by decide))⟩

/-- A push that has passed the size test. -/
theorem push_arrives (hs : Reachable (semiConcDeque comm w) s) (hpc : (s.proc i).pc = .idle)
    (hfull : s.shared.full = false)
    (hsize : s.shared.deqTail - s.shared.deqHead ≠ semiConcurrentDequeSize)
    (entry : Entry w) : ∃ s', Reachable (semiConcDeque comm w) s' ∧ s'.shared = s.shared ∧
      (s'.proc i).pc = .push (.cas entry) ∧ ∀ j, j ≠ i → s'.proc j = s.proc j := by
  have hsolo : (semiConcDeque comm w).solo i (s.proc i) s.shared [.push entry, .step, .step] =
      some (⟨.push (.cas entry), (s.proc i).begun ++ [.push entry]⟩, s.shared) := by
    simp [System.solo, semiConcDeque, act, hpc, hfull, commTaskPush, Worker.goto, hsize.symm]
  refine ⟨_, reachable_of_solo hs hsolo, rfl, ?_, fun j hj => set_proc_of_ne _ _ hj⟩
  rw [set_proc_self]

def afterPush (i : ι) (entry : Entry w) (g : Deque ι w) : Deque ι w :=
  { g with
    cells := Function.update g.cells (slot g.deqTail) entry
    deqTail := g.deqTail + 1
    lock := 0
    holder := none
    history := g.history ++ [(i, .push entry, none)] }

/-- From there it enters its critical section without another test. -/
theorem push_completes (hs : Reachable (semiConcDeque comm w) s) {entry : Entry w}
    (hpc : (s.proc i).pc = .push (.cas entry)) (hfull : s.shared.full = false)
    (hlock : s.shared.lock = 0) :
    ∃ s', Reachable (semiConcDeque comm w) s' ∧ s'.shared = afterPush i entry s.shared ∧
      (s'.proc i).pc = .idle ∧ ∀ j, j ≠ i → s'.proc j = s.proc j := by
  have hsolo : (semiConcDeque comm w).solo i (s.proc i) s.shared
      [.step, .step, .copy Finset.univ, .step, .step, .step] =
      some ((s.proc i).goto .idle, afterPush i entry s.shared) := by
    simp [System.solo, semiConcDeque, act, hpc, hfull, commTaskPush, Worker.goto, hcCas_won hlock,
      Deque.record, afterPush]
  refine ⟨_, reachable_of_solo hs hsolo, rfl, ?_, fun j hj => set_proc_of_ne _ _ hj⟩
  rw [set_proc_self]
  rfl

structure AtRest (s : Global ι (Worker w) (Deque ι w)) : Prop where
  idle : ∀ j, (s.proc j).pc = .idle
  full : s.shared.full = false
  lock : s.shared.lock = 0
  head : s.shared.deqHead = 0

theorem push_atRest (hs : Reachable (semiConcDeque comm w) s) (hrest : AtRest s)
    (hsize : s.shared.deqTail ≠ semiConcurrentDequeSize) (i : ι) (entry : Entry w) :
    ∃ s', Reachable (semiConcDeque comm w) s' ∧ AtRest s' ∧
      s'.shared.deqTail = s.shared.deqTail + 1 := by
  obtain ⟨t, ht, hshared, hpc, hothers⟩ := push_arrives hs (hrest.idle i) hrest.full
    (by rw [hrest.head]; simpa using hsize) entry
  obtain ⟨s', hs', hshared', hpc', hothers'⟩ :=
    push_completes ht hpc (by rw [hshared]; exact hrest.full)
    (by rw [hshared]; exact hrest.lock)
  refine ⟨s', hs', ⟨?_, ?_, ?_, ?_⟩, ?_⟩
  · intro j
    by_cases hj : j = i
    · rw [hj, hpc']
    · rw [hothers' j hj, hothers j hj]
      exact hrest.idle j
  all_goals rw [hshared', hshared]
  · exact hrest.full
  · rfl
  · exact hrest.head
  · rfl

/-- Pushes one after the other fill the deque. -/
theorem filled (comm i : ι) (entry : Entry w) {k : Nat} (hk : k ≤ semiConcurrentDequeSize) :
    ∃ s, Reachable (semiConcDeque comm w) s ∧ AtRest s ∧ s.shared.deqTail = k := by
  induction k with
  | zero => exact ⟨_, .init, ⟨fun _ => rfl, rfl, rfl, rfl⟩, rfl⟩
  | succ k ih =>
      obtain ⟨s, hs, hrest, htail⟩ := ih (by omega)
      obtain ⟨s', hs', hrest', htail'⟩ := push_atRest hs hrest (by omega) i entry
      exact ⟨s', hs', hrest', by omega⟩

/-- Two threads that both find room for one more entry overfill the deque, and
the assertion does not fire. -/
theorem overfilled (comm : ι) (hij : i ≠ j) (entry : Entry w) :
    ∃ s, Reachable (semiConcDeque comm w) s ∧ s.shared.full = false ∧
      s.shared.deqTail - s.shared.deqHead = semiConcurrentDequeSize + 1 := by
  obtain ⟨s, hs, hrest, htail⟩ := filled comm i entry (k := 8191) (by decide)
  have hsize : s.shared.deqTail - s.shared.deqHead ≠ semiConcurrentDequeSize := by
    rw [htail, hrest.head]
    decide
  obtain ⟨t, ht, hshared, hpci, hothers⟩ := push_arrives hs (hrest.idle i) hrest.full hsize entry
  obtain ⟨u, hu, hshared', hpcj, hothers'⟩ := push_arrives ht
    (by rw [hothers j hij.symm]; exact hrest.idle j) (by rw [hshared]; exact hrest.full)
    (by rw [hshared]; exact hsize) entry
  obtain ⟨v, hv, hv', -, hothers''⟩ := push_completes hu (by rw [hothers' i hij]; exact hpci)
    (by rw [hshared', hshared]; exact hrest.full) (by rw [hshared', hshared]; exact hrest.lock)
  obtain ⟨s', hs', hs'', -, -⟩ := push_completes hv (by rw [hothers'' j hij.symm]; exact hpcj)
    (by rw [hv', hshared', hshared]; exact hrest.full) (by rw [hv']; rfl)
  refine ⟨s', hs', ?_, ?_⟩
  · rw [hs'', hv', hshared', hshared]
    exact hrest.full
  · rw [hs'', hv', hshared', hshared]
    simp only [afterPush]
    rw [htail, hrest.head]
    decide

theorem over_capacity : ∃ s : Global Bool (Worker 1) (Deque Bool 1),
    Reachable (semiConcDeque false 1) s ∧ s.shared.full = false ∧
      s.shared.deqTail - s.shared.deqHead = 8193 :=
  overfilled false Bool.false_ne_true fun _ => 0

end HabaneroUpc.SemiConcDeque
