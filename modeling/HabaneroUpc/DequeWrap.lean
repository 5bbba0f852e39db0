import HabaneroUpc.SemiConcDeque

namespace HabaneroUpc.SemiConcDeque

open RingBuffer Fifo

variable {w : Nat}

/-- The deque with its counters of 32 bits, when one call follows another. The
lock is then free at every hc_cas. -/
structure IntDeque (w : Nat) where
  cells : Nat → Entry w
  deqHead : Int32
  deqTail : Int32

namespace IntDeque

def init : IntDeque w := ⟨fun _ _ => 0, 0, 0⟩

def full (d : IntDeque w) : Bool := 8192 = d.deqTail - d.deqHead

def nonEmpty (d : IntDeque w) : Bool := 0 < d.deqTail - d.deqHead

def index (counter : Int32) : Option Nat :=
  let index := (counter % 8192).toInt
  if 0 ≤ index ∧ index < semiConcurrentDequeSize then some index.toNat else none

def put (d : IntDeque w) (entry : Entry w) (i : Nat) : IntDeque w :=
  { d with cells := Function.update d.cells i entry, deqTail := d.deqTail + 1 }

def take (d : IntDeque w) : IntDeque w := { d with deqHead := d.deqHead + 1 }

end IntDeque

open IntDeque

/-- A call has no result if the assertion fires or the index is not in the array. -/
def intDeque (w : Nat) : Object (IntDeque w) (Call (Entry w)) (Option (Entry w)) where
  init := init
  call
    | .push entry, d =>
        if d.full then none else (index d.deqTail).map fun i => (none, d.put entry i)
    | .pop, d =>
        if d.nonEmpty then (index d.deqHead).map fun i => (some (d.cells i),
          d.take) else some (none, d)

def lastCounter : Nat := 2 ^ 31

theorem index_ofInt {k : Int} (hk : 0 ≤ k) (hlast : k ≤ lastCounter) :
    index (Int32.ofInt k) = some (cell semiConcurrentDequeSize k) := by
  rcases eq_or_lt_of_le hlast with rfl | hlt
  · decide
  · have hint : (Int32.ofInt k).toInt = k := Int32.toInt_ofInt_of_le (by omega) hlt
    have hmod : (Int32.ofInt k % 8192).toInt = k % 8192 := by
      rw [Int32.toInt_mod, hint]
      exact Int.tmod_eq_emod_of_nonneg hk
    have hrange : 0 ≤ k % 8192 ∧ k % 8192 < (semiConcurrentDequeSize : Int) :=
      ⟨Int.emod_nonneg _ (by decide), Int.emod_lt_of_pos _ (by decide)⟩
    simp only [index, hmod, if_pos hrange]
    rfl

theorem index_past : index (Int32.ofInt (lastCounter + 1)) = none := by
  decide

structure Counts (d : IntDeque w) (pushes : Nat) (xs : List (Entry w)) : Prop where
  bound : pushes ≤ lastCounter + 1
  kept : xs.length ≤ pushes
  capacity : xs.length ≤ semiConcurrentDequeSize
  tail : d.deqTail = Int32.ofInt pushes
  head : d.deqHead = Int32.ofInt (pushes - xs.length)
  content : window semiConcurrentDequeSize d.cells ((pushes : Int) - xs.length - 1) xs.length = xs

variable {d : IntDeque w} {pushes : Nat} {xs : List (Entry w)}

theorem counts_init : Counts (init : IntDeque w) 0 [] :=
  ⟨Nat.zero_le _, le_rfl, Nat.zero_le _, rfl, rfl, rfl⟩

/-- The difference of the counters is right even after they have wrapped. -/
theorem Counts.size (h : Counts d pushes xs) : d.deqTail - d.deqHead = Int32.ofInt xs.length := by
  rw [h.tail, h.head, ← Int32.ofInt_sub]
  congr 1
  omega

theorem size_toInt {k : Nat} (hk : k ≤ semiConcurrentDequeSize) : (Int32.ofInt k).toInt = k := by
  have hsize : semiConcurrentDequeSize = 8192 := rfl
  exact Int32.toInt_ofInt_of_le (by omega) (by omega)

theorem Counts.full_iff (h : Counts d pushes xs) : d.full = true ↔
    xs.length = semiConcurrentDequeSize := by
  rw [full, h.size, decide_eq_true_iff, ← Int32.toInt_inj, size_toInt h.capacity]
  have hint : (8192 : Int32).toInt = semiConcurrentDequeSize := by decide
  rw [hint]
  omega

theorem Counts.nonEmpty_iff (h : Counts d pushes xs) : d.nonEmpty = true ↔ xs ≠ [] := by
  rw [nonEmpty, h.size, decide_eq_true_iff, Int32.lt_iff_toInt_lt, size_toInt h.capacity,
    ← List.length_pos_iff]
  have hint : (0 : Int32).toInt = 0 := by decide
  rw [hint]
  omega

theorem ofInt_succ (k : Int) : Int32.ofInt k + 1 = Int32.ofInt (k + 1) := by
  rw [Int32.ofInt_add]
  rfl

theorem Counts.put (h : Counts d pushes xs) (hroom : xs.length < semiConcurrentDequeSize)
    (hbound : pushes ≤ lastCounter) (entry : Entry w) :
    Counts (d.put entry (cell semiConcurrentDequeSize pushes)) (pushes + 1) (xs ++ [entry]) := by
  have hkept := h.kept
  have hlen : (xs ++ [entry]).length = xs.length + 1 := by simp
  refine ⟨by omega, by omega, by omega, ?_, ?_, ?_⟩
  · rw [IntDeque.put, h.tail, ofInt_succ]
    rfl
  · rw [IntDeque.put, h.head, hlen]
    apply congrArg Int32.ofInt
    omega
  · have hfirst : ((pushes + 1 : Nat) : Int) - (xs.length + 1 : Nat) - 1 = pushes -
        xs.length - 1 := by omega
    have hlast : (pushes : Int) - xs.length - 1 + xs.length + 1 = pushes := by omega
    rw [hlen, hfirst, window_snoc, hlast]
    simp only [IntDeque.put, Function.update_self]
    rw [window_update _ _ _ _ (by omega) (by omega), h.content]

theorem Counts.take (h : Counts d pushes xs) (hne : xs ≠ []) : Counts d.take pushes xs.tail := by
  obtain ⟨x, xs, rfl⟩ := List.exists_cons_of_ne_nil hne
  have hkept := h.kept
  have hcap := h.capacity
  have hcontent := h.content
  simp only [List.length_cons] at hkept hcap hcontent
  have hfirst : (pushes : Int) - (xs.length + 1 : Nat) - 1 + 1 = pushes - xs.length - 1 := by omega
  rw [window, hfirst] at hcontent
  refine ⟨h.bound, ?_, ?_, h.tail, ?_, ?_⟩
  · simp only [List.tail_cons]
    omega
  · simp only [List.tail_cons]
    omega
  · rw [IntDeque.take, h.head, ofInt_succ]
    apply congrArg Int32.ofInt
    simp only [List.tail_cons, List.length_cons]
    omega
  · exact (List.cons.inj hcontent).2

theorem Counts.first (h : Counts d pushes xs) (hne : xs ≠ []) :
    some (d.cells (cell semiConcurrentDequeSize (pushes - xs.length))) = xs.head? := by
  obtain ⟨x, xs, rfl⟩ := List.exists_cons_of_ne_nil hne
  have hcontent := h.content
  simp only [List.length_cons] at hcontent
  have hfirst : (pushes : Int) - (xs.length + 1 : Nat) - 1 + 1 = pushes -
      (xs.length + 1 : Nat) := by omega
  rw [window, hfirst] at hcontent
  exact congrArg some (List.cons.inj hcontent).1

/-- Up to the last counter a push is that of the bounded queue, and so is a pop. -/
theorem push_call (h : Counts d pushes xs) (hroom : xs.length < semiConcurrentDequeSize)
    (hbound : pushes ≤ lastCounter) (entry : Entry w) :
    (intDeque w).call (.push entry) d =
      some (none, d.put entry (cell semiConcurrentDequeSize pushes)) := by
  have hindex : index d.deqTail = some (cell semiConcurrentDequeSize pushes) := by
    rw [h.tail]
    exact index_ofInt (Int.natCast_nonneg _) (by omega)
  have hfull : ¬d.full = true := fun hf => absurd (h.full_iff.mp hf) (Nat.ne_of_lt hroom)
  simp only [intDeque, if_neg hfull, hindex, Option.map_some]

theorem pop_call (h : Counts d pushes xs) :
    (intDeque w).call .pop d = some (xs.head?, if xs = [] then d else d.take) := by
  by_cases hne : xs = []
  · have hempty : ¬d.nonEmpty = true := fun hf => h.nonEmpty_iff.mp hf hne
    simp only [intDeque, if_neg hempty, if_pos hne]
    rw [hne]
    rfl
  · have hpos := List.length_pos_iff.mpr hne
    have hbound := h.bound
    have hkept := h.kept
    have hindex : index d.deqHead = some (cell semiConcurrentDequeSize (pushes - xs.length)) := by
      rw [h.head]
      exact index_ofInt (by omega) (by omega)
    simp only [intDeque, if_pos (h.nonEmpty_iff.mpr hne), hindex, Option.map_some, if_neg hne,
      h.first hne]

/-- The push after that has no cell in the array. -/
theorem push_past (h : Counts d (lastCounter + 1) xs) (entry : Entry w) :
    (intDeque w).call (.push entry) d = none := by
  have hindex : index d.deqTail = none := by
    rw [h.tail]
    exact index_past
  simp only [intDeque, hindex, Option.map_none, ite_self]

theorem pushed_push (calls : List (Call (Entry w))) (entry : Entry w) :
    (pushed (calls ++ [.push entry])).length = (pushed calls).length + 1 := by
  simp [pushed]

theorem pushed_pop (calls : List (Call (Entry w))) : pushed (calls ++ [.pop]) = pushed calls := by
  simp [pushed]

theorem counts_of_queue {calls : List (Call (Entry w))}
    {r : List (Option (Entry w)) × List (Entry w)}
    (h : (Fifo.queue semiConcurrentDequeSize).run [] calls = some r)
    (hbound : (pushed calls).length ≤ lastCounter + 1) :
    ∃ d, (intDeque w).run init calls = some (r.1, d) ∧ Counts d (pushed calls).length r.2 := by
  refine Object.run_induction (O := Fifo.queue semiConcurrentDequeSize)
    (I := fun calls results xs => (pushed calls).length ≤ lastCounter + 1 →
      ∃ d, (intDeque w).run init calls = some (results, d) ∧ Counts d (pushed calls).length xs)
    (fun _ => ⟨init, rfl, counts_init⟩) ?_ h hbound
  intro calls results xs k r ih hk hbound
  cases k with
  | push entry =>
      rw [pushed_push] at hbound ⊢
      obtain ⟨d, hrun, hcounts⟩ := ih (by omega)
      simp only [Fifo.queue] at hk
      split at hk <;> cases hk
      have hcall := push_call hcounts ‹_› (by omega) entry
      exact ⟨_, Object.run_snoc hrun hcall, hcounts.put ‹_› (by omega) entry⟩
  | pop =>
      rw [pushed_pop] at hbound ⊢
      obtain ⟨d, hrun, hcounts⟩ := ih hbound
      cases hk
      refine ⟨_, Object.run_snoc hrun (pop_call hcounts), ?_⟩
      split
      · rename_i hnil
        rw [hnil] at hcounts ⊢
        exact hcounts
      · exact hcounts.take ‹_›

theorem pushes_bounded {calls : List (Call (Entry w))} {r : List (Option (Entry w)) × IntDeque w}
    (h : (intDeque w).run init calls = some r) :
    ∃ xs, Counts r.2 (pushed calls).length xs := by
  refine Object.run_induction (O := intDeque w)
    (I := fun calls _ d => ∃ xs, Counts d (pushed calls).length xs) ⟨[], counts_init⟩ ?_ h
  rintro calls results d k r ⟨xs, hcounts⟩ hk
  cases k with
  | push entry =>
      rw [pushed_push]
      have hfull : ¬d.full = true := by
        intro hf
        simp only [intDeque, if_pos hf] at hk
        cases hk
      have hroom : xs.length < semiConcurrentDequeSize :=
        lt_of_le_of_ne hcounts.capacity (mt hcounts.full_iff.mpr hfull)
      rcases eq_or_lt_of_le hcounts.bound with hlast | hlt
      · rw [hlast] at hcounts
        rw [push_past hcounts] at hk
        cases hk
      · rw [push_call hcounts hroom (by omega)] at hk
        cases hk
        exact ⟨_, hcounts.put hroom (by omega) entry⟩
  | pop =>
      rw [pushed_pop]
      rw [pop_call hcounts] at hk
      cases hk
      dsimp only
      split
      · exact ⟨xs, hcounts⟩
      · exact ⟨xs.tail, hcounts.take ‹_›⟩

/-- The deque does what the queue does in every part of a run: no index leaves
the array, the results are the same, and the tests are right. -/
def Survives (calls : List (Call (Entry w))) : Prop :=
  ∀ before, before <+: calls → ∀ r, (Fifo.queue semiConcurrentDequeSize).run [] before = some r →
    ∃ d, (intDeque w).run init before = some (r.1, d) ∧
      (d.full = true ↔ r.2.length = semiConcurrentDequeSize) ∧ (d.nonEmpty = true ↔ r.2 ≠ [])

theorem survives_of_bounded {calls : List (Call (Entry w))}
    (hbound : (pushed calls).length ≤ lastCounter + 1) :
    Survives calls := by
  rintro before ⟨after, rfl⟩ r hr
  rw [pushed_append, List.length_append] at hbound
  obtain ⟨d, hrun, hcounts⟩ := counts_of_queue hr (by omega)
  exact ⟨d, hrun, hcounts.full_iff, hcounts.nonEmpty_iff⟩

theorem bounded_of_survives {calls : List (Call (Entry w))}
    (hrun : ((Fifo.queue semiConcurrentDequeSize).run [] calls).isSome = true)
    (h : Survives calls) :
    (pushed calls).length ≤ lastCounter + 1 := by
  obtain ⟨r, hr⟩ := Option.isSome_iff_exists.mp hrun
  obtain ⟨d, hd, -⟩ := h calls List.prefix_rfl r hr
  obtain ⟨xs, hcounts⟩ := pushes_bounded hd
  exact hcounts.bound

/-- A sequential run with at most 8192 entries outstanding goes right if and
only if it has at most 2^31 + 1 pushes. -/
theorem survives_iff {calls : List (Call (Entry w))}
    (hrun : ((Fifo.queue semiConcurrentDequeSize).run [] calls).isSome = true) :
    Survives calls ↔ (pushed calls).length ≤ 2 ^ 31 + 1 :=
  ⟨bounded_of_survives hrun, survives_of_bounded⟩

theorem survives_iff_one : Survives [.push (fun _ => 5), (.pop : Call (Entry 1))] :=
  (survives_iff rfl).mpr (by decide)

def alternating (entry : Entry w) : Nat → List (Call (Entry w))
  | 0 => []
  | k + 1 => alternating entry k ++ [.push entry] ++ [.pop]

theorem alternating_run (entry : Entry w) (k : Nat) :
    ∃ results, (Fifo.queue semiConcurrentDequeSize).run []
      (alternating entry k) = some (results, []) := by
  induction k with
  | zero => exact ⟨[], rfl⟩
  | succ k ih =>
      obtain ⟨results, hrun⟩ := ih
      exact ⟨_, Object.run_snoc (Object.run_snoc hrun rfl) rfl⟩

theorem alternating_pushed (entry : Entry w) (k : Nat) :
    (pushed (alternating entry k)).length = k := by
  induction k with
  | zero => rfl
  | succ k ih => rw [alternating, pushed_pop, pushed_push, ih]

theorem not_survives (entry : Entry w) {k : Nat} (hk : lastCounter + 1 < k) :
    ((Fifo.queue semiConcurrentDequeSize).run [] (alternating entry k)).isSome = true ∧
      ¬Survives (alternating entry k) := by
  obtain ⟨results, hrun⟩ := alternating_run entry k
  have hsome : ((Fifo.queue semiConcurrentDequeSize).run []
      (alternating entry k)).isSome = true := by
    rw [hrun]
    rfl
  refine ⟨hsome, fun h => ?_⟩
  have hbound := bounded_of_survives hsome h
  rw [alternating_pushed] at hbound
  omega

/-- The push number 2^31 + 2 takes the remainder of -2^31 + 1. -/
theorem counters_wrap :
    ((Fifo.queue semiConcurrentDequeSize).run []
      (alternating (fun _ => 0 : Entry 1) (2 ^ 31 + 2))).isSome = true ∧
    ¬Survives (alternating (fun _ => 0 : Entry 1) (2 ^ 31 + 2)) :=
  not_survives _ (by decide)

end HabaneroUpc.SemiConcDeque
