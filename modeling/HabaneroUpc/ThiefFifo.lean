import HabaneroUpc.Control
import HabaneroUpc.Lib.Fifo

namespace HabaneroUpc.ThiefQueue

open RingBuffer Fifo

variable {n : Nat}

def cancelCyclicSteals (v : Fin n) (q : ThiefQueue n) : ThiefQueue n :=
  if checkCyclicSteals v q.queuedThieves (sizeThiefQueue q) q.head then cancelThief v q else q

def thiefQueue (n : Nat) : Object (ThiefQueue n) (FilterCall (Fin n)) (Option (Fin n)) where
  init := init n
  call
    | .call (.push i), q => if fullThiefQueue q then none else some (none, pushThief i q)
    | .call .pop, q => some (popThief q)
    | .remove v, q => some (none, cancelCyclicSteals v q)

def subscripts (q : ThiefQueue n) : FilterCall (Fin n) → List Int
  | .call (.push _) => [q.tail + 1]
  | .call .pop => if q.head = q.tail then [] else [q.head + 1]
  | .remove _ => (List.range (sizeThiefQueue q)).map fun k : Nat => q.head + 1 + (k : Int)

structure Represents (q : ThiefQueue n) : Prop where
  sound : Sound (fun _ => True) q
  bounded : (thieves q).length ≤ n

variable {q : ThiefQueue n}

theorem represents_init : Represents (init n) := ⟨init_sound _, Nat.zero_le n⟩

theorem cancelCyclicSteals_thieves (h : Represents q) (v : Fin n) :
    thieves (cancelCyclicSteals v q) = (thieves q).filter (· ≠ v) := by
  have hcap : ((thieves q).filter (· ≠ v)).length ≤ n :=
    Nat.le_trans (List.length_filter_le ..) h.bounded
  rw [cancelCyclicSteals]
  rw [check_iff h.sound v]
  by_cases hv : v ∈ thieves q
  · rw [if_pos (decide_eq_true hv)]
    exact thieves_cancel h.sound v hcap
  · rw [if_neg (by simpa using hv), eq_comm, List.filter_eq_self]
    intro t ht
    have hne : t ≠ v := fun he => hv (he ▸ ht)
    exact decide_eq_true hne

theorem represents_call (h : Represents q) {k : FilterCall (Fin n)}
    {r : Option (Fin n) × ThiefQueue n}
    (hk : (thiefQueue n).call k q = some r) : Represents r.2 := by
  cases k with
  | push i =>
      simp only [thiefQueue] at hk
      split at hk <;> cases hk
      have hlt : (thieves q).length < n :=
        lt_of_le_of_ne h.bounded (mt (full_iff h.sound).mpr ‹_›)
      refine ⟨pushThief_sound h.sound trivial, ?_⟩
      rw [thieves_push h.sound i hlt, List.length_append, List.length_singleton]
      exact hlt
  | pop =>
      cases hk
      refine ⟨popThief_sound h.sound, ?_⟩
      rw [(popThief_thieves h.sound).2, List.length_tail]
      exact Nat.le_trans (Nat.sub_le ..) h.bounded
  | remove v =>
      cases hk
      refine ⟨?_, ?_⟩
      · dsimp only
        rw [cancelCyclicSteals]
        split
        · exact cancelThief_sound h.sound v
        · exact h.sound
      · rw [cancelCyclicSteals_thieves h v]
        exact Nat.le_trans (List.length_filter_le ..) h.bounded

/-- Each operation does on the queued thieves what the operation of the same
name does on a list. -/
theorem thiefQueue_refines (n : Nat) :
    (thiefQueue n).Refines (Fifo.filterQueue n) Represents thieves where
  inv_init := represents_init
  abs_init := thieves_init
  inv_call k q r h hk := represents_call h hk
  abs_call k q h := by
    cases k with
    | push i =>
        have hfull := full_iff h.sound
        simp only [thiefQueue, Fifo.filterQueue, Fifo.queue]
        by_cases hlt : (thieves q).length < n
        · rw [if_neg (fun hf => absurd (hfull.mp hf) (Nat.ne_of_lt hlt)), if_pos hlt,
            Option.map_some, thieves_push h.sound i hlt]
        · rw [if_pos (hfull.mpr (Nat.le_antisymm h.bounded (Nat.le_of_not_lt hlt))), if_neg hlt]
          rfl
    | pop =>
        obtain ⟨hfirst, hrest⟩ := popThief_thieves h.sound
        simp only [thiefQueue, Fifo.filterQueue, Fifo.queue, Option.map_some, hfirst, hrest]
    | remove v =>
        simp only [thiefQueue, Fifo.filterQueue, Fifo.queue, Option.map_some,
          cancelCyclicSteals_thieves h v]

/-- What the tests of the queue answer, and which cells it uses. The subscripts
are the remainders of C, which are negative where the dividend is. -/
structure Answers (q : ThiefQueue n) : Prop where
  cells : content q = (thieves q).map some
  check : ∀ v, checkCyclicSteals v q.queuedThieves (sizeThiefQueue q) q.head =
    decide (v ∈ thieves q)
  waiting : q.thievesWaiting = true ↔ thieves q ≠ []
  full : fullThiefQueue q = true ↔ (thieves q).length = n
  empty : thieves q = [] → q.head = -1 ∧ q.tail = -1
  subscript : ∀ k : FilterCall (Fin n), ∀ i ∈ subscripts q k,
    0 ≤ i.tmod n ∧ i.tmod n < n ∧ cell n i = (i.tmod n).toNat
  copied : ∀ v, (copyOthers v q.queuedThieves (sizeThiefQueue q) q.head).length ≤ n

theorem subscripts_nonneg (h : Represents q) {k : FilterCall (Fin n)} {i : Int}
    (hi : i ∈ subscripts q k) :
    0 ≤ i ∧ 0 < n := by
  have hge := h.sound.head_ge
  have hle := h.sound.head_le
  have hlen := thieves_length h.sound
  have hcap := h.bounded
  cases k with
  | push t =>
      simp only [subscripts, List.mem_singleton] at hi
      exact ⟨by omega, Fin.pos t⟩
  | pop =>
      simp only [subscripts] at hi
      split at hi
      · cases hi
      · simp only [List.mem_singleton] at hi
        omega
  | remove v =>
      simp only [subscripts, List.mem_map] at hi
      obtain ⟨j, -, rfl⟩ := hi
      exact ⟨by omega, Fin.pos v⟩

theorem answers (h : Represents q) : Answers q := by
  have hlen := thieves_length h.sound
  refine ⟨content_eq h.sound, check_iff h.sound, waiting_iff h.sound, full_iff h.sound, ?_, ?_, ?_⟩
  · intro hnil
    rw [hnil, List.length_nil] at hlen
    have hhead := h.sound.rebased (by omega)
    omega
  · intro k i hi
    obtain ⟨hpos, hn⟩ := subscripts_nonneg h hi
    have hmod : i.tmod n = i % n := Int.tmod_eq_emod_of_nonneg hpos
    rw [hmod]
    exact ⟨Int.emod_nonneg _ (by omega), Int.emod_lt_of_pos _ (by omega), rfl⟩
  · intro v
    rw [copyOthers_thieves h.sound, List.length_map]
    exact Nat.le_trans (List.length_filter_le ..) h.bounded

theorem cancelThief_head (v : Fin n) (q : ThiefQueue n) : (cancelThief v q).head = -1 := by
  simp only [cancelThief]
  split <;> rfl

theorem tail_call (h : Represents q) {k : FilterCall (Fin n)} {r : Option (Fin n) × ThiefQueue n}
    (hk : (thiefQueue n).call k q = some r) : r.2.tail ≤ q.tail + 1 := by
  have hge := h.sound.head_ge
  have hle := h.sound.head_le
  cases k with
  | push i =>
      simp only [thiefQueue] at hk
      split at hk <;> cases hk
      exact le_rfl
  | pop =>
      cases hk
      rcases eq_or_lt_of_le hle with he | hlt
      · rw [popThief_empty he]
        dsimp only
        omega
      · rcases eq_or_lt_of_le (show q.head + 1 ≤ q.tail by omega) with he | hmore
        · rw [popThief_last he]
          dsimp only
          omega
        · rw [popThief_more hmore]
          dsimp only
          omega
  | remove v =>
      cases hk
      dsimp only
      rw [cancelCyclicSteals]
      split
      · have hcap := Nat.le_trans (List.length_filter_le (· ≠ v) (thieves q)) h.bounded
        have hlen := thieves_length (cancelThief_sound h.sound v)
        have hlen' := thieves_length h.sound
        have hfilter := List.length_filter_le (· ≠ v) (thieves q)
        rw [thieves_cancel h.sound v hcap, cancelThief_head] at hlen
        omega
      · omega

theorem represents_run {calls : List (FilterCall (Fin n))}
    {r : List (Option (Fin n)) × ThiefQueue n}
    (h : (thiefQueue n).run (init n) calls = some r) : Represents r.2 ∧
      r.2.tail < calls.length := by
  refine Object.run_induction (O := thiefQueue n)
    (I := fun calls _ q => Represents q ∧ q.tail < calls.length) ⟨represents_init, by
      simp [thiefQueue, init]⟩ ?_ h
  rintro calls _ q k r ⟨hrep, htail⟩ hk
  have hgrow := tail_call hrep hk
  refine ⟨represents_call hrep hk, ?_⟩
  rw [List.length_append, List.length_singleton]
  omega

/-- The queue of thieves is a FIFO queue from which thieves can be removed, in
every sequence of calls, and tail stays below the number of calls. -/
theorem thiefQueue_refines_fifo (calls : List (FilterCall (Fin n))) :
    ((thiefQueue n).run (init n) calls).map (fun r => (r.1, thieves r.2)) =
      (Fifo.filterQueue n).run [] calls ∧
    ∀ r, (thiefQueue n).run (init n) calls = some r →
        Answers r.2 ∧ -1 ≤ r.2.head ∧ r.2.head ≤ r.2.tail ∧ r.2.tail < calls.length := by
  refine ⟨(thiefQueue_refines n).run calls, fun r hr => ?_⟩
  obtain ⟨hrep, htail⟩ := represents_run hr
  exact ⟨answers hrep, hrep.sound.head_ge, hrep.sound.head_le, htail⟩

theorem queueThief_thiefQueue (c : Config n) (i : Fin n) (P : Place n) (g : Shared n) :
    (queueThief c i P g).1.thiefQueue = pushThief i P.thiefQueue := by
  rw [queueThief_eq]

theorem markVictimContacted_thiefQueue {c : Config n} (hcancel : c.cancelCyclicSteals = true)
    (v : Fin n) (P : Place n) (g : Shared n) :
    (markVictimContacted c v P g).1.thiefQueue = ThiefQueue.cancelCyclicSteals v P.thiefQueue := by
  rw [markVictimContacted_eq]
  simp only [cancelsThief, hcancel, Bool.true_and]
  rfl

end HabaneroUpc.ThiefQueue
