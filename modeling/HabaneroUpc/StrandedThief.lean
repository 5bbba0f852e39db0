import HabaneroUpc.Requests
import HabaneroUpc.Barrier

namespace HabaneroUpc.Slot

open Interleaving Barrier

variable {n : Nat} {c : Config n} {me : Fin n} {P P' : Place n} {g g' : Shared n} {s : State n}

/-- Waiting thieves. The slot of a place in steal_from_victim_baseline is closed,
nobody is about to register there, and no step opens it; an unanswered request
to a place excludes one of that place; and a place that is out of work has its
slot closed, except between the assignment and the locked reset. -/
structure NoWaitCycle (c : Config n) (s : State n) : Prop where
  unavailable : ∀ t v, (s.proc t).pc = .steal (.wait v) →
    s.shared.reqThread t = .unavailable ∧ ∀ u, claims (s.proc u).pc ≠ some t
  stays : ∀ t v, (s.proc t).pc = .steal (.wait v) → ∀ p a s', (job c).next s p a = some s' →
    s'.shared.reqThread t = .unavailable
  chain : ∀ t u v, Holds t v s → ¬Holds u t s
  outOfWork : c.synchronous = true → ∀ p, (s.proc p).outOfWork = true → ¬Marking (s.proc p).pc →
    s.shared.reqThread p = .unavailable

theorem expects_awaiting {pc : PC n} (h : Awaiting pc) : expects c pc = some .unavailable := by
  unfold Awaiting at h
  split at h
  · rfl
  · rfl
  · rfl
  · exact h.elim

def probed : List (Fin 2 × Act 2) :=
  throughBarrier ++ (List.range 4).map (fun t => (0, .work (.asyncAny t))) ++ throughBarrier ++
    comms 0 9 ++ [(1, .idle 1)] ++ comms 1 11

def closedAtEntry (s : State n) (p : Fin n) : Act n → Bool
  | .comm _ => (s.proc p).pc ≠ .cbarrier .inc ∨ s.shared.reqThread p = .unavailable
  | _ => true

theorem entered_of_step (hn : 2 ≤ n) (h : BarrierStep me P g P' g') (hentered : entered P' = true) :
    entered P = true ∨ P.pc = .cbarrier .inc := by
  cases h with
  | other _ _ hsame | arrive _ _ _ hsame | leave _ _ hsame => exact .inl (hsame ▸ hentered)
  | cbInit _ hpc' | dec _ hpc' =>
      rw [entered, hpc'] at hentered
      cases hentered
  | inc hpc => exact .inr hpc
  | alone hone => omega

/-- At the barrier the communication worker leaves its slot alone. -/
theorem slot_at_barrier {a : Act n} (h : act c me a P g = some (P', g'))
    (hpc : entered P = true ∨ P.pc = .cbarrier .inc) : g'.reqThread = g.reqThread := by
  have hstep := act_step h
  cases a with
  | comm ch =>
      refine (other_apart (act_comm h).2 ?_ ?_ ?_ ?_ ?_).req <;> intro l hl <;>
        simp [entered, hl] at hpc
  | idle | work | deliver | resume => cases hstep <;> rfl

theorem enters_by_comm {a : Act n} (h : act c me a P g = some (P', g')) (hpc : P.pc = .cbarrier .inc)
    (hentered : entered P' = true) : ∃ ch, a = .comm ch := by
  have hstep := act_step h
  cases a with
  | comm ch => exact ⟨ch, rfl⟩
  | resume | deliver | work | idle =>
      cases hstep <;> simp [entered, hpc, hcppAsync, queueSourcePlaceOfRemoteTask] at hentered

/-- No thief is stranded at a place in the barrier, in every run in which the
places enter the barrier with their slot closed, as mark_myPlace_asIdle leaves it. -/
theorem no_stranded_thief (hn : 2 ≤ n)
    (hs : ReachableWhen (job c) (fun s p a => closedAtEntry s p a = true) s) {t v : Fin n}
    (hreq : s.shared.reqThread v = .thief t) : entered (s.proc v) = false := by
  have hclosed : entered (s.proc v) = true → s.shared.reqThread v = .unavailable := by
    refine hs.local_invariant (I := fun v P g => entered P = true → g.reqThread v = .unavailable) ?_ ?_ ?_ v
    · intro v h
      cases h
    · intro s me a P g hs hok hI ha hentered
      have hbarrier := barrier_step (act_step ha) ((phased_reachable hs).begun me)
      have hpc := entered_of_step hn hbarrier hentered
      rw [slot_at_barrier ha hpc]
      rcases hpc with hin | hinc
      · exact hI me hin
      · obtain ⟨ch, rfl⟩ := enters_by_comm ha hinc hentered
        simpa [closedAtEntry, hinc] using hok
    · intro s me a P g hs _ hI ha p hp hentered
      have hreq := hI p hentered
      have hkept := (slot_step ha (allowed_reachable hs me) (slotInv_reachable hs me)).2
      rw [hkept.kept hp (.inl (by simp [hreq])), hreq]
  cases hin : entered (s.proc v) with
  | false => rfl
  | true =>
      rw [hclosed hin] at hreq
      cases hreq

set_option maxRecDepth 10000 in
theorem no_stranded_thief_registered : ∃ s : State 2,
    ReachableWhen (job (twoPlaces .baseline false)) (fun s p a => closedAtEntry s p a = true) s ∧
      s.shared.reqThread 0 = .thief 1 ∧ entered (s.proc 0) = false := by
  have hs := after_reachableWhen (job (twoPlaces .baseline false)) closedAtEntry
    (probed ++ comms 1 5) (by decide)
  have hreq : ((job (twoPlaces .baseline false)).after (probed ++ comms 1 5)).shared.reqThread 0 =
      .thief 1 := by
    decide
  exact ⟨_, hs, hreq, no_stranded_thief le_rfl hs hreq⟩

def stranded : List (Fin 2 × Act 2) :=
  probed ++ comms 1 5 ++
    (List.range 4).flatMap (fun t => [(0, .work (.runAny t)), (0, .work .finish)]) ++ comms 0 5

set_option maxRecDepth 10000 in
/-- Place 0 has no idle workers, finds nothing pending and enters the barrier. -/
theorem stranded_thief : ∃ s : State 2, Reachable (job (twoPlaces .baseline false)) s ∧
    s.shared.reqThread 0 = .thief 1 ∧ (s.proc 1).pc = .steal (.wait 0) ∧ entered (s.proc 0) = true :=
  ⟨_, after_reachable _ stranded, by decide, by decide, by decide⟩

end HabaneroUpc.Slot
