import HabaneroUpc.Steps

namespace HabaneroUpc

open Interleaving

variable {n : Nat}

/-- Whether a mode has the request slot, for named requestors, and the queue
of thieves, for the next queued one. -/
def Mode.serves (m : Mode) : Option (Fin n) → Bool
  | some _ => m = .baseline ∨ m = .glb
  | none => m = .successOnly ∨ m = .successOnlyGlb ∨ m = .glb

def allowed (m : Mode) : PC n → Bool
  | .serve .successonly => m = .successOnly ∨ m = .successOnlyGlb
  | .serve .glb => m = .glb
  | .serve _ => m = .baseline ∨ m = .glb
  | .ship (.steal requestor _) | .ship (.inc requestor _) | .ship (.ship requestor _) => m.serves requestor
  | .ship (.reopen _) => m = .baseline ∨ m = .glb
  | .ship .advance | .idle .mark | .loop .branch => m ≠ .noDistWS
  | .idle _ | .steal _ => m = .baseline ∨ m = .glb
  | .lifeline _ => m = .successOnly ∨ m = .successOnlyGlb ∨ m = .glb
  | _ => true

variable {c : Config n} {me : Fin n} {ch : Choice n} {P P' : Place n} {g g' : Shared n}

theorem allowed_search (me : Fin n) (P : Place n) (hmode : c.mode ≠ .noDistWS) :
    allowed c.mode (searchTasksGlobally c me P) = true := by
  rcases searchTasksGlobally_cases c me P with ⟨h, hsync⟩ | ⟨h, hbaseline⟩ <;> rw [h]
  · exact hsync
  · cases hm : c.mode <;> simp_all [allowed]

theorem allowed_failed (me : Fin n) (attempts : Nat) :
    allowed c.mode (searchFailed c me attempts) = true := by
  rcases searchFailed_cases c me attempts with h | ⟨h, hmode⟩ <;> rw [h]
  · rfl
  · simp [allowed, hmode]

theorem allowed_nextVictim (me : Fin n) (h : c.mode = .baseline ∨ c.mode = .glb)
    (attempts i : Nat) : allowed c.mode (nextVictim c me attempts i) = true := by
  rcases nextVictim_cases c me attempts i with hnext | hnext <;> rw [hnext]
  · exact allowed_failed me attempts
  · simpa [allowed] using h

theorem serve_allowed {l : ServePc} (hP : allowed (n := n) c.mode (.serve l) = true)
    (h : serve c me P g l = some (P', g')) : allowed c.mode P'.pc = true := by
  cases hm : c.mode <;> cases l <;> simp [allowed, hm] at hP <;> simp only [serve] at h <;>
    (repeat' split at h) <;> cases h <;> first | rfl | simp_all

theorem ship_allowed {l : ShipPc n} (hP : allowed c.mode (.ship l) = true)
    (h : shipAsyncAny c me ch P g l = some (P', g')) : allowed c.mode P'.pc = true := by
  cases l with
  | steal requestor tasks | inc requestor tasks =>
      simp only [shipAsyncAny] at h
      repeat' split at h
      all_goals cases h
      all_goals first | exact hP | rfl
  | ship requestor tasks =>
      cases requestor with
      | none =>
          obtain ⟨thief, q, hq⟩ : ∃ thief q, ThiefQueue.popThief P.thiefQueue = (thief, q) := ⟨_, _, rfl⟩
          have hmode : c.mode ≠ .noDistWS := by
            intro hm
            simp [allowed, Mode.serves, hm] at hP
          simp only [shipAsyncAny, hq] at h
          split at h <;> cases h <;> exact decide_eq_true hmode
      | some thief =>
          cases h
          exact hP
  | reopen thief =>
      cases h
      simp only [allowed, Place.goto] at hP ⊢
      cases hm : c.mode <;> simp_all
  | advance =>
      cases h
      simp only [Place.goto, afterShipment]
      cases hm : c.mode <;> simp_all [allowed]

theorem idle_allowed {l : IdlePc n} (hP : allowed c.mode (.idle l) = true)
    (h : markMyPlaceAsIdle c me P g l = some (P', g')) : allowed c.mode P'.pc = true := by
  have hmode : c.mode ≠ .noDistWS := by
    intro hm
    cases l <;> simp [allowed, hm] at hP
  have hs := allowed_search me P hmode
  cases l with
  | mark =>
      simp only [markMyPlaceAsIdle] at h
      split at h <;> cases h
      · exact hs
      · dsimp only
        split
        · simpa [allowed, Config.synchronous] using ‹c.synchronous = true›
        · exact hs
  | lock =>
      simp only [markMyPlaceAsIdle] at h
      split at h <;> cases h
      exact hP
  | read | write =>
      cases h
      exact hP
  | unlock r =>
      cases r <;> cases h
      · exact hs
      · exact hs
      · exact hP
  | invalidate t =>
      cases h
      exact hs

theorem steal_allowed {l : StealPc n} (hP : allowed c.mode (.steal l) = true)
    (h : searchTasksGloballySynchronous c me ch P g l = some (P', g')) :
    allowed c.mode P'.pc = true := by
  have hmode : c.mode = .baseline ∨ c.mode = .glb := by simpa [allowed] using hP
  have hf (attempts : Nat) : allowed c.mode (searchFailed c me attempts) = true :=
    allowed_failed me attempts
  have hv := allowed_nextVictim me hmode
  cases l <;> simp only [searchTasksGloballySynchronous] at h <;> (repeat' split at h) <;> cases h
  all_goals first | exact hP | rfl | exact hf _ | exact hv _ _

theorem lifeline_allowed {l : LifelinePc n} (hP : allowed c.mode (.lifeline l) = true)
    (h : searchForLifelines c me ch P g l = some (P', g')) : allowed c.mode P'.pc = true := by
  cases l <;> simp only [searchForLifelines] at h <;> (repeat' split at h) <;> cases h
  all_goals first | exact hP | rfl

theorem loop_allowed {l : LoopPc} (hP : allowed (n := n) c.mode (.loop l) = true)
    (h : finishLoop c me P g l = some (P', g')) : allowed c.mode P'.pc = true := by
  cases hm : c.mode <;> cases l <;> simp only [finishLoop, feedRemoteThieves] at h <;>
    (repeat' split at h) <;> cases h <;> first | rfl | simp_all [allowed, Config.distWS]

theorem commStep_allowed (h : commStep c me ch P g = some (P', g'))
    (hP : allowed c.mode P.pc = true) : allowed c.mode P'.pc = true := by
  cases hl : P.pc with
  | spmd l =>
      simp only [commStep, hl] at h
      cases l <;> simp only [finishSpmd, leaveBarrier] at h <;> (repeat' split at h) <;> cases h <;> rfl
  | exec l =>
      simp only [commStep, hl] at h
      cases l <;> simp only [popExecuteCommTask] at h <;> (repeat' split at h) <;> cases h <;> rfl
  | publish l =>
      simp only [commStep, hl] at h
      cases l <;> simp only [publishLocalLoadInfo] at h <;> (repeat' split at h) <;> cases h <;> rfl
  | drain l =>
      simp only [commStep, hl] at h
      rw [hl] at hP
      cases l <;> simp only [decrementTasksInFlightCount] at h <;> (repeat' split at h) <;> cases h <;>
        first | rfl | simp_all [allowed, Config.distWS, Place.goto]
  | cbarrier l =>
      simp only [commStep, hl] at h
      cases l <;> simp only [cbarrier] at h <;> (repeat' split at h) <;> cases h <;> rfl
  | loop l =>
      simp only [commStep, hl] at h
      exact loop_allowed (hl ▸ hP) h
  | serve l =>
      simp only [commStep, hl] at h
      exact serve_allowed (hl ▸ hP) h
  | ship l =>
      simp only [commStep, hl] at h
      exact ship_allowed (hl ▸ hP) h
  | idle l =>
      simp only [commStep, hl] at h
      exact idle_allowed (hl ▸ hP) h
  | steal l =>
      simp only [commStep, hl] at h
      exact steal_allowed (hl ▸ hP) h
  | lifeline l =>
      simp only [commStep, hl] at h
      exact lifeline_allowed (hl ▸ hP) h

theorem act_pc {a : Act n} (h : act c me a P g = some (P', g')) :
    P'.pc = P.pc ∨ P.frames = [] ∧ ∃ ch, commStep c me ch P g = some (P', g') := by
  have hstep := act_step h
  cases a with
  | comm ch =>
      obtain ⟨hframes, hcomm⟩ := act_comm h
      exact .inr ⟨hframes, ch, hcomm⟩
  | resume | deliver | work | idle =>
      left
      cases hstep <;> rfl

theorem allowed_reachable {ok} {s : State n} (hs : ReachableWhen (job c) ok s) (me : Fin n) :
    allowed c.mode (s.proc me).pc = true := by
  refine (hs.split_invariant (I := fun _ P => allowed c.mode P.pc = true) (J := fun _ => True)
    (fun _ => rfl) trivial ?_).1 me
  intro s me a P g _ _ hI _ ha
  refine ⟨?_, trivial⟩
  rcases act_pc ha with hpc | ⟨-, ch, hcomm⟩
  · rw [hpc]
    exact hI me
  · exact commStep_allowed hcomm (hI me)

end HabaneroUpc
