import HabaneroUpc.Lifeline
import HabaneroUpc.Migration
import HabaneroUpc.Termination

namespace HabaneroUpc.Assertions

open Interleaving ThiefQueue Termination

variable {n : Nat}

structure Abroad (me : Fin n) (P : Place n) : Prop where
  sending : ∀ task ∈ P.sending, task.wellFormed me = true
  deque : ∀ task ∈ P.deque, task.wellFormed me = true
  executed : ∀ task, P.pc = .exec (.inc task) ∨ P.pc = .exec (.exec task) → task.wellFormed me = true

def Msg.Abroad : Msg n → Prop
  | .asyncAt source dest | .shipment source dest _ _ => source ≠ dest
  | _ => True

variable {c : Config n} {me : Fin n} {ch : Choice n} {P P' : Place n} {g g' : Shared n} {s : State n}

theorem Abroad.kept (h : Abroad me P) (hsending : P'.sending = P.sending) (hdeque : P'.deque = P.deque)
    (hpc : P'.pc = P.pc ∨ ∀ task, P'.pc ≠ .exec (.inc task) ∧ P'.pc ≠ .exec (.exec task)) :
    Abroad me P' := by
  refine ⟨hsending ▸ h.sending, hdeque ▸ h.deque, fun task htask => ?_⟩
  rcases hpc with hpc | hpc
  · exact h.executed task (hpc ▸ htask)
  · exact (htask.elim (hpc task).1 (hpc task).2).elim

theorem abroad_erase (h : ∀ m ∈ g.net, Msg.Abroad m) (m : Msg n) :
    ∀ m' ∈ g.net.erase m, Msg.Abroad m' :=
  fun m' hm => h m' (List.mem_of_mem_erase hm)

theorem abroad_step {a : Act n} {r : Place n × Shared n} (h : Step c me P g a r)
    (hq : Queueing me P) (hslot : Slot.SlotInv c me P g) (hP : Abroad me P)
    (hg : ∀ m ∈ g.net, Msg.Abroad m) : Abroad me r.1 ∧ ∀ m ∈ r.2.net, Msg.Abroad m := by
  cases h with
  | control h hc =>
      refine ⟨hP.kept hc.sending hc.deque (.inr fun task => ?_), hc.net ▸ hg⟩
      have hpc := hc.pc'
      constructor <;> intro hexec <;> rw [hexec] at hpc <;> exact hpc
  | @pop ch task rest hpc hdeque =>
      have htask := hP.deque task (by simp [hdeque])
      refine ⟨⟨hP.sending, fun t ht => hP.deque t (by simp [hdeque, ht]), fun t ht => ?_⟩, hg⟩
      dsimp only at ht
      split at ht <;> rcases ht with ht | ht <;> cases ht <;> exact htask
  | @inc ch task hpc =>
      refine ⟨⟨hP.sending, hP.deque, fun t ht => ?_⟩, hg⟩
      rcases ht with ht | ht <;> cases ht
      exact hP.executed task (.inl hpc)
  | @exec ch task hpc =>
      have htask := hP.executed task (.inr hpc)
      refine ⟨hP.kept rfl rfl (.inr fun _ => ⟨nofun, nofun⟩), ?_⟩
      cases task with
      | asyncAt dest | asyncAfter dest =>
          exact List.forall_mem_cons.mpr ⟨fun heq => by simp [CommTask.wellFormed, heq] at htask, hg⟩
      | asyncCopy ddf => exact List.forall_mem_cons.mpr ⟨trivial, hg⟩
      | intraPlace => exact hg
  | popOrigin hpc hreceived =>
      refine ⟨hP.kept rfl rfl (.inr fun _ => ?_), hg⟩
      dsimp only
      split <;> exact ⟨nofun, nofun⟩
  | ended | returnOrigin | steal | stolen | shipInc | shipNowhere =>
      exact ⟨hP.kept rfl rfl (.inr fun _ => ⟨nofun, nofun⟩), hg⟩
  | @shipQueued ch tasks thief q fs hpc hpop =>
      refine ⟨hP.kept rfl rfl (.inr fun _ => ⟨nofun, nofun⟩), List.forall_mem_cons.mpr ⟨?_, hg⟩⟩
      obtain ⟨t, ht, hne⟩ := popThief_some hq.sound (hq.waiting (by rw [hpc]; trivial))
      rw [hpop] at ht
      cases ht
      exact hne.symm
  | @shipSlot ch thief tasks fs hpc =>
      refine ⟨hP.kept rfl rfl (.inr fun _ => ⟨nofun, nofun⟩), List.forall_mem_cons.mpr ⟨?_, hg⟩⟩
      exact (hslot.remote thief (hslot.own _ (by rw [hpc]; rfl))).symm
  | request =>
      exact ⟨hP.kept rfl rfl (.inr fun _ => ⟨nofun, nofun⟩), List.forall_mem_cons.mpr ⟨trivial, hg⟩⟩
  | stealRequest =>
      exact ⟨hP.kept rfl rfl (.inl rfl), List.forall_mem_cons.mpr ⟨trivial, abroad_erase hg _⟩⟩
  | asyncAt | asyncCopy | shipmentSlot | shipmentQueued | receipt =>
      exact ⟨hP.kept rfl rfl (.inl rfl), abroad_erase hg _⟩
  | @send task hrun hwf =>
      exact ⟨⟨List.forall_mem_cons.mpr ⟨hwf, hP.sending⟩, hP.deque, hP.executed⟩, hg⟩
  | @push task hsending =>
      refine ⟨⟨fun t ht => hP.sending t (List.mem_of_mem_erase ht), fun t ht => ?_, hP.executed⟩, hg⟩
      rcases List.mem_append.mp ht with ht | ht
      · exact hP.deque t ht
      · exact List.mem_singleton.mp ht ▸ hP.sending task hsending
  | idle | decrement | clearWait | async | asyncAny | finish | runAny =>
      exact ⟨hP.kept rfl rfl (.inl rfl), hg⟩

theorem abroad_reachable (hs : Reachable (job c) s) :
    (∀ me, Abroad me (s.proc me)) ∧ ∀ m ∈ s.shared.net, Msg.Abroad m := by
  refine hs.split_invariant (I := Abroad) (J := fun g => ∀ m ∈ g.net, Msg.Abroad m) ?_
    (fun m hm => by cases hm) ?_
  · exact fun me => ⟨nofun, nofun, fun task htask => by rcases htask with h | h <;> cases h⟩
  · intro s me a P g hs _ hI hJ ha
    exact abroad_step (act_step ha) ((queueing_reachable hs).1 me) (Slot.slotInv_reachable hs me) (hI me) hJ

def Asserts : PC n → Prop
  | .spmd .endBarrier | .ship (.ship _ _) | .lifeline (.send _ _ _) => True
  | _ => False

theorem commStep_failures (h : commStep c me ch P g = some (P', g')) (hpc : ¬Asserts P.pc) :
    g'.failures = g.failures := by
  cases hl : P.pc with
  | spmd l =>
      simp only [commStep, hl] at h
      cases l with
      | endBarrier => exact absurd (hl ▸ trivial) hpc
      | _ =>
          simp only [finishSpmd, leaveBarrier] at h
          repeat' split at h
          all_goals cases h
          all_goals rfl
  | exec l =>
      simp only [commStep, hl] at h
      cases l with
      | exec task => cases task <;> cases h <;> rfl
      | _ =>
          simp only [popExecuteCommTask] at h
          (repeat' split at h) <;> cases h <;> rfl
  | ship l =>
      simp only [commStep, hl] at h
      cases l with
      | ship r tasks => exact absurd (hl ▸ trivial) hpc
      | _ =>
          simp only [shipAsyncAny] at h
          (repeat' split at h) <;> cases h <;> rfl
  | idle l =>
      simp only [commStep, hl] at h
      cases l <;> simp only [markMyPlaceAsIdle] at h <;> (repeat' split at h) <;> cases h <;> rfl
  | lifeline l =>
      simp only [commStep, hl] at h
      cases l with
      | send i k v => exact absurd (hl ▸ trivial) hpc
      | _ =>
          simp only [searchForLifelines] at h
          (repeat' split at h) <;> cases h <;> rfl
  | publish l =>
      simp only [commStep, hl] at h
      cases l with
      | read | write =>
          cases h
          rfl
  | drain l =>
      simp only [commStep, hl] at h
      cases l <;> simp only [decrementTasksInFlightCount] at h <;> (repeat' split at h) <;> cases h <;> rfl
  | loop l =>
      simp only [commStep, hl] at h
      cases l <;> simp only [finishLoop] at h <;> (repeat' split at h) <;> cases h <;> rfl
  | cbarrier l =>
      simp only [commStep, hl] at h
      cases l <;> simp only [cbarrier] at h <;> (repeat' split at h) <;> cases h <;> rfl
  | serve l =>
      simp only [commStep, hl] at h
      cases l <;> simp only [serve] at h <;> (repeat' split at h) <;> cases h <;> rfl
  | steal l =>
      simp only [commStep, hl] at h
      cases l <;> simp only [searchTasksGloballySynchronous] at h <;> (repeat' split at h) <;> cases h <;> rfl

theorem check_true (g : Shared n) (a : Assertion) {holds : Bool} (h : holds = true) :
    g.check a holds = g := if_pos h

theorem endBarrier_failures (hs : Reachable (job c) s) (hpc : (s.proc me).pc = .spmd .endBarrier)
    (h : commStep c me ch (s.proc me) s.shared = some (P', g')) : g'.failures = s.shared.failures := by
  have hquiescent := terminated hs hpc
  have hfinish := (counted_reachable hs me).finish
  rw [(hquiescent.tasks me).1, (hquiescent.tasks me).2, (hquiescent.commTasks me).1,
    (hquiescent.commTasks me).2.1, hpc] at hfinish
  have hzero : (s.proc me).totalPendingLocalAsyncs = 0 := by
    simp only [Place.totalPendingLocalAsyncs, hfinish]
    rfl
  simp only [commStep, hpc, finishSpmd, check_true _ _ (decide_eq_true hzero)] at h
  cases h
  rfl

/-- A batch has a thief to go to, and fits into the message. -/
theorem ship_failures (hs : Reachable (job c) s) {r : Option (Fin n)} {tasks : List Nat}
    (hpc : (s.proc me).pc = .ship (.ship r tasks))
    (h : commStep c me ch (s.proc me) s.shared = some (P', g')) : g'.failures = s.shared.failures := by
  have hle := c.stolen_le
  have hloaded := Migration.loaded_reachable hs me
  rw [hpc] at hloaded
  have hsize : decide (tasks.length ≤ 5) = true := decide_eq_true (hloaded.2.trans hle)
  simp only [commStep, hpc] at h
  cases r with
  | some thief =>
      simp only [shipAsyncAny, check_true _ _ hsize] at h
      cases h
      rfl
  | none =>
      have hq := (queueing_reachable hs).1 me
      have hwaiting := hq.waiting (by rw [hpc]; trivial)
      have hne := hq.sound.waiting.mp hwaiting
      obtain ⟨thief, hthief, -⟩ := popThief_some hq.sound hwaiting
      obtain ⟨q, hpop⟩ : ∃ q, popThief (s.proc me).thiefQueue = (some thief, q) := ⟨_, Prod.ext hthief rfl⟩
      have hnotEmpty : decide ((s.proc me).thiefQueue.head ≠ (s.proc me).thiefQueue.tail ∨
          (!(s.proc me).thiefQueue.thievesWaiting) = true) = true := decide_eq_true (.inl hne)
      simp only [shipAsyncAny, hpop, check_true _ _ hsize] at h
      cases h
      simp only [Shared.send, check_true _ _ hnotEmpty]
      rfl

/-- A victim is asked again only after it has answered. -/
theorem send_failures (hcancel : c.cancelCyclicSteals = false) (hs : Reachable (job c) s) {i k : Nat}
    {v : Fin n} (hpc : (s.proc me).pc = .lifeline (.send i k v))
    (h : commStep c me ch (s.proc me) s.shared = some (P', g')) : g'.failures = s.shared.failures := by
  have hfresh := (asking_reachable hs me).fresh v (by rw [hpc]; rfl)
  simp only [commStep, hpc, searchForLifelines, markVictimContacted, hcancel, Bool.false_and,
    Bool.false_eq_true, if_false, check_true _ _ (decide_eq_true hfresh)] at h
  cases h
  rfl

theorem comm_failures (hcancel : c.cancelCyclicSteals = false) (hs : Reachable (job c) s)
    (h : commStep c me ch (s.proc me) s.shared = some (P', g')) : g'.failures = s.shared.failures := by
  by_cases hasserts : Asserts (s.proc me).pc
  · unfold Asserts at hasserts
    split at hasserts
    · exact endBarrier_failures hs ‹_› h
    · exact ship_failures hs ‹_› h
    · exact send_failures hcancel hs ‹_› h
    · exact hasserts.elim
  · exact commStep_failures h hasserts

/-- Without the cancellation of cyclic steals no assertion of the runtime fails,
in any mode, and no write goes past the end of an array. -/
theorem assertions_hold (hcancel : c.cancelCyclicSteals = false) (hs : Reachable (job c) s) :
    s.shared.failures = [] := by
  refine hs.invariant (I := fun s => s.shared.failures = []) rfl ?_
  intro s me a P' g' hs _ hnone ha
  have hnext : Reachable (job c) (s.set me (P', g')) := .next hs trivial (next_eq_some.mpr ⟨_, _, ha, rfl⟩)
  have hlifeline := (Lifeline.exact_reachable hcancel hnext).2
  have habroad := (abroad_reachable hs).2
  rw [set_shared] at hlifeline ⊢
  have hstep : Step c me (s.proc me) s.shared a (P', g') := act_step ha
  have hold (x : Assertion) : x ∉ s.shared.failures := by simp [hnone]
  apply List.eq_nil_iff_forall_not_mem.mpr
  cases a with
  | comm ch =>
      rw [comm_failures hcancel hs (act_comm ha).2]
      exact hold
  | deliver m =>
      intro x hx
      have hclear := hlifeline x hx
      cases hstep with
      | asyncAt hm hpolls hfs =>
          rcases hfs x hx with hx | ⟨-, heq⟩
          · exact hold x hx
          · exact habroad _ hm heq
      | shipmentSlot hm hpolls hfs =>
          rcases hfs x hx with hx | ⟨-, heq⟩
          · exact hold x hx
          · exact habroad _ hm heq
      | shipmentQueued hm hpolls hfs =>
          rcases hfs x hx with hx | ⟨-, heq⟩ | ⟨rfl, -⟩
          · exact hold x hx
          · exact habroad _ hm heq
          · cases hclear
      | stealRequest hm hpolls hfs =>
          rcases hfs x hx with hx | ⟨rfl, -⟩
          · exact hold x hx
          · cases hclear
      | asyncCopy | receipt => exact hold x hx
  | resume | work | idle => cases hstep <;> exact hold

theorem assertions_hold_taken :
    ((job (twoPlaces .baseline false)).after Migration.taken).shared.failures = [] :=
  assertions_hold rfl (after_reachable _ _)

end HabaneroUpc.Assertions
