import HabaneroUpc.Thieves
import HabaneroUpc.Lib.Tally
import Mathlib.Algebra.BigOperators.Group.Finset.Piecewise

namespace HabaneroUpc

open Interleaving Tally ThiefQueue

variable {n : Nat}

def Msg.lifeline : Msg n → Bool
  | .stealRequest _ _ | .receipt _ _ | .shipment _ _ _ false => true
  | _ => false

def Assertion.lifeline : Assertion → Bool
  | .victimNotContacted | .victimContacted | .queueNotFull => true
  | _ => false

/-- What one step does to the marks and the queue of thieves of its place and
to the messages of the asynchronous protocol. -/
inductive ContactChange (c : Config n) (me : Fin n) (a : Act n) (P : Place n) (g : Shared n)
    (P' : Place n) (g' : Shared n) : Prop
  | still (hmarks : P'.contactedVictims = P.contactedVictims) (hqueue : P'.thiefQueue = P.thiefQueue)
      (hwaiting : P'.waitingForReturnAsync = P.waitingForReturnAsync)
      (hwait : ∀ i k, P.waitingForReturnAsync = true → P.pc = .lifeline (.wait i k) → P'.pc = P.pc)
      (hcontacting : ∀ v, contacting P'.pc = some v →
        P.contactedVictims v = .popped ∨ contacting P.pc = some v)
      (hnet : ∀ f : Msg n → Bool, (∀ m, f m = true → m.lifeline = true) →
        g'.net.countP f = g.net.countP f)
      (hfs : ∀ a ∈ g'.failures, a.lifeline = true → a ∈ g.failures)
  | request (i k : Nat) (v : Fin n) (hpc : P.pc = .lifeline (.send i k v))
      (hpc' : P'.pc = .lifeline (.wait i k))
      (hmarks : P'.contactedVictims = Function.update P.contactedVictims v .queued)
      (hqueue : P'.thiefQueue = if cancelsThief c v P then cancelThief v P.thiefQueue else P.thiefQueue)
      (hwaiting : P'.waitingForReturnAsync = true) (hnet : g'.net = .stealRequest me v :: g.net)
      (hfs : ∀ a ∈ g'.failures, a ∈ g.failures ∨
        a = .victimNotContacted ∧ P.contactedVictims v = .queued ∨ a = .copyInBounds)
  | arrived (t : Fin n) (ha : a = .deliver (.stealRequest t me)) (hm : .stealRequest t me ∈ g.net)
      (hpc : P'.pc = P.pc)
      (hmarks : P'.contactedVictims = if cancelsMark c t P then
        Function.update P.contactedVictims t .popped else P.contactedVictims)
      (hqueue : P'.thiefQueue = pushThief t P.thiefQueue)
      (hwaiting : P'.waitingForReturnAsync = P.waitingForReturnAsync)
      (hnet : g'.net = .receipt me t :: g.net.erase (.stealRequest t me))
      (hfs : ∀ a ∈ g'.failures, a ∈ g.failures ∨ a = .queueNotFull ∧ fullThiefQueue P.thiefQueue = true)
  | popped (t : Fin n) (tasks : List Nat) (hcontacting : contacting P'.pc = none)
      (hpc : ∀ i k, P.pc ≠ .lifeline (.wait i k))
      (hmarks : P'.contactedVictims = P.contactedVictims)
      (hqueue : popThief P.thiefQueue = (some t, P'.thiefQueue))
      (hwaiting : P'.waitingForReturnAsync = P.waitingForReturnAsync)
      (hnet : g'.net = .shipment me t tasks false :: g.net)
      (hfs : ∀ a ∈ g'.failures, a.lifeline = true → a ∈ g.failures)
  | shipped (v : Fin n) (tasks : List Nat) (hm : .shipment v me tasks false ∈ g.net) (hpc : P'.pc = P.pc)
      (hmarks : P'.contactedVictims = Function.update P.contactedVictims v .popped)
      (hqueue : P'.thiefQueue = P.thiefQueue)
      (hwaiting : P'.waitingForReturnAsync = P.waitingForReturnAsync)
      (hnet : g'.net = g.net.erase (.shipment v me tasks false))
      (hfs : ∀ a ∈ g'.failures, a ∈ g.failures ∨ a = .sourceIsRemote ∨
        a = .victimContacted ∧ P.contactedVictims v = .popped)
  | received (v : Fin n) (hm : .receipt v me ∈ g.net) (hpc : P'.pc = P.pc)
      (hmarks : P'.contactedVictims = P.contactedVictims) (hqueue : P'.thiefQueue = P.thiefQueue)
      (hwaiting : P'.waitingForReturnAsync = false) (hnet : g'.net = g.net.erase (.receipt v me))
      (hfs : g'.failures = g.failures)

variable {c : Config n} {me : Fin n} {a : Act n} {P P' : Place n} {g g' : Shared n}

theorem not_counted {m : Msg n} {f : Msg n → Bool} (hf : ∀ m, f m = true → m.lifeline = true)
    (hm : m.lifeline = false) : ¬f m = true := by
  intro h
  rw [hf m h] at hm
  cases hm

theorem ContactChange.aside (hpc : P'.pc = P.pc ∨
      contacting P'.pc = none ∧ ∀ i k, P.pc ≠ .lifeline (.wait i k))
    (hP : P'.contactedVictims = P.contactedVictims ∧ P'.thiefQueue = P.thiefQueue ∧
      P'.waitingForReturnAsync = P.waitingForReturnAsync)
    (hnet : ∀ f : Msg n → Bool, (∀ m, f m = true → m.lifeline = true) → g'.net.countP f = g.net.countP f)
    (hfs : ∀ a ∈ g'.failures, a.lifeline = true → a ∈ g.failures) : ContactChange c me a P g P' g' := by
  refine .still hP.1 hP.2.1 hP.2.2 ?_ ?_ hnet hfs
  · intro i k _ hwait
    exact hpc.resolve_right fun h => h.2 i k hwait
  · intro v hv
    rcases hpc with hpc | ⟨hpc, -⟩
    · exact .inr (hpc ▸ hv)
    · rw [hpc] at hv
      cases hv

theorem contact_change {r : Place n × Shared n} (h : Step c me P g a r) (hq : Queueing me P) :
    ContactChange c me a P g r.1 r.2 := by
  cases h with
  | control h hc =>
      refine .still hc.contactedVictims hc.thiefQueue hc.waiting ?_ ?_ (fun _ _ => by rw [hc.net]) ?_
      · intro i k hw hpc
        simp [commStep, hpc, searchForLifelines, hw] at h
      · intro v hv
        exact (control_contacting h hv).imp_left And.right
      · intro a ha hl
        apply (hc.failures a ha).resolve_right
        rintro rfl
        cases hl
  | idle | async | asyncAny | send | push | finish | runAny | decrement | clearWait =>
      exact .aside (.inl rfl) ⟨rfl, rfl, rfl⟩ (fun _ _ => rfl) fun _ ha _ => ha
  | pop hpc | popOrigin hpc =>
      refine .aside (.inr ⟨?_, fun i k h => ?_⟩) ⟨rfl, rfl, rfl⟩ (fun _ _ => rfl) fun _ ha _ => ha
      · dsimp only
        split <;> rfl
      · rw [hpc] at h
        cases h
  | inc hpc | ended hpc | returnOrigin hpc | steal hpc | stolen hpc | shipInc hpc =>
      refine .aside (.inr ⟨rfl, fun i k h => ?_⟩) ⟨rfl, rfl, rfl⟩ (fun _ _ => rfl) fun _ ha _ => ha
      rw [hpc] at h
      cases h
  | @exec ch task hpc =>
      refine .aside (.inr ⟨rfl, fun i k h => ?_⟩) ⟨rfl, rfl, rfl⟩ ?_ ?_
      · rw [hpc] at h
        cases h
      · intro f hf
        cases task <;> first | rfl | exact List.countP_cons_of_neg (not_counted hf rfl)
      · cases task <;> exact fun _ ha _ => ha
  | @shipQueued ch tasks thief q fs hpc hpop hfs =>
      refine .popped thief tasks rfl (fun i k h => ?_) rfl hpop rfl rfl fun a ha hl => ?_
      · rw [hpc] at h
        cases h
      · rcases hfs a ha with ha | rfl | rfl
        · exact ha
        · cases hl
        · cases hl
  | shipNowhere hpc hpop =>
      -- a batch is taken for the queue only while a thief waits in it
      obtain ⟨t, ht, -⟩ := popThief_some hq.sound (hq.waiting (by rw [hpc]; trivial))
      rw [hpop] at ht
      cases ht
  | shipSlot hpc hfs =>
      refine .aside (.inr ⟨rfl, fun i k h => ?_⟩) ⟨rfl, rfl, rfl⟩
        (fun f hf => List.countP_cons_of_neg (not_counted hf rfl))
        fun a ha hl => (hfs a ha).resolve_right ?_
      · rw [hpc] at h
        cases h
      · rintro rfl
        cases hl
  | @request ch i k v fs hpc hfs => exact .request i k v hpc rfl rfl rfl rfl rfl hfs
  | asyncAt hm hpolls hfs =>
      refine .aside (.inl rfl) ⟨rfl, rfl, rfl⟩
        (fun f hf => countP_erase_of_not (not_counted hf rfl) _) fun a ha hl =>
        (hfs a ha).resolve_right ?_
      rintro ⟨rfl, -⟩
      cases hl
  | asyncCopy =>
      exact .aside (.inl rfl) ⟨rfl, rfl, rfl⟩
        (fun f hf => countP_erase_of_not (not_counted hf rfl) _) fun a ha _ => ha
  | shipmentSlot hm hpolls hfs =>
      refine .aside (.inl rfl) ⟨rfl, rfl, rfl⟩
        (fun f hf => countP_erase_of_not (not_counted hf rfl) _) fun a ha hl =>
        (hfs a ha).resolve_right ?_
      rintro ⟨rfl, -⟩
      cases hl
  | shipmentQueued hm hpolls hfs =>
      exact .shipped _ _ hm rfl rfl rfl rfl rfl fun a ha =>
        (hfs a ha).imp_right fun h => h.imp_left And.left
  | stealRequest hm hpolls hfs => exact .arrived _ rfl hm rfl rfl rfl rfl rfl hfs
  | receipt hm => exact .received _ hm rfl rfl rfl rfl rfl rfl

theorem act_contact (h : act c me a P g = some (P', g')) (hq : Queueing me P) :
    ContactChange c me a P g P' g' :=
  contact_change (act_step h) hq

structure Asking (P : Place n) : Prop where
  fresh : ∀ v, contacting P.pc = some v → P.contactedVictims v = .popped
  waits : P.waitingForReturnAsync = true → ∃ i k, P.pc = .lifeline (.wait i k)

theorem asking_step (h : ContactChange c me a P g P' g') (hP : Asking P) : Asking P' := by
  have hunmarked {v w : Fin n} (hw : P.contactedVictims w = .popped) :
      Function.update P.contactedVictims v .popped w = .popped := by
    by_cases hwv : w = v
    · simp [hwv]
    · rwa [Function.update_of_ne hwv]
  cases h with
  | still hmarks hqueue hwaiting hwait hcontacting =>
      refine ⟨fun v hv => ?_, fun hw => ?_⟩
      · rw [hmarks]
        exact (hcontacting v hv).elim id (hP.fresh v)
      · rw [hwaiting] at hw
        obtain ⟨i, k, hpc⟩ := hP.waits hw
        exact ⟨i, k, (hwait i k hw hpc).trans hpc⟩
  | request i k v hpc hpc' =>
      refine ⟨fun v hv => ?_, fun _ => ⟨i, k, hpc'⟩⟩
      rw [hpc'] at hv
      cases hv
  | arrived t ha hm hpc hmarks hqueue hwaiting =>
      refine ⟨fun v hv => ?_, fun hw => ?_⟩
      · have hfresh := hP.fresh v (hpc ▸ hv)
        rw [hmarks]
        split
        · exact hunmarked hfresh
        · exact hfresh
      · rw [hpc]
        exact hP.waits (hwaiting ▸ hw)
  | popped t tasks hcontacting hpc hmarks hqueue hwaiting =>
      refine ⟨fun v hv => ?_, fun hw => ?_⟩
      · rw [hcontacting] at hv
        cases hv
      · obtain ⟨i, k, hwait⟩ := hP.waits (hwaiting ▸ hw)
        exact absurd hwait (hpc i k)
  | shipped v tasks hm hpc hmarks hqueue hwaiting =>
      refine ⟨fun w hw => ?_, fun hw => ?_⟩
      · rw [hmarks]
        exact hunmarked (hP.fresh w (hpc ▸ hw))
      · rw [hpc]
        exact hP.waits (hwaiting ▸ hw)
  | received v hm hpc hmarks hqueue hwaiting =>
      refine ⟨fun w hw => ?_, fun hw => ?_⟩
      · rw [hmarks]
        exact hP.fresh w (hpc ▸ hw)
      · rw [hwaiting] at hw
        cases hw

theorem asking_init (me : Fin n) : Asking (Place.init me) := by
  exact ⟨fun v hv => (by cases hv), fun h => (by cases h)⟩

theorem asking_reachable {ok} {s : State n} (hs : ReachableWhen (job c) ok s) (me : Fin n) :
    Asking (s.proc me) := by
  refine (hs.split_invariant (J := fun _ => True) asking_init trivial ?_).1 me
  intro s me a P g hs _ hI _ ha
  exact ⟨asking_step (act_contact ha ((queueing_reachable hs).1 me)) (hI me), trivial⟩

def awaitedBy (t : Fin n) : Msg n → Bool
  | .stealRequest me _ => me = t
  | .receipt _ me => me = t
  | _ => false

/-- A request is followed by its receipt, and either ends the wait only. -/
theorem waiting_reachable {ok} {s : State n} (hs : ReachableWhen (job c) ok s) (t : Fin n) :
    (s.proc t).waitingForReturnAsync.toNat = s.shared.net.countP (awaitedBy t) := by
  have hw : (s.shared.net.countP (awaitedBy t) : Int) =
      total (fun p P => if p = t then (P.waitingForReturnAsync.toNat : Int) else 0) s.proc := by
    refine conserved (S := job c) (fun g => (g.net.countP (awaitedBy t) : Int)) _ ?_ ?_ hs
    · simp [total, job, Shared.init, Place.init]
    · intro s me a P g hs _ hI ha
      have hown : me = t → (s.shared.net.countP (awaitedBy t) : Int) =
          (s.proc me).waitingForReturnAsync.toNat := by
        rintro rfl
        simpa [total] using hI
      cases act_contact ha ((queueing_reachable hs).1 me) with
      | still hmarks hqueue hwaiting hwait hcontacting hnet =>
          have hlifeline (m : Msg n) (hm : awaitedBy t m = true) : m.lifeline = true := by
            cases m <;> first | rfl | cases hm
          simp only [hwaiting, hnet _ hlifeline]
      | request i k v hpc hpc' hmarks hqueue hwaiting hnet =>
          have hfree : (s.proc me).waitingForReturnAsync = false := by
            cases hw : (s.proc me).waitingForReturnAsync with
            | false => rfl
            | true =>
                obtain ⟨i', k', hwait⟩ := (asking_reachable hs me).waits hw
                rw [hpc] at hwait
                cases hwait
          by_cases ht : me = t
          · subst ht
            simp [hwaiting, hfree, hnet, awaitedBy]
          · simp [hnet, awaitedBy, ht]
      | arrived u ha hm hpc hmarks hqueue hwaiting hnet =>
          rw [hwaiting, hnet, List.countP_cons, List.countP_erase]
          by_cases hu : u = t
          · subst hu
            have hpos : 0 < s.shared.net.countP (awaitedBy u) :=
              List.countP_pos_iff.mpr ⟨_, hm, by simp [awaitedBy]⟩
            simp [awaitedBy, hm]
            omega
          · simp [awaitedBy, hu]
      | popped u tasks hcontacting hpc hmarks hqueue hwaiting hnet =>
          simp [hwaiting, hnet, awaitedBy]
      | shipped v tasks hm hpc hmarks hqueue hwaiting hnet =>
          simp [hwaiting, hnet, List.countP_erase, awaitedBy]
      | received v hm hpc hmarks hqueue hwaiting hnet =>
          rw [hwaiting, hnet, List.countP_erase]
          by_cases ht : me = t
          · subst ht
            have hpos : 0 < s.shared.net.countP (awaitedBy me) :=
              List.countP_pos_iff.mpr ⟨_, hm, by simp [awaitedBy]⟩
            have hle := Bool.toNat_le (s.proc me).waitingForReturnAsync
            have hone := hown rfl
            simp [awaitedBy, hm]
            omega
          · simp [awaitedBy, ht]
  simpa [total] using hw.symm

end HabaneroUpc
