import HabaneroUpc.Advertising
import HabaneroUpc.Migration
import HabaneroUpc.StrandedThief

namespace HabaneroUpc.SyncSteal

open Interleaving Slot Advertising

variable {n : Nat}

/-- What has happened to a thief: its variables as mark_myPlace_asIdle left
them, or for out_of_work an async that was run since, and in the present attempt
the victim whose slot the thief is in, whether a shipment of that victim with a
task in it has been run, and whether a victim has invalidated the request. -/
structure Attempt (n : Nat) where
  load : Int
  slot : Req n
  outOfWork : Bool
  victim : Option (Fin n)
  arrived : Bool
  invalidated : Bool
  deriving DecidableEq

def Attempt.init : Attempt n := ⟨notWorking, .unavailable, false, none, false, false⟩

def Attempt.again (x : Attempt n) : Attempt n :=
  { x with victim := none, arrived := false, invalidated := false }

def Attempt.deliver (x : Attempt n) (P' : Place n) : Msg n → Attempt n
  | .shipment v _ tasks true =>
      { x with
        outOfWork := P'.outOfWork
        arrived := x.arrived || (x.victim = some v && !tasks.isEmpty) }
  | _ => { x with outOfWork := P'.outOfWork }

def invalidates (t : Fin n) (pc : PC n) (a : Act n) : Bool :=
  match a with
  | .comm _ => pc = .idle (.write (.thief t))
  | _ => false

def Attempt.step (t : Fin n) (pc : PC n) (s' : State n) (x : Attempt n) : Attempt n :=
  match pc with
  | .idle _ =>
      if marking (s'.proc t).pc then x
      else ⟨s'.shared.workAvail t, s'.shared.reqThread t, (s'.proc t).outOfWork, none, false, false⟩
  | .steal (.loop _) => x.again
  | .steal (.register _ v) => { x with victim := some v }
  | _ => x

def attempted (t : Fin n) (s : State n) (p : Fin n) (a : Act n) (s' : State n) (x : Attempt n) :
    Attempt n :=
  if p = t then
    match a with
    | .deliver m => x.deliver (s'.proc t) m
    | .comm _ => x.step t (s.proc t).pc s'
    | _ => x
  else if invalidates t (s.proc p).pc a then { x with invalidated := true }
  else x

abbrev Attempted (c : Config n) (t : Fin n) : State n → Attempt n → Prop :=
  Traced (job c) (fun _ _ _ _ => True) (attempted t) (job c).init Attempt.init

def Asking : PC n → Prop
  | .steal (.probe _ _) | .steal (.lock _ _) | .steal (.test _ _) | .steal (.flag _ _)
  | .steal (.register _ _) | .steal (.unlock _ _ false) => True
  | _ => False

def Asked : PC n → Prop
  | .steal (.unlock _ _ true) | .steal (.wait _) | .steal .received | .steal .reopen => True
  | _ => False

/-- The attempt of t against what is in the slots and on its way to t. -/
structure Fate (t : Fin n) (s : State n) (x : Attempt n) : Prop where
  holds : ∀ v, Holds t v s → x.victim = some v ∧ x.arrived = false ∧ x.invalidated = false
  shipped : ∀ v tasks, .shipment v t tasks true ∈ s.shared.net →
    tasks ≠ [] ∧ x.victim = some v ∧ x.arrived = false ∧ x.invalidated = false
  frames : (s.proc t).frames ≠ [] → x.arrived = true ∧ x.invalidated = false
  answering : ∀ p, answering (s.proc p).pc = some t → x.arrived = false ∧ x.invalidated = true
  asking : Asking (s.proc t).pc → x.arrived = false ∧ x.invalidated = false
  asked : Asked (s.proc t).pc → s.shared.waitForTaskFromVictim t = false →
    x.arrived = !x.invalidated

variable {c : Config n} {me t : Fin n} {ch : Choice n} {P P' : Place n} {g g' : Shared n} {s : State n}
  {x : Attempt n}

theorem shipment_sent {a : Act n} {r : Place n × Shared n} (h : Step c me P g a r) {v : Fin n}
    {tasks : List Nat} (hm : .shipment v t tasks true ∈ r.2.net) :
    .shipment v t tasks true ∈ g.net ∨ v = me ∧ P.pc = .ship (.ship (some t) tasks) := by
  cases h with
  | control _ hc => exact .inl (hc.net ▸ hm)
  | @exec ch task hpc =>
      left
      cases task <;> simpa [executeCommTask, Shared.send] using hm
  | shipSlot hpc =>
      simp only [Shared.record, Shared.send, List.mem_cons, Msg.shipment.injEq] at hm
      rcases hm with ⟨rfl, rfl, rfl, -⟩ | hm
      · exact .inr ⟨rfl, hpc⟩
      · exact .inl hm
  | shipQueued | request =>
      left
      simpa [Shared.send] using hm
  | asyncAt | asyncCopy | shipmentSlot | shipmentQueued | receipt => exact .inl (List.mem_of_mem_erase hm)
  | stealRequest =>
      simp only [Shared.send, List.mem_cons, reduceCtorEq, false_or] at hm
      exact .inl (List.mem_of_mem_erase hm)
  | _ => exact .inl hm

/-- A place gets a baseline shipment to run only by its delivery. -/
theorem frames_delivered {a : Act n} {r : Place n × Shared n} (h : Step c me P g a r)
    (hframes : r.1.frames ≠ []) : P.frames ≠ [] ∨
      ∃ v tasks, a = .deliver (.shipment v me tasks true) ∧ .shipment v me tasks true ∈ g.net := by
  cases h with
  | control _ hc => exact .inl (hc.frames ▸ hframes)
  | shipmentSlot hm => exact .inr ⟨_, _, rfl, hm⟩
  | decrement hold | clearWait hold =>
      left
      simp [hold]
  | _ => exact .inl hframes

theorem answering_begins {a : Act n} (hs : SlotInv c me P g) (h : act c me a P g = some (P', g'))
    (hans : answering P'.pc = some t) : answering P.pc = some t ∨ invalidates t P.pc a = true := by
  cases a with
  | comm ch =>
      cases slot_change hs h with
      | still _ hsame => exact .inl (hsame ▸ hans)
      | opened _ hpc' | invalidated _ _ hpc' => simp [hpc'.2.1] at hans
      | withdrawn u hpc hpc' =>
          rw [hpc'] at hans
          cases hans
          exact .inr (decide_eq_true hpc)
      | reset r _ hpc' _ hr =>
          cases r with
          | thief u => exact absurd rfl (hr u)
          | available | unavailable =>
              rw [hpc'] at hans
              cases hans
      | served _ _ _ _ hpc' | reopened _ _ hpc' | flagged _ _ _ hpc' | registered _ _ _ hpc' =>
          rw [hpc'] at hans
          cases hans
      | delivered _ _ _ hpc | cleared hpc => exact .inl (hpc ▸ hans)
  | resume | deliver | work | idle =>
      left
      have hstep := act_step h
      cases hstep <;> exact hans

/-- The wait of a thief is ended by a shipment that it runs, or by the victim
that invalidates its request. -/
theorem wait_ends {a : Act n} (hs : SlotInv c me P g) (h : act c me a P g = some (P', g'))
    (hwait : g'.waitForTaskFromVictim t = false) : g.waitForTaskFromVictim t = false ∨
      me = t ∧ P.frames ≠ [] ∨ answering P.pc = some t := by
  cases slot_change hs h with
  | still _ _ _ _ _ hsame | delivered _ _ _ _ _ _ hsame => exact .inl (hsame ▸ hwait)
  | opened _ _ _ _ hg | served _ _ _ _ _ _ hg | reopened _ _ _ _ hg | reset _ _ _ _ _ hg
  | withdrawn _ _ _ _ hg | registered _ _ _ _ _ hg =>
      subst hg
      exact .inl hwait
  | invalidated u hpc _ _ hg =>
      subst hg
      by_cases hu : t = u
      · subst hu
        exact .inr (.inr (by rw [hpc]; rfl))
      · left
        simpa [Shared.record, Shared.setWaitForTask, hu] using hwait
  | flagged i v hpc _ _ hg =>
      subst hg
      by_cases hu : t = me
      · subst hu
        simp [Shared.setWaitForTask] at hwait
      · left
        simpa [Shared.setWaitForTask, hu] using hwait
  | cleared _ hframes hg =>
      subst hg
      by_cases hu : t = me
      · refine .inr (.inl ⟨hu.symm, ?_⟩)
        intro hnil
        rw [hnil] at hframes
        simp at hframes
      · left
        simpa [Shared.record, Shared.setWaitForTask, hu] using hwait

/-- Without a wait nothing can have happened to a request. -/
theorem fate_idle (hone : OneReason t s) (hwait : s.shared.waitForTaskFromVictim t = false)
    (hasked : ¬Asked (s.proc t).pc) (harrived : x.arrived = false) (hinv : x.invalidated = false) :
    Fate t s x := by
  have hzero : answers t s = 0 ∧ requests t s = 0 := by
    rw [OneReason, hwait, Bool.toNat_false] at hone
    omega
  refine ⟨?_, ?_, ?_, ?_, fun _ => ⟨harrived, hinv⟩, fun h => absurd h hasked⟩
  · intro v hv
    have hpos := requests_pos hv
    omega
  · intro v tasks hm
    have hpos : 0 < s.shared.net.countP (boundFor t) :=
      List.countP_pos_iff.mpr ⟨_, hm, by simp [boundFor]⟩
    have hle := hzero.1
    simp only [answers] at hle
    omega
  · intro hframes
    have hpos := List.length_pos_iff.mpr hframes
    have hle := hzero.1
    simp only [answers] at hle
    omega
  · intro p hp
    have hpos := answering_le t p s hp
    omega

theorem next_oneReason {a : Act n} (hs : Reachable (job c) s)
    (ha : act c me a (s.proc me) s.shared = some (P', g')) (t : Fin n) :
      OneReason t (s.set me (P', g')) :=
  oneReason_reachable (.next hs trivial (next_eq_some.mpr ⟨P', g', ha, rfl⟩)) t

theorem holds_shipment (hs : SlotInv c me (s.proc me) s.shared) {tasks : List Nat}
    (hpc : (s.proc me).pc = .ship (.ship (some t) tasks)) : Holds t me s :=
  ⟨hs.own (.thief t) (by rw [hpc]; rfl), by simp [hpc, reopening]⟩

theorem holds_begins {a : Act n} (hs : Reachable (job c) s)
    (ha : act c me a (s.proc me) s.shared = some (P', g')) {v : Fin n}
    (hv : Holds t v (s.set me (P', g'))) : Holds t v s ∨ registering (s.proc t).pc = true ∧
      registering ((s.set me (P', g')).proc t).pc = false := by
  have hone := next_oneReason hs ha t
  cases request_change t (slotInv_reachable hs) ha with
  | quiet _ hholds | ended _ hholds => exact .inl ((hholds v).mp hv)
  | asked w hregistering =>
      right
      refine ⟨hregistering, ?_⟩
      by_contra hne
      exact hone.not_holds (.inl (by simpa using hne)) v hv
  | replied w e hw hanswers => exact absurd hv (hone.not_holds (.inr hanswers) v)

theorem registering_of_awaiting {pc : PC n} (hasking : Asking pc) (hawait : Awaiting pc) :
    registering pc = true := by
  unfold Awaiting at hawait
  split at hawait
  · rfl
  · exact hasking.elim
  · exact hasking.elim
  · exact hawait.elim

theorem answers_answering {p : Fin n} (h : answering (s.proc p).pc = some t) :
    (s.proc t).frames.length + s.shared.net.countP (boundFor t) < answers t s := by
  have hle := Tally.le_total (M := Nat)
    (fun _ P => if answering P.pc = some t then 1 else 0) s.proc p
  rw [if_pos h] at hle
  rw [answers]
  omega

/-- While a shipment is run or a request is invalidated, nothing else has
happened to the attempt. -/
theorem fate_answered (hone : OneReason t s) (hanswers : 0 < answers t s)
    (hshipped : s.shared.net.countP (boundFor t) = 0)
    (hframes : (s.proc t).frames ≠ [] → x.arrived = true ∧ x.invalidated = false)
    (hanswering : ∀ p, answering (s.proc p).pc = some t → x.arrived = false ∧ x.invalidated = true)
    (hawait : Awaiting (s.proc t).pc) : Fate t s x := by
  have hwait := hone.wait_of_answers hanswers
  refine ⟨fun v hv => absurd hv (hone.not_holds (.inr hanswers) v), ?_, hframes, hanswering, ?_, ?_⟩
  · intro v tasks hm
    have hnone := List.countP_eq_zero.mp hshipped _ hm
    simp [boundFor] at hnone
  · intro hasking
    have hregistering := registering_of_awaiting hasking hawait
    have hle := hone.le_one
    rw [hregistering, Bool.toNat_true] at hle
    omega
  · intro _ hover
    rw [hwait] at hover
    cases hover

theorem Fate.of_eq {x' : Attempt n} (hf : Fate t s x) (hvictim : x'.victim = x.victim)
    (harrived : x'.arrived = x.arrived) (hinvalidated : x'.invalidated = x.invalidated) :
      Fate t s x' := by
  constructor <;> rw [harrived, hinvalidated]
  · rw [hvictim]
    exact hf.holds
  · rw [hvictim]
    exact hf.shipped
  · exact hf.frames
  · exact hf.answering
  · exact hf.asking
  · exact hf.asked

theorem Fate.same {a : Act n} (hs : Reachable (job c) s) (hf : Fate t s x)
    (ha : act c me a (s.proc me) s.shared = some (P', g'))
    (hinv : invalidates t (s.proc me).pc a = false)
    (hdeliver : ∀ v tasks, a = .deliver (.shipment v me tasks true) → me ≠ t)
    (hregister : registering (s.proc t).pc = true →
      registering ((s.set me (P', g')).proc t).pc = true)
    (hasking : Asking ((s.set me (P', g')).proc t).pc → Asking (s.proc t).pc)
    (hasked : Asked ((s.set me (P', g')).proc t).pc → Asked (s.proc t).pc) :
    Fate t (s.set me (P', g')) x := by
  have hslot := slotInv_reachable hs me
  have hframes (h : ((s.set me (P', g')).proc t).frames ≠ []) : (s.proc t).frames ≠ [] := by
    by_cases hme : t = me
    · subst hme
      rw [set_proc_self] at h
      apply (frames_delivered (act_step ha) h).resolve_right
      rintro ⟨v, tasks, rfl, -⟩
      exact hdeliver v tasks rfl rfl
    · rwa [set_proc_of_ne s (P', g') hme] at h
  refine ⟨?_, ?_, fun h => hf.frames (hframes h), ?_, fun h => hf.asking (hasking h), ?_⟩
  · intro v hv
    refine hf.holds v ((holds_begins hs ha hv).resolve_right ?_)
    rintro ⟨hold, hnew⟩
    rw [hregister hold] at hnew
    cases hnew
  · intro v tasks hm
    rcases shipment_sent (act_step ha) hm with hm | ⟨rfl, hpc⟩
    · exact hf.shipped v tasks hm
    · have hloaded := Migration.loaded_reachable hs v
      rw [hpc] at hloaded
      exact ⟨hloaded.1, hf.holds v (holds_shipment hslot hpc)⟩
  · intro p hp
    by_cases hpme : p = me
    · subst hpme
      rw [set_proc_self] at hp
      exact hf.answering p ((answering_begins hslot ha hp).resolve_right (by simp [hinv]))
    · rw [set_proc_of_ne s (P', g') hpme] at hp
      exact hf.answering p hp
  · intro h hwait
    rcases wait_ends hslot ha hwait with hwait | ⟨rfl, hrun⟩ | hanswering
    · exact hf.asked (hasked h) hwait
    · obtain ⟨h, h'⟩ := hf.frames hrun
      rw [h, h']
      rfl
    · obtain ⟨h, h'⟩ := hf.answering me hanswering
      rw [h, h']
      rfl

theorem fate_withdrawn (hs : Reachable (job c) s) (hf : Fate t s x) (hme : me ≠ t)
    (hpc : (s.proc me).pc = .idle (.write (.thief t)))
    (ha : act c me (.comm ch) (s.proc me) s.shared = some (P', g')) :
    Fate t (s.set me (P', g')) { x with invalidated := true } := by
  have hone := next_oneReason hs ha t
  have hslot := slotInv_reachable hs
  have hholds : Holds t me s :=
    ⟨(hslot me).own (.thief t) (by rw [hpc]; rfl), by simp [hpc, reopening]⟩
  obtain ⟨-, harrived, -⟩ := hf.holds me hholds
  have hthief : (s.set me (P', g')).proc t = s.proc t := set_proc_of_ne s (P', g') (Ne.symm hme)
  have hpc' : P'.pc = .idle (.unlock (.thief t)) := by
    have hcomm := (act_comm ha).2
    simp only [commStep, hpc, markMyPlaceAsIdle] at hcomm
    cases hcomm
    rfl
  have hanswering : answering ((s.set me (P', g')).proc me).pc = some t := by
    rw [set_proc_self, hpc']
    rfl
  have hle := hone.le_one
  have hanswers := answers_answering hanswering
  refine fate_answered hone (by omega) (by omega) ?_ (fun _ _ => ⟨harrived, rfl⟩) ?_
  · intro hframes
    have hpos := List.length_pos_iff.mpr hframes
    omega
  · rw [hthief]
    exact (hslot t).waiting ((oneReason_reachable hs t).wait_of_holds hholds)

theorem fate_delivered (hs : Reachable (job c) s) (hf : Fate t s x) {v : Fin n} {tasks : List Nat}
    (ha : act c t (.deliver (.shipment v t tasks true)) (s.proc t) s.shared = some (P', g')) :
    Fate t (s.set t (P', g')) (x.deliver P' (.shipment v t tasks true)) := by
  have hone := next_oneReason hs ha t
  obtain ⟨hm, hpc', hframes'⟩ : .shipment v t tasks true ∈ s.shared.net ∧ P'.pc = (s.proc t).pc ∧
      P'.frames ≠ [] := by
    have hstep := act_step ha
    cases hstep with
    | shipmentSlot hm => exact ⟨hm, rfl, by simp⟩
  have hbound : 0 < s.shared.net.countP (boundFor t) :=
    List.countP_pos_iff.mpr ⟨_, hm, by simp [boundFor]⟩
  obtain ⟨htasks, hvictim, -, hinvalidated⟩ := hf.shipped v tasks hm
  have harrived : (x.deliver P' (.shipment v t tasks true)).arrived = true := by
    simp [Attempt.deliver, hvictim, htasks]
  have hle := hone.le_one
  have hpos : 0 < ((s.set t (P', g')).proc t).frames.length := by
    rw [set_proc_self]
    exact List.length_pos_iff.mpr hframes'
  refine fate_answered hone ?_ ?_ (fun _ => ⟨harrived, hinvalidated⟩) ?_ ?_
  · rw [answers]
    omega
  · rw [answers] at hle
    omega
  · intro p hp
    have hanswers := answers_answering hp
    omega
  · rw [set_proc_self, hpc']
    apply (slotInv_reachable hs t).waiting
    apply (oneReason_reachable hs t).wait_of_answers
    rw [answers]
    omega

def Outside (pc : PC n) : Prop := ¬Asking pc ∧ ¬Asked pc

theorem outside_search (c : Config n) (me : Fin n) (P : Place n) :
    Outside (searchTasksGlobally c me P) := by
  rcases searchTasksGlobally_cases c me P with ⟨h, -⟩ | ⟨h, -⟩ <;> rw [h] <;> exact ⟨id, id⟩

theorem outside_failed (c : Config n) (me : Fin n) (attempts : Nat) :
    Outside (searchFailed c me attempts) := by
  rcases searchFailed_cases c me attempts with h | ⟨h, -⟩ <;> rw [h] <;> exact ⟨id, id⟩

theorem outside_nextVictim (c : Config n) (me : Fin n) (attempts i : Nat) :
    Outside (nextVictim c me attempts i) := by
  rcases nextVictim_cases c me attempts i with h | h <;> rw [h]
  · exact outside_failed c me attempts
  · exact ⟨id, id⟩

theorem steal_asking {l : StealPc n}
    (h : searchTasksGloballySynchronous c me ch P g l = some (P', g')) :
    (Asking P'.pc → Asking (.steal l : PC n) ∨ ∃ i, l = .loop i) ∧
      (Asked P'.pc → Asked (.steal l : PC n) ∨ ∃ i v, l = .register i v) := by
  have hfailed := outside_failed c me P.currentGlbMaxRandAttempts
  have hnext := outside_nextVictim c me
  cases l with
  | loop i =>
      refine ⟨fun _ => .inr ⟨i, rfl⟩, fun hasked => ?_⟩
      simp only [searchTasksGloballySynchronous] at h
      repeat' split at h
      all_goals cases h
      · exact hasked.elim
      · exact absurd hasked hfailed.2
  | probe i v =>
      refine ⟨fun _ => .inl trivial, fun hasked => ?_⟩
      simp only [searchTasksGloballySynchronous] at h
      split at h <;> cases h
      · exact hasked.elim
      · exact absurd hasked (hnext _ _).2
  | lock i v =>
      simp only [searchTasksGloballySynchronous] at h
      split at h <;> cases h
      exact ⟨fun _ => .inl trivial, fun hasked => hasked.elim⟩
  | test i v =>
      cases h
      refine ⟨fun _ => .inl trivial, fun hasked => ?_⟩
      simp only [Place.goto] at hasked
      split at hasked <;> exact hasked.elim
  | flag i v =>
      cases h
      exact ⟨fun _ => .inl trivial, fun hasked => hasked.elim⟩
  | register i v =>
      cases h
      exact ⟨fun _ => .inl trivial, fun _ => .inr ⟨i, v, rfl⟩⟩
  | unlock i v success =>
      cases success with
      | true =>
          cases h
          exact ⟨fun hasking => hasking.elim, fun _ => .inl trivial⟩
      | false =>
          cases h
          exact ⟨fun _ => .inl trivial, fun hasked => absurd hasked (hnext _ i).2⟩
  | wait v =>
      simp only [searchTasksGloballySynchronous] at h
      split at h <;> cases h
      exact ⟨fun hasking => hasking.elim, fun _ => .inl trivial⟩
  | received =>
      cases h
      exact ⟨fun hasking => hasking.elim, fun _ => .inl trivial⟩
  | reopen =>
      cases h
      exact ⟨fun hasking => hasking.elim, fun hasked => hasked.elim⟩

/-- Outside search_tasks_globally_synchronous no attempt begins or goes on. -/
theorem comm_outside (h : commStep c me ch P g = some (P', g')) (hsteal : ∀ l, P.pc ≠ .steal l) :
    Outside P'.pc := by
  have hf := commStep_follows h
  cases hpc : P.pc with
  | steal l => exact absurd hpc (hsteal l)
  | idle l =>
      have hsearch := outside_search c me P
      simp only [commStep, hpc] at h
      cases l with
      | mark =>
          simp only [markMyPlaceAsIdle] at h
          split at h <;> cases h
          · exact hsearch
          · dsimp only
            split
            · exact ⟨id, id⟩
            · exact hsearch
      | lock =>
          simp only [markMyPlaceAsIdle] at h
          split at h <;> cases h
          exact ⟨id, id⟩
      | read | write =>
          cases h
          exact ⟨id, id⟩
      | unlock r =>
          cases r <;> cases h
          · exact hsearch
          · exact hsearch
          · exact ⟨id, id⟩
      | invalidate =>
          cases h
          exact hsearch
  | _ =>
      rw [hpc] at hf
      cases hpc' : P'.pc with
      | steal l =>
          rw [hpc'] at hf
          cases hf
      | _ => exact ⟨id, id⟩

theorem Outside.awaiting {pc : PC n} (h : Outside pc) : ¬Awaiting pc := by
  intro hawait
  unfold Awaiting at hawait
  split at hawait
  · exact h.1 trivial
  · exact h.2 trivial
  · exact h.2 trivial
  · exact hawait

theorem fate_registered (hs : Reachable (job c) s) (hf : Fate t s x) {i : Nat} {v : Fin n}
    (hpc : (s.proc t).pc = .steal (.register i v))
    (ha : act c t (.comm ch) (s.proc t) s.shared = some (P', g')) :
    Fate t (s.set t (P', g')) { x with victim := some v } := by
  have hone := next_oneReason hs ha t
  have hslot := slotInv_reachable hs
  have hav := (hslot t).claimed v (by rw [hpc]; rfl)
  have hv : v ≠ t := (hslot t).distinct v (by rw [hpc]; rfl)
  have hclean := hf.asking (by rw [hpc]; trivial)
  have hcomm := (act_comm ha).2
  simp only [commStep, hpc, searchTasksGloballySynchronous] at hcomm
  cases hcomm
  have hholds : Holds t v (s.set t ((s.proc t).goto (.steal (.unlock i v true)),
      (s.shared.setReq v (.thief t)).record (.register t v))) := by
    rw [holds_set, if_neg hv]
    refine ⟨Function.update_self .., fun hr => ?_⟩
    have hreq := (hslot v).own _ (expects_reopening hr)
    rw [hav] at hreq
    cases hreq
  have hnone : ¬0 < answers t (s.set t ((s.proc t).goto (.steal (.unlock i v true)),
      (s.shared.setReq v (.thief t)).record (.register t v))) :=
    fun hpos => hone.not_holds (.inr hpos) v hholds
  refine ⟨?_, ?_, ?_, ?_, ?_, ?_⟩
  · intro w hw
    exact ⟨congrArg some (hone.holds_unique hholds hw), hclean⟩
  · intro w tasks hm
    have hpos := List.countP_pos_iff (p := boundFor t).mpr ⟨_, hm, by simp [boundFor]⟩
    refine absurd ?_ hnone
    rw [answers]
    omega
  · intro hframes
    have hpos := List.length_pos_iff.mpr hframes
    refine absurd ?_ hnone
    rw [answers]
    omega
  · intro p hp
    exact absurd (answering_le t p _ hp) hnone
  · intro hasking
    rw [set_proc_self] at hasking
    exact hasking.elim
  · intro _ hover
    rw [hone.wait_of_holds hholds] at hover
    cases hover

theorem fate_comm (hs : Reachable (job c) s) (hf : Fate t s x)
    (ha : act c t (.comm ch) (s.proc t) s.shared = some (P', g')) :
    Fate t (s.set t (P', g')) (x.step t (s.proc t).pc (s.set t (P', g'))) := by
  have hcomm := (act_comm ha).2
  have hslot' : SlotInv c t P' g' :=
    (slot_step ha (allowed_reachable hs t) (slotInv_reachable hs t)).1
  have hfresh {x : Attempt n} (hasked : ¬Asked P'.pc) (hawait : ¬Awaiting P'.pc)
      (harrived : x.arrived = false) (hinvalidated : x.invalidated = false) :
      Fate t (s.set t (P', g')) x := by
    refine fate_idle (next_oneReason hs ha t) ?_ (by rwa [set_proc_self]) harrived hinvalidated
    cases hwait : g'.waitForTaskFromVictim t with
    | false => exact hwait
    | true => exact absurd (hslot'.waiting hwait) hawait
  have hsame (hinv : invalidates t (s.proc t).pc (.comm ch) = false)
      (hregister : registering (s.proc t).pc = false)
      (hasking : Asking P'.pc → Asking (s.proc t).pc) (hasked : Asked P'.pc → Asked (s.proc t).pc) :
      Fate t (s.set t (P', g')) x := by
    refine hf.same hs ha hinv (fun _ _ h => by cases h) (by simp [hregister]) ?_ ?_
    · rwa [set_proc_self]
    · rwa [set_proc_self]
  cases hpc : (s.proc t).pc with
  | idle l =>
      have houtside := comm_outside hcomm (by simp [hpc])
      simp only [Attempt.step, set_proc_self]
      split
      · refine hsame ?_ (by rw [hpc]; rfl) (fun h => absurd h houtside.1)
          (fun h => absurd h houtside.2)
        -- no place has itself in its own slot
        simp only [invalidates, decide_eq_false_iff_not]
        intro hwrite
        exact (slotInv_reachable hs t).remote t ((slotInv_reachable hs t).own _ (by
          rw [hwrite]; rfl)) rfl
      · exact hfresh houtside.2 houtside.awaiting rfl rfl
  | steal l =>
      have hmoves := hcomm
      simp only [commStep, hpc] at hmoves
      obtain ⟨hasking, hasked⟩ := steal_asking hmoves
      cases l with
      | loop i =>
          have hnot : ¬Asked P'.pc := by
            intro h
            rcases hasked h with h | ⟨_, _, h⟩
            · exact h.elim
            · cases h
          refine hfresh hnot ?_ rfl rfl
          intro hawait
          simp only [searchTasksGloballySynchronous] at hmoves
          repeat' split at hmoves
          all_goals cases hmoves
          · exact hawait.elim
          · exact (outside_failed c t _).awaiting hawait
      | register i v => exact fate_registered hs hf hpc ha
      | probe | lock | test | flag | unlock | wait | received | reopen =>
          apply hsame (by rw [hpc]; rfl) (by rw [hpc]; rfl)
          · intro h
            rw [hpc]
            exact (hasking h).resolve_right (by simp)
          · intro h
            rw [hpc]
            exact (hasked h).resolve_right (by simp)
  | spmd | exec | publish | loop | drain | cbarrier | serve | ship | lifeline =>
      have houtside := comm_outside hcomm (by simp [hpc])
      exact hsame (by rw [hpc]; rfl) (by rw [hpc]; rfl) (fun h => absurd h houtside.1)
        (fun h => absurd h houtside.2)

theorem fate_other {a : Act n} (hs : Reachable (job c) s) (hf : Fate t s x)
    (hcomm : ∀ ch, a ≠ .comm ch) (hdeliver : ∀ v tasks, a ≠ .deliver (.shipment v t tasks true))
    (ha : act c t a (s.proc t) s.shared = some (P', g')) : Fate t (s.set t (P', g')) x := by
  have hpc : P'.pc = (s.proc t).pc := by
    have hstep := act_step ha
    cases a with
    | comm ch => exact absurd rfl (hcomm ch)
    | resume | deliver | work | idle => cases hstep <;> rfl
  refine hf.same hs ha ?_ (fun v tasks h => absurd h (hdeliver v tasks)) ?_ ?_ ?_
  · cases a with
    | comm ch => exact absurd rfl (hcomm ch)
    | resume | deliver | work | idle => rfl
  all_goals
    rw [set_proc_self, hpc]
    exact id

theorem fate_step {a : Act n} (hs : Reachable (job c) s) (hf : Fate t s x)
    (ha : act c me a (s.proc me) s.shared = some (P', g')) :
    Fate t (s.set me (P', g')) (attempted t s me a (s.set me (P', g')) x) := by
  unfold attempted
  by_cases hme : me = t
  · subst hme
    rw [if_pos rfl]
    cases a with
    | comm ch => exact fate_comm hs hf ha
    | deliver m =>
        rw [set_proc_self]
        by_cases hslot : ∃ v tasks, m = .shipment v me tasks true
        · obtain ⟨v, tasks, rfl⟩ := hslot
          exact fate_delivered hs hf ha
        · have hother := fate_other hs hf (fun _ h => by cases h)
            (fun v tasks h => hslot ⟨v, tasks, by cases h; rfl⟩) ha
          cases m with
          | shipment v dest tasks baselineWS =>
              cases baselineWS with
              | true =>
                  have hstep := act_step ha
                  cases hstep with
                  | shipmentSlot => exact absurd ⟨v, tasks, rfl⟩ hslot
              | false => exact hother.of_eq rfl rfl rfl
          | asyncAt | asyncCopy | stealRequest | receipt => exact hother.of_eq rfl rfl rfl
    | resume | work | idle =>
        exact fate_other hs hf (fun _ h => by cases h) (fun _ _ h => by cases h) ha
  · rw [if_neg hme]
    have hthief : (s.set me (P', g')).proc t = s.proc t := set_proc_of_ne s (P', g') (Ne.symm hme)
    by_cases hinv : invalidates t (s.proc me).pc a = true
    · rw [if_pos hinv]
      cases a with
      | comm ch => exact fate_withdrawn hs hf hme (by simpa [invalidates] using hinv) ha
      | resume | deliver | work | idle => cases hinv
    · rw [if_neg hinv]
      refine hf.same hs ha (by simpa using hinv) (fun _ _ _ => hme) ?_ ?_ ?_ <;> rw [hthief] <;>
        exact id

theorem fate_attempted (ht : Attempted c t s x) : Fate t s x := by
  have hinit : Reachable (job c) (job c).init := .init
  apply ht.invariant (I := Fate t) hinit
  · exact fate_idle (oneReason_reachable hinit t) rfl id rfl rfl
  · intro s me a P g x hs _ hf ha
    exact fate_step hs hf ha

def Searching : PC n → Prop
  | .steal .reopen => False
  | .steal _ => True
  | _ => False

structure Left (t : Fin n) (s : State n) (x : Attempt n) : Prop where
  load : s.shared.workAvail t = x.load
  slot : s.shared.reqThread t = x.slot
  out : (s.proc t).outOfWork = x.outOfWork

theorem steal_left {l : StealPc n} (hpartner : ∀ v, partner (.steal l) = some v → v ≠ me)
    (hreceived : l ≠ .received) (hreopen : l ≠ .reopen)
    (h : searchTasksGloballySynchronous c me ch P g l = some (P', g')) :
    g'.workAvail = g.workAvail ∧ g'.reqThread me = g.reqThread me ∧ P'.outOfWork = P.outOfWork := by
  cases l with
  | received => exact absurd rfl hreceived
  | reopen => exact absurd rfl hreopen
  | register i v =>
      cases h
      exact ⟨rfl, Function.update_of_ne (hpartner v rfl).symm .., rfl⟩
  | unlock i v success => cases success <;> cases h <;> exact ⟨rfl, rfl, rfl⟩
  | loop | probe | lock | test | flag | wait =>
      simp only [searchTasksGloballySynchronous] at h
      repeat' split at h
      all_goals cases h
      all_goals exact ⟨rfl, rfl, rfl⟩

theorem Left.searched (hs : Reachable (job c) s) (hleft : Left t s x) {l : StealPc n}
    (hpc : (s.proc t).pc = .steal l) (hreceived : l ≠ .received) (hreopen : l ≠ .reopen)
    (ha : act c t (.comm ch) (s.proc t) s.shared = some (P', g')) :
      Left t (s.set t (P', g')) x := by
  have hcomm := (act_comm ha).2
  have hpartner := (slotInv_reachable hs t).distinct
  rw [hpc] at hpartner
  simp only [commStep, hpc] at hcomm
  obtain ⟨hload, hreq, hout⟩ := steal_left hpartner hreceived hreopen hcomm
  refine ⟨?_, ?_, ?_⟩
  · rw [set_shared, hload]
    exact hleft.load
  · rw [set_shared, hreq]
    exact hleft.slot
  · rw [set_proc_self, hout]
    exact hleft.out

theorem Left.of_eq {x' : Attempt n} (hleft : Left t s x) (hload : x'.load = x.load)
    (hslot : x'.slot = x.slot) (hout : x'.outOfWork = x.outOfWork) : Left t s x' :=
  ⟨hload ▸ hleft.load, hslot ▸ hleft.slot, hout ▸ hleft.out⟩

theorem left_comm (hs : Reachable (job c) s) (hI : Searching (s.proc t).pc → Left t s x)
    (ha : act c t (.comm ch) (s.proc t) s.shared = some (P', g')) (hpc' : Searching P'.pc) :
    Left t (s.set t (P', g')) (x.step t (s.proc t).pc (s.set t (P', g'))) := by
  have hcomm := (act_comm ha).2
  have hf := commStep_follows hcomm
  cases hpc : (s.proc t).pc with
  | idle l =>
      have hmarking : marking P'.pc = false := by
        cases hl : P'.pc with
        | idle l =>
            rw [hl] at hpc'
            exact hpc'.elim
        | _ => rfl
      simp only [Attempt.step, set_proc_self, hmarking]
      exact ⟨rfl, rfl, by simp⟩
  | steal l =>
      have hreceived : l ≠ .received := by
        rintro rfl
        simp only [commStep, hpc, searchTasksGloballySynchronous] at hcomm
        cases hcomm
        exact hpc'.elim
      have hreopen : l ≠ .reopen := by
        rintro rfl
        simp only [commStep, hpc, searchTasksGloballySynchronous] at hcomm
        cases hcomm
        exact hpc'.elim
      have hleft := (hI (by rw [hpc]; unfold Searching; split <;>
        simp_all)).searched hs hpc hreceived
        hreopen ha
      cases l <;> exact hleft.of_eq rfl rfl rfl
  | spmd | exec | publish | loop | drain | cbarrier | serve | ship | lifeline =>
      rw [hpc] at hf
      cases hl : P'.pc with
      | steal l =>
          rw [hl] at hf
          cases hf
      | _ =>
          rw [hl] at hpc'
          exact hpc'.elim

theorem Attempt.deliver_left (x : Attempt n) (P' : Place n) (m : Msg n) :
    (x.deliver P' m).load = x.load ∧ (x.deliver P' m).slot = x.slot ∧
      (x.deliver P' m).outOfWork = P'.outOfWork := by
  cases m with
  | shipment v dest tasks baselineWS => cases baselineWS <;> exact ⟨rfl, rfl, rfl⟩
  | asyncAt | asyncCopy | stealRequest | receipt => exact ⟨rfl, rfl, rfl⟩

theorem left_step {a : Act n} (hs : Reachable (job c) s) (hI : Searching (s.proc t).pc → Left t s x)
    (ha : act c me a (s.proc me) s.shared = some (P', g'))
    (hpc' : Searching ((s.set me (P', g')).proc t).pc) :
    Left t (s.set me (P', g')) (attempted t s me a (s.set me (P', g')) x) := by
  have hexpects {pc : PC n} (h : Searching pc) : expects c pc = some .unavailable := by
    unfold Searching at h
    split at h <;> first | exact h.elim | rfl
  obtain ⟨hslot', hinterference⟩ := slot_step ha (allowed_reachable hs me) (slotInv_reachable hs me)
  -- a searching thief relies on the value of its slot
  have hsame (h : Searching (s.proc me).pc) (h' : Searching P'.pc) :
      g'.reqThread me = s.shared.reqThread me := by
    rw [hslot'.own _ (hexpects h'), (slotInv_reachable hs me).own _ (hexpects h)]
  unfold attempted
  by_cases hme : me = t
  · subst hme
    rw [if_pos rfl]
    rw [set_proc_self] at hpc'
    cases a with
    | comm ch => exact left_comm hs hI ha hpc'
    | deliver m =>
        obtain ⟨hpc, hload⟩ : P'.pc = (s.proc me).pc ∧ g'.workAvail = s.shared.workAvail := by
          have hstep := act_step ha
          cases hstep <;> exact ⟨rfl, rfl⟩
        obtain ⟨hxload, hxslot, hxout⟩ := x.deliver_left P' m
        have hleft := hI (hpc ▸ hpc')
        simp only [set_proc_self]
        refine ⟨?_, ?_, ?_⟩
        · rw [set_shared, hload, hxload, hleft.load]
        · rw [set_shared, hsame (hpc ▸ hpc') hpc', hxslot, hleft.slot]
        · rw [set_proc_self, hxout]
    | resume | work | idle =>
        obtain ⟨hpc, hload, hout⟩ : P'.pc = (s.proc me).pc ∧ g'.workAvail = s.shared.workAvail ∧
            P'.outOfWork = (s.proc me).outOfWork := by
          have hstep := act_step ha
          cases hstep <;> exact ⟨rfl, rfl, rfl⟩
        have hleft := hI (hpc ▸ hpc')
        refine ⟨?_, ?_, ?_⟩
        · rw [set_shared, hload, hleft.load]
        · rw [set_shared, hsame (hpc ▸ hpc') hpc', hleft.slot]
        · rw [set_proc_self, hout, hleft.out]
  · rw [if_neg hme]
    rw [set_proc_of_ne s (P', g') (Ne.symm hme)] at hpc'
    have hleft := hI hpc'
    have hnot : s.shared.reqThread t ≠ .available := by
      rw [(slotInv_reachable hs t).own _ (hexpects hpc')]
      simp
    have hsame : Left t (s.set me (P', g')) x := by
      refine ⟨?_, ?_, ?_⟩
      · rw [set_shared, (Advertising.load_change ha).others (Ne.symm hme)]
        exact hleft.load
      · rw [set_shared, hinterference.kept (Ne.symm hme) (.inl hnot)]
        exact hleft.slot
      · rw [set_proc_of_ne s (P', g') (Ne.symm hme)]
        exact hleft.out
    split
    · exact hsame.of_eq rfl rfl rfl
    · exact hsame

theorem left_attempted (ht : Attempted c t s x) : Searching (s.proc t).pc → Left t s x := by
  refine ht.invariant (I := fun s x => Searching (s.proc t).pc → Left t s x) .init ?_ ?_
  · intro h
    exact h.elim
  · intro s me a P g x hs _ hI ha hpc'
    exact left_step hs hI ha hpc'

inductive Status
  | successSteal | failedSteal | notWorking
  deriving DecidableEq

inductive Returns : PC n → PC n → Status → Prop
  | successSteal (pc' : PC n) : Returns (.steal .reopen) pc' .successSteal
  | failedSteal (i : Nat) (v : Fin n) (pc' : PC n) :
      Returns (.steal (.unlock i v false)) pc' .failedSteal
  | notWorking (i : Nat) (v : Fin n) (pc' : PC n) (h : pc' ≠ .steal (.lock i v)) :
      Returns (.steal (.probe i v)) pc' .notWorking

def iteration : PC n → Nat
  | .steal (.probe i _) | .steal (.unlock i _ _) => i
  | _ => 0

/-- The status reports whether work has arrived, and without success the thief is
left as it was and goes on to the next victim, with no attempt taken back. -/
structure Sound (c : Config n) (t : Fin n) (s s' : State n) (x : Attempt n) (status : Status) :
    Prop where
  success : status = .successSteal ↔ x.arrived = true
  left : status ≠ .successSteal → Left t s' x
  goesOn : status ≠ .successSteal →
    (s'.proc t).pc = nextVictim c t (s'.proc t).currentGlbMaxRandAttempts (iteration (s.proc t).pc) ∧
      (s'.proc t).currentGlbMaxRandAttempts = (s.proc t).currentGlbMaxRandAttempts +
        if c.mode = .glb ∧ status = .failedSteal then 1 else 0

/-- A steal ends soundly if and only if its request has not been invalidated. -/
theorem sound_iff (ht : Attempted c t s x) {s' : State n} {status : Status}
    (hnext : (job c).next s t (.comm ch) = some s')
    (hreturns : Returns (s.proc t).pc (s'.proc t).pc status) :
    Sound c t s s' x status ↔ x.invalidated = false := by
  have hs : Reachable (job c) s := ht.reachable .init
  have hf := fate_attempted ht
  have hI := left_attempted ht
  obtain ⟨P', g', ha, rfl⟩ := next_eq_some.mp hnext
  have hcomm := (act_comm ha).2
  rw [set_proc_self] at hreturns
  generalize hpc : (s.proc t).pc = pc at hreturns
  cases hreturns with
  | successSteal =>
      have harrived := hf.asked (by rw [hpc]; trivial) (by
        cases hwait : s.shared.waitForTaskFromVictim t with
        | false => rfl
        | true =>
            have hawait := (slotInv_reachable hs t).waiting hwait
            rw [hpc] at hawait
            exact hawait.elim)
      constructor
      · intro hsound
        have h := hsound.success.mp rfl
        simpa [h] using harrived
      · intro hinv
        rw [hinv] at harrived
        exact ⟨iff_of_true rfl harrived, fun h => absurd rfl h, fun h => absurd rfl h⟩
  | failedSteal i v =>
      obtain ⟨harrived, hinvalidated⟩ := hf.asking (by rw [hpc]; trivial)
      have hleft := (hI (by rw [hpc]; trivial)).searched hs hpc (by simp) (by simp) ha
      simp only [commStep, hpc, searchTasksGloballySynchronous] at hcomm
      cases hcomm
      refine iff_of_true ⟨by simp [harrived], fun _ => hleft, fun _ => ?_⟩ hinvalidated
      rw [set_proc_self, hpc]
      exact ⟨rfl, by simp⟩
  | notWorking i v _ hne =>
      obtain ⟨harrived, hinvalidated⟩ := hf.asking (by rw [hpc]; trivial)
      have hleft := (hI (by rw [hpc]; trivial)).searched hs hpc (by simp) (by simp) ha
      simp only [commStep, hpc, searchTasksGloballySynchronous] at hcomm
      split at hcomm <;> cases hcomm
      · exact absurd rfl hne
      · refine iff_of_true ⟨by simp [harrived], fun _ => hleft, fun _ => ?_⟩ hinvalidated
        rw [set_proc_self, hpc]
        exact ⟨rfl, by simp [Place.goto]⟩

def received : List (Fin 2 × Act 2) :=
  shipped ++ [(1, .deliver (.shipment 0 1 [0] true)), (1, .resume), (1, .resume)] ++ comms 1 2

def ranDry : List (Fin 2 × Act 2) :=
  probed ++ comms 1 5 ++ (List.range 4).map (fun t => (0, .work (.runAny t))) ++ [(0, .idle 1)] ++
    comms 0 11 ++ comms 1 2

set_option maxRecDepth 10000 in
theorem sound_received :
    ∃ (s s' : State 2) (x : Attempt 2), Attempted (twoPlaces .baseline false) 1 s x ∧
    (job (twoPlaces .baseline false)).next s 1 (.comm ⟨0, none⟩) = some s' ∧
    Sound (twoPlaces .baseline false) 1 s s' x .successSteal := by
  have hrun : ((job (twoPlaces .baseline false)).trace (fun _ _ _ _ => true) (attempted 1)
      (job (twoPlaces .baseline false)).init Attempt.init received).any (fun r =>
        r.2.invalidated = false ∧ (r.1.proc 1).pc = .steal .reopen ∧
        ((job (twoPlaces .baseline false)).next r.1 1 (.comm ⟨0, none⟩)).isSome) = true := by
    decide
  obtain ⟨⟨s, x⟩, hr, hend⟩ := (Option.any_eq_true ..).mp hrun
  obtain ⟨hinv, hpc, hreturns⟩ := of_decide_eq_true hend
  obtain ⟨s', hnext⟩ := Option.isSome_iff_exists.mp hreturns
  have ht : Attempted (twoPlaces .baseline false) 1 s x :=
    (traced_of_trace hr).mono fun _ _ _ _ _ => trivial
  dsimp only at hpc
  exact ⟨s, s', x, ht, hnext, (sound_iff ht hnext (hpc ▸ .successSteal _)).mpr hinv⟩

set_option maxRecDepth 10000 in
/-- A steal is reported as a success though no task has arrived. -/
theorem success_without_work : ∃ (s s' : State 2) (x : Attempt 2),
    Attempted (twoPlaces .baseline false) 1 s x ∧
    (job (twoPlaces .baseline false)).next s 1 (.comm ⟨0, none⟩) = some s' ∧
    Returns (s.proc 1).pc (s'.proc 1).pc .successSteal ∧ x.arrived = false ∧
    (s'.proc 1).outOfWork = false ∧ s'.shared.reqThread 1 = .available := by
  have hrun : ((job (twoPlaces .baseline false)).trace (fun _ _ _ _ => true) (attempted 1)
      (job (twoPlaces .baseline false)).init Attempt.init ranDry).any (fun r =>
        r.2.arrived = false ∧ (r.1.proc 1).pc = .steal .reopen ∧
        ((job (twoPlaces .baseline false)).next r.1 1 (.comm ⟨0, none⟩)).any (fun s' =>
          (s'.proc 1).outOfWork = false ∧ s'.shared.reqThread 1 = .available)) = true := by
    decide
  obtain ⟨⟨s, x⟩, hr, hend⟩ := (Option.any_eq_true ..).mp hrun
  obtain ⟨harrived, hpc, hreturns⟩ := of_decide_eq_true hend
  obtain ⟨s', hnext, hleft⟩ := (Option.any_eq_true ..).mp hreturns
  have ht : Attempted (twoPlaces .baseline false) 1 s x :=
    (traced_of_trace hr).mono fun _ _ _ _ _ => trivial
  dsimp only at hpc
  exact ⟨s, s', x, ht, hnext, hpc ▸ .successSteal _, harrived, of_decide_eq_true hleft⟩

end HabaneroUpc.SyncSteal
