import HabaneroUpc.SlotHistory
import Mathlib.Algebra.BigOperators.Group.Finset.Piecewise
import Mathlib.Data.Int.Cast.Basic
import Mathlib.Algebra.BigOperators.Ring.Finset

namespace HabaneroUpc.Slot

open Interleaving Tally

variable {n : Nat}

def names (t : Fin n) (r : Req n) : Int := if r = .thief t then 1 else 0

def unmatched (t : Fin n) (g : Shared n) : Int :=
  (g.waitForTaskFromVictim t).toNat - total (fun _ => names t) g.reqThread -
    g.net.countP (boundFor t)

/-- What a place contributes to the wait of t. A place that has served t and
not yet opened its slot takes back the request that the slot still shows. -/
def contribution (t p : Fin n) (P : Place n) : Int :=
  (if p = t then ((registering P.pc).toNat : Int) + P.frames.length else 0) +
    (if answering P.pc = some t then 1 else 0) - (if reopening P.pc = some t then 1 else 0)

def Holds (t v : Fin n) (s : State n) : Prop :=
  s.shared.reqThread v = .thief t ∧ reopening (s.proc v).pc ≠ some t

instance (t v : Fin n) (s : State n) : Decidable (Holds t v s) := inferInstanceAs (Decidable (_ ∧ _))

def requests (t : Fin n) (s : State n) : Nat := ∑ v, if Holds t v s then 1 else 0

/-- The answers to t that have not yet ended its wait: shipments in flight or
being run, and requests that their victim is invalidating. -/
def answers (t : Fin n) (s : State n) : Nat :=
  (s.proc t).frames.length + s.shared.net.countP (boundFor t) +
    total (fun _ P => if answering P.pc = some t then 1 else 0) s.proc

/-- The wait of t has exactly one reason, and without a wait there is none. -/
def OneReason (t : Fin n) (s : State n) : Prop :=
  (s.shared.waitForTaskFromVictim t).toNat =
    (registering (s.proc t).pc).toNat + answers t s + requests t s

variable {c : Config n} {me : Fin n} {P P' : Place n} {g g' : Shared n} {s : State n}

theorem expects_reopening {pc : PC n} {t : Fin n} (h : reopening pc = some t) :
    expects c pc = some (.thief t) := by
  unfold reopening at h
  split at h <;> cases h
  rfl

theorem total_contribution (t : Fin n) (procs : Fin n → Place n) :
    total (contribution t) procs = ((registering (procs t).pc).toNat : Int) +
      (procs t).frames.length +
      total (fun _ P => if answering P.pc = some t then (1 : Int) else 0) procs -
      total (fun _ P => if reopening P.pc = some t then (1 : Int) else 0) procs := by
  simp only [total, contribution, Finset.sum_sub_distrib, Finset.sum_add_distrib,
    Finset.sum_ite_eq', Finset.mem_univ, if_true]

/-- The slots that name t are those with an unanswered request of t, and those
that have been served and are about to be opened. -/
theorem total_names (hs : ∀ p, SlotInv c p (s.proc p) s.shared) (t : Fin n) :
    total (fun _ => names t) s.shared.reqThread = requests t s +
      total (fun _ P => if reopening P.pc = some t then (1 : Int) else 0) s.proc := by
  simp only [total, requests, Nat.cast_sum]
  rw [← Finset.sum_add_distrib]
  apply Finset.sum_congr rfl
  intro v _
  by_cases hr : reopening (s.proc v).pc = some t
  · have hreq := (hs v).own _ (expects_reopening hr)
    simp [names, Holds, hr, hreq]
  · by_cases hreq : s.shared.reqThread v = .thief t <;> simp [names, Holds, hr, hreq]

theorem oneReason_of_eq (hs : ∀ p, SlotInv c p (s.proc p) s.shared) {t : Fin n}
    (h : unmatched t s.shared = total (contribution t) s.proc) : OneReason t s := by
  have hcast : ((total (fun _ P => if answering P.pc = some t then 1 else 0) s.proc : Nat) : Int) =
      total (fun _ P => if answering P.pc = some t then (1 : Int) else 0) s.proc := by
    simp [total]
  rw [unmatched, total_contribution, total_names hs] at h
  rw [OneReason, answers]
  omega

theorem answering_le (t p : Fin n) (s : State n) (h : answering (s.proc p).pc = some t) :
    0 < answers t s := by
  have hle := le_total (M := Nat) (fun _ P => if answering P.pc = some t then 1 else 0) s.proc p
  rw [if_pos h] at hle
  rw [answers]
  omega

theorem OneReason.wait_of_answers {t : Fin n} (h : OneReason t s) (ha : 0 < answers t s) :
    s.shared.waitForTaskFromVictim t = true := by
  cases hwait : s.shared.waitForTaskFromVictim t with
  | true => rfl
  | false =>
      rw [OneReason, hwait, Bool.toNat_false] at h
      omega

@[simp] theorem names_available (t : Fin n) : names t .available = 0 := rfl

@[simp] theorem names_unavailable (t : Fin n) : names t .unavailable = 0 := rfl

@[simp] theorem names_thief (t u : Fin n) : names t (.thief u) = if u = t then 1 else 0 := by
  simp [names]

theorem unmatched_setReq (t v : Fin n) (r : Req n) :
    unmatched t (g.setReq v r) = unmatched t g + names t (g.reqThread v) - names t r := by
  have hsum := total_update (fun _ => names t) g.reqThread v r
  simp only [unmatched, Shared.setReq]
  omega

theorem unmatched_setWaitForTask (t p : Fin n) (b : Bool) :
    unmatched t (g.setWaitForTask p b) = if p = t then
      unmatched t g + b.toNat - (g.waitForTaskFromVictim t).toNat else
      unmatched t g := by
  by_cases hp : p = t
  · subst hp
    simp only [unmatched, Shared.setWaitForTask, Function.update_self, if_true]
    omega
  · simp only [unmatched, Shared.setWaitForTask, Function.update_of_ne (Ne.symm hp), if_neg hp]

theorem unmatched_send (t : Fin n) (m : Msg n) :
    unmatched t (g.send m) = unmatched t g - (boundFor t m).toNat := by
  simp only [unmatched, Shared.send, List.countP_cons]
  cases boundFor t m <;> simp
  omega

theorem unmatched_record (t : Fin n) (e : SlotEvent n) : unmatched t (g.record e) = unmatched t g := rfl

theorem contribution_noToken {t : Fin n} (h : NoToken P.pc) :
    contribution t me P = if me = t then (P.frames.length : Int) else 0 := by
  simp [contribution, h.1, h.2.1, h.2.2]

theorem unmatched_step {a : Act n} {t : Fin n} (hs : ∀ p, SlotInv c p (s.proc p) s.shared)
    (h : unmatched t s.shared = total (contribution t) s.proc)
    (ha : act c me a (s.proc me) s.shared = some (P', g')) :
    unmatched t g' - contribution t me P' = unmatched t s.shared - contribution t me (s.proc me) := by
  have hone := oneReason_of_eq hs h
  have hme := hs me
  cases slot_change hme ha with
  | still hregistering hanswering hreopening hframes hreq hwait hnet hevents =>
      simp only [unmatched, contribution, hregistering, hanswering, hreopening, hframes, hreq, hwait, hnet]
  | opened hpc hpc' hframes hold hg =>
      rw [contribution_noToken hpc, contribution_noToken hpc', hframes, hg, unmatched_setReq, hold]
      simp
  | served u tasks fs hpc hpc' hframes hg =>
      have hsend := unmatched_send (g := { s.shared with failures := fs }) t (.shipment me u tasks true)
      rw [hg, unmatched_record, hsend]
      simp only [contribution, hpc, hpc', hframes, registering, answering, reopening, boundFor]
      by_cases hu : u = t
      · simp [unmatched, hu]
      · simp [unmatched, hu]
  | reopened u hpc hpc' hframes hg =>
      have hreq := hme.own _ (expects_reopening (by rw [hpc]; rfl))
      rw [hg, unmatched_setReq, hreq]
      simp only [contribution, hpc, hpc', hframes, registering, answering, reopening]
      simp
      omega
  | reset r hpc hpc' hframes hr hg =>
      have hreq := hme.own r (by rw [hpc]; rfl)
      have hno : NoToken (s.proc me).pc := by rw [hpc]; exact ⟨rfl, rfl, rfl⟩
      have hnames (t : Fin n) : names t r = 0 := if_neg (hr t)
      have hno' : NoToken P'.pc := by
        rw [hpc']
        cases r with
        | thief t => exact absurd rfl (hr t)
        | available | unavailable => exact ⟨rfl, rfl, rfl⟩
      rw [contribution_noToken hno, contribution_noToken hno', hframes, hg, unmatched_setReq, hreq, hnames]
      simp
  | withdrawn u hpc hpc' hframes hg =>
      have hreq := hme.own _ (by rw [hpc]; rfl)
      rw [hg, unmatched_record, unmatched_setReq, hreq]
      simp only [contribution, hpc, hpc', hframes, registering, answering, reopening]
      simp
  | invalidated u hpc hpc' hframes hg =>
      rw [hg, unmatched_record, unmatched_setWaitForTask]
      rw [contribution_noToken hpc', hframes]
      simp only [contribution, hpc, registering, answering, reopening]
      by_cases hu : u = t
      · subst hu
        have hwait := hone.wait_of_answers (answering_le u me s (by rw [hpc]; rfl))
        simp [hwait]
        omega
      · simp [hu]
  | flagged i v hpc hpc' hframes hg =>
      have hwait : s.shared.waitForTaskFromVictim me ≠ true := by
        intro hwait
        have hawait := hme.waiting hwait
        rw [hpc] at hawait
        exact hawait
      rw [hg, unmatched_setWaitForTask]
      simp only [contribution, hpc, hpc', hframes, registering, answering, reopening]
      by_cases ht : me = t
      · subst ht
        simp [hwait]
        omega
      · simp [ht]
  | registered i v hpc hpc' hframes hg =>
      have hav := hme.claimed v (by rw [hpc]; rfl)
      rw [hg, unmatched_record, unmatched_setReq, hav]
      simp only [contribution, hpc, hpc', hframes, registering, answering, reopening]
      simp
      split <;> omega
  | delivered source tasks hm hpc hframes hreq hwait hnet hevents =>
      simp only [unmatched, contribution, hpc, hreq, hwait, hnet, hframes, List.countP_erase]
      by_cases ht : me = t
      · subst ht
        have hbound : boundFor me (.shipment source me tasks true) = true := by simp [boundFor]
        have hpos : 0 < s.shared.net.countP (boundFor me) := List.countP_pos_iff.mpr ⟨_, hm, hbound⟩
        rw [if_pos ⟨hm, hbound⟩, if_pos rfl, if_pos rfl]
        omega
      · simp [boundFor, ht]
  | cleared hpc hframes hg =>
      rw [hg, unmatched_record, unmatched_setWaitForTask]
      simp only [contribution, hpc]
      by_cases ht : me = t
      · subst ht
        have hwait := hone.wait_of_answers (by rw [answers]; omega)
        simp [hwait]
        omega
      · simp [ht]

theorem oneReason_reachable {ok} (hs : ReachableWhen (job c) ok s) (t : Fin n) : OneReason t s := by
  apply oneReason_of_eq (slotInv_reachable hs)
  refine conserved (S := job c) (unmatched t) (contribution t) ?_ ?_ hs
  · simp [unmatched, contribution, total, job, Shared.init, Place.init, names, registering, answering,
      reopening]
  · intro s me a P g hs _ h ha
    exact unmatched_step (slotInv_reachable hs) h ha

def subject : SlotEvent n → Fin n
  | .register t _ | .ship _ t | .invalidate _ t | .clear t => t

inductive Standing (n : Nat)
  | idle | registered (v : Fin n) | answered
  deriving DecidableEq

/-- One event of the history of t. What comes out of turn has no result: a
registration before the last one is answered and its wait over, an answer of
a place that t is not registered with, and the end of a wait without answer. -/
def Standing.next (t : Fin n) (st : Standing n) (e : SlotEvent n) : Option (Standing n) :=
  if subject e ≠ t then some st
  else match e, st with
    | .register _ v, .idle => some (.registered v)
    | .ship v _, .registered w | .invalidate v _, .registered w => if v = w then some .answered else none
    | .clear _, .answered => some .idle
    | _, _ => none

def standing (t : Fin n) (events : List (SlotEvent n)) : Option (Standing n) :=
  events.foldlM (Standing.next t) .idle

theorem standing_append (t : Fin n) (events : List (SlotEvent n)) (e : SlotEvent n) :
    standing t (events ++ [e]) = (standing t events).bind fun st => st.next t e := by
  simp [standing, List.foldlM_append]

theorem standing_of_ne {t : Fin n} {e : SlotEvent n} (h : subject e ≠ t) (events : List (SlotEvent n)) :
    standing t (events ++ [e]) = standing t events := by
  rw [standing_append]
  cases standing t events with
  | none => rfl
  | some st => exact if_pos h

inductive RequestChange (t : Fin n) (s s' : State n) : Prop
  | quiet (hanswers : answers t s' = answers t s) (hholds : ∀ v, Holds t v s' ↔ Holds t v s)
      (hevents : standing t s'.shared.slotEvents = standing t s.shared.slotEvents)
  | asked (v : Fin n) (hregistering : registering (s.proc t).pc = true) (hholds : Holds t v s')
      (hevents : s'.shared.slotEvents = s.shared.slotEvents ++ [.register t v])
  | replied (v : Fin n) (e : SlotEvent n) (hholds : Holds t v s) (hanswers : 0 < answers t s')
      (he : e = .ship v t ∨ e = .invalidate v t)
      (hevents : s'.shared.slotEvents = s.shared.slotEvents ++ [e])
  | ended (hanswers : answers t s' + 1 = answers t s) (hholds : ∀ v, Holds t v s' ↔ Holds t v s)
      (hevents : s'.shared.slotEvents = s.shared.slotEvents ++ [.clear t])

theorem answers_set (s : State n) (me t : Fin n) (r : Place n × Shared n) :
    answers t (s.set me r) + ((if me = t then (s.proc me).frames.length else 0) +
        s.shared.net.countP (boundFor t) + if answering (s.proc me).pc = some t then 1 else 0) =
      answers t s + ((if me = t then r.1.frames.length else 0) +
        r.2.net.countP (boundFor t) + if answering r.1.pc = some t then 1 else 0) := by
  have hu := total_update (M := Nat) (fun _ P => if answering P.pc = some t then 1 else 0) s.proc me r.1
  by_cases ht : me = t
  · subst ht
    simp only [answers, Global.set, Function.update_self, if_true]
    omega
  · simp only [answers, Global.set, Function.update_of_ne (Ne.symm ht), if_neg ht]
    omega

theorem holds_set (t v : Fin n) (r : Place n × Shared n) :
    Holds t v (s.set me r) ↔ r.2.reqThread v = .thief t ∧
      reopening (if v = me then r.1.pc else (s.proc v).pc) ≠ some t := by
  by_cases hv : v = me
  · subst hv
    simp [Holds]
  · simp [Holds, set_proc_of_ne s r hv, hv]

theorem holds_congr {t : Fin n} {r : Place n × Shared n}
    (hne : ∀ v, v ≠ me → r.2.reqThread v = s.shared.reqThread v)
    (hme : Holds t me (s.set me r) ↔ Holds t me s) (v : Fin n) :
    Holds t v (s.set me r) ↔ Holds t v s := by
  by_cases hv : v = me
  · subst hv
    exact hme
  · rw [holds_set, if_neg hv, hne v hv]
    rfl

theorem request_change {a : Act n} (t : Fin n) (hs : ∀ p, SlotInv c p (s.proc p) s.shared)
    (ha : act c me a (s.proc me) s.shared = some (P', g')) : RequestChange t s (s.set me (P', g')) := by
  have hme := hs me
  have hanswers := answers_set s me t (P', g')
  have hset {r : Req n} {g : Shared n} (hg : g.reqThread = Function.update s.shared.reqThread me r)
      (v : Fin n) (hv : v ≠ me) : g.reqThread v = s.shared.reqThread v := by
    rw [hg, Function.update_of_ne hv]
  cases slot_change hme ha with
  | still hregistering hanswering hreopening hframes hreq hwait hnet hevents =>
      simp only [hframes, hanswering, hnet] at hanswers
      refine .quiet (by omega) (holds_congr (fun v _ => by rw [hreq]) ?_) (by rw [set_shared, hevents])
      rw [holds_set, if_pos rfl, hreq, hreopening]
      rfl
  | opened hpc hpc' hframes hold hg =>
      simp only [hframes, hpc.2.1, hpc'.2.1] at hanswers
      subst hg
      refine .quiet (Nat.add_right_cancel hanswers) (holds_congr (hset rfl) ?_) rfl
      simp [Holds, hold, Shared.setReq]
  | served u tasks fs hpc hpc' hframes hg =>
      have hreq := hme.own (.thief u) (by rw [hpc]; rfl)
      subst hg
      simp only [hframes, hpc, hpc', answering, Shared.record, Shared.send, List.countP_cons, boundFor,
        decide_eq_true_eq] at hanswers
      by_cases hu : u = t
      · subst hu
        refine .replied me (.ship me u) ⟨hreq, by simp [hpc, reopening]⟩ ?_ (.inl rfl) rfl
        rw [if_pos rfl] at hanswers
        simp only [Shared.record, Shared.send]
        omega
      · rw [if_neg hu] at hanswers
        refine .quiet (Nat.add_right_cancel hanswers) (holds_congr (fun _ _ => rfl) ?_)
          (standing_of_ne (e := .ship me u) hu _)
        simp [Holds, hreq, hu, Shared.record, Shared.send]
  | reopened u hpc hpc' hframes hg =>
      have hreq := hme.own (.thief u) (by rw [hpc]; rfl)
      simp only [hframes, hpc, hpc', answering] at hanswers
      subst hg
      refine .quiet (Nat.add_right_cancel hanswers) (holds_congr (hset rfl) ?_) rfl
      simp [Holds, hpc, hreq, Shared.setReq, reopening]
  | reset r hpc hpc' hframes hr hg =>
      have hreq := hme.own r (by rw [hpc]; rfl)
      have hnone : answering (.idle (.unlock r)) = none := by
        cases r with
        | thief t => exact absurd rfl (hr t)
        | available | unavailable => rfl
      simp only [hframes, hpc, hpc', hnone] at hanswers
      subst hg
      refine .quiet (Nat.add_right_cancel hanswers) (holds_congr (hset rfl) ?_) rfl
      simp [Holds, hreq, hr t, Shared.setReq]
  | withdrawn u hpc hpc' hframes hg =>
      have hreq := hme.own (.thief u) (by rw [hpc]; rfl)
      subst hg
      simp only [hframes, hpc, hpc', answering, Option.some.injEq, Shared.record, Shared.setReq] at hanswers
      by_cases hu : u = t
      · subst hu
        refine .replied me (.invalidate me u) ⟨hreq, by simp [hpc, reopening]⟩ ?_ (.inr rfl) rfl
        simp only [Shared.record, Shared.setReq, if_true] at hanswers ⊢
        simp at hanswers
        omega
      · rw [if_neg hu] at hanswers
        refine .quiet (Nat.add_right_cancel hanswers) (holds_congr (hset rfl) ?_)
          (standing_of_ne (e := .invalidate me u) hu _)
        simp [Holds, hreq, hu, Shared.record, Shared.setReq]
  | invalidated u hpc hpc' hframes hg =>
      subst hg
      have hold : answering (s.proc me).pc = some u := by rw [hpc]; rfl
      simp only [hframes, hold, hpc'.2.1, Option.some.injEq] at hanswers
      have hreopening : reopening (s.proc me).pc = none := by rw [hpc]; rfl
      have hholds (v : Fin n) :
          Holds t v (s.set me (P', (s.shared.setWaitForTask u false).record (.clear u))) ↔
            Holds t v s :=
        holds_congr (fun _ _ => rfl)
          (by simp [Holds, hreopening, hpc'.2.2, Shared.record, Shared.setWaitForTask]) v
      by_cases hu : u = t
      · subst hu
        refine .ended ?_ hholds rfl
        simp at hanswers
        simp only [Shared.record, Shared.setWaitForTask] at hanswers ⊢
        omega
      · rw [if_neg hu] at hanswers
        exact .quiet (Nat.add_right_cancel hanswers) hholds (standing_of_ne (e := .clear u) hu _)
  | flagged i v hpc hpc' hframes hg =>
      simp only [hframes, hpc, hpc', answering] at hanswers
      subst hg
      refine .quiet (Nat.add_right_cancel hanswers) (holds_congr (fun _ _ => rfl) ?_) rfl
      simp [Holds, hpc, hpc', Shared.setWaitForTask, reopening]
  | registered i v hpc hpc' hframes hg =>
      have hav := hme.claimed v (by rw [hpc]; rfl)
      have hv : v ≠ me := hme.distinct v (by rw [hpc]; rfl)
      simp only [hframes, hpc, hpc', answering] at hanswers
      subst hg
      by_cases ht : me = t
      · subst ht
        refine .asked v (by rw [hpc]; rfl) ?_ rfl
        rw [holds_set, if_neg hv]
        refine ⟨Function.update_self .., fun hr => ?_⟩
        have hreq := (hs v).own _ (expects_reopening hr)
        rw [hav] at hreq
        cases hreq
      · refine .quiet (Nat.add_right_cancel hanswers) (fun w => ?_)
          (standing_of_ne (e := .register me v) ht _)
        rw [holds_set]
        by_cases hw : w = v
        · subst hw
          simp [Holds, hav, ht, Shared.record, Shared.setReq]
        · have hne : Function.update s.shared.reqThread v (.thief me) w = s.shared.reqThread w :=
            Function.update_of_ne hw ..
          simp only [Shared.record, Shared.setReq, hne, Holds]
          split
          · subst w
            simp [hpc, hpc', reopening]
          · rfl
  | delivered source tasks hm hpc hframes hreq hwait hnet hevents =>
      have hholds (v : Fin n) : Holds t v (s.set me (P', g')) ↔ Holds t v s :=
        holds_congr (fun w _ => by rw [hreq]) (by simp [Holds, hreq, hpc]) v
      refine .quiet ?_ hholds (by rw [set_shared, hevents])
      simp only [hpc, hframes, hnet, List.countP_erase] at hanswers
      by_cases ht : me = t
      · subst ht
        have hbound : boundFor me (.shipment source me tasks true) = true := by simp [boundFor]
        have hpos : 0 < s.shared.net.countP (boundFor me) := List.countP_pos_iff.mpr ⟨_, hm, hbound⟩
        simp only [hm, hbound, and_self, if_true] at hanswers
        omega
      · simp [boundFor, ht] at hanswers
        omega
  | cleared hpc hframes hg =>
      subst hg
      simp only [hpc] at hanswers
      have hholds (v : Fin n) :
          Holds t v (s.set me (P', (s.shared.setWaitForTask me false).record (.clear me))) ↔
            Holds t v s :=
        holds_congr (fun _ _ => rfl)
          (by simp [Holds, hpc, Shared.record, Shared.setWaitForTask]) v
      by_cases ht : me = t
      · subst ht
        refine .ended ?_ hholds rfl
        simp only [Shared.record, Shared.setWaitForTask, if_true] at hanswers ⊢
        omega
      · rw [if_neg ht, if_neg ht] at hanswers
        exact .quiet (Nat.add_right_cancel hanswers) hholds (standing_of_ne (e := .clear me) ht _)

def Stands (t : Fin n) (s : State n) : Standing n → Prop
  | .idle => answers t s = 0 ∧ ∀ v, ¬Holds t v s
  | .registered v => Holds t v s
  | .answered => 0 < answers t s

theorem requests_pos {t v : Fin n} (h : Holds t v s) : 0 < requests t s := by
  have hle := Finset.single_le_sum (f := fun w => if Holds t w s then 1 else 0) (fun _ _ => Nat.zero_le _)
    (Finset.mem_univ v)
  rw [if_pos h] at hle
  exact hle

theorem requests_two {t v w : Fin n} (h : Holds t v s) (h' : Holds t w s) (hne : v ≠ w) :
    1 < requests t s := by
  have hle := Finset.sum_le_univ_sum_of_nonneg (s := {v, w}) (f := fun w => if Holds t w s then 1 else 0)
    (fun _ => Nat.zero_le _)
  rw [Finset.sum_pair hne, if_pos h, if_pos h'] at hle
  exact hle

namespace OneReason

variable {t : Fin n} (h : OneReason t s)

include h

theorem le_one : (registering (s.proc t).pc).toNat + answers t s + requests t s ≤ 1 := by
  rw [← h]
  exact Bool.toNat_le _

theorem not_holds (ha : registering (s.proc t).pc = true ∨ 0 < answers t s) (v : Fin n) : ¬Holds t v s := by
  intro hv
  have hle := h.le_one
  have hpos := requests_pos hv
  rcases ha with ha | ha
  · rw [ha, Bool.toNat_true] at hle
    omega
  · omega

theorem holds_unique {v w : Fin n} (hv : Holds t v s) (hw : Holds t w s) : v = w := by
  by_contra hne
  have hle := h.le_one
  have htwo := requests_two hv hw hne
  omega

theorem wait_of_holds {v : Fin n} (hv : Holds t v s) : s.shared.waitForTaskFromVictim t = true := by
  have hpos := requests_pos hv
  cases hwait : s.shared.waitForTaskFromVictim t with
  | true => rfl
  | false =>
      rw [OneReason, hwait, Bool.toNat_false] at h
      omega

end OneReason

theorem stands_change {t : Fin n} {s' : State n} (h : RequestChange t s s') (hone : OneReason t s)
    (hst : ∃ st, standing t s.shared.slotEvents = some st ∧ Stands t s st) :
    ∃ st, standing t s'.shared.slotEvents = some st ∧ Stands t s' st := by
  obtain ⟨st, hlog, hstands⟩ := hst
  cases h with
  | quiet hanswers hholds hevents =>
      refine ⟨st, hevents.trans hlog, ?_⟩
      cases st <;> simpa only [Stands, hanswers, hholds] using hstands
  | asked v hregistering hholds hevents =>
      have hle := hone.le_one
      rw [hregistering, Bool.toNat_true] at hle
      -- while t is registering it has neither a request nor an answer
      have hidle : st = .idle := by
        cases st with
        | idle => rfl
        | registered w => exact absurd hstands (hone.not_holds (.inl hregistering) w)
        | answered =>
            simp only [Stands] at hstands
            omega
      subst hidle
      exact ⟨.registered v, by rw [hevents, standing_append, hlog]; simp [Standing.next, subject], hholds⟩
  | replied v e hholds hanswers he hevents =>
      have hregistered : st = .registered v := by
        cases st with
        | idle => exact absurd hholds (hstands.2 v)
        | registered w => rw [hone.holds_unique hholds hstands]
        | answered => exact absurd hholds (hone.not_holds (.inr hstands) v)
      subst hregistered
      refine ⟨.answered, ?_, hanswers⟩
      rw [hevents, standing_append, hlog]
      rcases he with rfl | rfl <;> simp [Standing.next, subject]
  | ended hanswers hholds hevents =>
      have hle := hone.le_one
      have hpos : 0 < answers t s := by omega
      have hanswered : st = .answered := by
        cases st with
        | idle => exact absurd hstands.1 (by omega)
        | registered w => exact absurd hstands (hone.not_holds (.inr hpos) w)
        | answered => rfl
      subst hanswered
      refine ⟨.idle, by rw [hevents, standing_append, hlog]; simp [Standing.next, subject], by omega, ?_⟩
      intro v
      rw [hholds]
      exact hone.not_holds (.inr hpos) v

theorem stands_reachable {ok} (hs : ReachableWhen (job c) ok s) (t : Fin n) :
    ∃ st, standing t s.shared.slotEvents = some st ∧ Stands t s st := by
  refine hs.invariant
    (I := fun s => ∃ st, standing t s.shared.slotEvents = some st ∧ Stands t s st) ?_ ?_
  · refine ⟨.idle, rfl, ?_, ?_⟩
    · simp [answers, total, job, Shared.init, Place.init, answering]
    · simp [Holds, job, Shared.init]
  · intro s me a P g hs _ hI ha
    exact stands_change (request_change t (slotInv_reachable hs) ha) (oneReason_reachable hs t) hI

/-- A thief in a slot gives way only to the owner of the slot, which has served
it or is invalidating its request. -/
theorem slot_kept (hs : SlotInv c me P g) (h : SlotChange me P g P' g') {t v : Fin n}
    (hreq : g.reqThread v = .thief t) : g'.reqThread v = .thief t ∨
      v = me ∧ (∀ u, g'.reqThread v ≠ .thief u) ∧
        (reopening P.pc = some t ∨ g'.slotEvents = g.slotEvents ++ [.invalidate v t]) := by
  have hother {r : Req n} (hv : v ≠ me) : (g.setReq me r).reqThread v = .thief t := by
    rw [← hreq]
    exact Function.update_of_ne hv ..
  cases h with
  | still _ _ _ _ hreq' | delivered _ _ _ _ _ hreq' => exact .inl (hreq' ▸ hreq)
  | opened _ _ _ hold hg =>
      subst hg
      refine .inl (hother ?_)
      rintro rfl
      rw [hold] at hreq
      cases hreq
  | served | invalidated | flagged | cleared =>
      rename_i hg
      subst hg
      exact .inl hreq
  | reopened u hpc _ _ hg =>
      subst hg
      by_cases hv : v = me
      · subst hv
        have hown := hs.own (.thief u) (by rw [hpc]; rfl)
        rw [hreq] at hown
        cases hown
        exact .inr ⟨rfl, fun u => by simp [Shared.setReq], .inl (by rw [hpc]; rfl)⟩
      · exact .inl (hother hv)
  | reset r hpc _ _ hr hg =>
      subst hg
      refine .inl (hother ?_)
      rintro rfl
      exact hr t ((hs.own r (by rw [hpc]; rfl)).symm.trans hreq)
  | withdrawn u hpc _ _ hg =>
      subst hg
      by_cases hv : v = me
      · subst hv
        have hown := hs.own (.thief u) (by rw [hpc]; rfl)
        rw [hreq] at hown
        cases hown
        exact .inr ⟨rfl, fun u => by simp [Shared.record, Shared.setReq], .inr rfl⟩
      · exact .inl (hother hv)
  | registered i w hpc _ _ hg =>
      subst hg
      have hne : v ≠ w := by
        rintro rfl
        rw [hs.claimed v (by rw [hpc]; rfl)] at hreq
        cases hreq
      left
      rw [← hreq]
      exact Function.update_of_ne hne ..

/-- The request slots in every state. The history of each thief t goes through
registration, one answer of the place t is registered with, and the end of the
wait, in turn; a registration without an answer is in its slot, and nowhere
else; a registration is made over REQ_AVAILABLE, under the lock, while t waits
for nothing else; a step that takes a thief out of a slot invalidates its
request or follows its shipment; and shipments find their thief waiting. -/
structure AnsweredOnce (c : Config n) (s : State n) : Prop where
  inTurn : ∀ t, standing t s.shared.slotEvents ≠ none
  unanswered : ∀ t v, standing t s.shared.slotEvents = some (.registered v) ↔ Holds t v s
  answered : ∀ t, standing t s.shared.slotEvents = some .answered ↔ answers t s = 1
  one : ∀ t, answers t s + requests t s ≤ 1
  register : ∀ t i v, (s.proc t).pc = .steal (.register i v) → s.shared.reqThread v = .available ∧
    s.shared.reqLock v = some t ∧ s.shared.waitForTaskFromVictim t = true ∧
    standing t s.shared.slotEvents = some .idle
  kept : ∀ p a s', (job c).next s p a = some s' → ∀ t v, s.shared.reqThread v = .thief t →
    s'.shared.reqThread v = .thief t ∨
      v = p ∧ (∀ u, s'.shared.reqThread v ≠ .thief u) ∧
        (¬Holds t v s ∨ s'.shared.slotEvents = s.shared.slotEvents ++ [.invalidate v t])
  shipment : ∀ source t tasks, .shipment source t tasks true ∈ s.shared.net →
    s.shared.waitForTaskFromVictim t = true
  frames : ∀ t, (s.proc t).frames ≠ [] → s.shared.waitForTaskFromVictim t = true

theorem answeredOnce_reachable {s : State n} (hs : Reachable (job c) s) : AnsweredOnce c s := by
  have hslot := slotInv_reachable hs
  have hone := oneReason_reachable hs
  refine ⟨?_, ?_, ?_, ?_, ?_, ?_, ?_, ?_⟩
  · intro t
    obtain ⟨st, hst, -⟩ := stands_reachable hs t
    simp [hst]
  · intro t v
    obtain ⟨st, hst, hstands⟩ := stands_reachable hs t
    rw [hst, Option.some.injEq]
    constructor
    · rintro rfl
      exact hstands
    · intro hholds
      cases st with
      | idle => exact absurd hholds (hstands.2 v)
      | registered w => rw [(hone t).holds_unique hstands hholds]
      | answered => exact absurd hholds ((hone t).not_holds (.inr hstands) v)
  · intro t
    have hle := (hone t).le_one
    obtain ⟨st, hst, hstands⟩ := stands_reachable hs t
    rw [hst, Option.some.injEq]
    cases st with
    | idle => simp [hstands.1]
    | registered w =>
        have hpos := requests_pos hstands
        simp
        omega
    | answered =>
        simp only [Stands] at hstands
        simp
        omega
  · intro t
    have hle := (hone t).le_one
    omega
  · intro t i v hpc
    have hregistering : registering (s.proc t).pc = true := by rw [hpc]; rfl
    have hle := (hone t).le_one
    have heq := hone t
    rw [OneReason, hregistering, Bool.toNat_true] at heq
    rw [hregistering, Bool.toNat_true] at hle
    refine ⟨(hslot t).claimed v (by rw [hpc]; rfl), ((hslot t).lock v).mpr (by rw [hpc]; rfl), ?_, ?_⟩
    · cases hwait : s.shared.waitForTaskFromVictim t with
      | true => rfl
      | false =>
          rw [hwait, Bool.toNat_false] at heq
          omega
    · obtain ⟨st, hst, hstands⟩ := stands_reachable hs t
      cases st with
      | idle => exact hst
      | registered w => exact absurd hstands ((hone t).not_holds (.inl hregistering) w)
      | answered =>
          simp only [Stands] at hstands
          omega
  · intro p a s' hnext t v hreq
    obtain ⟨P', g', hact, rfl⟩ := next_eq_some.mp hnext
    apply (slot_kept (hslot p) (slot_change (hslot p) hact) hreq).imp_right
    rintro ⟨rfl, hnone, hanswer⟩
    exact ⟨rfl, hnone, hanswer.imp_left fun hr hholds => hholds.2 hr⟩
  · intro source t tasks hm
    apply (hone t).wait_of_answers
    have hpos : 0 < s.shared.net.countP (boundFor t) :=
      List.countP_pos_iff.mpr ⟨_, hm, by simp [boundFor]⟩
    rw [answers]
    omega
  · intro t hframes
    apply (hone t).wait_of_answers
    have hpos := List.length_pos_iff.mpr hframes
    rw [answers]
    omega

def shipped : List (Fin 2 × Act 2) :=
  throughBarrier ++ (List.range 4).map (fun t => (0, .work (.asyncAny t))) ++ throughBarrier ++
    comms 0 9 ++ [(1, .idle 1)] ++ comms 1 16 ++ comms 0 7 ++ [(0, .comm ⟨1, some 0⟩)] ++ comms 0 3

set_option maxRecDepth 10000 in
theorem answeredOnce_shipped :
    .shipment 0 1 [0] true ∈ ((job (twoPlaces .baseline false)).after shipped).shared.net ∧
      AnsweredOnce (twoPlaces .baseline false) ((job (twoPlaces .baseline false)).after shipped) :=
  ⟨by decide, answeredOnce_reachable (after_reachable _ shipped)⟩

end HabaneroUpc.Slot
