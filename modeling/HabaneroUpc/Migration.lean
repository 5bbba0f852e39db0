import HabaneroUpc.Slot
import HabaneroUpc.Thieves
import HabaneroUpc.Lib.Tally
import Mathlib.Algebra.BigOperators.Pi
import Mathlib.Algebra.BigOperators.Ring.Finset

namespace HabaneroUpc.Migration

open Interleaving Tally ThiefQueue

variable {n : Nat}

def batch : PC n → List Nat
  | .ship (.steal _ tasks) | .ship (.inc _ tasks) | .ship (.ship _ tasks) => tasks
  | _ => []

def shippedTasks : Msg n → List Nat
  | .shipment _ _ tasks _ => tasks
  | _ => []

/-- How often a task has been created, less its starts and its shipments. -/
def missing (g : Shared n) (t : Nat) : Int :=
  g.created.count t - g.started.count t - (g.net.map fun m => (shippedTasks m).count t).sum

def kept (_ : Fin n) (P : Place n) (t : Nat) : Int := P.asyncAnys.count t + (batch P.pc).count t

variable {c : Config n} {me : Fin n} {P P' : Place n} {g g' : Shared n} {s : State n}

@[simp] theorem missing_failures (fs : List Assertion) : missing { g with failures := fs } = missing g :=
  rfl

@[simp] theorem missing_record (e : SlotEvent n) : missing (g.record e) = missing g := rfl

@[simp] theorem missing_send (m : Msg n) (t : Nat) :
    missing (g.send m) t = missing g t - (shippedTasks m).count t := by
  simp only [missing, Shared.send, List.map_cons, List.sum_cons]
  omega

theorem missing_received {m : Msg n} (hm : m ∈ g.net) (fs : List Assertion) (t : Nat) :
    missing { g with
      net := g.net.erase m, failures := fs, started := (shippedTasks m).reverse ++ g.started } t =
      missing g t := by
  have h := List.sum_map_erase (fun m => (shippedTasks m).count t) hm
  simp only [missing, List.count_append, List.count_reverse]
  omega

theorem batch_emptyHanded {pc : PC n} (h : EmptyHanded pc) : batch pc = [] := by
  unfold batch
  split
  · exact h
  · exact h.elim
  · exact h.elim
  · rfl

theorem kept_emptyHanded (h : EmptyHanded P.pc) (t : Nat) : kept me P t = P.asyncAnys.count t := by
  simp [kept, batch_emptyHanded h]

/-- A step takes tasks from one location to the next. -/
theorem kept_step {a : Act n} {r : Place n × Shared n} (h : Step c me P g a r) (hq : Queueing me P)
    (t : Nat) :
    missing r.2 t - kept me r.1 t = missing g t - kept me P t := by
  cases h with
  | control h hc =>
      rw [kept_emptyHanded hc.pc, kept_emptyHanded hc.pc', hc.asyncAnys, missing, missing, hc.created,
        hc.started, hc.net]
  | idle | async | send | push | finish | decrement | clearWait => rfl
  | pop hpc | popOrigin hpc =>
      have hP : batch P.pc = [] := by rw [hpc]; rfl
      simp only [kept, hP]
      split <;> rfl
  | inc hpc | ended hpc | returnOrigin hpc =>
      have hP : batch P.pc = [] := by rw [hpc]; rfl
      simp only [kept, hP]
      rfl
  | @exec ch task hpc =>
      cases task <;> simp [kept, hpc, batch, Place.goto, executeCommTask, shippedTasks]
  | @steal ch requestor tasks u hpc hlen hu =>
      have herase := List.count_erase_self (a := u) (l := P.asyncAnys)
      have hpos := List.count_pos_iff.mpr hu
      by_cases ht : u = t
      · subst ht
        simp [kept, hpc, batch, List.count_append]
        omega
      · simp [kept, hpc, batch, List.count_append, List.count_erase_of_ne (Ne.symm ht), ht]
  | stolen hpc | shipInc hpc =>
      simp only [kept, hpc]
      rfl
  | shipQueued hpc | shipSlot hpc =>
      simp [kept, hpc, batch, shippedTasks, Place.goto]
      omega
  | shipNowhere hpc hpop =>
      obtain ⟨u, hu, -⟩ := popThief_some hq.sound (hq.waiting (by rw [hpc]; trivial))
      rw [hpop] at hu
      cases hu
  | request hpc => simp [kept, hpc, batch, shippedTasks]
  | @asyncAt source fs hm => exact congrArg (· - kept me P t) (missing_received hm fs t)
  | asyncCopy hm => exact congrArg (· - kept me P t) (missing_received hm g.failures t)
  | @shipmentSlot source tasks fs hm => exact congrArg (· - kept me P t) (missing_received hm fs t)
  | @shipmentQueued source tasks fs hm => exact congrArg (· - kept me P t) (missing_received hm fs t)
  | @stealRequest thief fs hm =>
      have hreceived := missing_received hm fs t
      simp only [shippedTasks, List.reverse_nil, List.nil_append] at hreceived
      simp [hreceived, shippedTasks, kept]
  | receipt hm => exact congrArg (· - kept me P t) (missing_received hm g.failures t)
  | @asyncAny u =>
      simp only [missing, kept, List.count_cons]
      omega
  | @runAny u hu =>
      have hpos := List.count_pos_iff.mpr hu
      by_cases ht : u = t
      · subst ht
        simp [missing, kept]
        omega
      · simp [missing, kept, ht, List.count_erase_of_ne (Ne.symm ht)]

theorem missing_eq {ok} (hs : ReachableWhen (job c) ok s) : missing s.shared = total kept s.proc := by
  refine conserved (S := job c) missing kept ?_ ?_ hs
  · funext t
    simp [missing, total, kept, job, Shared.init, Place.init, batch]
  · intro s me a P g hs _ _ ha
    funext t
    exact kept_step (act_step ha) ((queueing_reachable hs).1 me) t

theorem created_nodup {ok} (hs : ReachableWhen (job c) ok s) : s.shared.created.Nodup := by
  refine hs.invariant (I := fun s => s.shared.created.Nodup) List.nodup_nil ?_
  intro s me a P g _ _ hI ha
  have hstep : Step c me (s.proc me) s.shared a (P, g) := act_step ha
  cases hstep with
  | control h hc =>
      rw [set_shared, hc.created]
      exact hI
  | asyncAny hrun hfresh => exact List.nodup_cons.mpr ⟨hfresh, hI⟩
  | @exec ch task hpc => cases task <;> exact hI
  | _ => exact hI

def Loaded (c : Config n) : PC n → Prop
  | .ship (.steal _ tasks) => tasks.length ≤ c.totalTasksStolenInOneShot
  | .ship (.inc _ tasks) | .ship (.ship _ tasks) => tasks ≠ [] ∧ tasks.length ≤ c.totalTasksStolenInOneShot
  | _ => True

theorem loaded_emptyHanded {pc : PC n} (h : EmptyHanded pc) : Loaded c pc := by
  unfold Loaded
  split
  · rw [show _ = [] from h]
    exact Nat.zero_le _
  · exact h.elim
  · exact h.elim
  · trivial

theorem loaded_step {a : Act n} {r : Place n × Shared n} (h : Step c me P g a r) (hP : Loaded c P.pc) :
    Loaded c r.1.pc := by
  cases h with
  | control h hc => exact loaded_emptyHanded hc.pc'
  | pop | popOrigin =>
      dsimp only
      split <;> trivial
  | steal hpc hlen =>
      simp only [Loaded, List.length_append, List.length_singleton]
      omega
  | stolen hpc hne =>
      rw [hpc] at hP
      exact ⟨hne, hP⟩
  | shipInc hpc =>
      rw [hpc] at hP
      exact hP
  | inc | exec | ended | returnOrigin | shipQueued | shipNowhere | shipSlot | request => trivial
  | _ => exact hP

theorem loaded_reachable {ok} (hs : ReachableWhen (job c) ok s) (me : Fin n) : Loaded c (s.proc me).pc := by
  refine (hs.split_invariant (I := fun _ P => Loaded c P.pc) (J := fun _ => True)
    (fun me => (loaded_emptyHanded trivial : Loaded c (Place.init me).pc)) trivial ?_).1 me
  intro s me a P g hs _ hI _ ha
  exact ⟨loaded_step (act_step ha) (hI me), trivial⟩

def destination (s : State n) (p : Fin n) : Option (Fin n) → Option (Fin n)
  | some t => some t
  | none => (popThief (s.proc p).thiefQueue).1

/-- Where the tasks of asyncAny are. Every task that has been created is in one
deque, one batch, one shipment or started, once. A batch in hand has another
place to go to, goes there whole, and is unwrapped whole when it arrives. -/
structure MigratedOnce (c : Config n) (s : State n) : Prop where
  tasks : (s.shared.created : Multiset Nat) = ∑ p, ((s.proc p).asyncAnys : Multiset Nat) +
    ∑ p, (batch (s.proc p).pc : Multiset Nat) + (s.shared.net.flatMap shippedTasks : Multiset Nat) +
    (s.shared.started : Multiset Nat)
  nodup : s.shared.created.Nodup
  destined : ∀ p r tasks, (s.proc p).pc = .ship (.inc r tasks) ∨ (s.proc p).pc = .ship (.ship r tasks) →
    tasks ≠ [] ∧ tasks.length ≤ 5 ∧ ∃ t, destination s p r = some t ∧ t ≠ p
  shipped : ∀ p ch s' r tasks, (s.proc p).pc = .ship (.ship r tasks) →
    (job c).next s p (.comm ch) = some s' → ∃ t b, destination s p r = some t ∧
      s'.shared.net = .shipment p t tasks b :: s.shared.net
  unwrapped : ∀ p v tasks b s', (job c).next s p (.deliver (.shipment v p tasks b)) = some s' →
    s'.shared.net = s.shared.net.erase (.shipment v p tasks b) ∧
      s'.shared.started = tasks.reverse ++ s.shared.started ∧
      (s'.proc p).asyncs = (s.proc p).asyncs + tasks.length

theorem migratedOnce_reachable (hs : Reachable (job c) s) : MigratedOnce c s := by
  refine ⟨?_, created_nodup hs, ?_, ?_, ?_⟩
  · ext t
    have hmissing := congrFun (missing_eq hs) t
    simp only [missing, total, Finset.sum_apply, kept, Finset.sum_add_distrib, ← Nat.cast_sum] at hmissing
    simp only [Multiset.count_add, Multiset.count_sum', Multiset.coe_count, List.count_flatMap,
      Function.comp_def]
    omega
  · intro p r tasks hpc
    have hloaded := loaded_reachable hs p
    have hle := c.stolen_le
    obtain ⟨hne, hlen⟩ : tasks ≠ [] ∧ tasks.length ≤ c.totalTasksStolenInOneShot := by
      rcases hpc with hpc | hpc <;> rw [hpc] at hloaded <;> exact hloaded
    refine ⟨hne, by omega, ?_⟩
    cases r with
    | some t =>
        have hslot := Slot.slotInv_reachable hs p
        refine ⟨t, rfl, hslot.remote t (hslot.own _ ?_)⟩
        rcases hpc with hpc | hpc <;> rw [hpc] <;> rfl
    | none =>
        have hq := (queueing_reachable hs).1 p
        exact popThief_some hq.sound (hq.waiting (by rcases hpc with hpc | hpc <;> rw [hpc] <;> trivial))
  · intro p ch s' r tasks hpc hnext
    obtain ⟨P', g', hact, rfl⟩ := next_eq_some.mp hnext
    have hstep : Step c p (s.proc p) s.shared (.comm ch) (P', g') := act_step hact
    have hq := (queueing_reachable hs).1 p
    cases hstep with
    | control h hc =>
        have hempty := hc.pc
        rw [hpc] at hempty
        exact hempty.elim
    | shipQueued hpc' hpop =>
        rw [hpc] at hpc'
        cases hpc'
        exact ⟨_, _, by rw [destination, hpop], rfl⟩
    | shipNowhere hpc' hpop =>
        obtain ⟨t, ht, -⟩ := popThief_some hq.sound (hq.waiting (by rw [hpc']; trivial))
        rw [hpop] at ht
        cases ht
    | shipSlot hpc' =>
        rw [hpc] at hpc'
        cases hpc'
        exact ⟨_, _, rfl, rfl⟩
    | pop hpc' | inc hpc' | exec hpc' | ended hpc' | popOrigin hpc' | returnOrigin hpc' | steal hpc'
    | stolen hpc' | shipInc hpc' | request hpc' =>
        rw [hpc] at hpc'
        cases hpc'
  · intro p v tasks b s' hnext
    obtain ⟨P', g', hact, rfl⟩ := next_eq_some.mp hnext
    have hstep : Step c p (s.proc p) s.shared (.deliver (.shipment v p tasks b)) (P', g') := act_step hact
    cases hstep <;> exact ⟨rfl, rfl, by rw [set_proc_self]⟩

def taken : List (Fin 2 × Act 2) :=
  throughBarrier ++ (List.range 4).map (fun t => (0, .work (.asyncAny t))) ++ throughBarrier ++
    comms 0 9 ++ [(1, .idle 1)] ++ comms 1 16 ++ comms 0 7 ++ [(0, .comm ⟨1, some 0⟩)] ++ comms 0 2

set_option maxRecDepth 10000 in
theorem migratedOnce_taken :
    batch (((job (twoPlaces .baseline false)).after taken).proc 0).pc = [0] ∧
      MigratedOnce (twoPlaces .baseline false) ((job (twoPlaces .baseline false)).after taken) :=
  ⟨by decide, migratedOnce_reachable (after_reachable _ taken)⟩

end HabaneroUpc.Migration
