import HabaneroUpc.Requests
import HabaneroUpc.FinishScope

namespace HabaneroUpc.Advertising

open Interleaving Slot

variable {n : Nat}

def marking : PC n → Bool
  | .idle _ => true
  | _ => false

def Marked : PC n → Prop
  | .idle .mark => False
  | .idle _ => True
  | _ => False

def publishes (pc : PC n) : Act n → Bool
  | .comm _ => match pc with
    | .publish (.write _) => true
    | _ => false
  | _ => false

/-- The places that have published a load since they set out_of_work. -/
def overtaken (s : State n) (p : Fin n) (a : Act n) (s' : State n) (st : Finset (Fin n)) :
    Finset (Fin n) :=
  if (s'.proc p).outOfWork then if publishes (s.proc p).pc a then insert p st else st
  else st.erase p

abbrev Published (c : Config n) : State n → Finset (Fin n) → Prop :=
  Traced (job c) (fun _ _ _ _ => True) overtaken (job c).init ∅

/-- All that a step does to the entry of its place in workAvail. -/
inductive LoadChange (me : Fin n) (a : Act n) (P : Place n) (g : Shared n) (P' : Place n)
    (g' : Shared n) : Prop
  | other (hload : g'.workAvail = g.workAvail) (hout : P'.outOfWork = true → P.outOfWork = true)
      (hpublishes : publishes P.pc a = false) (hmarked : Marked P'.pc → Marked P.pc)
      (hreopen : P.pc = .steal .reopen → P'.outOfWork = true → P'.pc = .steal .reopen)
  | mark (hpc : P.pc = .idle .mark) (hout : P.outOfWork = false)
      (hload : g' = g.setWorkAvail me notWorking) (hpublishes : publishes P.pc a = false)
  | publish (load : Int) (hpc : P.pc = .publish (.write load)) (hout : P'.outOfWork = P.outOfWork)
      (hload : g' = g.setWorkAvail me load) (hpublishes : publishes P.pc a = true)
      (hmarked : ¬Marked P'.pc)
  | received (hpc : P.pc = .steal .received) (hpc' : P'.pc = .steal .reopen)
      (hout : P'.outOfWork = P.outOfWork) (hload : g' = g.setWorkAvail me 0)
      (hpublishes : publishes P.pc a = false)

variable {c : Config n} {me : Fin n} {ch : Choice n} {P P' : Place n} {g g' : Shared n} {s : State n}

theorem not_marked_search (c : Config n) (me : Fin n) (P : Place n) :
    ¬Marked (searchTasksGlobally c me P) := by
  rcases searchTasksGlobally_cases c me P with ⟨h, -⟩ | ⟨h, -⟩ <;> rw [h] <;> exact id

theorem not_marked_failed (c : Config n) (me : Fin n) (attempts : Nat) :
    ¬Marked (searchFailed c me attempts) := by
  rcases searchFailed_cases c me attempts with h | ⟨h, -⟩ <;> rw [h] <;> exact id

theorem not_marked_nextVictim (c : Config n) (me : Fin n) (attempts i : Nat) :
    ¬Marked (nextVictim c me attempts i) := by
  rcases nextVictim_cases c me attempts i with h | h <;> rw [h]
  · exact not_marked_failed c me attempts
  · exact id

theorem not_marked_afterShipment (c : Config n) : ¬Marked (afterShipment c) := by
  rcases afterShipment_cases c with h | h | h <;> rw [h] <;> exact id

theorem publish_load {l : PublishPc} (hpc : P.pc = .publish l)
    (h : publishLocalLoadInfo c me P g l = some (P', g')) : LoadChange me (.comm ch) P g P' g' := by
  cases l with
  | read =>
      cases h
      exact .other rfl id (by rw [hpc]; rfl) (fun hm => hm.elim) (by simp [hpc])
  | write load =>
      cases h
      refine .publish load hpc rfl rfl (by rw [hpc]; rfl) ?_
      dsimp only [Place.goto]
      split <;> exact id

theorem idle_load {l : IdlePc n} (hpc : P.pc = .idle l)
    (h : markMyPlaceAsIdle c me P g l = some (P', g')) : LoadChange me (.comm ch) P g P' g' := by
  have hs := not_marked_search c me P
  have hpublishes : publishes P.pc (.comm ch) = false := by rw [hpc]; rfl
  have hreopen : P.pc = .steal .reopen → P'.outOfWork = true →
      P'.pc = .steal .reopen := by simp [hpc]
  cases l with
  | mark =>
      simp only [markMyPlaceAsIdle] at h
      split at h <;> cases h
      · exact .other rfl id hpublishes (fun hm => absurd hm hs) hreopen
      · exact .mark hpc (by simpa using ‹¬P.outOfWork = true›) rfl hpublishes
  | lock =>
      simp only [markMyPlaceAsIdle] at h
      split at h <;> cases h
      exact .other rfl id hpublishes (fun _ => hpc ▸ trivial) hreopen
  | read =>
      cases h
      exact .other rfl id hpublishes (fun _ => hpc ▸ trivial) hreopen
  | write r =>
      cases r <;> cases h <;> exact .other rfl id hpublishes (fun _ => hpc ▸ trivial) hreopen
  | unlock r =>
      cases r <;> cases h <;> exact .other rfl id hpublishes (fun _ => hpc ▸ trivial) hreopen
  | invalidate t =>
      cases h
      exact .other rfl id hpublishes (fun _ => hpc ▸ trivial) hreopen

theorem steal_load {l : StealPc n} (hpc : P.pc = .steal l)
    (h : searchTasksGloballySynchronous c me ch P g l = some (P', g')) :
    LoadChange me (.comm ch) P g P' g' := by
  have hpublishes : publishes P.pc (.comm ch) = false := by rw [hpc]; rfl
  have hf := not_marked_failed c me P.currentGlbMaxRandAttempts
  have hv := not_marked_nextVictim c me
  cases l with
  | received =>
      cases h
      exact .received hpc rfl rfl rfl hpublishes
  | reopen =>
      cases h
      exact .other rfl (fun h => by cases h) hpublishes (fun hm => hm.elim) (fun _ h => by cases h)
  | unlock i v success =>
      cases success <;> cases h
      · exact .other rfl id hpublishes (fun hm => absurd hm (hv _ _)) (by simp [hpc])
      · exact .other rfl id hpublishes (fun hm => hm.elim) (by simp [hpc])
  | loop | probe | lock | test | flag | register | wait =>
      simp only [searchTasksGloballySynchronous] at h
      repeat' split at h
      all_goals cases h
      all_goals
        refine .other rfl id hpublishes (fun hm => ?_) (by simp [hpc])
        first | exact hm.elim | exact absurd hm hf | exact absurd hm (hv _ _)

theorem ship_load {l : ShipPc n} (hpc : P.pc = .ship l)
    (h : shipAsyncAny c me ch P g l = some (P', g')) : LoadChange me (.comm ch) P g P' g' := by
  have hpublishes : publishes P.pc (.comm ch) = false := by rw [hpc]; rfl
  have hreopen : P.pc = .steal .reopen → P'.outOfWork = true →
      P'.pc = .steal .reopen := by simp [hpc]
  cases l with
  | ship requestor tasks =>
      cases requestor with
      | none =>
          obtain ⟨thief, q, hq⟩ : ∃ thief q, ThiefQueue.popThief P.thiefQueue = (thief, q) :=
            ⟨_, _, rfl⟩
          simp only [shipAsyncAny, hq] at h
          split at h <;> cases h <;> rw [check_check_eq, check_eq]
          · exact .other rfl id hpublishes (fun hm => hm.elim) hreopen
          · exact .other rfl id hpublishes (fun hm => hm.elim) hreopen
      | some thief =>
          cases h
          rw [check_eq]
          exact .other rfl id hpublishes (fun hm => hm.elim) hreopen
  | advance =>
      cases h
      exact .other rfl id hpublishes (fun hm => absurd hm (not_marked_afterShipment c)) hreopen
  | steal | inc | reopen =>
      simp only [shipAsyncAny] at h
      repeat' split at h
      all_goals cases h
      all_goals exact .other rfl id hpublishes (fun hm => hm.elim) hreopen

theorem other_load (h : commStep c me ch P g = some (P', g')) (hpublish : ∀ l, P.pc ≠ .publish l)
    (hidle : ∀ l, P.pc ≠ .idle l) (hsteal : ∀ l, P.pc ≠ .steal l) :
    LoadChange me (.comm ch) P g P' g' := by
  have hpublishes : publishes P.pc (.comm ch) = false := by
    cases hl : P.pc with
    | publish l => exact absurd hl (hpublish l)
    | _ => rfl
  have hreopen : P.pc = .steal .reopen → P'.outOfWork = true → P'.pc = .steal .reopen :=
    fun hpc => absurd hpc (hsteal _)
  cases hl : P.pc with
  | spmd l =>
      simp only [commStep, hl] at h
      cases l <;> simp only [finishSpmd, leaveBarrier] at h <;> (repeat' split at h) <;> cases h
      case endBarrier.refl =>
          rw [check_eq]
          exact .other rfl id hpublishes (fun hm => hm.elim) hreopen
      all_goals exact .other rfl id hpublishes (fun hm => hm.elim) hreopen
  | exec l =>
      simp only [commStep, hl] at h
      cases l with
      | exec task => cases task <;> cases h <;>
          exact .other rfl id hpublishes (fun hm => hm.elim) hreopen
      | pop | inc | dec =>
          simp only [popExecuteCommTask] at h
          repeat' split at h
          all_goals cases h
          all_goals exact .other rfl id hpublishes (fun hm => hm.elim) hreopen
  | loop l =>
      simp only [commStep, hl] at h
      cases l <;> simp only [finishLoop, feedRemoteThieves] at h <;> (repeat' split at h) <;>
        cases h
      all_goals
        refine .other rfl ?_ hpublishes (fun hm => hm.elim) hreopen
        first | exact id | exact fun h => by cases h
  | drain l =>
      simp only [commStep, hl] at h
      cases l <;> simp only [decrementTasksInFlightCount] at h <;> (repeat' split at h) <;>
        cases h <;>
        exact .other rfl id hpublishes (fun hm => hm.elim) hreopen
  | cbarrier l =>
      simp only [commStep, hl] at h
      cases l <;> simp only [cbarrier] at h <;> (repeat' split at h) <;> cases h <;>
        exact .other rfl id hpublishes (fun hm => hm.elim) hreopen
  | serve l =>
      simp only [commStep, hl] at h
      cases l <;> simp only [serve] at h <;> (repeat' split at h) <;> cases h
      all_goals
        refine .other rfl ?_ hpublishes (fun hm => hm.elim) hreopen
        first | exact id | exact fun h => by cases h
  | ship l =>
      simp only [commStep, hl] at h
      exact ship_load hl h
  | lifeline l =>
      simp only [commStep, hl] at h
      cases l with
      | send i k v =>
          simp only [searchForLifelines] at h
          rw [markVictimContacted_eq] at h
          cases h
          exact .other rfl id hpublishes (fun hm => hm.elim) hreopen
      | loop | probe | wait =>
          simp only [searchForLifelines] at h
          repeat' split at h
          all_goals cases h
          all_goals exact .other rfl id hpublishes (fun hm => hm.elim) hreopen
  | publish l => exact absurd hl (hpublish l)
  | idle l => exact absurd hl (hidle l)
  | steal l => exact absurd hl (hsteal l)

theorem load_change {a : Act n} (h : act c me a P g = some (P', g')) :
    LoadChange me a P g P' g' := by
  have hstep := act_step h
  cases a with
  | comm ch =>
      have hcomm := (act_comm h).2
      cases hl : P.pc with
      | publish l =>
          simp only [commStep, hl] at hcomm
          exact publish_load hl hcomm
      | idle l =>
          simp only [commStep, hl] at hcomm
          exact idle_load hl hcomm
      | steal l =>
          simp only [commStep, hl] at hcomm
          exact steal_load hl hcomm
      | spmd | exec | loop | drain | cbarrier | serve | ship | lifeline =>
          exact other_load hcomm (by simp [hl]) (by simp [hl]) (by simp [hl])
  | resume | deliver | work | idle =>
      cases hstep
      all_goals
        refine .other rfl ?_ rfl id fun hpc _ => hpc
        first | exact id | exact fun h => by cases h

theorem LoadChange.others {a : Act n} (h : LoadChange me a P g P' g') {q : Fin n} (hq : q ≠ me) :
    g'.workAvail q = g.workAvail q := by
  cases h with
  | other hload => exact congrFun hload q
  | mark _ _ hload | publish _ _ _ hload | received _ _ _ hload =>
      subst hload
      exact Function.update_of_ne hq ..

theorem enters_write {load : Int} (h : commStep c me ch P g = some (P', g'))
    (hpc' : P'.pc = .publish (.write load)) : P.pc = .publish .read ∧
      load = if c.distWS ∧ 0 < P.totalAsyncAnyAvailable then (P.totalAsyncAnyAvailable : Int)
        else P.totalPendingLocalAsyncs := by
  have hf := commStep_follows h
  rw [hpc'] at hf
  cases hpc : P.pc with
  | publish l =>
      simp only [commStep, hpc] at h
      cases l with
      | read =>
          cases h
          cases hpc'
          exact ⟨rfl, rfl⟩
      | write load' =>
          cases h
          dsimp only [Place.goto] at hpc'
          split at hpc' <;> cases hpc'
  | exec l =>
      simp only [commStep, hpc] at h
      cases l <;> simp only [popExecuteCommTask] at h <;> (repeat' split at h) <;> cases h <;>
        cases hpc'
  | serve l =>
      simp only [commStep, hpc] at h
      cases l <;> simp only [serve] at h <;> (repeat' split at h) <;> cases h <;> cases hpc'
  | ship l =>
      simp only [commStep, hpc] at h
      cases l <;> simp only [shipAsyncAny, afterShipment] at h <;> (repeat' split at h) <;>
        cases h <;> cases hpc'
  | _ =>
      rw [hpc] at hf
      cases hf

/-- A place never publishes NOT_WORKING through publish_local_load_info, since
it counts at least the task of hcpp_finish_barrier. -/
theorem published_nonneg {ok} (hs : ReachableWhen (job c) ok s) (me : Fin n) {load : Int}
    (hpc : (s.proc me).pc = .publish (.write load)) : 0 ≤ load := by
  have hall := (hs.split_invariant (I := fun _ P => ∀ load,
    P.pc = .publish (.write load) → 0 ≤ load)
    (J := fun _ => True) ?_ trivial ?_).1 me load hpc
  · exact hall
  · intro me load hpc
    cases hpc
  · intro s me a P g hs _ hI _ ha
    refine ⟨fun load hpc' => ?_, trivial⟩
    rcases act_pc ha with hsame | ⟨-, ch, hcomm⟩
    · exact hI me load (hsame ▸ hpc')
    · obtain ⟨hpc, hload⟩ := enters_write hcomm hpc'
      have hfinish := (counted_reachable hs me).finish
      have htask : finishBarrierTask (s.proc me).pc = 1 := by rw [hpc]; rfl
      rw [hload]
      split
      · exact Int.natCast_nonneg _
      · simp only [Place.totalPendingLocalAsyncs]
        omega

structure Advertised (p : Fin n) (P : Place n) (g : Shared n) (st : Finset (Fin n)) : Prop where
  overtaken : p ∈ st → P.outOfWork = true ∧ g.workAvail p ≠ notWorking
  current : P.outOfWork = true → p ∉ st → P.pc ≠ .steal .reopen → g.workAvail p = notWorking
  marked : Marked P.pc → p ∉ st ∧ g.workAvail p = notWorking

theorem mem_overtaken_of_ne {a : Act n} {s' : State n} {st : Finset (Fin n)} {p q : Fin n}
    (hq : q ≠ p) :
    q ∈ overtaken s p a s' st ↔ q ∈ st := by
  rw [overtaken]
  split
  · split
    · simp [hq]
    · rfl
  · simp [hq]

theorem mem_overtaken_self {a : Act n} {s' : State n} {st : Finset (Fin n)} {p : Fin n} :
    p ∈ overtaken s p a s' st ↔ (s'.proc p).outOfWork = true ∧
      (publishes (s.proc p).pc a = true ∨ p ∈ st) := by
  rw [overtaken]
  split
  · split <;> simp_all
  · simp_all

theorem advertised_step {a : Act n} {s' : State n} {st : Finset (Fin n)} {p : Fin n}
    (h : LoadChange p a (s.proc p) s.shared (s'.proc p) s'.shared)
    (hload : ∀ load, (s.proc p).pc = .publish (.write load) → 0 ≤ load)
    (he : Advertised p (s.proc p) s.shared st) :
    Advertised p (s'.proc p) s'.shared (overtaken s p a s' st) := by
  cases h with
  | other hsame hout hpublishes hmarked hreopen =>
      refine ⟨?_, ?_, ?_⟩
      · intro hp
        obtain ⟨hout', hp⟩ := mem_overtaken_self.mp hp
        rw [hsame]
        exact ⟨hout', (he.overtaken (hp.resolve_left (by simp [hpublishes]))).2⟩
      · intro hout' hp hpc'
        rw [hsame]
        apply he.current (hout hout')
        · exact fun hmem => hp (mem_overtaken_self.mpr ⟨hout', .inr hmem⟩)
        · exact fun hpc => hpc' (hreopen hpc hout')
      · intro hm
        rw [hsame]
        refine ⟨?_, (he.marked (hmarked hm)).2⟩
        intro hp
        have hmem := (mem_overtaken_self.mp hp).2.resolve_left (by simp [hpublishes])
        exact (he.marked (hmarked hm)).1 hmem
  | mark hpc hout hsame hpublishes =>
      have hp : p ∉ overtaken s p a s' st := by
        intro hp
        have hmem := (mem_overtaken_self.mp hp).2.resolve_left (by simp [hpublishes])
        have hout' := (he.overtaken hmem).1
        rw [hout] at hout'
        cases hout'
      have hidle : s'.shared.workAvail p = notWorking := by
        rw [hsame]
        exact Function.update_self ..
      exact ⟨fun hmem => absurd hmem hp, fun _ _ _ => hidle, fun _ => ⟨hp, hidle⟩⟩
  | publish load hpc hout hsame hpublishes hmarked =>
      have hwork : s'.shared.workAvail p ≠ notWorking := by
        have hnonneg := hload load hpc
        rw [hsame]
        simp only [Shared.setWorkAvail, Function.update_self, notWorking]
        omega
      refine ⟨fun hp => ⟨(mem_overtaken_self.mp hp).1, hwork⟩, ?_, fun hm => absurd hm hmarked⟩
      intro hout' hp
      exact absurd (mem_overtaken_self.mpr ⟨hout', .inl hpublishes⟩) hp
  | received hpc hpc' hout hsame hpublishes =>
      refine ⟨fun hp => ⟨(mem_overtaken_self.mp hp).1, ?_⟩, fun _ _ hne => absurd hpc' hne, ?_⟩
      · rw [hsame]
        simp [Shared.setWorkAvail, notWorking]
      · intro hm
        rw [hpc'] at hm
        exact hm.elim

theorem advertised_published {st : Finset (Fin n)} (ht : Published c s st) (p : Fin n) :
    Advertised p (s.proc p) s.shared st := by
  refine ht.invariant (I := fun s st => ∀ p, Advertised p (s.proc p) s.shared st) .init ?_ ?_ p
  · intro p
    refine ⟨fun h => ?_, fun h => ?_, fun h => h.elim⟩
    · simp at h
    · cases h
  · intro s p a P g st hs _ hI ha q
    have hchange := load_change ha
    by_cases hq : q = p
    · subst hq
      refine advertised_step ?_ (fun load => published_nonneg hs q) (hI q)
      simpa using hchange
    · have hmem : q ∈ overtaken s p a (s.set p (P, g)) st ↔ q ∈ st := mem_overtaken_of_ne hq
      have hP : (s.set p (P, g)).proc q = s.proc q := set_proc_of_ne s (P, g) hq
      have hg : (s.set p (P, g)).shared.workAvail q = s.shared.workAvail q := hchange.others hq
      refine ⟨fun hp => ?_, fun hout hp hpc => ?_, fun hm => ?_⟩
      · rw [hP, hg]
        exact (hI q).overtaken (hmem.mp hp)
      · rw [hP] at hout hpc
        rw [hg]
        exact (hI q).current hout (mt hmem.mpr hp) hpc
      · rw [hP] at hm
        rw [hg, hmem]
        exact (hI q).marked hm

/-- What a return of mark_myPlace_asIdle goes back to: the early return, or an
end of the function after NOT_WORKING has been published. -/
theorem returns_cases {a : Act n} (h : act c me a P g = some (P', g')) (hpc : marking P.pc = true)
    (hreturn : marking P'.pc = false) :
    P.pc = .idle .mark ∧ P.outOfWork = true ∧ g' = g ∨
    P.pc = .idle .mark ∧ P.outOfWork = false ∧ c.synchronous = false ∧
      g' = g.setWorkAvail me notWorking ∨
    expects c P.pc = some .unavailable ∧ Marked P.pc ∧ g'.workAvail = g.workAvail ∧
      g'.reqThread = g.reqThread := by
  rcases act_pc h with hsame | ⟨-, ch, hcomm⟩
  · rw [hsame, hpc] at hreturn
    cases hreturn
  · cases hl : P.pc with
    | idle l =>
        simp only [commStep, hl] at hcomm
        cases l with
        | mark =>
            simp only [markMyPlaceAsIdle] at hcomm
            split at hcomm <;> cases hcomm
            · exact .inl ⟨rfl, ‹_›, rfl⟩
            · refine .inr (.inl ⟨rfl, by simpa using ‹¬P.outOfWork = true›, ?_, rfl⟩)
              dsimp only at hreturn
              split at hreturn
              · cases hreturn
              · simpa using ‹¬c.synchronous = true›
        | lock =>
            simp only [markMyPlaceAsIdle] at hcomm
            split at hcomm <;> cases hcomm
            cases hreturn
        | read | write =>
            cases hcomm
            cases hreturn
        | unlock r =>
            cases hcomm
            exact .inr (.inr ⟨rfl, trivial, rfl, rfl⟩)
        | invalidate t =>
            cases hcomm
            exact .inr (.inr ⟨rfl, trivial, rfl, rfl⟩)
    | _ =>
        rw [hl] at hpc
        cases hpc

/-- mark_myPlace_asIdle returns with the place advertised as idle if and only if
no load has been published since out_of_work was set. -/
theorem advertised_idle_iff {st : Finset (Fin n)} (ht : Published c s st) {p : Fin n} {a : Act n}
    {s' : State n} (hnext : (job c).next s p a = some s') (hpc : marking (s.proc p).pc = true)
    (hreturn : marking (s'.proc p).pc = false) :
    (s'.shared.workAvail p = notWorking ∧
      (c.synchronous = true → s'.shared.reqThread p = .unavailable)) ↔ p ∉ st := by
  have hadvertised := advertised_published ht p
  have hslot := slotInv_reachable (ht.reachable .init) p
  obtain ⟨P', g', ha, rfl⟩ := next_eq_some.mp hnext
  rw [set_proc_self] at hreturn
  rw [set_shared]
  rcases returns_cases ha hpc hreturn with ⟨hmark, hout, rfl⟩ | ⟨hmark, hout, hsync, rfl⟩ |
    ⟨hexpects, hmarked, hload, hreq⟩
  · constructor
    · intro hidle hp
      exact (hadvertised.overtaken hp).2 hidle.1
    · intro hp
      refine ⟨hadvertised.current hout hp (by simp [hmark]), fun hsync => hslot.idle hsync hout ?_⟩
      rw [hmark]
      exact id
  · constructor
    · intro _ hp
      have hout' := (hadvertised.overtaken hp).1
      rw [hout] at hout'
      cases hout'
    · intro _
      refine ⟨Function.update_self .., fun hsync' => ?_⟩
      rw [hsync] at hsync'
      cases hsync'
  · obtain ⟨hp, hidle⟩ := hadvertised.marked hmarked
    refine iff_of_true ⟨?_, fun _ => ?_⟩ hp
    · rw [hload, hidle]
    · rw [hreq]
      exact hslot.own _ hexpects

def serving : PC n → Bool
  | .serve _ | .ship _ | .publish _ => true
  | _ => false

theorem comm_serving (hmode : c.mode = .glb) (h : commStep c me ch P g = some (P', g'))
    (hP : serving P.pc = true → P.outOfWork = false) (hpc' : serving P'.pc = true) :
    P'.outOfWork = false := by
  have hdist : c.distWS = true := by simp [Config.distWS, hmode]
  have hf := commStep_follows h
  cases hl : P.pc with
  | publish l =>
      have hout := hP (by rw [hl]; rfl)
      simp only [commStep, hl] at h
      cases l <;> cases h <;> exact hout
  | serve l =>
      have hout := hP (by rw [hl]; rfl)
      simp only [commStep, hl] at h
      cases l <;> simp only [serve] at h <;> (repeat' split at h) <;> cases h <;>
        first | rfl | exact hout
  | ship l =>
      have hout := hP (by rw [hl]; rfl)
      simp only [commStep, hl] at h
      have hload : LoadChange me (.comm ch) P g P' g' := ship_load hl h
      cases hload with
      | other _ hkept =>
          cases hout' : P'.outOfWork with
          | false => rfl
          | true => exact absurd (hkept hout') (by simp [hout])
      | mark hpc | publish _ hpc | received hpc => simp [hl] at hpc
  | exec l =>
      simp only [commStep, hl] at h
      cases l <;> simp only [popExecuteCommTask, hdist, if_true] at h <;> (repeat' split at h) <;>
        cases h <;>
        cases hpc'
  | loop l =>
      simp only [commStep, hl] at h
      cases l <;> simp only [finishLoop, feedRemoteThieves, hmode] at h <;> (repeat' split at h) <;>
        cases h <;> first | rfl | cases hpc'
  | _ =>
      rw [hl] at hf
      cases hpc : P'.pc with
      | publish l | serve l | ship l =>
          rw [hpc] at hf
          cases hf
      | _ =>
          rw [hpc] at hpc'
          cases hpc'

theorem glb_serving {ok} (hmode : c.mode = .glb) (hs : ReachableWhen (job c) ok s) (me : Fin n) :
    serving (s.proc me).pc = true → (s.proc me).outOfWork = false := by
  refine (hs.split_invariant (I := fun _ P => serving P.pc = true → P.outOfWork = false)
    (J := fun _ => True) (fun _ _ => rfl) trivial ?_).1 me
  intro s me a P g _ _ hI _ ha
  refine ⟨fun hpc' => ?_, trivial⟩
  rcases act_pc ha with hsame | ⟨-, ch, hcomm⟩
  · have hout := hI me (hsame ▸ hpc')
    have hchange := load_change ha
    cases hchange with
    | other _ hkept =>
        cases hout' : P.outOfWork with
        | false => rfl
        | true => exact absurd (hkept hout') (by simp [hout])
    | mark hpc | received hpc => simp [hsame, hpc, serving] at hpc'
    | publish _ _ hkept => exact hkept.trans hout
  · exact comm_serving hmode hcomm (hI me) hpc'

/-- In GLB the serving branch resets out_of_work first, and no load overtakes it. -/
theorem glb_never_overtaken (hmode : c.mode = .glb) {st : Finset (Fin n)} (ht : Published c s st) :
    st = ∅ := by
  refine ht.invariant (I := fun _ st => st = ∅) .init rfl ?_
  intro s p a P g st hs _ hI ha
  ext q
  simp only [Finset.notMem_empty, iff_false]
  intro hq
  by_cases hqp : q = p
  · subst hqp
    obtain ⟨hout', hpublished⟩ := mem_overtaken_self.mp hq
    rw [set_proc_self] at hout'
    have hpub := hpublished.resolve_right (by simp [hI])
    have hchange := load_change ha
    cases hchange with
    | publish load hpc hkept =>
        have hout := glb_serving hmode hs q (by rw [hpc]; rfl)
        rw [hkept, hout] at hout'
        cases hout'
    | other _ _ h | mark _ _ _ h | received _ _ _ _ h =>
        rw [h] at hpub
        cases hpub
  · have hmem := (mem_overtaken_of_ne hqp).mp hq
    simp [hI] at hmem

def searching : List (Fin 2 × Act 2) :=
  throughBarrier ++ [(0, .work .async)] ++ throughBarrier ++ [(0, .idle 1)] ++ comms 0 4

def served : List (Fin 2 × Act 2) :=
  comms 0 7 ++ [(0, .idle 0)] ++ comms 0 8 ++ [(0, .work .finish), (0, .idle 1)] ++ comms 0 4

set_option maxRecDepth 10000 in
theorem advertised_idle_iff_first : ∃ s s' : State 2, Published (twoPlaces .successOnly false) s ∅ ∧
    (job (twoPlaces .successOnly false)).next s 0 (.comm ⟨1, none⟩) = some s' ∧
    s'.shared.workAvail 0 = notWorking := by
  have hrun : ((job (twoPlaces .successOnly false)).trace (fun _ _ _ _ => true) overtaken
      (job (twoPlaces .successOnly false)).init ∅ searching).any (fun r => r.2 = ∅ ∧
        marking (r.1.proc 0).pc = true ∧
        ((job (twoPlaces .successOnly false)).next r.1 0 (.comm ⟨1, none⟩)).any (fun s' =>
          marking (s'.proc 0).pc = false)) = true := by
    decide
  obtain ⟨⟨s, st⟩, hr, hend⟩ := (Option.any_eq_true ..).mp hrun
  obtain ⟨hst, hpc, hreturns⟩ := of_decide_eq_true hend
  obtain ⟨s', hnext, hreturn⟩ := (Option.any_eq_true ..).mp hreturns
  have ht : Published (twoPlaces .successOnly false) s st :=
    (traced_of_trace hr).mono fun _ _ _ _ _ => trivial
  dsimp only at hst
  subst hst
  exact ⟨s, s', ht, hnext,
    ((advertised_idle_iff ht hnext hpc (of_decide_eq_true hreturn)).mpr (by simp)).1⟩

set_option maxRecDepth 10000 in
/-- The early return leaves the published load of the serving branch. -/
theorem advertised_busy : ∃ s s' : State 2, Reachable (job (twoPlaces .successOnly false)) s ∧
    (job (twoPlaces .successOnly false)).next s 0 (.comm ⟨1, none⟩) = some s' ∧
    marking (s.proc 0).pc = true ∧ marking (s'.proc 0).pc = false ∧
    s'.shared.workAvail 0 ≠ notWorking := by
  have hrun : ((job (twoPlaces .successOnly false)).next
      ((job (twoPlaces .successOnly false)).after (searching ++ served)) 0
      (.comm ⟨1, none⟩)).any (fun s' =>
        marking (s'.proc 0).pc = false ∧ s'.shared.workAvail 0 ≠ notWorking) = true := by
    decide
  obtain ⟨s', hnext, hend⟩ := (Option.any_eq_true ..).mp hrun
  obtain ⟨hreturn, hload⟩ := of_decide_eq_true hend
  exact ⟨_, s', after_reachable _ _, hnext, by decide, hreturn, hload⟩

end HabaneroUpc.Advertising
