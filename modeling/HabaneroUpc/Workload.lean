import HabaneroUpc.Regions

namespace HabaneroUpc.Completion

open Interleaving Tally Regions ThiefQueue

variable {n : Nat}

def upperBound (c : Config n) : Nat := if c.lifelines then c.logRanks else n

/-- What is left to do of the task, batch or search that a place is at. -/
def statementLoad (c : Config n) : PC n → Nat
  | .exec (.inc _) => 7
  | .exec (.exec _) => 6
  | .exec .dec | .drain (.dec _ _) => 1
  | .idle .mark => 8 * upperBound c + 2
  | .lifeline (.loop i _) => 8 * (upperBound c - i) + 1
  | .lifeline (.probe i _ _) => 8 * (upperBound c - (i + 1)) + 7
  | .lifeline (.send i _ _) => 8 * (upperBound c - (i + 1)) + 6
  | .lifeline (.wait i _) => 8 * (upperBound c - (i + 1)) + 2
  | .ship (.steal _ tasks) => if tasks = [] then 0 else 4 * tasks.length + 7
  | .ship (.inc _ tasks) => 4 * tasks.length + 6
  | .ship (.ship _ tasks) => 4 * tasks.length + 5
  | _ => 0

/-- What a place has to do apart from that. An operation costs more where more
is to come of it. -/
def taskLoad (P : Place n) : Nat :=
  P.asyncs + 2 * P.asyncAnys.length + 9 * P.sending.length + 8 * P.deque.length +
    2 * P.tasksReceived.toNat

def load (c : Config n) (P : Place n) : Nat := taskLoad P + statementLoad c P.pc

def msgLoad : Msg n → Nat
  | .asyncAt _ _ | .asyncCopy _ _ => 4
  | .shipment _ _ tasks _ => tasks.length + 3
  | .stealRequest _ _ => 2
  | .receipt _ _ => 1

def netLoad (g : Shared n) : Nat := (g.net.map msgLoad).sum

/-- All that is left to do before the places can agree on termination. -/
def pendingWork (c : Config n) (s : State n) : Nat := total (fun _ P => load c P) s.proc + netLoad s.shared

variable {c : Config n} {me p : Fin n} {ch : Choice n} {P P' : Place n} {g g' : Shared n} {s : State n}
  {r : Place n × Shared n}

@[simp] theorem taskLoad_goto (P : Place n) (pc : PC n) : taskLoad (P.goto pc) = taskLoad P := rfl

@[simp] theorem goto_pc (P : Place n) (pc : PC n) : (P.goto pc).pc = pc := rfl

@[simp] theorem goto_regions (P : Place n) (pc : PC n) : (P.goto pc).regions = P.regions := rfl

@[simp] theorem netLoad_send (g : Shared n) (m : Msg n) : netLoad (g.send m) = msgLoad m + netLoad g := by
  simp [netLoad, Shared.send]

theorem pendingWork_set (h : load c r.1 + netLoad r.2 < load c (s.proc me) + netLoad s.shared) :
    pendingWork c (s.set me r) < pendingWork c s := by
  have htotal := total_update (fun _ P => load c P) s.proc me r.1
  simp only [pendingWork, Global.set]
  omega

structure Works (c : Config n) (P : Place n) (g : Shared n) (r : Place n × Shared n) : Prop where
  inLoop : InLoop r.1.pc
  regions : r.1.regions = P.regions
  less : load c r.1 + netLoad r.2 < load c P + netLoad g

theorem works_of (hpc : offset r.1.pc = 5) (hregions : r.1.regions = P.regions)
    (htask : taskLoad r.1 = taskLoad P)
    (hless : statementLoad c r.1.pc + netLoad r.2 < statementLoad c P.pc + netLoad g) :
    Works c P g r := by
  refine ⟨hpc, hregions, ?_⟩
  simp only [load, htask]
  omega

theorem works_goto {pc : PC n} (hpc : offset pc = 5) (hless : statementLoad c pc + netLoad g' <
    statementLoad c P.pc + netLoad g) : Works c P g (P.goto pc, g') :=
  works_of hpc rfl rfl hless

@[simp] theorem netLoad_check (g : Shared n) (a : Assertion) (b : Bool) :
    netLoad (g.check a b) = netLoad g := by
  cases b <;> rfl

@[simp] theorem netLoad_record (g : Shared n) (e : SlotEvent n) : netLoad (g.record e) = netLoad g := rfl

@[simp] theorem netLoad_failures (g : Shared n) (fs : List Assertion) :
    netLoad { g with failures := fs } = netLoad g := rfl

theorem netLoad_erase {m : Msg n} (hm : m ∈ g.net) (fs : List Assertion) (ts : List Nat) :
    msgLoad m + netLoad { g with net := g.net.erase m, failures := fs, started := ts } = netLoad g :=
  List.sum_map_erase msgLoad hm

theorem exec_works {l : ExecPc n} (hpc : P.pc = .exec l) (hpos : 0 < statementLoad c P.pc) :
    ∃ r, commStep c me ch P g = some r ∧ Works c P g r := by
  rw [hpc] at hpos
  cases l with
  | pop => exact absurd hpos (Nat.lt_irrefl 0)
  | inc task =>
      refine ⟨_, by simp only [commStep, hpc]; rfl, ?_⟩
      refine works_goto (by rfl) ?_
      rw [hpc]
      exact Nat.add_lt_add_right (show 6 < 7 by decide) _
  | exec task =>
      refine ⟨_, by simp only [commStep, hpc]; rfl, ?_⟩
      refine works_goto (by rfl) ?_
      rw [hpc]
      cases task <;> simp [executeCommTask, statementLoad, msgLoad] <;> omega
  | dec =>
      refine ⟨_, by simp only [commStep, hpc]; rfl, ?_⟩
      exact ⟨rfl, rfl, by simp [load, taskLoad, statementLoad, hpc]⟩

theorem drain_works {l : DrainPc n} (hpc : P.pc = .drain l) (hpos : 0 < statementLoad c P.pc) :
    ∃ r, commStep c me ch P g = some r ∧ Works c P g r := by
  rw [hpc] at hpos
  cases l with
  | loop => exact absurd hpos (Nat.lt_irrefl 0)
  | dec victim tasks =>
      refine ⟨_, by simp only [commStep, hpc]; rfl, ?_⟩
      refine works_goto (by rfl) ?_
      rw [hpc]
      exact Nat.add_lt_add_right (Nat.zero_lt_one) _

theorem ship_works {l : ShipPc n} (v : Fin n) (hpc : P.pc = .ship l)
    (hpos : 0 < statementLoad c P.pc) :
    ∃ r, commStep c me ⟨v, none⟩ P g = some r ∧ Works c P g r := by
  rw [hpc] at hpos
  cases l with
  | steal requestor tasks =>
      have hne : tasks ≠ [] := by
        rintro rfl
        exact absurd hpos (Nat.lt_irrefl 0)
      refine ⟨(P.goto (.ship (.inc requestor tasks)), g), ?_, works_goto rfl ?_⟩
      · simp [commStep, hpc, shipAsyncAny, hne]
      · simp [hpc, statementLoad, hne]
  | inc requestor tasks =>
      refine ⟨_, by simp only [commStep, hpc]; rfl, ?_⟩
      refine works_goto (by rfl) ?_
      rw [hpc]
      exact Nat.add_lt_add_right (Nat.lt_succ_self _) _
  | ship requestor tasks =>
      cases requestor with
      | some thief =>
          refine ⟨_, by simp only [commStep, hpc]; rfl, ?_⟩
          refine works_goto (by rfl) ?_
          simp only [netLoad_record, netLoad_send, netLoad_check, hpc, statementLoad, msgLoad]
          omega
      | none =>
          obtain ⟨thief, q, hpop⟩ : ∃ thief q, popThief P.thiefQueue = (thief, q) := ⟨_, _, rfl⟩
          cases thief with
          | some thief =>
              refine ⟨_, by simp only [commStep, hpc, shipAsyncAny, hpop]; rfl, ?_⟩
              refine works_of (by rfl) rfl rfl ?_
              simp only [netLoad_send, netLoad_check, hpc, statementLoad, msgLoad, goto_pc]
              omega
          | none =>
              refine ⟨_, by simp only [commStep, hpc, shipAsyncAny, hpop]; rfl, ?_⟩
              refine works_of (by rfl) rfl rfl ?_
              simp only [netLoad_check, hpc, statementLoad, goto_pc]
              omega
  | reopen | advance => exact absurd hpos (Nat.lt_irrefl 0)

theorem lifeline_works {l : LifelinePc n} (hpc : P.pc = .lifeline l)
    (hvictim : c.lifelines = true ∨ ch.victim ≠ me)
    (hwait : ∀ i k, l = .wait i k → P.waitingForReturnAsync = false) :
    ∃ r, commStep c me ch P g = some r ∧ Works c P g r := by
  cases l with
  | loop i k =>
      by_cases hi : i < upperBound c ∧ (!P.receivedTasksFromVictim) = true
      · have hless : 8 * (upperBound c - (i + 1)) + 7 < 8 * (upperBound c - i) + 1 := by omega
        have hdraw : ¬((!c.lifelines) = true ∧ ch.victim = me) := by
          rintro ⟨hrandom, hme⟩
          rcases hvictim with hlifelines | hne
          · simp [hlifelines] at hrandom
          · exact hne hme
        by_cases hv : lifelineVictim c me ch i = me ∨ P.victimAlreadyContacted (lifelineVictim c me ch i)
        · refine ⟨(P.goto (.lifeline (.loop (i + 1) k)), g), ?_, works_goto rfl ?_⟩
          · simp only [commStep, hpc, searchForLifelines]
            exact (if_pos hi).trans ((if_neg hdraw).trans (if_pos hv))
          · simp only [hpc, statementLoad]
            omega
        · refine ⟨(P.goto (.lifeline (.probe i k (lifelineVictim c me ch i))), g), ?_, works_goto rfl ?_⟩
          · simp only [commStep, hpc, searchForLifelines]
            exact (if_pos hi).trans ((if_neg hdraw).trans (if_neg hv))
          · simp only [hpc, statementLoad]
            omega
      · refine ⟨(P.goto (if 0 < k then .exec .pop else .loop .test), g), ?_, works_goto ?_ ?_⟩
        · simp only [commStep, hpc, searchForLifelines]
          exact if_neg hi
        · split <;> rfl
        · rw [hpc]
          split <;> exact Nat.add_lt_add_right (Nat.succ_pos _) _
  | probe i k v =>
      refine ⟨_, by simp only [commStep, hpc]; rfl, ?_⟩
      refine works_goto ?_ ?_
      · split <;> rfl
      · rw [hpc]
        split <;> exact Nat.add_lt_add_right (Nat.add_lt_add_left (by decide) _) _
  | send i k v =>
      have hmark := markVictimContacted_eq c v P g
      refine ⟨_, by simp only [commStep, hpc, searchForLifelines]; rw [hmark], ?_⟩
      refine works_of (by rfl) rfl rfl ?_
      simp only [hpc, statementLoad, netLoad_send, netLoad_failures, msgLoad]
      omega
  | wait i k =>
      refine ⟨(P.goto (.lifeline (.loop (i + 1) (k + 1))), g), ?_, works_goto rfl ?_⟩
      · simp [commStep, hpc, searchForLifelines, hwait i k rfl]
      · rw [hpc]
        exact Nat.add_lt_add_right (Nat.lt_succ_self _) _

/-- Without the synchronous protocol, a place that is at a task, a batch or a
search can always go on with it, unless it awaits a receipt or draws itself. -/
theorem statement_works (me v : Fin n) (hsync : c.synchronous = false)
    (hpos : 0 < statementLoad c P.pc)
    (hvictim : ∀ l, P.pc = .lifeline l → c.lifelines = true ∨ v ≠ me)
    (hwait : ∀ i k, P.pc = .lifeline (.wait i k) → P.waitingForReturnAsync = false) :
    ∃ r, commStep c me ⟨v, none⟩ P g = some r ∧ Works c P g r := by
  cases hpc : P.pc with
  | exec l => exact exec_works hpc hpos
  | drain l => exact drain_works hpc hpos
  | ship l => exact ship_works v hpc hpos
  | lifeline l => exact lifeline_works hpc (hvictim l hpc) fun i k hl => hwait i k (hl ▸ hpc)
  | idle l =>
      cases l with
      | mark =>
          have hsearch : searchTasksGlobally c me P = .lifeline (.loop 0 0) := by
            rcases searchTasksGlobally_cases c me P with ⟨-, h⟩ | ⟨h, -⟩
            · rw [hsync] at h
              cases h
            · exact h
          have hless : statementLoad c (.lifeline (.loop 0 0) : PC n) < statementLoad c P.pc := by
            simp only [hpc, statementLoad]
            omega
          by_cases hidle : P.outOfWork = true
          · refine ⟨(P.goto (searchTasksGlobally c me P), g), ?_, ?_⟩
            · simp only [commStep, hpc, markMyPlaceAsIdle]
              exact if_pos hidle
            · rw [hsearch]
              exact works_goto rfl (Nat.add_lt_add_right hless _)
          · refine ⟨({ P with outOfWork := true, pc := searchTasksGlobally c me P },
              g.setWorkAvail me notWorking), ?_, ?_⟩
            · simp [commStep, hpc, markMyPlaceAsIdle, hidle, hsync]
            · rw [hsearch]
              exact works_of rfl rfl rfl (Nat.add_lt_add_right hless _)
      | _ =>
          rw [hpc] at hpos
          exact absurd hpos (Nat.lt_irrefl 0)
  | spmd | publish | loop | cbarrier | serve | steal =>
      rw [hpc] at hpos
      exact absurd hpos (Nat.lt_irrefl 0)

/-- An operation that is received leaves less to do than it was in flight. -/
theorem deliver_works {m : Msg n} (h : Step c me P g (.deliver m) r) (hpc : InLoop P.pc)
    (hreceived : 0 ≤ P.tasksReceived) (hslot : ∀ p q tasks, m ≠ .shipment p q tasks true) :
    Works c P g r := by
  have hcount : (P.tasksReceived + 1).toNat = P.tasksReceived.toNat + 1 := by omega
  cases h with
  | @asyncAt source fs hm =>
      have herase := netLoad_erase hm fs g.started
      refine ⟨hpc, rfl, ?_⟩
      simp only [load, taskLoad, queueSourcePlaceOfRemoteTask, hcppAsync, hcount, msgLoad] at herase ⊢
      omega
  | asyncCopy hm =>
      have herase := netLoad_erase hm g.failures g.started
      refine ⟨hpc, rfl, ?_⟩
      simp only [load, taskLoad, queueSourcePlaceOfRemoteTask, hcount, msgLoad] at herase ⊢
      omega
  | shipmentSlot => exact absurd rfl (hslot _ _ _)
  | @shipmentQueued source tasks fs hm =>
      have herase := netLoad_erase hm fs (tasks.reverse ++ g.started)
      refine ⟨hpc, rfl, ?_⟩
      simp only [load, taskLoad, queueSourcePlaceOfRemoteTask, hcount, msgLoad] at herase ⊢
      omega
  | @stealRequest thief fs hm =>
      have herase := netLoad_erase hm fs g.started
      refine ⟨hpc, rfl, ?_⟩
      simp only [load, taskLoad, netLoad_send, msgLoad] at herase ⊢
      omega
  | receipt hm =>
      have herase := netLoad_erase hm g.failures g.started
      refine ⟨hpc, rfl, ?_⟩
      simp only [load, taskLoad, msgLoad] at herase ⊢
      omega

theorem task_works (me : Fin n) (hpc : InLoop P.pc)
    (h : 0 < P.asyncs ∨ P.asyncAnys ≠ [] ∨ P.sending ≠ []) :
    ∃ a r, work c me P g a = some r ∧ Works c P g r := by
  rcases h with h | h | h
  · refine ⟨.finish, _, if_pos h, hpc, rfl, ?_⟩
    simp only [load, taskLoad]
    omega
  · obtain ⟨t, ht⟩ := List.exists_mem_of_ne_nil _ h
    have herase := List.length_erase_add_one ht
    refine ⟨.runAny t, _, if_pos ht, hpc, rfl, ?_⟩
    simp only [load, taskLoad, netLoad]
    omega
  · obtain ⟨task, htask⟩ := List.exists_mem_of_ne_nil _ h
    have herase := List.length_erase_add_one htask
    refine ⟨.push task, _, if_pos htask, hpc, rfl, ?_⟩
    simp only [load, taskLoad, List.length_append, List.length_singleton]
    omega

end HabaneroUpc.Completion
