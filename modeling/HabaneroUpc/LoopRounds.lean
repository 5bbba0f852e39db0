import HabaneroUpc.ReceivedTasks
import HabaneroUpc.Workload

namespace HabaneroUpc.Completion

open Interleaving Regions ReceivedTasks

variable {n : Nat}

structure Same (P : Place n) (g : Shared n) (r : Place n × Shared n) : Prop where
  asyncs : r.1.asyncs = P.asyncs
  asyncAnys : r.1.asyncAnys = P.asyncAnys
  sending : r.1.sending = P.sending
  deque : r.1.deque = P.deque
  tasksReceived : r.1.tasksReceived = P.tasksReceived
  receivedTasksOrigin : r.1.receivedTasksOrigin = P.receivedTasksOrigin
  regions : r.1.regions = P.regions
  net : r.2.net = g.net
  asyncsInFlight : r.2.asyncsInFlight = g.asyncsInFlight

structure Neutral (c : Config n) (pc : PC n) : Prop where
  inLoop : InLoop pc
  unloaded : statementLoad c pc = 0

def RoundEnd : PC n → Prop
  | .exec .pop | .cbarrier .received | .spmd .endBarrier => True
  | _ => False

inductive Onward (c : Config n) (P : Place n) (g : Shared n) (P' : Place n) : Prop
  | read (load : Int) (hpc : P.pc = .publish .read) (hpc' : P'.pc = .publish (.write load))
  | write (load : Int) (hpc : P.pc = .publish (.write load))
      (hpc' : P'.pc = if c.distWS then .loop .test else .loop .advance)
  | advance (hpc : P.pc = .loop .advance) (hpc' : P'.pc = .loop .checkIncoming)
  | drain (hpc : P.pc = .loop .checkIncoming) (hpc' : P'.pc = .drain .loop)
  | checked (hpc : P.pc = .loop .checkIncoming ∨ P.pc = .drain .loop) (hreceived : ¬0 < P.tasksReceived)
      (hpc' : P'.pc = if c.distWS then .loop .branch else .loop .test)
  | skip (hpc : P.pc = .drain .loop) (hreceived : 0 < P.tasksReceived)
      (hzero : P.receivedTasksOrigin P.headRto = 0) (hhead : P'.headRto = nextOrigin P.headRto)
      (hpc' : P'.pc = .drain .loop)
  | branch (hpc : P.pc = .loop .branch) (hpc' : P'.pc = .serve .successonly)
  | serve (hpc : P.pc = .serve .successonly)
      (hpc' : P'.pc = .publish .read ∨ P'.pc = .ship (.steal none []))
  | steal (requestor : Option (Fin n)) (hpc : P.pc = .ship (.steal requestor []))
      (hpc' : P'.pc = .publish .read)
  | shipped (hpc : P.pc = .ship .advance) (hpc' : P'.pc = .serve .successonly)
  | pending (hpc : P.pc = .loop .test) (hpending : P.totalPendingLocalAsyncs ≠ 0)
      (hpc' : P'.pc = .exec .pop)
  | test (hpc : P.pc = .loop .test) (hpc' : P'.pc = .loop (.scan 0 0))
  | scan (i : Nat) (hi : i < n) (pendingAsyncs : Int) (hpc : P.pc = .loop (.scan i pendingAsyncs))
      (hpc' : P'.pc = .loop (.scan (i + 1) (pendingAsyncs + g.asyncsInFlight ⟨i, hi⟩)))
  | outstanding (i : Nat) (pendingAsyncs : Int) (hsum : pendingAsyncs ≠ 0)
      (hpc : P.pc = .loop (.scan i pendingAsyncs)) (hpc' : P'.pc = .exec .pop)
  | scanned (i : Nat) (hpc : P.pc = .loop (.scan i 0))
      (hpc' : P'.pc = .cbarrier .inc ∨ P'.pc = .spmd .endBarrier)
  | inc (hpc : P.pc = .cbarrier .inc) (hpc' : P'.pc = .cbarrier .incTest)
  | tested (hpc : P.pc = .cbarrier .incTest ∨ P.pc = .cbarrier .test)
      (hpc' : g.cbCount ≠ n ∧ P'.pc = .cbarrier .received ∨ P'.pc = .spmd .endBarrier)
  | detectWork (hpc : P.pc = .cbarrier .detectWork)
      (hpc' : P'.pc = .cbarrier .dec ∨ P'.pc = .cbarrier .advance)
  | dec (hpc : P.pc = .cbarrier .dec)
      (hpc' : g.cbCount < n ∧ P'.pc = .exec .pop ∨ P'.pc = .cbarrier .advance)
  | polled (hpc : P.pc = .cbarrier .advance) (hpc' : P'.pc = .cbarrier .test)

variable {c : Config n} {me p : Fin n} {ch : Choice n} {P P' : Place n} {g g' : Shared n} {s : State n}
  {r : Place n × Shared n}

theorem same_of (hP : r.1 = { P with pc := r.1.pc, outOfWork := r.1.outOfWork,
                                     idleWorkers := r.1.idleWorkers })
    (hg : r.2 = { g with workAvail := r.2.workAvail, cbCount := r.2.cbCount }) : Same P g r where
  asyncs := by rw [hP]
  asyncAnys := by rw [hP]
  sending := by rw [hP]
  deque := by rw [hP]
  tasksReceived := by rw [hP]
  receivedTasksOrigin := by rw [hP]
  regions := by rw [hP]
  net := by rw [hg]
  asyncsInFlight := by rw [hg]

theorem Same.refl (P : Place n) (g : Shared n) : Same P g (P, g) := same_of rfl rfl

theorem Same.trans (h : Same P g r) {r' : Place n × Shared n} (h' : Same r.1 r.2 r') : Same P g r' where
  asyncs := h'.asyncs.trans h.asyncs
  asyncAnys := h'.asyncAnys.trans h.asyncAnys
  sending := h'.sending.trans h.sending
  deque := h'.deque.trans h.deque
  tasksReceived := h'.tasksReceived.trans h.tasksReceived
  receivedTasksOrigin := h'.receivedTasksOrigin.trans h.receivedTasksOrigin
  regions := h'.regions.trans h.regions
  net := h'.net.trans h.net
  asyncsInFlight := h'.asyncsInFlight.trans h.asyncsInFlight

theorem taskLoad_same (h : Same P g r) : taskLoad r.1 = taskLoad P := by
  simp only [taskLoad, h.asyncs, h.asyncAnys, h.sending, h.deque, h.tasksReceived]

theorem netLoad_same (h : Same P g r) : netLoad r.2 = netLoad g := by
  simp only [netLoad, h.net]

/-- What a round does for its first steps counts for none of them. -/
theorem Works.after (h : Same P g r) (hload : statementLoad c r.1.pc = 0) {r' : Place n × Shared n}
    (h' : Works c r.1 r.2 r') : Works c P g r' := by
  refine ⟨h'.inLoop, h'.regions.trans h.regions, ?_⟩
  have hless := h'.less
  simp only [load, taskLoad_same h, netLoad_same h, hload] at hless ⊢
  omega

theorem roundEnd_unloaded {pc : PC n} (h : RoundEnd pc) : statementLoad c pc = 0 := by
  unfold RoundEnd at h
  split at h
  · rfl
  · rfl
  · rfl
  · exact h.elim

def GoesOn (c : Config n) (me : Fin n) (P : Place n) (g : Shared n) (ch : Choice n) : Prop :=
  ∃ r, commStep c me ch P g = some r ∧ (Works c P g r ∨ Same P g r ∧ Onward c P g r.1)

theorem goesOn_goto {pc : PC n} (h : commStep c me ch P g = some (P.goto pc, g'))
    (hg : g' = { g with workAvail := g'.workAvail, cbCount := g'.cbCount })
    (honward : Onward c P g (P.goto pc)) : GoesOn c me P g ch :=
  ⟨_, h, .inr ⟨same_of rfl hg, honward⟩⟩

theorem publish_goesOn {l : PublishPc} (hpc : P.pc = .publish l) : GoesOn c me P g ch := by
  cases l with
  | read => exact goesOn_goto (by simp only [commStep, hpc]; rfl) rfl (.read _ hpc rfl)
  | write load => exact goesOn_goto (by simp only [commStep, hpc]; rfl) rfl (.write load hpc rfl)

theorem drain_goesOn (hpc : P.pc = .drain .loop) : GoesOn c me P g ch := by
  by_cases hreceived : 0 < P.tasksReceived
  · by_cases hzero : P.receivedTasksOrigin P.headRto = 0
    · refine ⟨_, by simp only [commStep, hpc]; exact if_pos hreceived, .inr ⟨?_, .skip hpc hreceived hzero rfl ?_⟩⟩
      · have horigin : Function.update P.receivedTasksOrigin P.headRto 0 = P.receivedTasksOrigin := by
          rw [← hzero, Function.update_eq_self]
        exact ⟨rfl, rfl, rfl, rfl, by simp [hzero, Place.goto], horigin, rfl, rfl, rfl⟩
      · simp [hzero, Place.goto]
    · refine ⟨_, by simp only [commStep, hpc]; exact if_pos hreceived, .inl ⟨?_, rfl, ?_⟩⟩
      · simp only [goto_pc]
        split <;> rfl
      · simp only [load, taskLoad, Place.goto, hpc, statementLoad, if_pos (Nat.pos_of_ne_zero hzero)]
        omega
  · exact goesOn_goto (by simp only [commStep, hpc]; exact if_neg hreceived) rfl
      (.checked (.inr hpc) hreceived rfl)

theorem loop_goesOn (hsync : c.synchronous = false) {l : LoopPc} (hpc : P.pc = .loop l)
    (hbranch : l ≠ .branch) : GoesOn c me P g ch := by
  have hstep : commStep c me ch P g = finishLoop c me P g l := by simp only [commStep, hpc]
  cases l with
  | advance => exact goesOn_goto (hstep.trans rfl) rfl (.advance hpc rfl)
  | branch => exact absurd rfl hbranch
  | checkIncoming =>
      have hbaseline : c.mode ≠ .baseline := fun h => by simp [Config.synchronous, h] at hsync
      by_cases hreceived : 0 < P.tasksReceived
      · refine goesOn_goto (hstep.trans (if_pos ⟨hbaseline, ?_⟩)) rfl (.drain hpc rfl)
        simpa [Place.receivedTasksFromVictim] using hreceived
      · refine goesOn_goto (hstep.trans (if_neg fun h => hreceived ?_)) rfl
          (.checked (.inl hpc) hreceived rfl)
        simpa [Place.receivedTasksFromVictim] using h.2
  | test =>
      by_cases hpending : P.totalPendingLocalAsyncs = 0
      · exact goesOn_goto (hstep.trans (by rw [finishLoop, if_pos hpending])) rfl (.test hpc rfl)
      · exact goesOn_goto (hstep.trans (by rw [finishLoop, if_neg hpending])) rfl
          (.pending hpc hpending rfl)
  | scan i pendingAsyncs =>
      by_cases hi : i < n
      · exact goesOn_goto (hstep.trans (dif_pos hi)) rfl (.scan i hi pendingAsyncs hpc rfl)
      · by_cases hsum : pendingAsyncs = 0
        · subst hsum
          refine goesOn_goto (hstep.trans ((dif_neg hi).trans (if_pos rfl))) rfl (.scanned i hpc ?_)
          rw [goto_pc]
          split
          · exact .inr rfl
          · exact .inl rfl
        · exact goesOn_goto (hstep.trans ((dif_neg hi).trans (if_neg hsum))) rfl
            (.outstanding i _ hsum hpc rfl)

theorem cbarrier_goesOn {l : CbarrierPc} (hpc : P.pc = .cbarrier l) (hreceived : l ≠ .received) :
    GoesOn c me P g ch := by
  have hstep : commStep c me ch P g = cbarrier me P g l := by simp only [commStep, hpc]
  have hite {p : Prop} [Decidable p] {pc pc' : PC n} :
      ¬p ∧ (if p then pc else pc') = pc' ∨ (if p then pc else pc') = pc := by
    split
    · exact .inr rfl
    · exact .inl ⟨‹_›, rfl⟩
  cases l with
  | inc => exact goesOn_goto (hstep.trans rfl) rfl (.inc hpc rfl)
  | incTest => exact goesOn_goto (hstep.trans rfl) rfl (.tested (.inl hpc) hite)
  | test => exact goesOn_goto (hstep.trans rfl) rfl (.tested (.inr hpc) hite)
  | received => exact absurd rfl hreceived
  | detectWork =>
      refine goesOn_goto (hstep.trans rfl) rfl (.detectWork hpc ?_)
      rw [goto_pc]
      split
      · exact .inl rfl
      · exact .inr rfl
  | dec =>
      by_cases hfull : g.cbCount < n
      · exact goesOn_goto (hstep.trans (if_pos hfull)) rfl (.dec hpc (.inl ⟨hfull, rfl⟩))
      · exact goesOn_goto (hstep.trans (if_neg hfull)) rfl (.dec hpc (.inr rfl))
  | advance => exact goesOn_goto (hstep.trans rfl) rfl (.polled hpc rfl)

theorem serve_goesOn (hpc : P.pc = .serve .successonly) : GoesOn c me P g ch := by
  by_cases hserve : P.idleWorkers = 0 ∧ P.thiefQueue.thievesWaiting
  · refine ⟨_, by simp only [commStep, hpc]; exact if_pos hserve, .inr ⟨same_of rfl rfl, ?_⟩⟩
    exact .serve hpc (.inr rfl)
  · exact goesOn_goto (by simp only [commStep, hpc]; exact if_neg hserve) rfl (.serve hpc (.inl rfl))

/-- Nothing is stolen where the deques of the computation workers are left alone. -/
theorem steal_goesOn {requestor : Option (Fin n)} (hpc : P.pc = .ship (.steal requestor [])) :
    GoesOn c me P g ⟨me, none⟩ :=
  goesOn_goto (by simp [commStep, hpc, shipAsyncAny]; rfl) rfl (.steal requestor hpc rfl)

theorem shipped_goesOn (hsync : c.synchronous = false) (hpc : P.pc = .ship .advance) :
    GoesOn c me P g ch := by
  have hserve : afterShipment c = .serve .successonly := by
    cases hmode : c.mode <;> simp_all [afterShipment, Config.synchronous]
  refine goesOn_goto (by simp only [commStep, hpc, shipAsyncAny, hserve]; rfl) rfl (.shipped hpc rfl)

/-- Every statement of a round can be executed, apart from the one that may
begin a search. -/
theorem goesOn (hsync : c.synchronous = false) (hallowed : allowed c.mode P.pc = true)
    (hneutral : Neutral c P.pc) (hround : ¬RoundEnd P.pc) (hbranch : P.pc ≠ .loop .branch) :
    GoesOn c me P g ⟨me, none⟩ := by
  have hmode : ¬(c.mode = .baseline ∨ c.mode = .glb) := by simpa [Config.synchronous] using hsync
  obtain ⟨hloop, hload⟩ := hneutral
  cases hpc : P.pc with
  | spmd l =>
      rw [hpc] at hloop
      cases l <;> cases hloop
  | exec l =>
      rw [hpc] at hload hround
      cases l with
      | pop => exact absurd trivial hround
      | _ => cases hload
  | publish l => exact publish_goesOn hpc
  | loop l => exact loop_goesOn hsync hpc fun hl => hbranch (hl ▸ hpc)
  | drain l =>
      rw [hpc] at hload
      cases l with
      | loop => exact drain_goesOn hpc
      | dec => cases hload
  | cbarrier l =>
      refine cbarrier_goesOn hpc fun hl => hround ?_
      rw [hpc, hl]
      trivial
  | serve l =>
      rw [hpc] at hallowed
      cases l with
      | successonly => exact serve_goesOn hpc
      | _ => simp_all [allowed]
  | ship l =>
      rw [hpc] at hallowed hload
      cases l with
      | steal requestor tasks =>
          simp only [statementLoad] at hload
          split at hload
          · subst tasks
            exact steal_goesOn hpc
          · omega
      | inc | ship =>
          simp only [statementLoad] at hload
          omega
      | reopen => simp_all [allowed]
      | advance => exact shipped_goesOn hsync hpc
  | idle l =>
      rw [hpc] at hallowed hload
      cases l with
      | mark =>
          simp only [statementLoad] at hload
          omega
      | _ => simp_all [allowed]
  | steal l =>
      rw [hpc] at hallowed
      simp_all [allowed]
  | lifeline l =>
      rw [hpc] at hload
      cases l <;> simp only [statementLoad] at hload <;> omega

/-- How many steps are left of a round. The walk over the origins of received
tasks is the only part whose length depends on the place. -/
def roundSteps (c : Config n) (P : Place n) : Nat :=
  let beforeWalk := 11 + n + (n + 1) * ∑ i, P.receivedTasksOrigin i
  match P.pc with
  | .cbarrier .incTest | .cbarrier .test => 1
  | .cbarrier .inc | .cbarrier .advance => 2
  | .cbarrier .dec => 3
  | .cbarrier .detectWork => 4
  | .loop (.scan i _) => 3 + (n - i)
  | .loop .test => 4 + n
  | .publish (.write _) => if c.distWS then 5 + n else beforeWalk + 2
  | .publish .read => if c.distWS then 6 + n else beforeWalk + 3
  | .ship (.steal _ _) => 7 + n
  | .serve _ => 8 + n
  | .loop .branch | .ship _ => 9 + n
  | .drain _ => 10 + n + weight P.receivedTasksOrigin P.headRto
  | .loop .checkIncoming => beforeWalk
  | .loop .advance => beforeWalk + 1
  | _ => 0

theorem distWS_of_serve {l : ServePc} (h : allowed (n := n) c.mode (.serve l) = true) : c.distWS = true := by
  cases hmode : c.mode <;> cases l <;> simp_all [allowed, Config.distWS]

theorem distWS_of_steal {requestor : Option (Fin n)} {tasks : List Nat}
    (h : allowed c.mode (.ship (.steal requestor tasks)) = true) : c.distWS = true := by
  cases hmode : c.mode <;> cases requestor <;> simp_all [allowed, Mode.serves, Config.distWS]

theorem onward_lt (h : Onward c P g P') (hallowed : allowed c.mode P.pc = true) (hcounted : Counted P)
    (horigin : P'.receivedTasksOrigin = P.receivedTasksOrigin) : roundSteps c P' < roundSteps c P := by
  cases h with
  | read load hpc hpc' =>
      simp only [roundSteps, hpc, hpc', horigin]
      split <;> omega
  | write load hpc hpc' =>
      cases hdist : c.distWS
      · simp [roundSteps, hpc, hpc', horigin, hdist]
      · simp [roundSteps, hpc, hpc', hdist]
  | advance hpc hpc' =>
      simp only [roundSteps, hpc, hpc', horigin]
      omega
  | drain hpc hpc' =>
      have hweight := weight_le P.receivedTasksOrigin P'.headRto
      simp only [roundSteps, hpc, hpc', horigin]
      omega
  | checked hpc _ hpc' =>
      cases hdist : c.distWS <;> rcases hpc with hpc | hpc <;> simp [roundSteps, hpc, hpc', hdist] <;> omega
  | skip hpc hreceived hzero hhead hpc' =>
      have hpop := weight_pop P.receivedTasksOrigin P.headRto
      have hsum := hcounted.received
      rw [← hhead, ← hzero, Function.update_eq_self] at hpop
      simp only [roundSteps, hpc, hpc', horigin]
      omega
  | scan i hi pendingAsyncs hpc hpc' =>
      simp only [roundSteps, hpc, hpc']
      omega
  | serve hpc hpc' =>
      rw [hpc] at hallowed
      have hdist := distWS_of_serve hallowed
      rcases hpc' with hpc' | hpc' <;> simp [roundSteps, hpc, hpc', hdist]
  | steal requestor hpc hpc' =>
      rw [hpc] at hallowed
      have hdist := distWS_of_steal hallowed
      simp [roundSteps, hpc, hpc', hdist]
  | tested hpc hpc' =>
      rcases hpc with hpc | hpc <;> rcases hpc' with ⟨-, hpc'⟩ | hpc' <;> simp [roundSteps, hpc, hpc']
  | dec hpc hpc' =>
      rcases hpc' with ⟨-, hpc'⟩ | hpc' <;> simp [roundSteps, hpc, hpc']
  | scanned _ hpc hpc' | detectWork hpc hpc' =>
      rcases hpc' with hpc' | hpc' <;> simp only [roundSteps, hpc, hpc'] <;> omega
  | branch hpc hpc' | shipped hpc hpc' | pending hpc _ hpc' | test hpc hpc' | outstanding _ _ _ hpc hpc'
  | inc hpc hpc' | polled hpc hpc' =>
      simp only [roundSteps, hpc, hpc']
      omega

theorem onward_neutral (h : Onward c P g P') : Neutral c P'.pc ∨ RoundEnd P'.pc := by
  have hdist {pc pc' : PC n} (h : Neutral c pc) (h' : Neutral c pc') :
      Neutral c (if c.distWS then pc else pc') := by
    split
    · exact h
    · exact h'
  cases h with
  | write _ _ hpc' | checked _ _ hpc' =>
      rw [hpc']
      exact .inl (hdist ⟨rfl, rfl⟩ ⟨rfl, rfl⟩)
  | serve _ hpc' | detectWork _ hpc' =>
      rcases hpc' with hpc' | hpc' <;> rw [hpc'] <;> exact .inl ⟨rfl, rfl⟩
  | scanned _ _ hpc' =>
      rcases hpc' with hpc' | hpc' <;> rw [hpc']
      · exact .inl ⟨rfl, rfl⟩
      · exact .inr trivial
  | dec _ hpc' =>
      rcases hpc' with ⟨-, hpc'⟩ | hpc' <;> rw [hpc']
      · exact .inr trivial
      · exact .inl ⟨rfl, rfl⟩
  | tested _ hpc' =>
      rcases hpc' with ⟨-, hpc'⟩ | hpc' <;> rw [hpc'] <;> exact .inr trivial
  | pending _ _ hpc' | outstanding _ _ _ _ hpc' =>
      rw [hpc']
      exact .inr trivial
  | read _ _ hpc' | advance _ hpc' | drain _ hpc' | skip _ _ _ _ hpc' | branch _ hpc' | steal _ _ hpc'
  | shipped _ hpc' | test _ hpc' | scan _ _ _ _ hpc' | inc _ hpc' | polled _ hpc' =>
      rw [hpc']
      exact .inl ⟨rfl, rfl⟩

section

variable (hsync : c.synchronous = false) (hcancel : c.cancelCyclicSteals = false)
include hsync hcancel

/-- The next step of a round. A place that could begin a search has no idle
workers for the moment. -/
theorem round_step (hs : Reachable (job c) s) (hneutral : Neutral c (s.proc p).pc)
    (hround : ¬RoundEnd (s.proc p).pc) : ∃ r, (job c).Leads s (s.set p r) ∧
      (Works c (s.proc p) s.shared r ∨
        Same (s.proc p) s.shared r ∧ Onward c (s.proc p) s.shared r.1) := by
  by_cases hbranch : (s.proc p).pc = .loop .branch
  · have hidle : (job c).Leads s (s.set p ({ s.proc p with idleWorkers := 0 }, s.shared)) := by
      refine leads_of_act (a := .idle 0) ?_
      rw [act, if_pos (running_reachable hcancel hs)]
    have hserve : commStep c p ⟨p, none⟩ { s.proc p with idleWorkers := 0 } s.shared =
        some ({ s.proc p with idleWorkers := 0, pc := .serve .successonly }, s.shared) := by
      simp only [commStep, hbranch]
      cases hmode : c.mode <;> simp_all [finishLoop, feedRemoteThieves, Config.synchronous, Place.goto]
    have hnext := comm_leads hsync hcancel (p := p) (hidle.reachable hs) (by rw [set_proc_self]; exact hserve)
    exact ⟨_, hidle.solo hnext, .inr ⟨same_of rfl rfl, .branch hbranch rfl⟩⟩
  · obtain ⟨r, hr, h⟩ := goesOn hsync (allowed_reachable hs p) hneutral hround hbranch
    exact ⟨r, comm_leads hsync hcancel hs hr, h⟩

/-- A place with nothing in hand can come to the end of its round, unless it
finds a received operation on the way. What its steps keep holds there. -/
theorem round_ends (hs : Reachable (job c) s) {K : PC n → Prop}
    (hK : ∀ r P', Reachable (job c) (s.set p r) → Same (s.proc p) s.shared r → Neutral c r.1.pc →
      K r.1.pc → Onward c r.1 r.2 P' → K P'.pc)
    (hneutral : Neutral c (s.proc p).pc) (hpc : K (s.proc p).pc) :
    ∃ r, (job c).Leads s (s.set p r) ∧ (Works c (s.proc p) s.shared r ∨
      Same (s.proc p) s.shared r ∧ K r.1.pc ∧ RoundEnd r.1.pc) := by
  refine leads_solo (I := fun r => Same (s.proc p) s.shared r ∧ K r.1.pc ∧
    (Neutral c r.1.pc ∨ RoundEnd r.1.pc)) (fun r => roundSteps c r.1) ?_ (r := (s.proc p, s.shared)) ?_
    ⟨.refl _ _, hpc, .inl hneutral⟩
  · rintro r hr ⟨hsame, hKr, hneutral⟩
    by_cases hround : RoundEnd r.1.pc
    · exact ⟨r, hr, .inl (.inr ⟨hsame, hKr, hround⟩)⟩
    · have hneutral := hneutral.resolve_right hround
      have hreach := hr.reachable hs
      obtain ⟨r', hr', h⟩ := round_step hsync hcancel (p := p) hreach (by rwa [set_proc_self])
        (by rwa [set_proc_self])
      rw [set_proc_self, set_shared] at h
      refine ⟨r', hr.solo hr', ?_⟩
      rcases h with hworks | ⟨hsame', honward⟩
      · exact .inl (.inl (hworks.after hsame hneutral.unloaded))
      · have hallowed := allowed_reachable hreach p
        have hcounted := counted_reachable hreach p
        rw [set_proc_self] at hallowed hcounted
        exact .inr ⟨⟨hsame.trans hsame', hK r _ hreach hsame hneutral hKr honward,
          onward_neutral honward⟩, onward_lt honward hallowed hcounted hsame'.receivedTasksOrigin⟩
  · rw [set_self]
    exact leads_refl _ _

theorem solo_comm (ch : Choice n) (hs : Reachable (job c) s) (hr : (job c).Leads s (s.set p r))
    {r' : Place n × Shared n} (h : commStep c p ch r.1 r.2 = some r') : (job c).Leads s (s.set p r') := by
  have hnext : commStep c p ch ((s.set p r).proc p) (s.set p r).shared = some r' := by
    rwa [set_proc_self]
  exact hr.solo (comm_leads hsync hcancel (hr.reachable hs) hnext)

theorem pop_leads (hs : Reachable (job c) s) (hpc : (s.proc p).pc = .exec .pop) :
    ∃ r, (job c).Leads s (s.set p r) ∧ (Works c (s.proc p) s.shared r ∨
      Same (s.proc p) s.shared r ∧ r.1.pc = .loop .advance ∧ (s.proc p).deque = []) := by
  cases hdeque : (s.proc p).deque with
  | cons task rest =>
      have hstep : commStep c p ⟨p, none⟩ (s.proc p) s.shared = some ({ s.proc p with
          deque := rest
          pc := .exec (if task.involveCommunication then .inc task else .exec task) }, s.shared) := by
        simp only [commStep, hpc, popExecuteCommTask, hdeque]
      refine ⟨_, comm_leads hsync hcancel hs hstep, .inl ⟨?_, rfl, ?_⟩⟩
      · split <;> rfl
      · have hlength : (s.proc p).deque.length = rest.length + 1 := by rw [hdeque, List.length_cons]
        simp only [load, taskLoad, hpc]
        split <;> simp only [statementLoad] <;> omega
  | nil =>
      have hstep : commStep c p ⟨p, none⟩ (s.proc p) s.shared =
          some ((s.proc p).goto (if c.distWS then .loop .advance else .publish .read), s.shared) := by
        simp only [commStep, hpc, popExecuteCommTask, hdeque]
      have hpopped := comm_leads hsync hcancel hs hstep
      cases hdist : c.distWS with
      | true =>
          rw [hdist] at hpopped
          exact ⟨_, hpopped, .inr ⟨same_of rfl rfl, rfl, rfl⟩⟩
      | false =>
          rw [hdist] at hpopped
          have hread := solo_comm hsync hcancel ⟨p, none⟩ hs hpopped rfl
          have hwrite := solo_comm hsync hcancel ⟨p, none⟩ hs hread rfl
          refine ⟨_, hwrite, .inr ⟨same_of rfl rfl, ?_, rfl⟩⟩
          simp [hdist]

theorem received_leads (hs : Reachable (job c) s) (hpc : (s.proc p).pc = .cbarrier .received) :
    ∃ r, (job c).Leads s (s.set p r) ∧ Same (s.proc p) s.shared r ∧
      (r.1.pc = .cbarrier .dec ∨ r.1.pc = .cbarrier .advance ∧ ¬0 < (s.proc p).tasksReceived) := by
  have hstep : commStep c p ⟨p, none⟩ (s.proc p) s.shared = some ((s.proc p).goto
      (.cbarrier (if (s.proc p).receivedTasksFromVictim then .dec else .detectWork)), s.shared) := by
    simp only [commStep, hpc, cbarrier]
  have htested := comm_leads hsync hcancel hs hstep
  by_cases hreceived : 0 < (s.proc p).tasksReceived
  · refine ⟨_, htested, same_of rfl rfl, .inl ?_⟩
    simp [Place.receivedTasksFromVictim, hreceived]
  · have hnone : (s.proc p).receivedTasksFromVictim = false := by
      simp [Place.receivedTasksFromVictim, hreceived]
    rw [hnone] at htested
    refine ⟨_, solo_comm hsync hcancel ⟨p, none⟩ hs htested rfl, same_of rfl rfl, ?_⟩
    simp only [goto_pc]
    split
    · exact .inl rfl
    · exact .inr ⟨rfl, hreceived⟩

theorem poll_leads (hs : Reachable (job c) s) (hneutral : Neutral c (s.proc p).pc) :
    ∃ r, (job c).Leads s (s.set p r) ∧ (Works c (s.proc p) s.shared r ∨
      Same (s.proc p) s.shared r ∧ (Neutral c r.1.pc ∧ r.1.pc.polls = true ∨ r.1.pc = .spmd .endBarrier)) := by
  obtain ⟨r, hr, hworks | ⟨hsame, -, hround⟩⟩ := round_ends hsync hcancel hs (K := fun _ => True)
    (fun _ _ _ _ _ _ _ => trivial) hneutral trivial
  · exact ⟨r, hr, .inl hworks⟩
  · have hreach := hr.reachable hs
    have hself : (s.set p r).proc p = r.1 := set_proc_self ..
    have hend := hround
    unfold RoundEnd at hend
    split at hend
    · obtain ⟨r', hr', h⟩ := pop_leads hsync hcancel hreach (p := p) (by rwa [hself])
      rw [hself, set_shared] at h
      refine ⟨r', hr.solo hr', ?_⟩
      rcases h with hworks | ⟨hsame', hpc', -⟩
      · exact .inl (hworks.after hsame (roundEnd_unloaded hround))
      · exact .inr ⟨hsame.trans hsame', .inl (by rw [hpc']; exact ⟨⟨rfl, rfl⟩, rfl⟩)⟩
    · obtain ⟨r', hr', hsame', hpc'⟩ := received_leads hsync hcancel hreach (p := p) (by rwa [hself])
      rw [hself, set_shared] at hsame'
      refine ⟨r', hr.solo hr', .inr ⟨hsame.trans hsame', .inl ?_⟩⟩
      rcases hpc' with hpc' | ⟨hpc', -⟩ <;> rw [hpc'] <;> exact ⟨⟨rfl, rfl⟩, rfl⟩
    · exact ⟨r, hr, .inr ⟨hsame, .inr ‹_›⟩⟩
    · exact hend.elim

end

end HabaneroUpc.Completion
