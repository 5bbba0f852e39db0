import HabaneroUpc.InFlight

namespace HabaneroUpc.ReceivedTasks

open Interleaving InFlight

variable {n : Nat}

structure SameReceived (P P' : Place n) : Prop where
  pc : P'.pc = P.pc
  headRto : P'.headRto = P.headRto
  tasksReceived : P'.tasksReceived = P.tasksReceived
  receivedTasksOrigin : P'.receivedTasksOrigin = P.receivedTasksOrigin

/-- A drain begun in P₀: the steps it has taken, the calls of
queue_source_place_of_remoteTask on the way, and what the other places and the
rest of the runtime have added to asyncsInFlight meanwhile. -/
inductive Drain (c : Config n) (P₀ : Place n) (g₀ : Shared n) :
    Nat → (Fin n → Nat) → (Fin n → Int) → Place n → Shared n → Prop
  | start : Drain c P₀ g₀ 0 0 0 P₀ g₀
  | iterate {k a d P g l P' g'} (hD : Drain c P₀ g₀ k a d P g) (hpc : P.pc = .drain l)
      (h : decrementTasksInFlightCount c P g l = some (P', g')) : Drain c P₀ g₀ (k + 1) a d P' g'
  | arrive {k a d P g l} (hD : Drain c P₀ g₀ k a d P g) (hpc : P.pc = .drain l) (i : Fin n) :
      Drain c P₀ g₀ k (Function.update a i (a i + 1)) d (queueSourcePlaceOfRemoteTask i P) g
  | others {k a d P g P' g'} (hD : Drain c P₀ g₀ k a d P g) (hP : SameReceived P P') :
      Drain c P₀ g₀ k a (fun p => d p + (g'.asyncsInFlight p - g.asyncsInFlight p)) P' g'

def walk (head i : Fin n) : Nat := if head ≤ i then i - head else i + n - head

theorem walk_lt (head i : Fin n) : walk head i < n := by
  have hh := head.isLt
  have hi := i.isLt
  simp only [walk, Fin.le_def]
  split <;> omega

theorem walk_next {head i : Fin n} (hne : i ≠ head) : walk (nextOrigin head) i + 1 = walk head i := by
  have hh := head.isLt
  have hi := i.isLt
  have hne' : i.val ≠ head.val := fun h => hne (Fin.ext h)
  simp only [walk, nextOrigin, Fin.le_def]
  split <;> dsimp only <;> split <;> split <;> omega

/-- Each received task weighs what the cursor has to walk to it, and the two
steps that return it. -/
def weight (o : Fin n → Nat) (head : Fin n) : Nat := ∑ i, o i * (walk head i + 2)

theorem weight_le (o : Fin n → Nat) (head : Fin n) : weight o head ≤ (n + 1) * ∑ i, o i := by
  rw [weight, Finset.mul_sum]
  apply Finset.sum_le_sum
  intro i _
  rw [Nat.mul_comm]
  exact Nat.mul_le_mul_right _ (by have := walk_lt head i; omega)

theorem weight_arrive (o : Fin n → Nat) (head i : Fin n) :
    weight (Function.update o i (o i + 1)) head ≤ weight o head + (n + 1) := by
  have hw := walk_lt head i
  have hu := Tally.total_update (fun j k => k * (walk head j + 2)) o i (o i + 1)
  simp only [Tally.total, Nat.add_mul, Nat.one_mul] at hu
  simp only [weight]
  omega

/-- A pop makes the rest lighter by what is left, and by the popped entry. -/
theorem weight_pop (o : Fin n → Nat) (head : Fin n) :
    weight (Function.update o head 0) (nextOrigin head) + ∑ i, o i + o head ≤ weight o head := by
  have hhead : o head = ∑ i, if i = head then o i else 0 := by simp
  rw [hhead, weight, ← Finset.sum_add_distrib, ← Finset.sum_add_distrib]
  apply Finset.sum_le_sum
  intro i _
  by_cases hi : i = head
  · subst i
    have hzero : walk head head = 0 := by simp [walk]
    simp only [Function.update_self, if_pos, hzero]
    omega
  · rw [Function.update_of_ne hi, if_neg hi, ← walk_next hi]
    simp only [Nat.mul_add]
    omega

def remaining (P : Place n) : Nat :=
  match P.pc with
  | .drain .loop => weight P.receivedTasksOrigin P.headRto + 1
  | .drain (.dec _ _) => weight P.receivedTasksOrigin P.headRto + 2
  | _ => 0

structure Accounted (P₀ : Place n) (g₀ : Shared n) (k : Nat) (a : Fin n → Nat) (d : Fin n → Int)
    (P : Place n) (g : Shared n) : Prop where
  received : P.tasksReceived = (∑ i, P.receivedTasksOrigin i : Nat)
  returned : ∀ p, g.asyncsInFlight p + P₀.receivedTasksOrigin p + a p =
    g₀.asyncsInFlight p + d p + P.receivedTasksOrigin p + returning p P.pc
  bounded : k + remaining P ≤ (n + 1) * (∑ i, P₀.receivedTasksOrigin i + ∑ i, a i) + 1
  finished : (∀ l, P.pc ≠ .drain l) → P.tasksReceived = 0

variable {c : Config n} {P₀ P P' : Place n} {g₀ g g' : Shared n} {k : Nat} {a : Fin n → Nat}
  {d : Fin n → Int}

theorem accounted_start (hpc : P₀.pc = .drain .loop)
    (hsum : P₀.tasksReceived = (∑ i, P₀.receivedTasksOrigin i : Nat)) :
    Accounted P₀ g₀ 0 0 0 P₀ g₀ := by
  refine ⟨hsum, ?_, ?_, fun h => absurd hpc (h _)⟩
  · intro p
    simp [hpc, returning]
  · have hw := weight_le P₀.receivedTasksOrigin P₀.headRto
    simp only [remaining, hpc, Pi.zero_apply, Finset.sum_const_zero, Nat.add_zero]
    omega

/-- A pop moves the entry under the cursor to the statement that returns it. -/
theorem accounted_pop (hA : Accounted P₀ g₀ k a d P g) (hpc : P.pc = .drain .loop)
    (hreceived : 0 < P.tasksReceived)
    (h : decrementTasksInFlightCount c P g .loop = some (P', g')) :
    Accounted P₀ g₀ (k + 1) a d P' g' := by
  have hsum := sum_update P.receivedTasksOrigin P.headRto 0
  have hweight := weight_pop P.receivedTasksOrigin P.headRto
  have hbounded := hA.bounded
  have htotal := hA.received
  simp only [decrementTasksInFlightCount, if_pos hreceived, Option.some.injEq, Prod.mk.injEq] at h
  obtain ⟨rfl, rfl⟩ := h
  simp only [remaining, hpc] at hbounded
  refine ⟨?_, ?_, ?_, fun h => absurd rfl (h _)⟩
  · simp only [Place.goto]
    omega
  · intro p
    have hreturned := hA.returned p
    simp only [hpc, returning] at hreturned
    by_cases hp : p = P.headRto
    · subst p
      split <;> simp [Place.goto, returning, hreturned]
      omega
    · split <;> simp [Place.goto, returning, hreturned, hp, Ne.symm hp]
  · split <;> simp only [Place.goto, remaining] <;> omega

theorem accounted_dec {victim : Fin n} {tasks : Nat} (hA : Accounted P₀ g₀ k a d P g)
    (hpc : P.pc = .drain (.dec victim tasks))
    (h : decrementTasksInFlightCount c P g (.dec victim tasks) = some (P', g')) :
    Accounted P₀ g₀ (k + 1) a d P' g' := by
  have hbounded := hA.bounded
  simp only [decrementTasksInFlightCount, Option.some.injEq, Prod.mk.injEq] at h
  obtain ⟨rfl, rfl⟩ := h
  simp only [remaining, hpc] at hbounded
  refine ⟨hA.received, ?_, ?_, fun h => absurd rfl (h _)⟩
  · intro p
    have hreturned := hA.returned p
    simp only [hpc, returning] at hreturned
    by_cases hp : p = victim
    · subst p
      simp only [if_true] at hreturned
      simp [Place.goto, returning, Shared.decrementTaskInFlight]
      omega
    · simp only [if_neg (Ne.symm hp)] at hreturned
      simp [Place.goto, returning, Shared.decrementTaskInFlight, hp, hreturned]
  · simp only [Place.goto, remaining]
    omega

theorem accounted_exit (hA : Accounted P₀ g₀ k a d P g) (hpc : P.pc = .drain .loop)
    (hreceived : ¬0 < P.tasksReceived)
    (h : decrementTasksInFlightCount c P g .loop = some (P', g')) :
    Accounted P₀ g₀ (k + 1) a d P' g' := by
  have hbounded := hA.bounded
  have htotal := hA.received
  simp only [decrementTasksInFlightCount, if_neg hreceived, Option.some.injEq, Prod.mk.injEq] at h
  obtain ⟨rfl, rfl⟩ := h
  simp only [remaining, hpc] at hbounded
  refine ⟨hA.received, ?_, ?_, fun _ => ?_⟩
  · intro p
    have hreturned := hA.returned p
    simp only [hpc, returning] at hreturned
    split <;> simpa [Place.goto, returning] using hreturned
  · split <;> simp only [Place.goto, remaining] <;> omega
  · simp only [Place.goto]
    omega

theorem accounted_arrive {l : DrainPc n} (hA : Accounted P₀ g₀ k a d P g) (hpc : P.pc = .drain l)
    (i : Fin n) :
    Accounted P₀ g₀ k (Function.update a i (a i + 1)) d (queueSourcePlaceOfRemoteTask i P) g := by
  have hbounded := hA.bounded
  have hcalls := sum_update a i (a i + 1)
  have hweight := weight_arrive P.receivedTasksOrigin P.headRto i
  refine ⟨queueSource_received hA.received, ?_, ?_, fun h => absurd hpc (h _)⟩
  · intro p
    have hreturned := hA.returned p
    by_cases hp : p = i
    · subst p
      simp only [queueSourcePlaceOfRemoteTask, Function.update_self]
      omega
    · simpa only [queueSourcePlaceOfRemoteTask, Function.update_of_ne hp] using hreturned
  · have hmore : ∑ j, Function.update a i (a i + 1) j = ∑ j, a j + 1 := by omega
    rw [hmore]
    simp only [Nat.mul_add, Nat.mul_one] at hbounded ⊢
    cases l <;> simp only [remaining, hpc, queueSourcePlaceOfRemoteTask] at hbounded ⊢ <;> omega

theorem accounted_others (hA : Accounted P₀ g₀ k a d P g) (hP : SameReceived P P') :
    Accounted P₀ g₀ k a (fun p => d p + (g'.asyncsInFlight p - g.asyncsInFlight p)) P' g' := by
  refine ⟨?_, ?_, ?_, ?_⟩
  · rw [hP.tasksReceived, hP.receivedTasksOrigin]
    exact hA.received
  · intro p
    have hreturned := hA.returned p
    rw [hP.receivedTasksOrigin, hP.pc]
    omega
  · have hsame : remaining P' = remaining P := by
      simp only [remaining, hP.pc, hP.receivedTasksOrigin, hP.headRto]
    rw [hsame]
    exact hA.bounded
  · intro hpc
    rw [hP.tasksReceived]
    exact hA.finished (hP.pc ▸ hpc)

theorem accounted (hpc : P₀.pc = .drain .loop)
    (hsum : P₀.tasksReceived = (∑ i, P₀.receivedTasksOrigin i : Nat)) (h : Drain c P₀ g₀ k a d P g) :
    Accounted P₀ g₀ k a d P g := by
  induction h with
  | start => exact accounted_start hpc hsum
  | @iterate k a d P g l P' g' _ hl h ih =>
      cases l with
      | loop =>
          by_cases hreceived : 0 < P.tasksReceived
          · exact accounted_pop ih hl hreceived h
          · exact accounted_exit ih hl hreceived h
      | dec victim tasks => exact accounted_dec ih hl h
  | arrive _ hl i ih => exact accounted_arrive ih hl i
  | others _ hP ih => exact accounted_others ih hP

/-- The loop never waits for anything but a lock. -/
theorem drain_enabled (c : Config n) (P : Place n) (g : Shared n) (l : DrainPc n) :
    ∃ r, decrementTasksInFlightCount c P g l = some r := by
  cases l with
  | loop =>
      simp only [decrementTasksInFlightCount]
      split <;> exact ⟨_, rfl⟩
  | dec => exact ⟨_, rfl⟩

/-- The number of steps is bounded by the tasks to return, whatever the order
of the arrivals, and a drain that has ended has returned exactly these. -/
theorem drain_exact (hpc : P₀.pc = .drain .loop)
    (hsum : P₀.tasksReceived = (∑ i, P₀.receivedTasksOrigin i : Nat)) (h : Drain c P₀ g₀ k a d P g) :
    k ≤ (n + 1) * (∑ i, P₀.receivedTasksOrigin i + ∑ i, a i) + 1 ∧
      (P.headRto : Nat) < n ∧
      (∀ l, P.pc = .drain l → ∃ r, decrementTasksInFlightCount c P g l = some r) ∧
      ((∀ l, P.pc ≠ .drain l) → P.tasksReceived = 0 ∧ (∀ p, P.receivedTasksOrigin p = 0) ∧
        ∀ p, g.asyncsInFlight p =
          g₀.asyncsInFlight p + d p - (P₀.receivedTasksOrigin p + a p : Nat)) := by
  have hA := accounted hpc hsum h
  refine ⟨?_, P.headRto.isLt, fun l _ => drain_enabled c P g l, ?_⟩
  · have hbounded := hA.bounded
    omega
  · intro hended
    have hreceived := hA.finished hended
    have hentries (p : Fin n) : P.receivedTasksOrigin p = 0 := by
      have htotal := hA.received
      have hle := Finset.single_le_sum (f := P.receivedTasksOrigin) (fun _ _ => Nat.zero_le _)
        (Finset.mem_univ p)
      omega
    refine ⟨hreceived, hentries, ?_⟩
    intro p
    have hreturned := hA.returned p
    have hnone : returning p P.pc = 0 := by
      cases hP : P.pc with
      | drain l => exact absurd hP (hended l)
      | _ => rfl
    rw [hentries p, hnone] at hreturned
    omega

def holdsTwo : Place 2 :=
  { Place.init 0 with
    pc := .drain .loop, headRto := 1, receivedTasksOrigin := fun _ => 1, tasksReceived := 2 }

-- Another task of the own place arrives while the first lock is acquired.
theorem drain_exact_two : ∃ P g, Drain (twoPlaces .successOnly false) holdsTwo (Shared.init 2) 5
    (Function.update 0 0 1) 0 P g ∧ P.tasksReceived = 0 ∧ g.asyncsInFlight 0 = -2 := by
  have hstart : Drain (twoPlaces .successOnly false) holdsTwo (Shared.init 2) 0 0 0 _ _ := .start
  have hpop := hstart.iterate rfl rfl
  have harrive := hpop.arrive rfl 0
  have hreturn := harrive.iterate rfl rfl
  have hown := hreturn.iterate rfl rfl
  have hreturnOwn := hown.iterate rfl rfl
  have hexit := hreturnOwn.iterate rfl rfl
  have hdone := (drain_exact rfl rfl hexit).2.2.2 (fun l h => by cases h)
  exact ⟨_, _, hexit, hdone.1, hdone.2.2 0⟩

theorem drain_next {me p : Fin n} {x : Act n} {s s' : State n} {l : DrainPc n}
    (hD : Drain c P₀ g₀ k a d (s.proc me) s.shared) (hpc : (s.proc me).pc = .drain l)
    (hn : (job c).next s p x = some s') :
    ∃ k' a' d', Drain c P₀ g₀ k' a' d' (s'.proc me) s'.shared := by
  obtain ⟨P', g', h, rfl⟩ := next_eq_some.mp hn
  have hstep := act_step (c := c) h
  by_cases hme : me = p
  · subst p
    simp only [set_proc_self, set_shared]
    have hrest (hP : SameReceived (s.proc me) P') : ∃ k' a' d', Drain c P₀ g₀ k' a' d' P' g' :=
      ⟨_, _, _, hD.others hP⟩
    have harrive (i : Fin n) (hP : SameReceived (queueSourcePlaceOfRemoteTask i (s.proc me)) P') :
        ∃ k' a' d', Drain c P₀ g₀ k' a' d' P' g' :=
      ⟨_, _, _, (hD.arrive hpc i).others hP⟩
    cases x with
    | comm ch =>
        have hcomm := (act_comm h).2
        rw [commStep, hpc] at hcomm
        exact ⟨_, _, _, hD.iterate hpc hcomm⟩
    | resume | idle | work =>
        cases hstep <;> exact hrest ⟨rfl, rfl, rfl, rfl⟩
    | deliver m =>
        cases hstep with
        | asyncAt => exact harrive _ ⟨rfl, rfl, rfl, rfl⟩
        | asyncCopy => exact harrive _ ⟨rfl, rfl, rfl, rfl⟩
        | shipmentQueued => exact harrive _ ⟨rfl, rfl, rfl, rfl⟩
        | shipmentSlot | stealRequest | receipt => exact hrest ⟨rfl, rfl, rfl, rfl⟩
  · rw [set_proc_of_ne _ _ hme]
    exact ⟨_, _, _, hD.others ⟨rfl, rfl, rfl, rfl⟩⟩

/-- In every run of the job, what happens from the first test of a place to its
last one is such a drain. -/
theorem drain_of_run {me : Fin n} {H : Type*} {upd : State n → Fin n → Act n → State n → H → H}
    {s₀ s : State n} {h₀ h : H}
    (ht : Traced (job c) (fun s _ _ _ => ∃ l, (s.proc me).pc = .drain l) upd s₀ h₀ s h) :
    ∃ k a d, Drain c (s₀.proc me) s₀.shared k a d (s.proc me) s.shared := by
  induction ht with
  | init => exact ⟨0, 0, 0, .start⟩
  | next _ hok hn ih =>
      obtain ⟨k, a, d, hD⟩ := ih
      obtain ⟨l, hpc⟩ := hok
      exact drain_next hD hpc hn

end HabaneroUpc.ReceivedTasks
