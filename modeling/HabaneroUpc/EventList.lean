import HabaneroUpc.Lib.Siblings
import HabaneroUpc.Lib.Tally
import Mathlib.Data.Fintype.Option

namespace HabaneroUpc.EventList

open Interleaving LinkedCells Tally

inductive CallPc
  | idle
  | lock (el : Nat)
  | test (el : Nat)
  | setCurr (el : Nat)
  | setHead (el : Nat)
  | append (el : Nat)
  | advance (el : Nat)
  | unlock (el : Nat)
  deriving DecidableEq

inductive FinishPc
  | outside
  | scope
  | freeTest
  | freeNext (el : Nat)
  | freeDelete (el : Nat)
  | freeReset
  deriving DecidableEq

inductive Local
  | worker (pc : CallPc)
  | main (pc : FinishPc)
  deriving DecidableEq

/-- The list and its mutex, and of the finish scope whether it is open and how
many calls its tasks are in. The events returned in the scope are a history;
fault is set by an access to memory that is not allocated. -/
structure Shared (n : Nat) where
  memory : Memory Nat
  eventListHead : Option Nat
  eventListCurr : Option Nat
  eventMutex : Option (Option (Fin n))
  scopeOpen : Bool
  calls : Nat
  returned : List Nat
  fault : Bool

variable {n : Nat}

/-- The element is private until it is linked, so that it is initialised in the
step that allocates it. -/
def newEventList (el : Nat) (g : Shared n) : Option (Local × Shared n) :=
  if g.scopeOpen ∧ g.memory el = none then
    some (.worker (.lock el),
      { g with memory := Function.update g.memory el (some none), calls := g.calls + 1 })
  else none

def Shared.setNext (g : Shared n) (el next : Nat) : Shared n :=
  match g.memory el with
  | some _ => { g with memory := Function.update g.memory el (some (some next)) }
  | none => { g with fault := true }

def getUpcxxEvent (me : Option (Fin n)) (g : Shared n) : CallPc → Option (Local × Shared n)
  | .idle => none
  | .lock el =>
      if g.eventMutex = none then some (.worker (.test el), { g with eventMutex := some me }) else none
  | .test el => some (.worker (if g.eventListHead = none then .setCurr el else .append el), g)
  | .setCurr el => some (.worker (.setHead el), { g with eventListCurr := some el })
  | .setHead el => some (.worker (.unlock el), { g with eventListHead := some el })
  | .append el =>
      some (.worker (.advance el), match g.eventListCurr with
        | some curr => g.setNext curr el
        | none => { g with fault := true })
  | .advance el => some (.worker (.unlock el), { g with eventListCurr := some el })
  | .unlock el =>
      some (.worker .idle, { g with
        eventMutex := none, calls := g.calls - 1, returned := el :: g.returned })

def finishSpmd (g : Shared n) : FinishPc → Option (Local × Shared n)
  | .outside => some (.main .scope, { g with scopeOpen := true, returned := [] })
  | .scope => if g.calls = 0 then some (.main .freeTest, { g with scopeOpen := false }) else none
  | .freeTest =>
      some (.main (match g.eventListHead with
        | some el => .freeNext el
        | none => .freeReset), g)
  | .freeNext el =>
      some (.main (.freeDelete el), match g.memory el with
        | some next => { g with eventListHead := next }
        | none => { g with fault := true })
  | .freeDelete el =>
      some (.main .freeTest, match g.memory el with
        | some _ => { g with memory := Function.update g.memory el none }
        | none => { g with fault := true })
  | .freeReset => some (.main .outside, { g with eventListHead := none, eventListCurr := none })

inductive Act
  | new (el : Nat)
  | step
  deriving DecidableEq

def act (me : Option (Fin n)) (a : Act) (l : Local) (g : Shared n) : Option (Local × Shared n) :=
  match l, a with
  | .worker .idle, .new el => newEventList el g
  | .worker pc, .step => getUpcxxEvent me g pc
  | .main pc, .step => finishSpmd g pc
  | _, _ => none

def place (n : Nat) : System (Option (Fin n)) Act Local (Shared n) where
  init := {
    proc := fun i => match i with
      | none => .main .outside
      | some _ => .worker .idle
    shared := {
      memory := fun _ => none
      eventListHead := none
      eventListCurr := none
      eventMutex := none
      scopeOpen := false
      calls := 0
      returned := []
      fault := false } }
  act := act

abbrev State (n : Nat) := Global (Option (Fin n)) Local (Shared n)

def inside : Local → Bool
  | .worker .idle | .worker (.lock _) | .main _ => false
  | .worker _ => true

def owns : Local → Option Nat
  | .worker (.lock el) | .worker (.test el) | .worker (.setCurr el) | .worker (.setHead el)
  | .worker (.append el) | .worker (.advance el) | .worker (.unlock el) => some el
  | _ => none

def calling (l : Local) : Nat := if owns l = none then 0 else 1

variable {me p q : Option (Fin n)} {a : Act} {l l' : Local} {g g' : Shared n} {s : State n} {el : Nat}

structure Scoped (s : State n) : Prop where
  main : ∃ pc, s.proc none = .main pc ∧ (s.shared.scopeOpen = true ↔ pc = .scope)
  workers : ∀ i, ∃ pc, s.proc (some i) = .worker pc
  mutex : ∀ p, inside (s.proc p) = true → s.shared.eventMutex = some p
  calls : s.shared.calls = total (fun _ l => calling l) s.proc
  closed : s.shared.scopeOpen = false → s.shared.calls = 0

structure WorkerStep (me : Option (Fin n)) (l : Local) (g : Shared n) (l' : Local) (g' : Shared n) :
    Prop where
  worker : ∃ pc, l' = .worker pc
  scopeOpen : g'.scopeOpen = g.scopeOpen
  entitled : g.scopeOpen = true ∨ owns l ≠ none
  calls : 0 < g.calls ∨ owns l = none → g'.calls + calling l = g.calls + calling l'
  own : inside l' = true → g'.eventMutex = some me
  others : ∀ p, p ≠ me → g.eventMutex = some p → g'.eventMutex = some p

theorem worker_step {pc : CallPc} (hmutex : inside (.worker pc) = true → g.eventMutex = some me)
    (h : act me a (.worker pc) g = some (l', g')) : WorkerStep me (.worker pc) g l' g' := by
  have hsame (l' : Local) (hw : ∃ pc, l' = .worker pc) (howns : owns (.worker pc) ≠ none)
      (howns' : owns l' ≠ none) (hinside : inside (.worker pc) = true) {g' : Shared n}
      (hg : g' = { g with memory := g'.memory, eventListHead := g'.eventListHead,
                          eventListCurr := g'.eventListCurr, fault := g'.fault }) :
      WorkerStep me (.worker pc) g l' g' := by
    rw [hg]
    exact ⟨hw, rfl, .inr howns, fun _ => by simp [calling, howns, howns'], fun _ => hmutex hinside,
      fun _ _ => id⟩
  cases a with
  | new el =>
      cases pc <;> simp only [act, newEventList, reduceCtorEq] at h
      split at h <;> cases h
      rename_i hopen
      exact ⟨⟨_, rfl⟩, rfl, .inl hopen.1, fun _ => rfl, fun h => (by cases h), fun _ _ => id⟩
  | step =>
      cases pc with
      | idle => cases h
      | lock el =>
          simp only [act, getUpcxxEvent] at h
          split at h <;> cases h
          rename_i hfree
          refine ⟨⟨_, rfl⟩, rfl, .inr nofun, fun _ => rfl, fun _ => rfl, fun p _ hp => ?_⟩
          rw [hfree] at hp
          cases hp
      | test el =>
          cases h
          refine hsame _ ⟨_, rfl⟩ nofun ?_ rfl rfl
          split <;> exact nofun
      | setCurr el | setHead el | advance el =>
          cases h
          exact hsame _ ⟨_, rfl⟩ nofun (by simp [owns]) rfl rfl
      | append el =>
          cases h
          refine hsame _ ⟨_, rfl⟩ nofun (by simp [owns]) rfl ?_
          split
          · unfold Shared.setNext
            split <;> rfl
          · rfl
      | unlock el =>
          cases h
          refine ⟨⟨_, rfl⟩, rfl, .inr nofun, fun hpos => ?_, fun h => (by cases h), fun p hne hp => ?_⟩
          · have hpos := hpos.resolve_right nofun
            simp only [calling, owns]
            simp
            omega
          · rw [hmutex rfl] at hp
            exact absurd (Option.some.inj hp).symm hne

structure FinishStep (g : Shared n) (l' : Local) (g' : Shared n) : Prop where
  main : ∃ pc, l' = .main pc ∧ (g'.scopeOpen = true ↔ pc = .scope)
  mutex : g'.eventMutex = g.eventMutex
  calls : g'.calls = g.calls
  closed : g'.scopeOpen = false → g.scopeOpen = false ∨ g.calls = 0

theorem finish_step {pc : FinishPc} (hopen : g.scopeOpen = true ↔ pc = .scope)
    (h : act me a (.main pc) g = some (l', g')) : FinishStep g l' g' := by
  have hclosed (hpc : pc ≠ .scope) : g.scopeOpen = false := by simpa [hpc] using hopen
  cases a with
  | new el => cases pc <;> cases h
  | step =>
      cases pc with
      | outside =>
          cases h
          exact ⟨⟨_, rfl, by simp⟩, rfl, rfl, fun h => (by cases h)⟩
      | scope =>
          simp only [act, finishSpmd] at h
          split at h <;> cases h
          exact ⟨⟨_, rfl, by simp⟩, rfl, rfl, fun _ => .inr ‹_›⟩
      | freeTest =>
          have hclosed := hclosed nofun
          cases h
          refine ⟨⟨_, rfl, ?_⟩, rfl, rfl, .inl⟩
          split <;> simp [hclosed]
      | freeNext el | freeDelete el =>
          have hclosed := hclosed nofun
          cases h
          split <;> exact ⟨⟨_, rfl, by simp [hclosed]⟩, rfl, rfl, .inl⟩
      | freeReset =>
          have hclosed := hclosed nofun
          cases h
          exact ⟨⟨_, rfl, by simp [hclosed]⟩, rfl, rfl, .inl⟩

theorem scoped_step (hs : Scoped s) (ha : act me a (s.proc me) s.shared = some (l', g')) :
    Scoped (s.set me (l', g')) := by
  have hle := le_total (fun _ l => calling l) s.proc me
  have htotal := total_update (fun _ l => calling l) s.proc me l'
  rw [← hs.calls] at hle htotal
  cases me with
  | none =>
      obtain ⟨pc, hmain, hopen⟩ := hs.main
      rw [hmain] at ha htotal
      have hstep := finish_step hopen ha
      obtain ⟨pc', rfl, hopen'⟩ := hstep.main
      refine ⟨⟨pc', set_proc_self .., hopen'⟩, fun i => ?_, fun p hp => ?_, ?_, fun h => ?_⟩
      · rw [set_proc_of_ne s _ (by simp)]
        exact hs.workers i
      · rw [set_shared, hstep.mutex]
        cases p with
        | none =>
            rw [set_proc_self] at hp
            cases hp
        | some i =>
            rw [set_proc_of_ne s _ (by simp)] at hp
            exact hs.mutex _ hp
      · simpa [Global.set, hstep.calls, calling, owns] using htotal.symm
      · rw [set_shared, hstep.calls]
        exact (hstep.closed h).elim hs.closed id
  | some i =>
      obtain ⟨pc, hpc⟩ := hs.workers i
      have hmutex := hs.mutex (some i)
      rw [hpc] at ha htotal hmutex hle
      have hstep := worker_step hmutex ha
      have hcalls : g'.calls + calling (.worker pc) = s.shared.calls + calling l' := by
        refine hstep.calls ?_
        by_cases howns : owns (.worker pc) = none
        · exact .inr howns
        · simp only [calling, if_neg howns] at hle
          exact .inl hle
      refine ⟨?_, fun j => ?_, fun p hp => ?_, ?_, fun h => ?_⟩
      · rw [set_proc_of_ne s _ (by simp), set_shared, hstep.scopeOpen]
        exact hs.main
      · by_cases hj : j = i
        · subst hj
          rw [set_proc_self]
          exact hstep.worker
        · rw [set_proc_of_ne s _ (by simpa using hj)]
          exact hs.workers j
      · by_cases hpi : p = some i
        · subst hpi
          rw [set_proc_self] at hp
          exact hstep.own hp
        · rw [set_proc_of_ne s _ hpi] at hp
          exact hstep.others p hpi (hs.mutex p hp)
      · simp only [Global.set]
        omega
      · rw [set_shared] at h ⊢
        have hzero := hs.closed (hstep.scopeOpen ▸ h)
        rcases hstep.entitled with hopen | howns
        · rw [hstep.scopeOpen, hopen] at h
          cases h
        · simp only [calling, if_neg howns] at hle
          omega

theorem scoped_reachable (hs : Reachable (place n) s) : Scoped s := by
  refine hs.invariant (I := Scoped) ?_ fun s me a l' g' _ _ hI ha => scoped_step hI ha
  refine ⟨⟨_, rfl, by simp [place]⟩, fun i => ⟨_, rfl⟩, fun p hp => ?_, ?_, fun _ => rfl⟩
  · cases p <;> cases hp
  · refine (Finset.sum_eq_zero fun p _ => ?_).symm
    cases p <;> rfl

def holds : Local → Option Nat
  | .worker (.lock el) | .worker (.test el) | .worker (.setCurr el) | .worker (.setHead el)
  | .worker (.append el) | .main (.freeDelete el) => some el
  | _ => none

def Knows (cells : List Nat) (g : Shared n) : Local → Prop
  | .worker (.test _) => g.eventListCurr = cells.getLast?
  | .worker (.setCurr _) => cells = []
  | .worker (.setHead el) => cells = [] ∧ g.eventListCurr = some el
  | .worker (.append _) => cells ≠ [] ∧ g.eventListCurr = cells.getLast?
  | .worker (.advance el) => ∃ l c, cells = l ++ [c, el]
  | .worker (.unlock el) => el ∈ cells ∧ g.eventListCurr = cells.getLast?
  | .main .outside | .main .freeReset => cells = []
  | .main (.freeNext el) => g.eventListHead = some el
  | _ => True

/-- The element of a process is its own: it is allocated, not in the list, and
not yet linked or returned by get_upcxx_event. -/
structure Stands (cells : List Nat) (g : Shared n) (l : Local) : Prop where
  knows : Knows cells g l
  held : ∀ el, holds l = some el → el ∉ cells ∧ g.memory el ≠ none
  fresh : ∀ el, holds l = some el → owns l = some el → g.memory el = some none
  unreturned : ∀ el, owns l = some el → el ∉ g.returned

structure Linked (cells : List Nat) (s : State n) : Prop where
  linked : Cells s.shared.memory s.shared.eventListHead cells
  nodup : cells.Nodup
  stands : ∀ p, Stands cells s.shared (s.proc p)
  apart : ∀ p q el, holds (s.proc p) = some el → holds (s.proc q) = some el → p = q
  live : ∀ el, s.shared.memory el ≠ none → el ∈ cells ∨ ∃ p, holds (s.proc p) = some el
  curr : s.shared.eventMutex = none → s.shared.scopeOpen = true ∨ s.proc none = .main .outside →
    s.shared.eventListCurr = cells.getLast?
  returned : s.shared.returned.Nodup
  kept : s.shared.scopeOpen = true → ∀ el ∈ s.shared.returned, el ∈ cells
  safe : s.shared.fault = false

variable {cells cells' : List Nat}

def Waits : Local → Prop
  | .worker .idle | .worker (.lock _) | .main .scope => True
  | _ => False

theorem Scoped.opened (hs : Scoped s) (howns : owns (s.proc p) ≠ none) : s.shared.scopeOpen = true := by
  have hle := le_total (fun _ l => calling l) s.proc p
  rw [← hs.calls] at hle
  cases hopen : s.shared.scopeOpen with
  | true => rfl
  | false =>
      rw [hs.closed hopen] at hle
      simp only [calling, if_neg howns] at hle
      omega

/-- While the scope is open, only a process in the critical section looks at the list. -/
theorem Scoped.waits (hs : Scoped s) (hopen : s.shared.scopeOpen = true)
    (hp : s.shared.eventMutex ≠ some p) : Waits (s.proc p) := by
  cases p with
  | none =>
      obtain ⟨pc, hmain, hscope⟩ := hs.main
      rw [hmain, hscope.mp hopen]
      trivial
  | some i =>
      obtain ⟨pc, hpc⟩ := hs.workers i
      have hmutex := hs.mutex (some i)
      rw [hpc] at hmutex ⊢
      cases pc <;> first | trivial | exact absurd (hmutex rfl) hp

/-- While no task is in a call, the workers are idle. -/
theorem Scoped.rests (hs : Scoped s) (hcalls : s.shared.calls = 0) (hp : p ≠ none) :
    s.proc p = .worker .idle := by
  cases p with
  | none => exact absurd rfl hp
  | some i =>
      obtain ⟨pc, hpc⟩ := hs.workers i
      have hle := le_total (fun _ l => calling l) s.proc (some i)
      rw [← hs.calls, hcalls, hpc] at hle
      cases pc with
      | idle => exact hpc
      | _ => simp [calling, owns] at hle

theorem Stands.of_waits (h : Stands cells g l) (hw : Waits l)
    (hcells : ∀ el, holds l = some el → el ∉ cells')
    (hmemory : ∀ el, holds l = some el → g'.memory el = g.memory el)
    (hreturned : ∀ el, owns l = some el → el ∉ g'.returned) : Stands cells' g' l := by
  refine ⟨?_, fun el hel => ⟨hcells el hel, ?_⟩, fun el hel howns => ?_, hreturned⟩
  · unfold Waits at hw
    split at hw <;> trivial
  · rw [hmemory el hel]
    exact (h.held el hel).2
  · rw [hmemory el hel]
    exact h.fresh el hel howns

theorem linked_set (hs : Linked cells s) (hlinked : Cells g'.memory g'.eventListHead cells')
    (hnodup : cells'.Nodup) (hself : Stands cells' g' l')
    (hothers : ∀ p, p ≠ me → Stands cells' g' (s.proc p))
    (hholds : ∀ el, holds l' = some el → ∀ p, p ≠ me → holds (s.proc p) ≠ some el)
    (hlive : ∀ el, g'.memory el ≠ none →
      el ∈ cells' ∨ holds l' = some el ∨ ∃ p, p ≠ me ∧ holds (s.proc p) = some el)
    (hcurr : g'.eventMutex = none → g'.scopeOpen = true ∨ (s.set me (l', g')).proc none = .main .outside →
      g'.eventListCurr = cells'.getLast?)
    (hreturned : g'.returned.Nodup) (hkept : g'.scopeOpen = true → ∀ el ∈ g'.returned, el ∈ cells')
    (hsafe : g'.fault = false) : Linked cells' (s.set me (l', g')) := by
  refine ⟨hlinked, hnodup, ?_, fun p q el hp hq => ?_, fun el hel => ?_, hcurr, hreturned, hkept, hsafe⟩
  · exact forall_set (Q := fun _ l => Stands cells' g' l) hself hothers
  · by_cases hpme : p = me <;> by_cases hqme : q = me
    · rw [hpme, hqme]
    · subst hpme
      rw [set_proc_self] at hp
      rw [set_proc_of_ne s _ hqme] at hq
      exact absurd hq (hholds el hp q hqme)
    · subst hqme
      rw [set_proc_self] at hq
      rw [set_proc_of_ne s _ hpme] at hp
      exact absurd hp (hholds el hq p hpme)
    · rw [set_proc_of_ne s _ hpme] at hp
      rw [set_proc_of_ne s _ hqme] at hq
      exact hs.apart p q el hp hq
  · rcases hlive el hel with hcell | hself | ⟨p, hne, hp⟩
    · exact .inl hcell
    · exact .inr ⟨me, by rwa [set_proc_self]⟩
    · exact .inr ⟨p, by rwa [set_proc_of_ne s _ hne]⟩

/-- A step that leaves the list and the ownership alone. -/
theorem linked_look (hs : Linked cells s) (hmemory : g'.memory = s.shared.memory)
    (hhead : g'.eventListHead = s.shared.eventListHead) (hreturned : g'.returned = s.shared.returned)
    (hsafe : g'.fault = s.shared.fault) (hholds : holds l' = holds (s.proc me))
    (howns : owns l' = owns (s.proc me)) (hknows : Knows cells g' l')
    (hothers : ∀ p, p ≠ me → Knows cells g' (s.proc p))
    (hcurr : g'.eventMutex = none → g'.scopeOpen = true ∨ (s.set me (l', g')).proc none = .main .outside →
      g'.eventListCurr = cells.getLast?)
    (hopen : g'.scopeOpen = true → s.shared.scopeOpen = true) : Linked cells (s.set me (l', g')) := by
  have hstands (p : Option (Fin n)) {l : Local} (hholds : holds l = holds (s.proc p))
      (howns : owns l = owns (s.proc p)) (hknows : Knows cells g' l) : Stands cells g' l := by
    have hp := hs.stands p
    refine ⟨hknows, fun el hel => ?_, fun el hel ho => ?_, fun el ho => ?_⟩
    · rw [hmemory]
      exact hp.held el (hholds ▸ hel)
    · rw [hmemory]
      exact hp.fresh el (hholds ▸ hel) (howns ▸ ho)
    · rw [hreturned]
      exact hp.unreturned el (howns ▸ ho)
  refine linked_set hs (by rw [hmemory, hhead]; exact hs.linked) hs.nodup (hstands me hholds howns hknows)
    (fun p hp => hstands p rfl rfl (hothers p hp)) (fun el hel p hp hpel => ?_) (fun el hel => ?_) hcurr
    (hreturned ▸ hs.returned) (fun h => hreturned ▸ hs.kept (hopen h)) (hsafe.trans hs.safe)
  · exact hp (hs.apart p me el hpel (hholds ▸ hel))
  · rw [hmemory] at hel
    rcases hs.live el hel with hcell | ⟨p, hp⟩
    · exact .inl hcell
    · by_cases hpme : p = me
      · subst hpme
        exact .inr (.inl (hholds.trans hp))
      · exact .inr (.inr ⟨p, hpme, hp⟩)

theorem knows_waits {l : Local} (h : Waits l) : Knows cells g l := by
  unfold Waits at h
  split at h <;> trivial

theorem knows_eq (h : Knows cells g l) (hhead : g'.eventListHead = g.eventListHead)
    (hcurr : g'.eventListCurr = g.eventListCurr) : Knows cells g' l := by
  unfold Knows at h ⊢
  split <;> simp_all

theorem linked_worker (hscoped : Scoped s) (hs : Linked cells s) {pc : CallPc}
    (hpc : s.proc me = .worker pc) (ha : act me a (.worker pc) s.shared = some (l', g')) :
    ∃ cells', Linked cells' (s.set me (l', g')) := by
  have hne : me ≠ none := by
    rintro rfl
    obtain ⟨pc', hmain, -⟩ := hscoped.main
    rw [hmain] at hpc
    cases hpc
  have hmutex := hscoped.mutex me
  have hopen (howns : owns (.worker pc) ≠ none) := hscoped.opened (p := me) (by rwa [hpc])
  have hothers (hinside : inside (.worker pc) = true) (p : Option (Fin n)) (hp : p ≠ me) : Waits (s.proc p) := by
    refine hscoped.waits (hopen ?_) ?_
    · cases pc with
      | idle | lock => cases hinside
      | _ => exact nofun
    · rw [hmutex (by rwa [hpc])]
      exact fun h => hp (Option.some.inj h).symm
  have hself := hs.stands me
  rw [hpc] at hself hmutex
  have hnone : (s.set me (l', g')).proc none = s.proc none := set_proc_of_ne s _ hne.symm
  have hown {el el' : Nat} (hel : holds (.worker pc) = some el) (p : Option (Fin n)) (hp : p ≠ me)
      (hel' : holds (s.proc p) = some el') : el' ≠ el := by
    rintro rfl
    exact hp (hs.apart p me el' hel' (by rw [hpc, hel]))
  cases a with
  | new el =>
      cases pc <;> simp only [act, newEventList, reduceCtorEq] at ha
      split at ha <;> cases ha
      obtain ⟨hopen, hfree⟩ := ‹_ ∧ _›
      have hcell : el ∉ cells := fun h => hs.linked.mem h hfree
      have hheld {p : Option (Fin n)} {el' : Nat} (hel' : holds (s.proc p) = some el') : el' ≠ el := by
        rintro rfl
        exact ((hs.stands p).held el' hel').2 hfree
      refine ⟨cells, linked_set hs (hs.linked.update hcell _) hs.nodup ⟨trivial, ?_, ?_, ?_⟩ (fun p hp => ?_)
        ?_ (fun el' hel' => ?_) (fun h h' => hs.curr h (hnone ▸ h')) hs.returned hs.kept hs.safe⟩
      · rintro _ ⟨⟩
        exact ⟨hcell, by simp⟩
      · rintro _ ⟨⟩ -
        simp
      · rintro _ ⟨⟩ hreturned
        exact hcell (hs.kept hopen el hreturned)
      · have hstands := hs.stands p
        refine ⟨knows_eq hstands.knows rfl rfl, fun el' hel' => ⟨(hstands.held el' hel').1, ?_⟩,
          fun el' hel' ho => ?_, hstands.unreturned⟩
        · simpa [hheld hel'] using (hstands.held el' hel').2
        · simpa [hheld hel'] using hstands.fresh el' hel' ho
      · rintro _ ⟨⟩ p - hp
        exact hheld hp rfl
      · by_cases heq : el' = el
        · subst heq
          exact .inr (.inl rfl)
        · rcases hs.live el' (by simpa [heq] using hel') with hcell' | ⟨p, hp⟩
          · exact .inl hcell'
          · refine .inr (.inr ⟨p, fun hpme => ?_, hp⟩)
            rw [hpme, hpc] at hp
            cases hp
  | step =>
      cases pc with
      | idle => cases ha
      | lock el =>
          simp only [act, getUpcxxEvent] at ha
          split at ha <;> cases ha
          rename_i hfree
          have hopen := hopen nofun
          refine ⟨cells, linked_look hs rfl rfl rfl rfl (by rw [hpc]; rfl) (by rw [hpc]; rfl)
            (hs.curr hfree (.inl hopen)) (fun p _ => knows_waits (hscoped.waits hopen ?_)) (fun h => ?_) id⟩
          · rw [hfree]
            exact nofun
          · cases h
      | test el =>
          cases ha
          have hlist := hs.linked.nil_iff
          refine ⟨cells, linked_look hs rfl rfl rfl rfl ?_ ?_ ?_ (fun p hp => knows_waits (hothers rfl p hp))
            (fun h => ?_) id⟩
          · rw [hpc]
            split <;> rfl
          · rw [hpc]
            split <;> rfl
          · split
            · exact hlist.mp ‹_›
            · exact ⟨fun h => ‹¬_› (hlist.mpr h), hself.knows⟩
          · rw [hmutex rfl] at h
            cases h
      | setCurr el =>
          cases ha
          refine ⟨cells, linked_look hs rfl rfl rfl rfl (by rw [hpc]; rfl) (by rw [hpc]; rfl)
            ⟨hself.knows, rfl⟩ (fun p hp => knows_waits (hothers rfl p hp)) (fun h => ?_) id⟩
          rw [hmutex rfl] at h
          cases h
      | setHead el =>
          cases ha
          obtain ⟨rfl, hcurr⟩ := hself.knows
          have hlast : Cells s.shared.memory (some el) [el] := ⟨rfl, none, hself.fresh el rfl rfl, rfl⟩
          refine ⟨[el], linked_set hs hlast (List.nodup_singleton el)
            ⟨⟨List.mem_singleton_self el, hcurr⟩, nofun, nofun, hself.unreturned⟩ (fun p hp => ?_) nofun
            (fun el' hel' => ?_) (fun h => ?_) hs.returned (fun h el' hel' => ?_) hs.safe⟩
          · refine (hs.stands p).of_waits (hothers rfl p hp) (fun el' hel' => ?_) (fun _ _ => rfl)
              (hs.stands p).unreturned
            simpa using hown rfl p hp hel'
          · rcases hs.live el' hel' with hcell | ⟨p, hp⟩
            · cases hcell
            · by_cases hpme : p = me
              · rw [hpme, hpc] at hp
                cases hp
                exact .inl (List.mem_singleton_self el)
              · exact .inr (.inr ⟨p, hpme, hp⟩)
          · rw [hmutex rfl] at h
            cases h
          · cases hs.kept h el' hel'
      | append el =>
          obtain ⟨hcells, hcurr⟩ := hself.knows
          obtain ⟨hcell, -⟩ := hself.held el rfl
          obtain ⟨l, c, rfl⟩ : ∃ l c, cells = l ++ [c] :=
            ⟨_, _, (List.dropLast_append_getLast hcells).symm⟩
          rw [List.getLast?_concat] at hcurr
          have hc : s.shared.memory c ≠ none := hs.linked.mem (by simp)
          obtain ⟨next, hnext⟩ := Option.ne_none_iff_exists'.mp hc
          have hsnoc : l ++ [c, el] = (l ++ [c]) ++ [el] := List.append_cons l c [el]
          have hnodup : (l ++ [c, el]).Nodup := by
            rw [hsnoc, ← List.concat_eq_append]
            exact hs.nodup.concat hcell
          simp only [act, getUpcxxEvent, hcurr, Shared.setNext, hnext] at ha
          cases ha
          refine ⟨l ++ [c, el], linked_set hs (hs.linked.append hnodup (hself.fresh el rfl rfl)) hnodup
            ⟨⟨l, c, rfl⟩, nofun, nofun, hself.unreturned⟩ (fun p hp => ?_) nofun (fun el' hel' => ?_)
            (fun h => ?_) hs.returned (fun h el' hel' => ?_) hs.safe⟩
          · have hstands := hs.stands p
            refine hstands.of_waits (hothers rfl p hp) (fun el' hel' => ?_) (fun el' hel' => ?_)
              hstands.unreturned
            · have hother := (hstands.held el' hel').1
              have hne := hown rfl p hp hel'
              simp_all
            · have hother := (hstands.held el' hel').1
              exact Function.update_of_ne (fun heq => hother (by simp [heq])) ..
          · by_cases heq : el' = c
            · exact .inl (by simp [heq])
            · rcases hs.live el' (by simpa [heq] using hel') with hcell' | ⟨p, hp⟩
              · exact .inl (by simp_all)
              · by_cases hpme : p = me
                · rw [hpme, hpc] at hp
                  cases hp
                  exact .inl (by simp)
                · exact .inr (.inr ⟨p, hpme, hp⟩)
          · rw [hmutex rfl] at h
            cases h
          · rw [hsnoc]
            exact List.mem_append_left _ (hs.kept h el' hel')
      | advance el =>
          cases ha
          obtain ⟨l, c, rfl⟩ := hself.knows
          refine ⟨_, linked_look hs rfl rfl rfl rfl (by rw [hpc]; rfl) (by rw [hpc]; rfl)
            ⟨by simp, by simp⟩ (fun p hp => knows_waits (hothers rfl p hp)) (fun h => ?_) id⟩
          rw [hmutex rfl] at h
          cases h
      | unlock el =>
          cases ha
          obtain ⟨hcell, hcurr⟩ := hself.knows
          refine ⟨cells, linked_set hs hs.linked hs.nodup ⟨trivial, nofun, nofun, nofun⟩ (fun p hp => ?_) nofun
            (fun el' hel' => ?_) (fun _ _ => hcurr) (hs.returned.cons (hself.unreturned el rfl))
            (fun h el' hel' => ?_) hs.safe⟩
          · have hstands := hs.stands p
            have hwaits := hothers rfl p hp
            refine hstands.of_waits hwaits (fun el' hel' => (hstands.held el' hel').1) (fun _ _ => rfl)
              (fun el' hel' => ?_)
            have hheld : holds (s.proc p) = some el' := by
              unfold Waits at hwaits
              split at hwaits <;> simp_all [owns, holds]
            have hother := (hstands.held el' hheld).1
            have hreturned := hstands.unreturned el' hel'
            rw [List.mem_cons, not_or]
            exact ⟨fun heq => hother (heq ▸ hcell), hreturned⟩
          · rcases hs.live el' hel' with hcell' | ⟨p, hp⟩
            · exact .inl hcell'
            · refine .inr (.inr ⟨p, fun hpme => ?_, hp⟩)
              rw [hpme, hpc] at hp
              cases hp
          · rcases List.mem_cons.mp hel' with rfl | hel'
            · exact hcell
            · exact hs.kept h el' hel'

/-- The thread of finish_spmd opens the scope, and frees the list when the scope has ended. -/
theorem linked_finish (hscoped : Scoped s) (hs : Linked cells s) {pc : FinishPc}
    (hpc : s.proc me = .main pc) (ha : act me a (.main pc) s.shared = some (l', g')) :
    ∃ cells', Linked cells' (s.set me (l', g')) := by
  obtain rfl : me = none := by
    cases me with
    | none => rfl
    | some i =>
        obtain ⟨pc', hworker⟩ := hscoped.workers i
        rw [hworker] at hpc
        cases hpc
  obtain ⟨pc', hmain, hopen⟩ := hscoped.main
  obtain rfl : pc = pc' := by
    rw [hmain] at hpc
    cases hpc
    rfl
  have hclosed (hne : pc ≠ .scope) : s.shared.scopeOpen = false := by simpa [hne] using hopen
  have hself := hs.stands none
  rw [hpc] at hself
  have hidle (hcalls : s.shared.calls = 0) (p : Option (Fin n)) (hp : p ≠ none) :
      s.proc p = .worker .idle := hscoped.rests hcalls hp
  have hstands {cells' : List Nat} {g' : Shared n} : Stands cells' g' (.worker .idle) :=
    ⟨trivial, nofun, nofun, nofun⟩
  have hlive (hcalls : s.shared.calls = 0) (el : Nat) (hel : s.shared.memory el ≠ none) :
      el ∈ cells ∨ holds (.main pc) = some el := by
    refine (hs.live el hel).imp_right ?_
    rintro ⟨p, hp⟩
    by_cases hnone : p = none
    · rwa [hnone, hpc] at hp
    · rw [hidle hcalls p hnone] at hp
      cases hp
  cases a with
  | new el => cases pc <;> cases ha
  | step =>
      cases pc with
      | outside =>
          have hcalls := hscoped.closed (hclosed nofun)
          cases ha
          obtain rfl := hself.knows
          refine ⟨[], linked_set hs hs.linked List.nodup_nil ⟨trivial, nofun, nofun, nofun⟩
            (fun p hp => by rw [hidle hcalls p hp]; exact hstands) nofun (fun el hel => ?_)
            (fun h _ => hs.curr h (.inr hpc)) List.nodup_nil nofun hs.safe⟩
          rcases hlive hcalls el hel with hcell | hholds
          · cases hcell
          · cases hholds
      | scope =>
          simp only [act, finishSpmd] at ha
          split at ha <;> cases ha
          rename_i hcalls
          refine ⟨cells, linked_look hs rfl rfl rfl rfl (by rw [hpc]; rfl) (by rw [hpc]; rfl) trivial
            (fun p hp => by rw [hidle hcalls p hp]; trivial) (fun _ h => ?_) nofun⟩
          rcases h with h | h
          · cases h
          · rw [set_proc_self] at h
            cases h
      | freeTest =>
          have hclosed := hclosed nofun
          have hcalls := hscoped.closed hclosed
          have hlist := hs.linked.nil_iff
          cases ha
          refine ⟨cells, linked_look hs rfl rfl rfl rfl ?_ ?_ ?_
            (fun p hp => by rw [hidle hcalls p hp]; trivial) (fun _ h => ?_) id⟩
          · rw [hpc]
            split <;> rfl
          · rw [hpc]
            split <;> rfl
          · split
            · assumption
            · exact hlist.mp ‹_›
          · rcases h with h | h
            · rw [hclosed] at h
              cases h
            · rw [set_proc_self] at h
              split at h <;> cases h
      | freeNext el =>
          have hclosed := hclosed nofun
          have hcalls := hscoped.closed hclosed
          have hhead : s.shared.eventListHead = some el := hself.knows
          have hlinked := hs.linked
          have hnodup := hs.nodup
          cases cells with
          | nil =>
              rw [hhead] at hlinked
              cases hlinked
          | cons b rest =>
              obtain ⟨hb, next, hnext, hrest⟩ := hlinked
              obtain rfl : el = b := Option.some.inj (hhead.symm.trans hb)
              obtain ⟨hel, hnodup⟩ := List.nodup_cons.mp hnodup
              simp only [act, finishSpmd, hnext] at ha
              cases ha
              refine ⟨rest, linked_set hs hrest hnodup ⟨trivial, ?_, nofun, nofun⟩
                (fun p hp => by rw [hidle hcalls p hp]; exact hstands) (fun _ _ p hp => ?_)
                (fun el' hel' => ?_) (fun _ h => ?_) hs.returned (fun h => ?_) hs.safe⟩
              · rintro _ ⟨⟩
                exact ⟨hel, by rw [hnext]; exact nofun⟩
              · rw [hidle hcalls p hp]
                exact nofun
              · rcases hlive hcalls el' hel' with hcell | hholds
                · rcases List.mem_cons.mp hcell with rfl | hcell
                  · exact .inr (.inl rfl)
                  · exact .inl hcell
                · cases hholds
              · rw [set_proc_self, hclosed] at h
                simp at h
              · rw [hclosed] at h
                cases h
      | freeDelete el =>
          have hclosed := hclosed nofun
          have hcalls := hscoped.closed hclosed
          obtain ⟨hcell, hel⟩ := hself.held el rfl
          obtain ⟨next, hnext⟩ := Option.ne_none_iff_exists'.mp hel
          simp only [act, finishSpmd, hnext] at ha
          cases ha
          refine ⟨cells, linked_set hs (hs.linked.update hcell _) hs.nodup ⟨trivial, nofun, nofun, nofun⟩
            (fun p hp => by rw [hidle hcalls p hp]; exact hstands) nofun (fun el' hel' => ?_) (fun _ h => ?_)
            hs.returned hs.kept hs.safe⟩
          · by_cases heq : el' = el
            · simp [heq] at hel'
            · rcases hlive hcalls el' (by simpa [heq] using hel') with hcell | hholds
              · exact .inl hcell
              · exact absurd (Option.some.inj hholds).symm heq
          · rw [set_proc_self, hclosed] at h
            simp at h
      | freeReset =>
          have hclosed := hclosed nofun
          have hcalls := hscoped.closed hclosed
          cases ha
          obtain rfl := hself.knows
          refine ⟨[], linked_set hs rfl List.nodup_nil ⟨rfl, nofun, nofun, nofun⟩
            (fun p hp => by rw [hidle hcalls p hp]; exact hstands) nofun (fun el' hel' => ?_) (fun _ _ => rfl)
            hs.returned hs.kept hs.safe⟩
          rcases hlive hcalls el' hel' with hcell | hholds
          · cases hcell
          · cases hholds

theorem linked_reachable (hs : Reachable (place n) s) : ∃ cells, Linked cells s := by
  refine hs.invariant (I := fun s => ∃ cells, Linked cells s) ⟨[], ?_⟩ ?_
  · have hstands (p : Option (Fin n)) : Stands [] (place n).init.shared ((place n).init.proc p) := by
      cases p <;> exact ⟨by trivial, nofun, nofun, nofun⟩
    have hnone {p : Option (Fin n)} {el : Nat} : holds ((place n).init.proc p) ≠ some el := by
      cases p <;> exact nofun
    exact ⟨rfl, List.nodup_nil, hstands, fun p q el hp => absurd hp hnone, fun el hel => absurd rfl hel,
      fun _ _ => rfl, List.nodup_nil, nofun, rfl⟩
  · rintro s me a l' g' hs - ⟨cells, hI⟩ ha
    have hscoped := scoped_reachable hs
    cases me with
    | none =>
        obtain ⟨pc, hpc, -⟩ := hscoped.main
        exact linked_finish hscoped hI hpc (hpc ▸ ha)
    | some i =>
        obtain ⟨pc, hpc⟩ := hscoped.workers i
        exact linked_worker hscoped hI hpc (hpc ▸ ha)

theorem finish_leads {pc : FinishPc} {r : Local × Shared n} (h : finishSpmd g pc = some r) :
    (place n).Leads (s.set none (.main pc, g)) (s.set none r) := by
  rw [← set_set s none (.main pc, g) r]
  exact leads_act (S := place n) (a := Act.step) (by rwa [set_proc_self])

/-- The loop of free_upcxx_event_list, by induction on the list. -/
theorem list_freed (hlinked : Cells g.memory g.eventListHead cells) (hnodup : cells.Nodup) :
    ∃ g', (place n).Leads (s.set none (.main .freeTest, g)) (s.set none (.main .outside, g')) := by
  induction cells generalizing g with
  | nil =>
      have hhead : g.eventListHead = none := hlinked
      have htest : finishSpmd g .freeTest = some (.main .freeReset, g) := by rw [finishSpmd, hhead]
      exact ⟨_, (finish_leads htest).trans (finish_leads rfl)⟩
  | cons el rest ih =>
      obtain ⟨hhead, next, hnext, hrest⟩ := hlinked
      obtain ⟨hel, hnodup⟩ := List.nodup_cons.mp hnodup
      have htest : finishSpmd g .freeTest = some (.main (.freeNext el), g) := by rw [finishSpmd, hhead]
      have hadvance : finishSpmd g (.freeNext el) =
          some (.main (.freeDelete el), { g with eventListHead := next }) := by rw [finishSpmd, hnext]
      have hdelete : finishSpmd { g with eventListHead := next } (.freeDelete el) =
          some (.main .freeTest, { g with
            memory := Function.update g.memory el none, eventListHead := next }) := by
        rw [finishSpmd, hnext]
      have hfreed : Cells (Function.update g.memory el none) next rest := hrest.update hel none
      obtain ⟨g', hg'⟩ := ih (g := { g with
        memory := Function.update g.memory el none, eventListHead := next }) hfreed hnodup
      have hround := ((finish_leads (s := s) htest).trans (finish_leads hadvance)).trans (finish_leads hdelete)
      exact ⟨g', hround.trans hg'⟩

theorem outside_freed (hs : Reachable (place n) s) (hpc : s.proc none = .main .outside) :
    ∀ el, s.shared.memory el = none := by
  have hscoped := scoped_reachable hs
  obtain ⟨cells, hI⟩ := linked_reachable hs
  obtain ⟨pc, hmain, hopen⟩ := hscoped.main
  have hclosed : s.shared.scopeOpen = false := by
    rw [hpc] at hmain
    cases hmain
    simpa using hopen
  have hknows := (hI.stands none).knows
  rw [hpc] at hknows
  obtain rfl : cells = [] := hknows
  intro el
  by_contra hel
  rcases hI.live el hel with hcell | ⟨p, hp⟩
  · cases hcell
  · by_cases hnone : p = none
    · rw [hnone, hpc] at hp
      cases hp
    · rw [hscoped.rests (hscoped.closed hclosed) hnone] at hp
      cases hp

/-- No access to freed memory, no event handed out twice, none freed while its
scope is open, and none left when the list has been freed, which always ends. -/
theorem events_managed (hs : Reachable (place n) s) :
    s.shared.fault = false ∧ s.shared.returned.Nodup ∧
    (s.shared.scopeOpen = true → ∀ el ∈ s.shared.returned, s.shared.memory el ≠ none) ∧
    (s.proc none = .main .outside → ∀ el, s.shared.memory el = none) ∧
    (s.proc none = .main .freeTest →
      ∃ g', (place n).Leads s (s.set none (.main .outside, g')) ∧ ∀ el, g'.memory el = none) := by
  obtain ⟨cells, hI⟩ := linked_reachable hs
  refine ⟨hI.safe, hI.returned, fun hopen el hel => ?_, outside_freed hs, fun hpc => ?_⟩
  · exact hI.linked.mem (hI.kept hopen el hel)
  · have hself := set_self s none
    rw [hpc] at hself
    obtain ⟨g', hg'⟩ := list_freed (s := s) hI.linked hI.nodup
    rw [hself] at hg'
    exact ⟨g', hg', outside_freed (hg'.reachable hs) (set_proc_self ..)⟩

def linkedTwice (i j : Fin n) : List (Option (Fin n) × Act) :=
  [(none, .step), (some i, .new 7), (some j, .new 3)] ++ List.replicate 5 (some j, .step) ++
    List.replicate 5 (some i, .step) ++ [(none, .step)]

theorem events_managed_linked : ∃ s : State 2, s.shared.returned = [7, 3] ∧
    ∃ g', (place 2).Leads s (s.set none (.main .outside, g')) ∧ ∀ el, g'.memory el = none := by
  have hs := after_reachable (place 2) (linkedTwice (Fin.last 1).rev (Fin.last 1))
  exact ⟨_, by decide, (events_managed hs).2.2.2.2 (by decide)⟩

end HabaneroUpc.EventList
