import HabaneroUpc.Lib.Interleaving
import HabaneroUpc.Lib.Ring
import HabaneroUpc.Lib.Fifo
import Mathlib.Data.Fintype.Pi

namespace HabaneroUpc.SemiConcDeque

open Interleaving RingBuffer

def semiConcurrentDequeSize : Nat := 8192

/-- The remainder of C, which is negative where the counter is. -/
def slot (counter : Int) : Nat := (counter.tmod semiConcurrentDequeSize).toNat

theorem slot_of_nonneg {counter : Int} (h : 0 ≤ counter) :
    slot counter = cell semiConcurrentDequeSize counter := by
  rw [slot, Int.tmod_eq_emod_of_nonneg h, cell]

abbrev Entry (w : Nat) := Fin w → UInt8

variable {w : Nat}

def copyBytes (bytes : Finset (Fin w)) (dest src : Entry w) : Entry w :=
  fun b => if b ∈ bytes then src b else dest b

/-- Bytes copied before stay copied, and those of this step are added. -/
theorem copyBytes_eq {bytes copied : Finset (Fin w)} {dest src : Entry w}
    (h : ∀ b ∈ copied, dest b = src b) :
      ∀ b ∈ copied ∪ bytes, copyBytes bytes dest src b = src b := by
  intro b hb
  by_cases hnew : b ∈ bytes
  · exact if_pos hnew
  · rw [copyBytes, if_neg hnew]
    exact h b ((Finset.mem_union.mp hb).resolve_right hnew)

@[simp] theorem copyBytes_univ (dest src : Entry w) : copyBytes Finset.univ dest src = src := by
  funext b
  simp [copyBytes]

inductive PushPc (w : Nat)
  | size (entry : Entry w)
  | full (entry : Entry w) (tail : Int)
  | cas (entry : Entry w)
  | index (entry : Entry w)
  | write (entry : Entry w) (index : Nat) (copied : Finset (Fin w))
  | incTail (entry : Entry w)
  | unlock
  deriving DecidableEq

inductive PopPc (w : Nat)
  | test
  | index
  | read (index : Nat) (buff : Entry w) (copied : Finset (Fin w))
  | incHead (buff : Entry w)
  deriving DecidableEq

inductive PC (w : Nat)
  | idle
  | push (l : PushPc w)
  | pop (l : PopPc w)
  deriving DecidableEq

structure Worker (w : Nat) where
  pc : PC w
  begun : List (Fifo.Call (Entry w))

/-- The variables of the deque. The holder of the lock and the history of the
calls are not in the source: a push counts when deqTail is incremented, a pop
when deqHead is, or when it finds nothing. -/
structure Deque (ι : Type*) (w : Nat) where
  cells : Nat → Entry w
  deqHead : Int
  deqTail : Int
  lock : Int
  full : Bool
  holder : Option ι
  history : List (ι × Fifo.Call (Entry w) × Option (Entry w))

variable {ι : Type*} [DecidableEq ι]

namespace Deque

def record (g : Deque ι w) (i : ι) (call : Fifo.Call (Entry w)) (result : Option (Entry w)) :
    Deque ι w :=
  { g with history := g.history ++ [(i, call, result)] }

def content (g : Deque ι w) : List (Entry w) :=
  window semiConcurrentDequeSize g.cells (g.deqHead - 1) (g.deqTail - g.deqHead).toNat

def calls (g : Deque ι w) : List (Fifo.Call (Entry w)) := g.history.map fun e => e.2.1

def results (g : Deque ι w) : List (Option (Entry w)) := g.history.map fun e => e.2.2

def pushes (g : Deque ι w) : List (ι × Entry w) :=
  g.history.filterMap fun e => match e.2.1 with
    | .push entry => some (e.1, entry)
    | .pop => none

def popped (g : Deque ι w) : List (Entry w) := g.results.filterMap id

end Deque

def hcCas (ptr ag x : Int) : Bool × Int := if ptr = ag then (true, x) else (false, ptr)

theorem hcCas_won {ptr ag : Int} (h : ptr = ag) (x : Int) : hcCas ptr ag x = (true, x) := if_pos h

theorem hcCas_lost {ptr ag : Int} (h : ptr ≠ ag) (x : Int) : hcCas ptr ag x = (false, ptr) :=
    if_neg h

inductive Act (w : Nat)
  | push (entry : Entry w)
  | pop
  | step
  | copy (bytes : Finset (Fin w))
  deriving DecidableEq

def Worker.goto (P : Worker w) (pc : PC w) : Worker w := { P with pc := pc }

/-- The statements of comm_task_push. The loop goes back to the size test when
the lock is taken. -/
def commTaskPush (i : ι) (P : Worker w) (g : Deque ι w) : PushPc w → Act w →
    Option (Worker w × Deque ι w)
  | .size entry, .step => some (P.goto (.push (.full entry g.deqTail)), g)
  | .full entry tail, .step =>
      if semiConcurrentDequeSize = tail - g.deqHead then some (P, { g with full := true })
      else some (P.goto (.push (.cas entry)), g)
  | .cas entry, .step =>
      let (success, lock) := hcCas g.lock 0 1
      if success then some (P.goto (.push (.index entry)),
        { g with lock := lock, holder := some i })
      else some (P.goto (.push (.size entry)), { g with lock := lock })
  | .index entry, .step =>
      some (P.goto (.push (.write entry (slot g.deqTail) ∅)), g)
  | .write entry index copied, .copy bytes =>
      some (P.goto (.push (.write entry index (copied ∪ bytes))),
        { g with cells := Function.update g.cells index (copyBytes bytes (g.cells index) entry) })
  | .write entry _ copied, .step =>
      if copied = Finset.univ then some (P.goto (.push (.incTail entry)), g) else none
  | .incTail entry, .step =>
      some (P.goto (.push .unlock), { g with deqTail := g.deqTail + 1 }.record i (.push entry) none)
  | .unlock, .step => some (P.goto .idle, { g with lock := 0, holder := none })
  | _, _ => none

def commTaskPop (i : ι) (P : Worker w) (g : Deque ι w) : PopPc w → Act w →
    Option (Worker w × Deque ι w)
  | .test, .step =>
      if 0 < g.deqTail - g.deqHead then some (P.goto (.pop .index), g)
      else some (P.goto .idle, g.record i .pop none)
  | .index, .step =>
      some (P.goto (.pop (.read (slot g.deqHead) (fun _ => 0) ∅)), g)
  | .read index buff copied, .copy bytes =>
      some (P.goto (.pop (.read index (copyBytes bytes buff (g.cells index)) (copied ∪ bytes))), g)
  | .read _ buff copied, .step =>
      if copied = Finset.univ then some (P.goto (.pop (.incHead buff)), g) else none
  | .incHead buff, .step =>
      some (P.goto .idle, { g with deqHead := g.deqHead + 1 }.record i .pop (some buff))
  | _, _ => none

/-- One step of a thread. Only the communication worker pops, and no thread goes
on after the assertion has fired. -/
def act (comm i : ι) (a : Act w) (P : Worker w) (g : Deque ι w) : Option (Worker w × Deque ι w) :=
  if g.full then none
  else match P.pc, a with
    | .idle, .push entry =>
        some ({ P with pc := .push (.size entry), begun := P.begun ++ [.push entry] }, g)
    | .idle, .pop =>
        if i = comm then some ({ P with pc := .pop .test, begun := P.begun ++ [.pop] }, g) else none
    | .push l, a => commTaskPush i P g l a
    | .pop l, a => commTaskPop i P g l a
    | _, _ => none

def Deque.init : Deque ι w where
  cells := fun _ _ => 0
  deqHead := 0
  deqTail := 0
  lock := 0
  full := false
  holder := none
  history := []

def semiConcDeque (comm : ι) (w : Nat) : System ι (Act w) (Worker w) (Deque ι w) where
  init := ⟨fun _ => ⟨.idle, []⟩, Deque.init⟩
  act := act comm

end HabaneroUpc.SemiConcDeque
