import Mathlib.Logic.Function.Basic

namespace HabaneroUpc.ContactTable

/-- Contacts between parties that ask one another for work: how often t has
marked v as asked, and how many requests of t to v, entries of t in the queue
of v and deliveries from v to t there are. -/
@[ext] structure Table (ι : Type*) where
  marked : ι → ι → Nat
  requested : ι → ι → Nat
  queued : ι → ι → Nat
  shipping : ι → ι → Nat

namespace Table

variable {ι : Type*} {T : Table ι}

def contacts (T : Table ι) (t v : ι) : Nat := T.requested t v + T.queued t v + T.shipping t v

structure Exact (T : Table ι) : Prop where
  le_one : ∀ t v, T.marked t v ≤ 1
  located : ∀ t v, T.marked t v = T.contacts t v

/-- A mark stands for one contact, or for one that a request on its way back
has cancelled; and of two parties at most one is in the queue of the other. -/
structure Safe (T : Table ι) : Prop where
  le_one : ∀ t v, T.marked t v ≤ 1
  located : ∀ t v, T.contacts t v ≤ T.marked t v
  cancelled : ∀ t v, T.contacts t v < T.marked t v → 0 < T.requested v t
  alone : ∀ t v, 0 < T.queued t v → T.requested v t = 0
  oneWay : ∀ t v, T.queued t v = 0 ∨ T.queued v t = 0

theorem Exact.contacts_le (hT : T.Exact) (t v : ι) : T.contacts t v ≤ 1 := by
  rw [← hT.located]
  exact hT.le_one t v

theorem Safe.contacts_le (hT : T.Safe) (t v : ι) : T.contacts t v ≤ 1 :=
  Nat.le_trans (hT.located t v) (hT.le_one t v)

end Table

variable {ι : Type*} [DecidableEq ι] {T T' : Table ι}

def set₂ (f : ι → ι → Nat) (t v : ι) (k : Nat) : ι → ι → Nat := fun a b =>
  if a = t ∧ b = v then k else f a b

/-- The moves of one contact. With cancellation, asking v drops v from the own
queue, and a request of t that arrives clears the own mark for t; it arrives
only when that mark does not stand for something still on its way. -/
inductive Move (cancel : Bool) (T : Table ι) : Table ι → Prop
  | request (t v : ι) (hne : t ≠ v) (hfree : T.marked t v = 0) :
      Move cancel T { T with
        marked := set₂ T.marked t v 1
        requested := set₂ T.requested t v (T.requested t v + 1)
        queued := if cancel then set₂ T.queued v t 0 else T.queued }
  | arrive (t v : ι) (hne : t ≠ v) (hrequested : 0 < T.requested t v)
      (hcross : cancel = true → 0 < T.marked v t → T.requested v t = 0 ∧ T.shipping v t = 0) :
      Move cancel T { T with
        requested := set₂ T.requested t v (T.requested t v - 1)
        queued := set₂ T.queued t v (T.queued t v + 1)
        marked := if cancel then set₂ T.marked v t 0 else T.marked }
  | pop (t v : ι) (hqueued : 0 < T.queued t v) :
      Move cancel T { T with
        queued := set₂ T.queued t v (T.queued t v - 1)
        shipping := set₂ T.shipping t v (T.shipping t v + 1) }
  | deliver (t v : ι) (hshipping : 0 < T.shipping t v) :
      Move cancel T { T with
        shipping := set₂ T.shipping t v (T.shipping t v - 1)
        marked := set₂ T.marked t v 0 }

theorem exact_move (h : Move false T T') (hT : T.Exact) : T'.Exact := by
  have hle := hT.le_one
  have hlocated := hT.located
  simp only [Table.contacts] at hlocated
  cases h with
  | request t v | arrive t v | pop t v | deliver t v =>
      -- each move takes one contact from one location to the next
      constructor <;> intro a b <;>
        simp only [Table.contacts, set₂, Bool.false_eq_true, if_false] <;> grind

theorem safe_move (h : Move true T T') (hT : T.Safe) : T'.Safe := by
  have hle := hT.le_one
  have hlocated := hT.located
  have hcancelled := hT.cancelled
  have halone := hT.alone
  have honeWay := hT.oneWay
  simp only [Table.contacts] at hlocated hcancelled
  cases h with
  | request t v hne hfree =>
      -- the entry of v that t drops leaves a mark of v that this request has cancelled
      constructor <;> intro a b <;> simp only [Table.contacts, set₂, if_true] <;> grind
  | arrive t v hne hrequested hcross =>
      -- a mark of v for t is neither on its way (hcross) nor queued (alone): it has
      -- been cancelled by this request, and clearing it loses nothing
      constructor <;> intro a b <;> simp only [Table.contacts, set₂, if_true] <;> grind
  | pop t v | deliver t v =>
      constructor <;> intro a b <;> simp only [Table.contacts, set₂] <;> grind

end HabaneroUpc.ContactTable
