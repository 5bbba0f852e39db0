import HabaneroUpc.Lib.Tally
import Mathlib.Algebra.Order.BigOperators.Group.Multiset
import Mathlib.Data.Finset.Lattice.Prod
import Mathlib.Data.Fintype.BigOperators
import Mathlib.Data.Multiset.Bind
import Mathlib.Data.Multiset.Lattice
import Mathlib.Order.Lattice.Nat

namespace HabaneroUpc.Uts

open Interleaving

structure Node (τ σ : Type*) where
  type : τ
  height : Nat
  state : σ
  deriving DecidableEq

structure Params (τ σ : Type*) where
  utsNumChildren : Node τ σ → Nat
  utsChildType : Node τ σ → τ
  rngSpawn : σ → Nat → σ
  root : Node τ σ
  pollingInterval : Nat

inductive Task (τ σ : Type*)
  | root
  | surplus (work : List (Node τ σ))
  deriving DecidableEq

structure StealStack (τ σ : Type*) where
  localWork : Nat
  nNodes : Nat
  nLeaves : Nat
  stack : Nat → Node τ σ
  maxStackDepth : Nat
  stackHead : Nat
  stackTail : Nat
  maxTreeDepth : Nat

/-- Where a worker is: outside of parTreeSearch, about to call ss_get_work, or
in the loop of genChildren. -/
inductive Pc (τ σ : Type*)
  | idle
  | getWork
  | children (parent : Node τ σ) (i : Nat)

structure Worker (τ σ : Type*) where
  ss : StealStack τ σ
  pc : Pc τ σ
  visited : Multiset (Node τ σ)

inductive Act (τ σ : Type*)
  | begin (t : Task τ σ)
  | step

def chunkSize : Nat := 8

def maxStackNodes : Nat := 1048576

variable {τ σ : Type*}

def ssInitialize (junk : Node τ σ) : StealStack τ σ where
  localWork := 0
  nNodes := 0
  nLeaves := 0
  stack := fun _ => junk
  maxStackDepth := 0
  stackHead := 0
  stackTail := 0
  maxTreeDepth := 0

namespace StealStack

def push (ss : StealStack τ σ) (node : Node τ σ) : StealStack τ σ :=
  { ss with
    stack := Function.update ss.stack ss.stackHead node
    stackHead := ss.stackHead + 1
    localWork := ss.localWork + 1
    maxStackDepth := max (ss.localWork + 1) ss.maxStackDepth }

def pushSurplusNodes (ss : StealStack τ σ) (work : List (Node τ σ)) : StealStack τ σ :=
  { ss with
    localWork := chunkSize
    stackHead := chunkSize
    stackTail := 0
    stack := fun k => work.getD k (ss.stack k) }

def chunk (ss : StealStack τ σ) : List (Node τ σ) :=
  (List.range' ss.stackTail chunkSize).map ss.stack

def release (ss : StealStack τ σ) : StealStack τ σ :=
  { ss with stackTail := ss.stackTail + chunkSize, localWork := ss.localWork - chunkSize }

def pop (ss : StealStack τ σ) : StealStack τ σ :=
  { ss with
    stackHead := ss.stackHead - 1
    localWork := ss.localWork - 1
    nNodes := ss.nNodes + 1 }

end StealStack

def Params.child (p : Params τ σ) (parent : Node τ σ) (i : Nat) : Node τ σ where
  type := p.utsChildType parent
  height := parent.height + 1
  state := p.rngSpawn parent.state i

/-- One turn of the loop of genChildren, which may release a chunk. A node that
is written past the end of the stack is undefined behaviour. -/
def spawnChild (p : Params τ σ) (w : Worker τ σ) (tasks : Multiset (Task τ σ)) (parent : Node τ σ)
    (i : Nat) : Option (Worker τ σ × Multiset (Task τ σ)) :=
  if w.ss.stackHead < maxStackNodes then
    let ss := w.ss.push (p.child parent i)
    let pc := if i + 1 < p.utsNumChildren parent then .children parent (i + 1) else .getWork
    if 2 * chunkSize < ss.localWork ∧ ss.nNodes % p.pollingInterval = 0 then
      some ({ w with ss := ss.release, pc }, .surplus ss.chunk ::ₘ tasks)
    else some ({ w with ss, pc }, tasks)
  else none

def genChildren (p : Params τ σ) (w : Worker τ σ) (parent : Node τ σ) : Option (Worker τ σ) :=
  let ss := { w.ss with maxTreeDepth := max w.ss.maxTreeDepth parent.height }
  if 0 < p.utsNumChildren parent then
    if p.utsNumChildren parent + ss.stackHead - ss.stackTail < maxStackNodes then
      some { w with ss, pc := .children parent 0 }
    else none
  else some { w with ss := { ss with nLeaves := ss.nLeaves + 1 }, pc := .getWork }

def parTreeSearch (p : Params τ σ) (w : Worker τ σ) : Option (Worker τ σ) :=
  if w.ss.localWork ≠ 0 then
    let parent := w.ss.stack (w.ss.stackHead - 1)
    genChildren p { w with ss := w.ss.pop, visited := parent ::ₘ w.visited } parent
  else some { w with pc := .idle }

def Task.begin (p : Params τ σ) (ss : StealStack τ σ) : Task τ σ → StealStack τ σ
  | root => ss.push p.root
  | surplus work => ss.pushSurplusNodes work

def act [DecidableEq τ] [DecidableEq σ] (p : Params τ σ) (a : Act τ σ) (w : Worker τ σ)
    (tasks : Multiset (Task τ σ)) : Option (Worker τ σ × Multiset (Task τ σ)) :=
  match a, w.pc with
  | .begin t, .idle =>
      if t ∈ tasks then some ({ w with ss := t.begin p w.ss, pc := .getWork }, tasks.erase t) else none
  | .step, .getWork => (parTreeSearch p w).map fun w => (w, tasks)
  | .step, .children parent i => spawnChild p w tasks parent i
  | _, _ => none

def uts (ι : Type*) [DecidableEq τ] [DecidableEq σ] (p : Params τ σ) :
    System ι (Act τ σ) (Worker τ σ) (Multiset (Task τ σ)) where
  init := ⟨fun _ => ⟨ssInitialize p.root, .idle, 0⟩, {.root}⟩
  act _ := act p

def complete {ι : Type*} (s : Global ι (Worker τ σ) (Multiset (Task τ σ))) : Prop :=
  s.shared = 0 ∧ ∀ i, (s.proc i).pc = .idle

def showStats {ranks workers : Nat}
    (s : Global (Fin ranks × Fin workers) (Worker τ σ) (Multiset (Task τ σ))) : Nat × Nat × Nat :=
  (∑ rank, ∑ worker, (s.proc (rank, worker)).ss.nNodes,
   ∑ rank, ∑ worker, (s.proc (rank, worker)).ss.nLeaves,
   Finset.univ.sup fun rank => Finset.univ.sup fun worker =>
    (s.proc (rank, worker)).ss.maxTreeDepth)

def Worker.overflows (p : Params τ σ) (w : Worker τ σ) : Prop :=
  match w.pc with
  | .idle => False
  | .getWork =>
      w.ss.localWork ≠ 0 ∧ 0 < p.utsNumChildren (w.ss.stack w.ss.pop.stackHead) ∧
        maxStackNodes ≤
          p.utsNumChildren (w.ss.stack w.ss.pop.stackHead) + w.ss.pop.stackHead - w.ss.stackTail
  | .children _ _ => maxStackNodes ≤ w.ss.stackHead

inductive Params.InTree (p : Params τ σ) : Node τ σ → Prop
  | root : p.InTree p.root
  | child {parent : Node τ σ} {i : Nat} (h : p.InTree parent) (hi : i < p.utsNumChildren parent) :
      p.InTree (p.child parent i)

/-- A finite tree: all nodes below one of its nodes, with their multiplicity. What
subtree is outside of the tree does not matter, as long as it is not empty. -/
structure Params.Finite (p : Params τ σ) where
  subtree : Node τ σ → Multiset (Node τ σ)
  self_mem : ∀ node, node ∈ subtree node
  subtree_eq : ∀ parent, p.InTree parent → subtree parent =
    parent ::ₘ ((List.range (p.utsNumChildren parent)).map fun i => subtree (p.child parent i)).sum

section Pending

variable {p : Params τ σ} (T : p.Finite)

def StealStack.pending (ss : StealStack τ σ) : Multiset (Node τ σ) :=
  ((List.range' ss.stackTail ss.localWork).map fun k => T.subtree (ss.stack k)).sum

def Pc.pending : Pc τ σ → Multiset (Node τ σ)
  | .children parent i =>
      ((List.range' i (p.utsNumChildren parent - i)).map fun j => T.subtree (p.child parent j)).sum
  | _ => 0

def Worker.nodes (w : Worker τ σ) : Multiset (Node τ σ) :=
  w.visited + w.ss.pending T + w.pc.pending T

def Task.nodes : Task τ σ → Multiset (Node τ σ)
  | root => T.subtree p.root
  | surplus work => (work.map T.subtree).sum

end Pending

def Task.full (p : Params τ σ) : Task τ σ → Prop
  | root => True
  | surplus work => work.length = chunkSize ∧ ∀ node ∈ work, p.InTree node

def Worker.pushed (w : Worker τ σ) : Nat := Multiset.card w.visited + w.ss.localWork

def Task.size : Task τ σ → Nat
  | root => 0
  | surplus work => work.length

def Worker.weight {p : Params τ σ} (T : p.Finite) (w : Worker τ σ) : Nat :=
  5 * Multiset.card (w.ss.pending T) - 3 * w.ss.localWork + 5 * Multiset.card (w.pc.pending T) +
    match w.pc with
    | .idle => 0
    | _ => 1

def Task.weight {p : Params τ σ} (T : p.Finite) (t : Task τ σ) : Nat :=
  5 * Multiset.card (t.nodes T) - 3 * t.size + 2

structure Worker.Inv (p : Params τ σ) (w : Worker τ σ) : Prop where
  head : w.ss.stackHead = w.ss.stackTail + w.ss.localWork
  idle : w.pc = .idle → w.ss.localWork = 0
  inLoop : ∀ parent i, w.pc = .children parent i → p.InTree parent ∧ i < p.utsNumChildren parent
  nNodes : w.ss.nNodes = Multiset.card w.visited
  nLeaves : w.ss.nLeaves = w.visited.countP fun node => p.utsNumChildren node = 0
  maxTreeDepth : w.ss.maxTreeDepth = (w.visited.map Node.height).sup
  stack : ∀ k, w.ss.stackTail ≤ k → k < w.ss.stackHead → p.InTree (w.ss.stack k)

section Steps

variable {p : Params τ σ} {T : p.Finite} {w w' : Worker τ σ} {tasks tasks' : Multiset (Task τ σ)}
  {node parent : Node τ σ} {i : Nat}

theorem pending_push (ss : StealStack τ σ) (h : ss.stackHead = ss.stackTail + ss.localWork)
    (node : Node τ σ) : (ss.push node).pending T = ss.pending T + T.subtree node := by
  have hrest (k : Nat) (hk : k ∈ List.range' ss.stackTail ss.localWork) :
      T.subtree (Function.update ss.stack ss.stackHead node k) = T.subtree (ss.stack k) := by
    rw [List.mem_range'_1] at hk
    rw [Function.update_of_ne (by omega)]
  simp only [StealStack.pending, StealStack.push, List.range'_1_concat, List.map_append,
    List.sum_append, List.map_congr_left hrest, List.map_cons, List.map_nil, List.sum_cons,
    List.sum_nil, add_zero, ← h, Function.update_self]

theorem pending_pop (ss : StealStack τ σ) (h : ss.stackHead = ss.stackTail + ss.localWork)
    (hwork : ss.localWork ≠ 0) :
    ss.pending T = ss.pop.pending T + T.subtree (ss.stack (ss.stackHead - 1)) := by
  obtain ⟨n, hn⟩ := Nat.exists_eq_succ_of_ne_zero hwork
  have hlast : ss.stackHead - 1 = ss.stackTail + n := by omega
  simp only [StealStack.pending, StealStack.pop, hn, hlast, Nat.succ_sub_one, Nat.succ_eq_add_one,
    List.range'_1_concat, List.map_append, List.sum_append, List.map_cons, List.map_nil,
    List.sum_cons, List.sum_nil, add_zero]

theorem pending_release (ss : StealStack τ σ) (hwork : chunkSize ≤ ss.localWork) :
    ss.pending T = ss.release.pending T + (Task.surplus ss.chunk).nodes T := by
  obtain ⟨n, hn⟩ := Nat.exists_eq_add_of_le hwork
  simp only [StealStack.pending, StealStack.release, Task.nodes, StealStack.chunk, hn,
    Nat.add_sub_cancel_left, List.map_map]
  rw [← List.range'_append_1, List.map_append, List.sum_append, add_comm]
  rfl

theorem pending_surplus (ss : StealStack τ σ) {work : List (Node τ σ)}
    (hwork : work.length = chunkSize) :
    (ss.pushSurplusNodes work).pending T = (Task.surplus work).nodes T := by
  have hlist : (List.range' 0 chunkSize).map (fun k => work.getD k (ss.stack k)) = work := by
    refine List.ext_getElem (by simp [hwork]) fun k hk hk' => ?_
    simp [List.getD, hk']
  simp only [StealStack.pending, StealStack.pushSurplusNodes, Task.nodes]
  conv_rhs => rw [← hlist, List.map_map]
  rfl

theorem children_pending (hparent : p.InTree parent) :
    T.subtree parent = parent ::ₘ (Pc.children parent 0).pending T := by
  rw [T.subtree_eq parent hparent, Pc.pending, Nat.sub_zero, ← List.range_eq_range']

theorem children_next (hi : i < p.utsNumChildren parent) :
    (Pc.children parent i).pending T = T.subtree (p.child parent i) +
      (if i + 1 < p.utsNumChildren parent then Pc.children parent (i + 1) else .getWork).pending T := by
  have hrange : List.range' i (p.utsNumChildren parent - i) =
      i :: List.range' (i + 1) (p.utsNumChildren parent - (i + 1)) := by
    rw [show p.utsNumChildren parent - i = p.utsNumChildren parent - (i + 1) + 1 by omega,
      List.range'_succ]
  rw [Pc.pending, hrange, List.map_cons, List.sum_cons]
  split
  · rfl
  · rename_i hlast
    rw [show p.utsNumChildren parent - (i + 1) = 0 by omega]
    rfl

theorem sup_sum {ι : Type*} (s : Finset ι) (m : ι → Multiset Nat) :
    (∑ i ∈ s, m i).sup = s.sup fun i => (m i).sup := by
  classical
  induction s using Finset.induction_on with
  | empty => rfl
  | insert i s hi ih => rw [Finset.sum_insert hi, Multiset.sup_add, ih, Finset.sup_insert]

theorem length_le_card {α : Type*} (l : List (Multiset α)) (hl : ∀ m ∈ l, 0 < Multiset.card m) :
    l.length ≤ Multiset.card l.sum := by
  induction l with
  | nil => exact Nat.zero_le _
  | cons m l ih =>
      obtain ⟨hm, hl⟩ := List.forall_mem_cons.mp hl
      have hle := ih hl
      rw [List.length_cons, List.sum_cons, Multiset.card_add]
      omega

theorem length_le_card_nodes (l : List (Node τ σ)) : l.length ≤ Multiset.card (l.map T.subtree).sum := by
  rw [← List.length_map T.subtree]
  refine length_le_card _ fun m hm => ?_
  obtain ⟨node, -, rfl⟩ := List.mem_map.mp hm
  exact Multiset.card_pos_iff_exists_mem.mpr ⟨node, T.self_mem node⟩

theorem size_le_card (t : Task τ σ) : t.size ≤ Multiset.card (t.nodes T) := by
  cases t with
  | root => exact Nat.zero_le _
  | surplus work => exact length_le_card_nodes work

theorem localWork_le_card (ss : StealStack τ σ) : ss.localWork ≤ Multiset.card (ss.pending T) := by
  have hle := length_le_card_nodes (T := T) ((List.range' ss.stackTail ss.localWork).map ss.stack)
  rwa [List.length_map, List.length_range', List.map_map] at hle

theorem children_le_card (parent : Node τ σ) (i : Nat) :
    p.utsNumChildren parent - i ≤ Multiset.card ((Pc.children parent i).pending T) := by
  have hle := length_le_card_nodes (T := T)
    ((List.range' i (p.utsNumChildren parent - i)).map (p.child parent))
  rwa [List.length_map, List.length_range', List.map_map] at hle

theorem weight_of_ne (hpc : w.pc ≠ .idle) : w.weight T =
    5 * Multiset.card (w.ss.pending T) - 3 * w.ss.localWork + 5 * Multiset.card (w.pc.pending T) + 1 := by
  rw [Worker.weight]
  split
  · contradiction
  · rfl

/-- What a step keeps: the worker's counters, and all nodes together. A push is
what makes the head of the stack grow. -/
structure Kept (T : p.Finite) (w w' : Worker τ σ) (tasks tasks' : Multiset (Task τ σ)) : Prop where
  inv : w'.Inv p
  full : (∀ t ∈ tasks, t.full p) → ∀ t ∈ tasks', t.full p
  nodes : (tasks'.map (Task.nodes T)).sum + w'.nodes T = (tasks.map (Task.nodes T)).sum + w.nodes T
  pushed : (tasks.map Task.size).sum + w.pushed ≤ (tasks'.map Task.size).sum + w'.pushed
  head : w'.ss.stackHead ≤ chunkSize ∨
    w'.ss.stackHead + ((tasks.map Task.size).sum + w.pushed) ≤
      w.ss.stackHead + ((tasks'.map Task.size).sum + w'.pushed)
  weight : (tasks'.map (Task.weight T)).sum + w'.weight T <
    (tasks.map (Task.weight T)).sum + w.weight T

theorem stack_push {ss : StealStack τ σ}
    (h : ∀ k, ss.stackTail ≤ k → k < ss.stackHead → p.InTree (ss.stack k)) (hnode : p.InTree node) :
    ∀ k, (ss.push node).stackTail ≤ k → k < (ss.push node).stackHead →
      p.InTree ((ss.push node).stack k) := by
  intro k hge hlt
  by_cases hk : k = ss.stackHead
  · simp only [StealStack.push, hk, Function.update_self]
    exact hnode
  · simp only [StealStack.push, Function.update_of_ne hk] at hlt ⊢
    exact h k hge (by omega)

theorem kept_begin (hw : w.Inv p) (hidle : w.pc = .idle) {t : Task τ σ} (ht : t.full p) :
    Kept T w { w with ss := t.begin p w.ss, pc := .getWork } (t ::ₘ tasks) tasks := by
  have hempty : w.ss.pending T = 0 := by
    rw [StealStack.pending, hw.idle hidle]
    rfl
  have hnodes : (t.begin p w.ss).pending T = t.nodes T := by
    cases t with
    | root =>
        rw [Task.begin, pending_push _ hw.head, hempty, zero_add]
        rfl
    | surplus work => exact pending_surplus w.ss ht.1
  have hhead := hw.head
  have hzero := hw.idle hidle
  refine ⟨?_, fun h u hu => h u (Multiset.mem_cons_of_mem hu), ?_, ?_, ?_, ?_⟩
  · cases t with
    | root =>
        refine ⟨?_, nofun, nofun, hw.nNodes, hw.nLeaves, hw.maxTreeDepth, ?_⟩
        · simp only [Task.begin, StealStack.push]
          omega
        · exact stack_push hw.stack .root
    | surplus work =>
        refine ⟨?_, nofun, nofun, hw.nNodes, hw.nLeaves, hw.maxTreeDepth, ?_⟩
        · simp [Task.begin, StealStack.pushSurplusNodes]
        · intro k _ hk
          have hlt : k < work.length := hk.trans_eq ht.1.symm
          simp only [Task.begin, StealStack.pushSurplusNodes, List.getD, List.getElem?_eq_getElem hlt,
            Option.getD_some]
          exact ht.2 _ (List.getElem_mem hlt)
  · simp only [Worker.nodes, hnodes, hempty, hidle, Pc.pending, Multiset.map_cons,
      Multiset.sum_cons, add_zero]
    ac_rfl
  · rw [Multiset.map_cons, Multiset.sum_cons, Worker.pushed, Worker.pushed, hzero]
    cases t with
    | root =>
        simp only [Task.begin, StealStack.push, Task.size]
        omega
    | surplus work =>
        simp only [Task.begin, StealStack.pushSurplusNodes, Task.size, ht.1]
        omega
  · cases t with
    | root =>
        right
        rw [Multiset.map_cons, Multiset.sum_cons, Worker.pushed, Worker.pushed, hzero]
        simp only [Task.begin, StealStack.push, Task.size]
        omega
    | surplus work => exact Or.inl le_rfl
  · have hle := localWork_le_card (T := T) (t.begin p w.ss)
    rw [hnodes] at hle
    rw [Multiset.map_cons, Multiset.sum_cons, Worker.weight, Worker.weight, hempty, hidle, hnodes,
      Task.weight]
    cases t with
    | root =>
        simp only [Task.begin, StealStack.push, Task.size, Pc.pending, Multiset.card_zero] at hle ⊢
        omega
    | surplus work =>
        simp only [Task.begin, StealStack.pushSurplusNodes, Task.size, ht.1, Pc.pending,
          Multiset.card_zero] at hle ⊢
        omega

/-- A node that is taken from the stack is visited, and its children are next. -/
theorem kept_visit (hw : w.Inv p) (hpc : w.pc = .getWork) (hwork : w.ss.localWork ≠ 0)
    (hparent : parent = w.ss.stack (w.ss.stackHead - 1)) {leaves : Nat} {pc : Pc τ σ}
    (hleaves : leaves = w.ss.nLeaves + if p.utsNumChildren parent = 0 then 1 else 0)
    (hidle : pc ≠ .idle) (hpending : pc.pending T = (Pc.children parent 0).pending T)
    (hloop : ∀ parent i, pc = .children parent i → p.InTree parent ∧ i < p.utsNumChildren parent) :
    Kept T w
      { w with
        ss := { w.ss.pop with maxTreeDepth := max w.ss.maxTreeDepth parent.height, nLeaves := leaves }
        pc
        visited := parent ::ₘ w.visited }
      tasks tasks := by
  have hhead := hw.head
  have hpop := pending_pop (T := T) w.ss hhead hwork
  have hdesc : p.InTree parent := by
    rw [hparent]
    exact hw.stack _ (by omega) (by omega)
  rw [← hparent] at hpop
  have hsubtree := children_pending (T := T) hdesc
  have hcard := congrArg Multiset.card hpop
  rw [hsubtree, Multiset.card_add, Multiset.card_cons] at hcard
  have hle := localWork_le_card (T := T) w.ss
  have hle' := localWork_le_card (T := T) w.ss.pop
  have hlocal : w.ss.pop.localWork = w.ss.localWork - 1 := rfl
  have hhead' : w.ss.pop.stackHead = w.ss.stackHead - 1 := rfl
  refine ⟨⟨?_, fun heq => absurd heq hidle, hloop, ?_, ?_, ?_, ?_⟩, id, ?_, ?_, Or.inr ?_, ?_⟩
  · simp only [StealStack.pop]
    omega
  · simp [StealStack.pop, hw.nNodes]
  · simp [hleaves, hw.nLeaves, Multiset.countP_cons]
  · simp [hw.maxTreeDepth, sup_comm]
  · exact fun k hge hlt => hw.stack k hge (hlt.trans_le (Nat.sub_le _ _))
  · change _ + (parent ::ₘ w.visited + w.ss.pop.pending T + pc.pending T) = _
    rw [Worker.nodes, hpop, hsubtree, hpending, hpc, ← Multiset.singleton_add,
      ← Multiset.singleton_add]
    simp only [Pc.pending, add_zero]
    ac_rfl
  · simp only [Worker.pushed, Multiset.card_cons, hlocal]
    omega
  · simp only [Worker.pushed, Multiset.card_cons, hlocal, hhead']
    omega
  · rw [weight_of_ne hidle, weight_of_ne (w := w) (by rw [hpc]; nofun), hpending, hpc]
    change _ + (5 * Multiset.card (w.ss.pop.pending T) - 3 * w.ss.pop.localWork + _ + 1) < _
    omega

theorem kept_search (hw : w.Inv p) (hpc : w.pc = .getWork) (h : parTreeSearch p w = some w') :
    Kept T w w' tasks tasks := by
  unfold parTreeSearch at h
  by_cases hwork : w.ss.localWork ≠ 0
  · rw [if_pos hwork] at h
    obtain ⟨parent, hparent⟩ : ∃ parent, parent = w.ss.stack (w.ss.stackHead - 1) := ⟨_, rfl⟩
    have hdesc : p.InTree parent := by
      have hhead := hw.head
      rw [hparent]
      exact hw.stack _ (by omega) (by omega)
    rw [← hparent] at h
    unfold genChildren at h
    simp only at h
    by_cases hchildren : 0 < p.utsNumChildren parent
    · rw [if_pos hchildren] at h
      split at h
      · cases h
        apply kept_visit hw hpc hwork hparent
        · rw [if_neg hchildren.ne', add_zero]
          rfl
        · nofun
        · rfl
        · rintro _ _ ⟨⟩
          exact ⟨hdesc, hchildren⟩
      · cases h
    · rw [if_neg hchildren] at h
      cases h
      have hleaf : p.utsNumChildren parent = 0 := by omega
      apply kept_visit hw hpc hwork hparent
      · rw [if_pos hleaf]
        rfl
      · nofun
      · have hnone : (Pc.children parent 0).pending T = 0 := by
          rw [Pc.pending, hleaf]
          rfl
        exact hnone.symm
      · nofun
  · rw [if_neg hwork] at h
    cases h
    refine ⟨⟨hw.head, fun _ => not_not.mp hwork, nofun, hw.nNodes, hw.nLeaves, hw.maxTreeDepth,
      hw.stack⟩,
      id, ?_, le_rfl, Or.inr le_rfl, ?_⟩
    · rw [Worker.nodes, Worker.nodes, hpc]
      rfl
    · simp only [Worker.weight, hpc, Pc.pending]
      omega

/-- One step of the loop over the children, without the push of surplus nodes. The
two that are left over pay for the new task of such a push. -/
theorem kept_child (hw : w.Inv p) (hpc : w.pc = .children parent i) {pc : Pc τ σ}
    (hpc' : pc = if i + 1 < p.utsNumChildren parent then .children parent (i + 1) else .getWork) :
    Kept T w { w with ss := w.ss.push (p.child parent i), pc } tasks tasks ∧
      Worker.weight T { w with ss := w.ss.push (p.child parent i), pc } + 2 < w.weight T := by
  obtain ⟨hdesc, hi⟩ := hw.inLoop parent i hpc
  have hhead := hw.head
  have hidle : pc ≠ .idle := by
    rw [hpc']
    split <;> nofun
  have hloop (parent' : Node τ σ) (i' : Nat) (heq : pc = .children parent' i') :
      p.InTree parent' ∧ i' < p.utsNumChildren parent' := by
    rw [hpc'] at heq
    split at heq
    · cases heq
      exact ⟨hdesc, ‹_›⟩
    · cases heq
  have hpush := pending_push (T := T) w.ss hhead (p.child parent i)
  have hnext := children_next (T := T) hi
  rw [← hpc'] at hnext
  have hlocal : (w.ss.push (p.child parent i)).localWork = w.ss.localWork + 1 := rfl
  have hhead' : (w.ss.push (p.child parent i)).stackHead = w.ss.stackHead + 1 := rfl
  have hweight : Worker.weight T { w with ss := w.ss.push (p.child parent i), pc } + 2 < w.weight T := by
    have hcard := congrArg Multiset.card hpush
    have hcard' := congrArg Multiset.card hnext
    rw [Multiset.card_add] at hcard hcard'
    have hle := localWork_le_card (T := T) w.ss
    have hle' := localWork_le_card (T := T) (w.ss.push (p.child parent i))
    rw [weight_of_ne hidle, weight_of_ne (w := w) (by rw [hpc]; nofun)]
    simp only [hlocal, hpc]
    omega
  refine ⟨⟨⟨?_, fun heq => absurd heq hidle, hloop, hw.nNodes, hw.nLeaves, hw.maxTreeDepth,
    stack_push hw.stack (.child hdesc hi)⟩, id, ?_, ?_, Or.inr ?_, ?_⟩, hweight⟩
  · simp only [StealStack.push]
    omega
  · simp only [Worker.nodes, hpc, hnext, hpush]
    ac_rfl
  · simp only [Worker.pushed, hlocal]
    omega
  · simp only [Worker.pushed, hlocal, hhead']
    omega
  · omega

theorem kept_release (hkept : Kept T w w' tasks tasks') (hpc : w'.pc ≠ .idle)
    (hchunk : chunkSize ≤ w'.ss.localWork)
    (hweight : (tasks'.map (Task.weight T)).sum + w'.weight T + 2 <
      (tasks.map (Task.weight T)).sum + w.weight T) :
    Kept T w { w' with ss := w'.ss.release } tasks (.surplus w'.ss.chunk ::ₘ tasks') := by
  have hinv := hkept.inv
  have hhead := hinv.head
  have hsum := pending_release (T := T) w'.ss hchunk
  have hlocal : w'.ss.release.localWork = w'.ss.localWork - chunkSize := rfl
  have hsize : (Task.surplus w'.ss.chunk).size = chunkSize := by
    simp [Task.size, StealStack.chunk]
  have hpushed : ((Task.surplus w'.ss.chunk ::ₘ tasks').map Task.size).sum +
      Worker.pushed { w' with ss := w'.ss.release } = (tasks'.map Task.size).sum + w'.pushed := by
    rw [Multiset.map_cons, Multiset.sum_cons, hsize, Worker.pushed, Worker.pushed]
    simp only [hlocal]
    omega
  refine ⟨⟨?_, fun heq => absurd heq hpc, hinv.inLoop, hinv.nNodes, hinv.nLeaves, hinv.maxTreeDepth,
    fun k hge hlt => hinv.stack k (Nat.le_of_add_right_le hge) hlt⟩, ?_, ?_, ?_, ?_, ?_⟩
  · simp only [StealStack.release]
    omega
  · intro hfull t ht
    rcases Multiset.mem_cons.mp ht with rfl | ht
    · refine ⟨by simp [StealStack.chunk], fun node hnode => ?_⟩
      obtain ⟨k, hk, rfl⟩ := List.mem_map.mp hnode
      rw [List.mem_range'_1] at hk
      exact hinv.stack k hk.1 (by omega)
    · exact hkept.full hfull t ht
  · rw [← hkept.nodes]
    simp only [Worker.nodes, Multiset.map_cons, Multiset.sum_cons, hsum]
    ac_rfl
  · rw [hpushed]
    exact hkept.pushed
  · rw [hpushed]
    exact hkept.head
  · have hcard := congrArg Multiset.card hsum
    rw [Multiset.card_add] at hcard
    have hle := localWork_le_card (T := T) w'.ss.release
    have hnodes : chunkSize ≤ Multiset.card ((Task.surplus w'.ss.chunk).nodes T) := by
      simpa [StealStack.chunk, Task.nodes] using length_le_card_nodes (T := T) w'.ss.chunk
    rw [weight_of_ne hpc] at hweight
    rw [Multiset.map_cons, Multiset.sum_cons, Task.weight, hsize,
      weight_of_ne (w := { w' with ss := w'.ss.release }) hpc]
    simp only [hlocal] at hle ⊢
    omega

theorem kept_spawn (hw : w.Inv p) (hpc : w.pc = .children parent i)
    (h : spawnChild p w tasks parent i = some (w', tasks')) : Kept T w w' tasks tasks' := by
  unfold spawnChild at h
  split at h
  · obtain ⟨hkept, hweight⟩ : Kept T w _ tasks tasks ∧ _ := kept_child hw hpc rfl
    simp only at h
    split at h
    · rename_i hrelease
      cases h
      apply kept_release hkept
      · dsimp only
        split <;> nofun
      · have hlt := hrelease.1
        dsimp only
        omega
      · omega
    · cases h
      exact hkept
  · cases h

theorem kept_act [DecidableEq τ] [DecidableEq σ] {a : Act τ σ} (hw : w.Inv p)
    (hfull : ∀ t ∈ tasks, t.full p) (h : act p a w tasks = some (w', tasks')) :
    Kept T w w' tasks tasks' := by
  unfold act at h
  split at h
  · rename_i t hidle
    simp only [Option.ite_none_right_eq_some] at h
    obtain ⟨ht, h⟩ := h
    cases h
    have hkept : Kept T w _ (t ::ₘ tasks.erase t) _ := kept_begin hw hidle (hfull t ht)
    rwa [Multiset.cons_erase ht] at hkept
  · rename_i hpc
    obtain ⟨w'', hsearch, heq⟩ := Option.map_eq_some_iff.mp h
    cases heq
    exact kept_search hw hpc hsearch
  · rename_i hpc
    exact kept_spawn hw hpc h
  · cases h

end Steps

section Runs

variable {ι : Type*} [DecidableEq ι] [DecidableEq τ] [DecidableEq σ] {p : Params τ σ}
  {s : Global ι (Worker τ σ) (Multiset (Task τ σ))}

theorem inv_reachable (T : p.Finite) (hs : Reachable (uts ι p) s) :
    (∀ i, (s.proc i).Inv p) ∧ ∀ t ∈ s.shared, t.full p := by
  refine hs.split_invariant (I := fun _ w => w.Inv p) (J := fun tasks => ∀ t ∈ tasks, t.full p)
    (fun _ => ⟨rfl, fun _ => rfl, nofun, rfl, rfl, rfl, nofun⟩) ?_ ?_
  · intro t ht
    rw [Multiset.mem_singleton.mp ht]
    trivial
  · intro s i a w tasks _ _ hinv hfull ha
    have hkept := kept_act (T := T) (hinv i) hfull ha
    exact ⟨hkept.inv, hkept.full hfull⟩

section Count

variable [Fintype ι] (T : p.Finite)

/-- Every node of the tree is in one place: visited by one worker, or below what
one worker or one task of the pool has. -/
theorem nodes_reachable (hs : Reachable (uts ι p) s) :
    (s.shared.map (Task.nodes T)).sum + Tally.total (fun _ w => w.nodes T) s.proc =
      T.subtree p.root := by
  rw [Tally.constant (fun tasks => (tasks.map (Task.nodes T)).sum) (fun _ w => w.nodes T) ?_ hs]
  · simp [uts, Task.nodes, Tally.total, Worker.nodes, StealStack.pending, ssInitialize, Pc.pending]
  · intro s i a l g hs _ ha
    obtain ⟨hinv, hfull⟩ := inv_reachable T hs
    exact (kept_act (hinv i) hfull ha).nodes

theorem visited_complete (hs : Reachable (uts ι p) s) (hend : complete s) :
    ∑ i, (s.proc i).visited = T.subtree p.root := by
  rw [← nodes_reachable T hs, hend.1, Multiset.map_zero, Multiset.sum_zero, zero_add]
  refine Finset.sum_congr rfl fun i _ => ?_
  have hzero := ((inv_reachable T hs).1 i).idle (hend.2 i)
  simp [Worker.nodes, StealStack.pending, hzero, hend.2 i, Pc.pending]

def pushed (s : Global ι (Worker τ σ) (Multiset (Task τ σ))) : Nat :=
  (s.shared.map Task.size).sum + Tally.total (fun _ w => w.pushed) s.proc

def weight (s : Global ι (Worker τ σ) (Multiset (Task τ σ))) : Nat :=
  (s.shared.map (Task.weight T)).sum + Tally.total (fun _ w => w.weight T) s.proc

include T in
theorem head_le_pushed (hs : Reachable (uts ι p) s) (i : ι) :
    (s.proc i).ss.stackHead ≤ pushed s + chunkSize := by
  refine hs.invariant (I := fun s => ∀ i, (s.proc i).ss.stackHead ≤ pushed s + chunkSize)
    (fun _ => Nat.zero_le _) ?_ i
  intro s i a l g hs _ hI ha j
  obtain ⟨hinv, hfull⟩ := inv_reachable T hs
  have hkept := kept_act (T := T) (hinv i) hfull ha
  have htotal := Tally.total_update (fun _ w => w.pushed) s.proc i l
  have hpushed := hkept.pushed
  have hi := hI i
  simp only [pushed] at hi hI ⊢
  change (Function.update s.proc i l j).ss.stackHead ≤ (g.map Task.size).sum +
    Tally.total (fun _ w => w.pushed) (Function.update s.proc i l) + chunkSize
  by_cases hji : j = i
  · rw [hji, Function.update_self]
    rcases hkept.head with hhead | hhead <;> omega
  · rw [Function.update_of_ne hji]
    have hj := hI j
    omega

/-- What is pushed has been visited or is in a stack or in a task. -/
theorem pushed_le_card (hs : Reachable (uts ι p) s) : pushed s +
    Tally.total (fun _ w => Multiset.card (w.pc.pending T)) s.proc ≤
      Multiset.card (T.subtree p.root) := by
  rw [← nodes_reachable T hs, Multiset.card_add, pushed, add_assoc, ← Tally.total_add]
  refine Nat.add_le_add ?_ ?_
  · refine (Multiset.sum_map_le_sum_map _ _ fun t _ => size_le_card (T := T) t).trans_eq ?_
    have hsum := map_multiset_sum Multiset.cardHom (s.shared.map (Task.nodes T))
    rw [Multiset.map_map] at hsum
    exact hsum.symm
  · rw [Tally.total, Tally.total, Multiset.card_sum]
    refine Finset.sum_le_sum fun i _ => ?_
    have hle := localWork_le_card (T := T) (s.proc i).ss
    simp only [Worker.pushed, Worker.nodes, Multiset.card_add]
    omega

theorem weight_next {i : ι} {a : Act τ σ} {s' : Global ι (Worker τ σ) (Multiset (Task τ σ))}
    (hs : Reachable (uts ι p) s) (h : (uts ι p).next s i a = some s') :
    weight T s' < weight T s := by
  obtain ⟨l, g, ha, rfl⟩ := next_eq_some.mp h
  obtain ⟨hinv, hfull⟩ := inv_reachable T hs
  have hkept := (kept_act (T := T) (hinv i) hfull ha).weight
  have htotal := Tally.total_update (fun _ w => w.weight T) s.proc i l
  change (g.map (Task.weight T)).sum +
    Tally.total (fun _ w => w.weight T) (Function.update s.proc i l) < _
  rw [weight]
  omega

end Count

theorem complete_of_stuck [Nonempty ι] (hstuck : ∀ i a, (uts ι p).next s i a = none) :
    complete s ∨ ∃ i, (s.proc i).overflows p := by
  by_cases hidle : ∀ i, (s.proc i).pc = .idle
  · refine Or.inl ⟨Multiset.eq_zero_of_forall_notMem fun t ht => ?_, hidle⟩
    obtain ⟨i⟩ := ‹Nonempty ι›
    have hi := hstuck i (.begin t)
    simp [System.next, uts, act, hidle i, ht] at hi
  · obtain ⟨i, hi⟩ := not_forall.mp hidle
    refine Or.inr ⟨i, ?_⟩
    have hstep : act p .step (s.proc i) s.shared = none := by
      simpa [System.next, uts] using hstuck i .step
    rw [Worker.overflows]
    split
    · contradiction
    · rename_i hpc
      simp only [act, hpc, Option.map_eq_none_iff, parTreeSearch, genChildren] at hstep
      split at hstep
      · rename_i hwork
        split at hstep
        · rename_i hchildren
          split at hstep
          · cases hstep
          · rename_i hfull
            exact ⟨hwork, hchildren, Nat.le_of_not_lt hfull⟩
        · cases hstep
      · cases hstep
    · rename_i hpc
      simp only [act, hpc, spawnChild] at hstep
      split at hstep
      · split at hstep <;> cases hstep
      · rename_i hfull
        exact Nat.le_of_not_lt hfull

/-- In a tree that fits, the stack of a worker is large enough: its head is ahead
of what has been pushed by no more than the chunk that it was given. -/
theorem no_overflow [Fintype ι] (T : p.Finite)
    (hfits : Multiset.card (T.subtree p.root) + chunkSize ≤ maxStackNodes)
    (hs : Reachable (uts ι p) s) (i : ι) : ¬(s.proc i).overflows p := by
  have hinv := (inv_reachable T hs).1 i
  have hle := pushed_le_card T hs
  have hhead := hinv.head
  intro hover
  rw [Worker.overflows] at hover
  split at hover
  · exact hover
  · obtain ⟨hwork, -, hfull⟩ := hover
    have hnodes : Multiset.card ((s.proc i).nodes T) ≤ Multiset.card (T.subtree p.root) := by
      rw [← nodes_reachable T hs]
      exact Multiset.card_le_card
        ((Tally.le_total (fun _ w => w.nodes T) s.proc i).trans (Multiset.le_add_left _ _))
    have hpop := congrArg Multiset.card (pending_pop (T := T) _ hhead hwork)
    have hrest := localWork_le_card (T := T) (s.proc i).ss.pop
    have hchildren := children_le_card (T := T)
      ((s.proc i).ss.stack (s.proc i).ss.pop.stackHead) 0
    have hdesc := hinv.stack ((s.proc i).ss.stackHead - 1) (by omega) (by omega)
    rw [children_pending hdesc, Multiset.card_add, Multiset.card_cons] at hpop
    rw [Worker.nodes, Multiset.card_add, Multiset.card_add] at hnodes
    simp only [StealStack.pop] at hpop hrest hchildren hfull
    omega
  · rename_i parent j hpc
    have hpushed := head_le_pushed T hs i
    have hone : 0 < Multiset.card ((s.proc i).pc.pending T) := by
      have hj := (hinv.inLoop parent j hpc).2
      have hchildren := children_le_card (T := T) parent j
      rw [hpc]
      omega
    have htotal := Tally.le_total (fun _ w => Multiset.card (w.pc.pending T)) s.proc i
    omega

theorem complete_of_fits [Fintype ι] [Nonempty ι] (T : p.Finite)
    (hfits : Multiset.card (T.subtree p.root) + chunkSize ≤ maxStackNodes)
    (hs : Reachable (uts ι p) s) : ∃ acts s', (uts ι p).run s acts = some s' ∧ complete s' := by
  obtain ⟨acts, s', hrun, hstuck⟩ := runs_until_stuck (fun _ _ _ _ => weight_next T) hs
  refine ⟨acts, s', hrun, (complete_of_stuck hstuck).resolve_right ?_⟩
  rintro ⟨i, hi⟩
  exact no_overflow T hfits (reachable_of_run hs acts hrun) i hi

theorem showStats_complete {ranks workers : Nat}
    {s : Global (Fin ranks × Fin workers) (Worker τ σ) (Multiset (Task τ σ))} (T : p.Finite)
    (hs : Reachable (uts (Fin ranks × Fin workers) p) s) (hend : complete s) :
    showStats s = (Multiset.card (T.subtree p.root),
      (T.subtree p.root).countP fun node => p.utsNumChildren node = 0,
      ((T.subtree p.root).map Node.height).sup) := by
  have hinv := (inv_reachable T hs).1
  rw [showStats, ← Fintype.sum_prod_type (fun i => (s.proc i).ss.nNodes),
    ← Fintype.sum_prod_type (fun i => (s.proc i).ss.nLeaves),
    ← Finset.sup_product_left _ _ fun i => (s.proc i).ss.maxTreeDepth, Finset.univ_product_univ,
    ← visited_complete T hs hend]
  refine Prod.ext ?_ (Prod.ext ?_ ?_)
  · rw [Multiset.card_sum]
    exact Finset.sum_congr rfl fun i _ => (hinv i).nNodes
  · rw [← Multiset.coe_countPAddMonoidHom, map_sum]
    exact Finset.sum_congr rfl fun i _ => (hinv i).nLeaves
  · rw [← Multiset.coe_mapAddMonoidHom, map_sum, sup_sum]
    exact Finset.sup_congr rfl fun i _ => (hinv i).maxTreeDepth

def star : Params Unit Nat where
  utsNumChildren node := if node.height = 0 then 20 else 0
  utsChildType _ := ()
  rngSpawn state i := state + i + 1
  root := ⟨(), 0, 0⟩
  pollingInterval := 1

def starFinite : star.Finite where
  subtree node := node ::ₘ
    if node.height = 0 then ((List.range 20).map fun i => {star.child node i}).sum else 0
  self_mem node := Multiset.mem_cons_self node _
  subtree_eq node _ := by
    by_cases hroot : node.height = 0 <;> simp [star, Params.child, hroot]

theorem star_fits : Multiset.card (starFinite.subtree star.root) + chunkSize ≤ maxStackNodes := by
  decide

theorem showStats_star : ∃ s : Global (Fin 2 × Fin 3) (Worker Unit Nat) (Multiset (Task Unit Nat)),
    Reachable (uts _ star) s ∧ complete s ∧ showStats s = (21, 20, 1) := by
  obtain ⟨acts, s, hrun, hend⟩ := complete_of_fits starFinite star_fits
    (.init : Reachable (uts (Fin 2 × Fin 3) star) _)
  have hs := reachable_of_run .init acts hrun
  exact ⟨s, hs, hend, (showStats_complete starFinite hs hend).trans (by decide)⟩

/-- Every run ends: with the whole tree searched, or at a worker whose stack is
too small. -/
theorem search_ends [Fintype ι] [Nonempty ι] (T : p.Finite) (hs : Reachable (uts ι p) s) :
    (∀ acts s', (uts ι p).run s acts = some s' → acts.length ≤ weight T s) ∧
      ∃ acts s', (uts ι p).run s acts = some s' ∧
        (complete s' ∨ ∃ i, (s'.proc i).overflows p) := by
  constructor
  · intro acts s' hrun
    have hle := run_length_le (fun _ _ _ _ => weight_next T) hs hrun
    omega
  · obtain ⟨acts, s', hrun, hstuck⟩ := runs_until_stuck (fun _ _ _ _ => weight_next T) hs
    exact ⟨acts, s', hrun, complete_of_stuck hstuck⟩

theorem search_ends_star : ∃ acts s', (uts (Fin 2) star).run (uts (Fin 2) star).init acts = some s' ∧
    acts.length ≤ weight starFinite (uts (Fin 2) star).init := by
  obtain ⟨hbound, acts, s', hrun, -⟩ := search_ends (ι := Fin 2) starFinite .init
  exact ⟨acts, s', hrun, hbound acts s' hrun⟩

/-- In a tree that fits, no worker's stack is too small, and a run that has not
searched all of it goes on to do so. -/
theorem runs_complete [Fintype ι] [Nonempty ι] (T : p.Finite)
    (hfits : Multiset.card (T.subtree p.root) + chunkSize ≤ maxStackNodes)
    (hs : Reachable (uts ι p) s) :
    (∀ i, ¬(s.proc i).overflows p) ∧
      ∃ acts s', (uts ι p).run s acts = some s' ∧ complete s' :=
  ⟨no_overflow T hfits hs, complete_of_fits T hfits hs⟩

theorem runs_complete_star : ∃ acts s',
    (uts (Fin 3) star).run (uts (Fin 3) star).init acts = some s' ∧ complete s' :=
  (runs_complete starFinite star_fits .init).2

end Runs

end HabaneroUpc.Uts
