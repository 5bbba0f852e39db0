import HabaneroUpc.Lib.Tally
import Mathlib.Algebra.Order.BigOperators.Group.Multiset
import Mathlib.Data.Multiset.Bind

namespace HabaneroUpc.Dataflow

open Interleaving

inductive Stmt (T K V : Type*)
  | put (k : K) (v : V)
  | await (t : T)

/-- Places that run a main program and the tasks it spawns. A task waits for
cells and then puts values into other cells, one after the other. Every cell has
a home, the only place that may put a value into it, and takes one value. -/
structure Program (ι T K V : Type*) where
  home : K → ι
  main : ι → List (Stmt T K V)
  needs : T → List K
  outs : T → List K
  puts : T → (K → Option V) → List (K × V)
  puts_outs : ∀ t f, (puts t f).map Prod.fst = outs t

structure Place (T K V : Type*) where
  main : List (Stmt T K V)
  cells : K → Option V
  waiting : Multiset T
  running : Multiset (List (K × V))
  assigned : Multiset K
  failed : Bool

inductive Act (T K V : Type*)
  | main
  | start (t : T)
  | put (r : List (K × V))
  | deliver (k : K)

variable {ι T K V : Type*}

/-- A put of a cell that has a value, or away from its home, is an error. -/
def Place.put [DecidableEq ι] [DecidableEq K] (pr : Program ι T K V) (me : ι) (P : Place T K V)
    (g : K → Option V) (k : K) (v : V) : Place T K V × (K → Option V) :=
  if P.cells k = none ∧ pr.home k = me then
    ({ P with cells := Function.update P.cells k (some v), assigned := k ::ₘ P.assigned },
      Function.update g k (some v))
  else ({ P with failed := true }, g)

def Place.awaits (pr : Program ι T K V) (P : Place T K V) (k : K) : Prop :=
  P.cells k = none ∧ ∃ t ∈ P.waiting, k ∈ pr.needs t

instance [DecidableEq K] (pr : Program ι T K V) (P : Place T K V) (k : K) : Decidable (P.awaits pr k) :=
  have : Decidable (∃ t ∈ P.waiting, k ∈ pr.needs t) := Multiset.decidableExistsMultiset
  inferInstanceAs (Decidable (_ ∧ _))

def Place.ready (pr : Program ι T K V) (P : Place T K V) (t : T) : Prop :=
  t ∈ P.waiting ∧ ∀ k ∈ pr.needs t, P.cells k ≠ none

instance [DecidableEq T] (pr : Program ι T K V) (P : Place T K V) (t : T) :
    Decidable (P.ready pr t) :=
  inferInstanceAs (Decidable (_ ∧ _))

section

variable [DecidableEq ι] [DecidableEq T] [DecidableEq K] [DecidableEq V]

def act (pr : Program ι T K V) (me : ι) (a : Act T K V) (P : Place T K V) (g : K → Option V) :
    Option (Place T K V × (K → Option V)) :=
  match a with
  | .main => match P.main with
    | [] => none
    | .put k v :: rest => some ({ P with main := rest }.put pr me g k v)
    | .await t :: rest => some ({ P with main := rest, waiting := t ::ₘ P.waiting }, g)
  | .start t =>
      if P.ready pr t then
        some ({ P with
          waiting := P.waiting.erase t
          running := pr.puts t P.cells ::ₘ P.running }, g)
      else none
  | .put r => match r with
    | [] => none
    | (k, v) :: rest =>
        if (k, v) :: rest ∈ P.running then
          some ({ P with running := rest ::ₘ P.running.erase ((k, v) :: rest) }.put pr me g k v)
        else none
  | .deliver k =>
      if P.awaits pr k then
        (g k).map fun v => ({ P with cells := Function.update P.cells k (some v) }, g)
      else none

def Place.init (main : List (Stmt T K V)) : Place T K V where
  main := main
  cells := fun _ => none
  waiting := 0
  running := 0
  assigned := 0
  failed := false

def system (pr : Program ι T K V) : System ι (Act T K V) (Place T K V) (K → Option V) where
  init := ⟨fun i => .init (pr.main i), fun _ => none⟩
  act := act pr

end

variable {pr : Program ι T K V} {me : ι} {P P' : Place T K V} {g g' : K → Option V} {a : Act T K V}

inductive Step [DecidableEq ι] [DecidableEq K] (pr : Program ι T K V) (me : ι) (P : Place T K V)
    (g : K → Option V) : Act T K V → Place T K V → (K → Option V) → Prop
  | mainPut {k v rest} (hmain : P.main = .put k v :: rest) :
      Step pr me P g .main ({ P with main := rest }.put pr me g k v).1
        ({ P with main := rest }.put pr me g k v).2
  | mainAwait {t rest} (hmain : P.main = .await t :: rest) :
      Step pr me P g .main { P with main := rest, waiting := t ::ₘ P.waiting } g
  | start {t waiting} (hwaiting : P.waiting = t ::ₘ waiting)
      (hneeds : ∀ k ∈ pr.needs t, P.cells k ≠ none) :
      Step pr me P g (.start t)
        { P with waiting := waiting, running := pr.puts t P.cells ::ₘ P.running } g
  | put {k v rest running} (hrunning : P.running = ((k, v) :: rest) ::ₘ running) :
      Step pr me P g (.put ((k, v) :: rest)) ({ P with running := rest ::ₘ running }.put pr me g k v).1
        ({ P with running := rest ::ₘ running }.put pr me g k v).2
  | deliver {k v} (hawaits : P.awaits pr k) (hg : g k = some v) :
      Step pr me P g (.deliver k) { P with cells := Function.update P.cells k (some v) } g

theorem act_step [DecidableEq ι] [DecidableEq T] [DecidableEq K] [DecidableEq V]
    (ha : act pr me a P g = some (P', g')) : Step pr me P g a P' g' := by
  cases a with
  | main =>
      simp only [act] at ha
      split at ha
      · cases ha
      · rename_i k v rest hmain
        have hstep : Step pr me P g .main _ _ := .mainPut hmain
        rwa [Option.some.inj ha] at hstep
      · rename_i t rest hmain
        cases ha
        exact .mainAwait hmain
  | start t =>
      simp only [act, Option.ite_none_right_eq_some] at ha
      obtain ⟨⟨ht, hneeds⟩, heq⟩ := ha
      cases heq
      exact .start (Multiset.cons_erase ht).symm hneeds
  | put r =>
      cases r with
      | nil => cases ha
      | cons kv rest =>
          obtain ⟨k, v⟩ := kv
          simp only [act, Option.ite_none_right_eq_some] at ha
          obtain ⟨hr, heq⟩ := ha
          have hstep : Step pr me P g (.put ((k, v) :: rest)) _ _ :=
            .put (Multiset.cons_erase hr).symm
          rwa [Option.some.inj heq] at hstep
  | deliver k =>
      simp only [act, Option.ite_none_right_eq_some] at ha
      obtain ⟨hawaits, heq⟩ := ha
      obtain ⟨v, hg, heq⟩ := Option.map_eq_some_iff.mp heq
      cases heq
      exact .deliver hawaits hg

def Program.keys (pr : Program ι T K V) : Stmt T K V → List K
  | .put k _ => [k]
  | .await t => pr.outs t

def Place.due (pr : Program ι T K V) (P : Place T K V) : Multiset K :=
  P.assigned + (P.running.bind fun r => ((r.map Prod.fst : List K) : Multiset K)) +
    (P.waiting.bind fun t => (pr.outs t : Multiset K)) + (P.main.flatMap pr.keys : List K)

theorem assigned_le_due (pr : Program ι T K V) (P : Place T K V) : P.assigned ≤ P.due pr := by
  simp only [Place.due, add_assoc]
  exact Multiset.le_add_right _ _

/-- The program computes val, and no place puts a cell twice. -/
structure Valued (pr : Program ι T K V) (val : K → V) : Prop where
  main : ∀ i k v, .put k v ∈ pr.main i → pr.home k = i ∧ v = val k
  puts : ∀ i t, .await t ∈ pr.main i → ∀ f, (∀ k ∈ pr.needs t, f k = some (val k)) →
    ∀ kv ∈ pr.puts t f, pr.home kv.1 = i ∧ kv.2 = val kv.1
  once : ∀ i, ((pr.main i).flatMap pr.keys).Nodup

structure PlaceInv (pr : Program ι T K V) (val : K → V) (i : ι) (owed : Multiset K)
    (P : Place T K V) : Prop where
  main : P.main <:+ pr.main i
  waiting : ∀ t ∈ P.waiting, .await t ∈ pr.main i
  running : ∀ r ∈ P.running, ∀ kv ∈ r, pr.home kv.1 = i ∧ kv.2 = val kv.1
  cells : ∀ k v, P.cells k = some v → v = val k
  due : P.due pr + owed = ((pr.main i).flatMap pr.keys : List K)
  assigned : ∀ k, pr.home k = i → (k ∈ P.assigned ↔ P.cells k ≠ none)
  failed : P.failed = false

def Shared (pr : Program ι T K V) (s : Global ι (Place T K V) (K → Option V)) : Prop :=
  ∀ k, s.shared k = (s.proc (pr.home k)).cells k

section

variable [DecidableEq ι] [DecidableEq K] {val : K → V} {i : ι} {k : K} {v : V}

omit [DecidableEq ι] in
theorem update_valued {cells : K → Option V} (h : ∀ k v, cells k = some v → v = val k)
    (hv : v = val k) (k' : K) (v' : V) (hcell : Function.update cells k (some v) k' = some v') :
    v' = val k' := by
  by_cases hk' : k' = k
  · subst k'
    rw [Function.update_self] at hcell
    rw [← Option.some.inj hcell, hv]
  · rw [Function.update_of_ne hk'] at hcell
    exact h k' v' hcell

theorem PlaceInv.put (hpr : Valued pr val) (h : PlaceInv pr val i {k} P) (hk : pr.home k = i)
    (hv : v = val k) :
    P.put pr i g k v =
        ({ P with cells := Function.update P.cells k (some v), assigned := k ::ₘ P.assigned },
          Function.update g k (some v)) ∧
      PlaceInv pr val i 0 (P.put pr i g k v).1 := by
  have hnone : P.cells k = none := by
    by_contra hsome
    have hmem := (h.assigned k hk).mpr hsome
    have hdup : 1 < Multiset.count k (P.due pr + {k}) := by
      rw [Multiset.count_add, Multiset.count_singleton_self]
      have hpos := Multiset.count_pos.mpr (Multiset.mem_of_le (assigned_le_due pr P) hmem)
      omega
    rw [h.due, Multiset.coe_count] at hdup
    have hle := List.nodup_iff_count_le_one.mp (hpr.once i) k
    omega
  have heq : P.put pr i g k v = ({ P with
      cells := Function.update P.cells k (some v), assigned := k ::ₘ P.assigned },
      Function.update g k (some v)) := if_pos ⟨hnone, hk⟩
  refine ⟨heq, ?_⟩
  rw [heq]
  constructor
  · exact h.main
  · exact h.waiting
  · exact h.running
  · exact update_valued h.cells hv
  · rw [← h.due]
    simp only [Place.due, ← Multiset.singleton_add]
    ac_rfl
  · intro k' hhome
    by_cases hk' : k' = k
    · subst k'
      simp
    · simp [hk', h.assigned k' hhome]
  · exact h.failed

theorem PlaceInv.step (hpr : Valued pr val) (h : PlaceInv pr val i 0 P)
    (hg : ∀ k v, g k = some v → v = val k ∧ (pr.home k = i → P.cells k = some v))
    (hstep : Step pr i P g a P' g') :
    PlaceInv pr val i 0 P' ∧
      ((∀ k, pr.home k = i → P'.cells k = P.cells k) ∧ g' = g ∨
        ∃ k v, pr.home k = i ∧ P'.cells = Function.update P.cells k (some v) ∧
          g' = Function.update g k (some v)) := by
  cases hstep with
  | @mainPut k v rest hmain =>
      have hmem : Stmt.put k v ∈ pr.main i := h.main.subset (hmain ▸ List.mem_cons_self)
      obtain ⟨hk, hv⟩ := hpr.main i k v hmem
      have howed : PlaceInv pr val i {k} { P with main := rest } := by
        refine ⟨?_, h.waiting, h.running, h.cells, ?_, h.assigned, h.failed⟩
        · exact (show rest <:+ P.main from hmain ▸ List.suffix_cons _ rest).trans h.main
        · rw [← h.due]
          simp only [Place.due, hmain, List.flatMap_cons, Program.keys, ← Multiset.coe_add,
            Multiset.coe_singleton]
          ac_rfl
      obtain ⟨heq, hinv⟩ := howed.put (g := g) hpr hk hv
      refine ⟨hinv, .inr ⟨k, v, hk, ?_, ?_⟩⟩ <;> rw [heq]
  | @mainAwait t rest hmain =>
      have hmem : Stmt.await t ∈ pr.main i := h.main.subset (hmain ▸ List.mem_cons_self)
      refine ⟨⟨?_, ?_, h.running, h.cells, ?_, h.assigned, h.failed⟩, .inl ⟨fun _ _ => rfl, rfl⟩⟩
      · exact (show rest <:+ P.main from hmain ▸ List.suffix_cons _ rest).trans h.main
      · intro u hu
        rcases Multiset.mem_cons.mp hu with rfl | hu
        · exact hmem
        · exact h.waiting u hu
      · rw [← h.due]
        simp only [Place.due, hmain, List.flatMap_cons, Program.keys, ← Multiset.coe_add,
          Multiset.cons_bind]
        ac_rfl
  | @start t waiting hwaiting hneeds =>
      have hmem : Stmt.await t ∈ pr.main i := h.waiting t (hwaiting ▸ Multiset.mem_cons_self t _)
      have hval : ∀ k ∈ pr.needs t, P.cells k = some (val k) := by
        intro k hk
        obtain ⟨v, hv⟩ := Option.ne_none_iff_exists'.mp (hneeds k hk)
        rw [hv, h.cells k v hv]
      refine ⟨⟨h.main, ?_, ?_, h.cells, ?_, h.assigned, h.failed⟩, .inl ⟨fun _ _ => rfl, rfl⟩⟩
      · exact fun u hu => h.waiting u (hwaiting ▸ Multiset.mem_cons_of_mem hu)
      · intro r hr
        rcases Multiset.mem_cons.mp hr with rfl | hr
        · exact hpr.puts i t hmem P.cells hval
        · exact h.running r hr
      · rw [← h.due]
        simp only [Place.due, hwaiting, Multiset.cons_bind, pr.puts_outs]
        ac_rfl
  | @put k v rest running hrunning =>
      have hr : (k, v) :: rest ∈ P.running := hrunning ▸ Multiset.mem_cons_self _ _
      obtain ⟨hk, hv⟩ := h.running _ hr (k, v) List.mem_cons_self
      have howed : PlaceInv pr val i {k} { P with running := rest ::ₘ running } := by
        refine ⟨h.main, h.waiting, ?_, h.cells, ?_, h.assigned, h.failed⟩
        · intro r' hr'
          rcases Multiset.mem_cons.mp hr' with rfl | hr'
          · exact fun kv hkv => h.running _ hr kv (List.mem_cons_of_mem _ hkv)
          · exact h.running r' (hrunning ▸ Multiset.mem_cons_of_mem hr')
        · rw [← h.due]
          simp only [Place.due, hrunning, Multiset.cons_bind, List.map_cons]
          simp only [← Multiset.cons_coe, ← Multiset.singleton_add]
          ac_rfl
      obtain ⟨heq, hinv⟩ := howed.put (g := g) hpr hk hv
      refine ⟨hinv, .inr ⟨k, v, hk, ?_, ?_⟩⟩ <;> rw [heq]
  | @deliver k v hawaits hval =>
      obtain ⟨hv, hhome⟩ := hg k v hval
      have hne (k' : K) (hk' : pr.home k' = i) : k' ≠ k := by
        rintro rfl
        have hsome := hhome hk'
        rw [hawaits.1] at hsome
        cases hsome
      have hsame (k' : K) (hk' : pr.home k' = i) :
          Function.update P.cells k (some v) k' = P.cells k' := Function.update_of_ne (hne k' hk') ..
      refine ⟨⟨h.main, h.waiting, h.running, update_valued h.cells hv, h.due, ?_, h.failed⟩,
        .inl ⟨hsame, rfl⟩⟩
      intro k' hk'
      have hassigned := h.assigned k' hk'
      rwa [← hsame k' hk'] at hassigned

end

/-- In every run each cell holds the value of the program wherever it holds one,
and no put is an error. -/
theorem inv_reachable [DecidableEq ι] [DecidableEq T] [DecidableEq K] [DecidableEq V] {val : K → V} (hpr : Valued pr val)
    {s : Global ι (Place T K V) (K → Option V)} (hs : Reachable (system pr) s) :
    (∀ i, PlaceInv pr val i 0 (s.proc i)) ∧ Shared pr s := by
  refine hs.invariant (I := fun s => (∀ i, PlaceInv pr val i 0 (s.proc i)) ∧ Shared pr s)
    ⟨fun i => ?_, fun k => rfl⟩ ?_
  · constructor <;> simp [system, Place.init, Place.due]
  · intro s i a P' g' _ _ ⟨hplace, hshared⟩ ha
    have hg (k : K) (v : V) (hk : s.shared k = some v) :
        v = val k ∧ (pr.home k = i → (s.proc i).cells k = some v) := by
      rw [hshared k] at hk
      refine ⟨(hplace _).cells k v hk, ?_⟩
      rintro rfl
      exact hk
    obtain ⟨hinv, hcells⟩ := (hplace i).step hpr hg (act_step ha)
    refine ⟨forall_set hinv fun j _ => hplace j, fun k => ?_⟩
    change g' k = ((s.set i (P', g')).proc (pr.home k)).cells k
    by_cases hk : pr.home k = i
    · rw [hk, set_proc_self]
      rcases hcells with ⟨hsame, rfl⟩ | ⟨k', v, hk', hP, rfl⟩
      · rw [hsame k hk, hshared k, hk]
      · rw [hP]
        by_cases hkk : k = k'
        · subst k'
          simp
        · rw [Function.update_of_ne hkk, Function.update_of_ne hkk, hshared k, hk]
    · rw [set_proc_of_ne _ _ hk]
      rcases hcells with ⟨_, rfl⟩ | ⟨k', v, hk', _, rfl⟩
      · exact hshared k
      · rw [Function.update_of_ne (by rintro rfl; exact hk hk'), hshared k]

def Place.complete (P : Place T K V) : Prop :=
  P.main = [] ∧ P.waiting = 0 ∧ ∀ r ∈ P.running, r = []

instance [DecidableEq T] [DecidableEq K] [DecidableEq V] (P : Place T K V) :
    Decidable P.complete :=
  have : Decidable (∀ r ∈ P.running, r = []) := Multiset.decidableForallMultiset
  inferInstanceAs (Decidable (_ ∧ _ ∧ _))

theorem PlaceInv.mem_due {val : K → V} {i : ι} (h : PlaceInv pr val i 0 P) {k : K} :
    k ∈ P.due pr ↔ k ∈ (pr.main i).flatMap pr.keys := by
  have hdue := h.due
  rw [add_zero] at hdue
  rw [hdue, Multiset.mem_coe]

theorem due_of_idle (hmain : P.main = []) (hrunning : ∀ r ∈ P.running, r = []) :
    P.due pr = P.assigned + P.waiting.bind fun t => (pr.outs t : Multiset K) := by
  have hempty : (P.running.bind fun r => ((r.map Prod.fst : List K) : Multiset K)) = 0 := by
    refine Multiset.eq_zero_of_forall_notMem fun k hk => ?_
    obtain ⟨r, hr, hk⟩ := Multiset.mem_bind.mp hk
    simp [hrunning r hr] at hk
  simp [Place.due, hmain, hempty]

theorem PlaceInv.nodup_assigned {val : K → V} {i : ι} (hpr : Valued pr val)
    (h : PlaceInv pr val i 0 P) : P.assigned.Nodup := by
  have hdue := h.due
  rw [add_zero] at hdue
  exact Multiset.nodup_of_le (assigned_le_due pr P) (hdue ▸ Multiset.coe_nodup.mpr (hpr.once i))

/-- What a complete place was due to put it has put. -/
theorem PlaceInv.assigned_complete {val : K → V} {i : ι} (h : PlaceInv pr val i 0 P)
    (hP : P.complete) : P.assigned = ((pr.main i).flatMap pr.keys : List K) := by
  obtain ⟨hmain, hwaiting, hrunning⟩ := hP
  have hdue := h.due
  rwa [due_of_idle hmain hrunning, hwaiting, Multiset.zero_bind, add_zero, add_zero] at hdue

/-- Every awaited cell is put at its home, and the tasks can be ranked such that
each awaits only what tasks of lower rank put. -/
structure Ranked (pr : Program ι T K V) (rank : T → Nat) : Prop where
  made : ∀ i t, .await t ∈ pr.main i → ∀ k ∈ pr.needs t, k ∈ (pr.main (pr.home k)).flatMap pr.keys
  lower : ∀ i t, .await t ∈ pr.main i → ∀ k ∈ pr.needs t, ∀ j u, .await u ∈ pr.main j →
    k ∈ pr.outs u → rank u < rank t

section Progress

variable [DecidableEq ι] [DecidableEq T] [DecidableEq K] [DecidableEq V] {val : K → V} {s : Global ι (Place T K V) (K → Option V)}

/-- No place waits forever: a run that cannot go on is complete. -/
theorem complete_of_stuck {rank : T → Nat} (hpr : Valued pr val) (hrank : Ranked pr rank)
    (hs : Reachable (system pr) s) (hstuck : ∀ i a, (system pr).next s i a = none) (i : ι) :
    (s.proc i).complete := by
  obtain ⟨hplace, hshared⟩ := inv_reachable hpr hs
  have hact (i : ι) (a : Act T K V) : act pr i a (s.proc i) s.shared = none :=
    Option.map_eq_none_iff.mp (hstuck i a)
  have hmain (i : ι) : (s.proc i).main = [] := by
    cases hmain : (s.proc i).main with
    | nil => rfl
    | cons stmt rest =>
        have hnone := hact i .main
        cases stmt <;> simp [act, hmain] at hnone
  have hrunning (i : ι) (r : List (K × V)) (hr : r ∈ (s.proc i).running) : r = [] := by
    cases r with
    | nil => rfl
    | cons kv rest =>
        have hnone := hact i (.put (kv :: rest))
        simp [act, hr] at hnone
  -- a waiting task of least rank could start, or one of its cells could be delivered
  have hwaiting (m : Nat) (i : ι) (t : T) (ht : t ∈ (s.proc i).waiting) (hm : rank t = m) : False := by
    induction m using Nat.strong_induction_on generalizing i t with
    | _ m ih =>
        have hmem := (hplace i).waiting t ht
        have hready (k : K) (hk : k ∈ pr.needs t) : (s.proc i).cells k ≠ none := by
          intro hnone
          have hdue := (hplace _).mem_due.mpr (hrank.made i t hmem k hk)
          rw [due_of_idle (hmain _) (hrunning _), Multiset.mem_add] at hdue
          rcases hdue with hassigned | hwait
          · have hsome := ((hplace _).assigned k rfl).mp hassigned
            rw [← hshared k] at hsome
            obtain ⟨v, hv⟩ := Option.ne_none_iff_exists'.mp hsome
            have hdeliver := hact i (.deliver k)
            rw [act, if_pos ⟨hnone, t, ht, hk⟩, hv] at hdeliver
            cases hdeliver
          · obtain ⟨u, hu, hout⟩ := Multiset.mem_bind.mp hwait
            have hlower := hrank.lower i t hmem k hk _ u ((hplace _).waiting u hu)
              (Multiset.mem_coe.mp hout)
            exact ih (rank u) (hm ▸ hlower) _ u hu rfl
        have hstart := hact i (.start t)
        rw [act, if_pos ⟨ht, hready⟩] at hstart
        cases hstart
  refine ⟨hmain i, ?_, hrunning i⟩
  exact Multiset.eq_zero_of_forall_notMem fun t ht => hwaiting _ i t ht rfl

end Progress

section Termination

variable [DecidableEq K]

def Program.weight (pr : Program ι T K V) : Stmt T K V → Nat
  | .put _ _ => 1
  | .await t => (pr.needs t).length + (pr.outs t).length + 2

def missing (pr : Program ι T K V) (cells : K → Option V) (t : T) : Nat :=
  (pr.needs t).countP fun k => (cells k).isNone

def Place.weight (pr : Program ι T K V) (P : Place T K V) : Nat :=
  (P.main.map pr.weight).sum +
    (P.waiting.map fun t => missing pr P.cells t + (pr.outs t).length + 1).sum +
    (P.running.map fun r => r.length).sum

theorem missing_update_le (cells : K → Option V) (k : K) (v : V) (t : T) :
    missing pr (Function.update cells k (some v)) t ≤ missing pr cells t := by
  refine List.countP_mono_left fun k' _ h => ?_
  by_cases hk : k' = k
  · subst k'
    simp at h
  · simpa [hk] using h

theorem missing_update_lt {cells : K → Option V} {k : K} (hk : cells k = none) (v : V) {t : T}
    (ht : k ∈ pr.needs t) : missing pr (Function.update cells k (some v)) t < missing pr cells t := by
  obtain ⟨before, after, hneeds⟩ := List.append_of_mem ht
  have hle (l : List K) :
      l.countP (fun k' => (Function.update cells k (some v) k').isNone) ≤
        l.countP fun k' => (cells k').isNone := by
    refine List.countP_mono_left fun k' _ h => ?_
    by_cases hk' : k' = k
    · subst k'
      simp at h
    · simpa [hk'] using h
  have hbefore := hle before
  have hafter := hle after
  simp only [missing, hneeds, List.countP_append, List.countP_cons, Function.update_self, hk,
    Option.isNone_some, Option.isNone_none, if_true]
  simp only [Bool.false_eq_true, if_false]
  omega

theorem weight_put_le [DecidableEq ι] (k : K) (v : V) :
    ((P.put pr me g k v).1).weight pr ≤ P.weight pr := by
  unfold Place.put
  split
  · have hsum := Multiset.sum_map_le_sum_map
      (fun t => missing pr (Function.update P.cells k (some v)) t + (pr.outs t).length + 1)
      (fun t => missing pr P.cells t + (pr.outs t).length + 1) (s := P.waiting) fun t _ => by
        have hle : missing pr (Function.update P.cells k (some v)) t ≤ _ := missing_update_le _ k v t
        omega
    simp only [Place.weight]
    omega
  · exact le_refl _

theorem Step.weight_lt [DecidableEq ι] (h : Step pr me P g a P' g') :
    P'.weight pr < P.weight pr := by
  cases h with
  | @mainPut k v rest hmain =>
      refine lt_of_le_of_lt (weight_put_le k v) ?_
      simp [Place.weight, hmain, Program.weight]
  | @mainAwait t rest hmain =>
      have hle : missing pr P.cells t ≤ (pr.needs t).length := List.countP_le_length
      simp only [Place.weight, hmain, List.map_cons, List.sum_cons, Program.weight,
        Multiset.map_cons, Multiset.sum_cons]
      omega
  | @start t waiting hwaiting hneeds =>
      have hlen : (pr.puts t P.cells).length = (pr.outs t).length := by
        rw [← pr.puts_outs t P.cells, List.length_map]
      simp only [Place.weight, hwaiting, Multiset.map_cons, Multiset.sum_cons, hlen]
      omega
  | @put k v rest running hrunning =>
      refine lt_of_le_of_lt (weight_put_le k v) ?_
      simp only [Place.weight, hrunning, Multiset.map_cons, Multiset.sum_cons, List.length_cons]
      omega
  | @deliver k v hawaits hg =>
      obtain ⟨hnone, t, ht, hk⟩ := hawaits
      obtain ⟨waiting, hwaiting⟩ := Multiset.exists_cons_of_mem ht
      have hlt : missing pr (Function.update P.cells k (some v)) t < _ := missing_update_lt hnone v hk
      have hsum := Multiset.sum_map_le_sum_map
        (fun t => missing pr (Function.update P.cells k (some v)) t + (pr.outs t).length + 1)
        (fun t => missing pr P.cells t + (pr.outs t).length + 1) (s := waiting) fun t _ => by
          have hle : missing pr (Function.update P.cells k (some v)) t ≤ _ := missing_update_le _ k v t
          omega
      simp only [Place.weight, hwaiting, Multiset.map_cons, Multiset.sum_cons]
      omega

def weight [Fintype ι] (pr : Program ι T K V) (s : Global ι (Place T K V) (K → Option V)) : Nat :=
  Tally.total (fun _ P => P.weight pr) s.proc

variable [DecidableEq ι] [DecidableEq T] [DecidableEq V] [Fintype ι]
  {s s' : Global ι (Place T K V) (K → Option V)}

theorem weight_next {i : ι} (h : (system pr).next s i a = some s') : weight pr s' < weight pr s := by
  obtain ⟨P', g', ha, rfl⟩ := next_eq_some.mp h
  have hlt := (act_step ha).weight_lt
  have htotal := Tally.total_update (fun _ P => P.weight pr) s.proc i P'
  simp only [weight, Global.set]
  omega

/-- Every run ends, and complete: the steps of a run are bounded, and a run that
is not complete goes on. -/
theorem completes {val : K → V} {rank : T → Nat} (hpr : Valued pr val) (hrank : Ranked pr rank)
    (hs : Reachable (system pr) s) :
    (∀ acts s', (system pr).run s acts = some s' → acts.length ≤ weight pr s) ∧
      ∃ acts s', (system pr).run s acts = some s' ∧ ∀ i, (s'.proc i).complete := by
  constructor
  · intro acts s' hrun
    have hle := run_length_le (fun _ _ _ _ _ => weight_next) hs hrun
    omega
  · obtain ⟨acts, s', hrun, hstuck⟩ := runs_until_stuck (fun _ _ _ _ _ => weight_next) hs
    exact ⟨acts, s', hrun, complete_of_stuck hpr hrank (reachable_of_run hs acts hrun) hstuck⟩

end Termination

end HabaneroUpc.Dataflow
