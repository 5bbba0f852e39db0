import HabaneroUpc.Lib.Rearrange
import HabaneroUpc.Lib.Tally
import Mathlib.Data.Multiset.AddSub
import Mathlib.Algebra.Order.BigOperators.Group.Multiset

namespace HabaneroUpc.ForkJoin

open Interleaving Rearrange

structure Segment where
  left : Int
  right : Int
  deriving DecidableEq

def Segment.Has (t : Segment) (k : Int) : Prop := t.left ≤ k ∧ k ≤ t.right

instance (t : Segment) (k : Int) : Decidable (t.Has k) := inferInstanceAs (Decidable (_ ∧ _))

variable {ι α : Type*}

abbrev Worker (α : Type*) := Option (Segment × (Int → α))

structure Memory (α : Type*) where
  data : Int → α
  tasks : Multiset Segment

inductive Act
  | take (t : Segment)
  | finish

abbrev Body (α : Type*) := Segment → (Int → α) → Option ((Int → α) × List Segment)

def write (t : Segment) (new old : Int → α) : Int → α := fun k => if t.Has k then new k else old k

/-- A worker reads the segment of a task when it takes it and has written it when
it is finished; the others go on in between. -/
def act (body : Body α) (a : Act) (w : Worker α) (m : Memory α) : Option (Worker α × Memory α) :=
  match a, w with
  | .take t, none =>
      if t ∈ m.tasks then some (some (t, m.data), { m with tasks := m.tasks.erase t }) else none
  | .finish, some (t, seen) =>
      (body t seen).map fun r => (none, ⟨write t r.1 m.data, m.tasks + (r.2 : Multiset Segment)⟩)
  | _, _ => none

def system (ι : Type*) (body : Body α) (data : Int → α) (t : Segment) :
    System ι Act (Worker α) (Memory α) where
  init := ⟨fun _ => none, ⟨data, {t}⟩⟩
  act _ := act body

/-- A body that only moves values about in its segment, and leaves no two places
of it in the wrong order that it does not leave to one of its parts. -/
structure Divides (r : α → α → Prop) (weight : Segment → Nat) (t : Segment) (data data' : Int → α)
    (parts : List Segment) : Prop where
  moved : Rearranged t.left t.right data data'
  inside : ∀ p ∈ parts, t.left ≤ p.left ∧ p.right ≤ t.right ∧ p.left ≤ p.right + 1
  apart : ∀ k, parts.countP (·.Has k) ≤ 1
  ordered : ∀ a b, t.left ≤ a → a < b → b ≤ t.right →
    r (data' a) (data' b) ∨ ∃ p ∈ parts, p.left ≤ a ∧ b ≤ p.right
  shorter : (parts.map weight).sum + 2 ≤ weight t

def Worker.segments : Worker α → Multiset Segment
  | none => 0
  | some (t, _) => {t}

@[simp] theorem segments_none : Worker.segments (none : Worker α) = 0 := rfl

@[simp] theorem segments_some (t : Segment) (seen : Int → α) :
    Worker.segments (some (t, seen)) = {t} := rfl

section Live

variable [Fintype ι]

def live (s : Global ι (Worker α) (Memory α)) : Multiset Segment :=
  s.shared.tasks + Tally.total (fun _ w => Worker.segments w) s.proc

structure Inv (r : α → α → Prop) (t₀ : Segment) (data₀ : Int → α)
    (s : Global ι (Worker α) (Memory α)) : Prop where
  moved : Rearranged t₀.left t₀.right data₀ s.shared.data
  inside : ∀ t ∈ live s, t₀.left ≤ t.left ∧ t.right ≤ t₀.right ∧ t.left ≤ t.right + 1
  apart : ∀ k, (live s).countP (·.Has k) ≤ 1
  ordered : ∀ a b, t₀.left ≤ a → a < b → b ≤ t₀.right →
    r (s.shared.data a) (s.shared.data b) ∨ ∃ t ∈ live s, t.left ≤ a ∧ b ≤ t.right
  seen : ∀ i t seen, s.proc i = some (t, seen) → ∀ k, t.Has k → seen k = s.shared.data k

theorem segments_le_live (s : Global ι (Worker α) (Memory α)) (i : ι) :
    (s.proc i).segments ≤ live s :=
  (Tally.le_total (fun _ w => Worker.segments w) s.proc i).trans (Multiset.le_add_left _ _)

theorem mem_live {s : Global ι (Worker α) (Memory α)} {i : ι} {t : Segment} {seen : Int → α}
    (hi : s.proc i = some (t, seen)) : t ∈ live s := by
  refine Multiset.mem_of_le (segments_le_live s i) ?_
  rw [hi]
  exact Multiset.mem_singleton_self t

end Live

section Write

variable {t : Segment} {data data' seen : Int → α}

theorem write_of_has {k : Int} (hk : t.Has k) : write t data' data k = data' k := if_pos hk

theorem write_of_not_has {k : Int} (hk : ¬t.Has k) : write t data' data k = data k := if_neg hk

/-- What has been moved about in the segment that was read is moved about in the
array when it is written. -/
theorem write_rearranged (hmoved : Rearranged t.left t.right seen data')
    (hseen : ∀ k, t.Has k → seen k = data k) :
    Rearranged t.left t.right data (write t data' data) := by
  obtain ⟨σ, hσ, rfl⟩ := hmoved
  refine ⟨σ, hσ, ?_⟩
  funext k
  by_cases hk : t.Has k
  · rw [write_of_has hk]
    exact hseen _ (stays_inside hσ hk)
  · have hout : k < t.left ∨ t.right < k := by
      rw [Segment.Has] at hk
      omega
    rw [write_of_not_has hk, Function.comp_apply, hσ k hout]

end Write

section Steps

variable [Fintype ι] [DecidableEq ι] {r : α → α → Prop} {weight : Segment → Nat} {body : Body α}
  {t₀ t : Segment} {data₀ seen data' : Int → α} {parts : List Segment}
  {s : Global ι (Worker α) (Memory α)} {i : ι}

theorem live_take (hi : s.proc i = none) (ht : t ∈ s.shared.tasks) (seen : Int → α) :
    live (s.set i (some (t, seen), { s.shared with tasks := s.shared.tasks.erase t })) = live s := by
  have htotal := Tally.total_update (fun _ w => Worker.segments w) s.proc i (some (t, seen))
  rw [hi, segments_none, segments_some, add_zero] at htotal
  change s.shared.tasks.erase t + Tally.total _ (Function.update s.proc i _) = _
  rw [htotal, live]
  conv_rhs => rw [← Multiset.cons_erase ht, ← Multiset.singleton_add]
  ac_rfl

theorem live_finish (hi : s.proc i = some (t, seen)) (data : Int → α) (parts : List Segment) : ∃ rest,
    live s = t ::ₘ rest ∧
      live (s.set i (none, ⟨data, s.shared.tasks + (parts : Multiset Segment)⟩)) = parts + rest ∧
      ∀ j, j ≠ i → (s.proc j).segments ≤ rest := by
  have htotal := Tally.total_update (fun _ w => Worker.segments w) s.proc i none
  rw [hi, segments_none, segments_some, add_zero] at htotal
  refine ⟨s.shared.tasks +
    Tally.total (fun _ w => Worker.segments w) (Function.update s.proc i none), ?_, ?_, ?_⟩
  · rw [live, ← Multiset.singleton_add, ← htotal]
    ac_rfl
  · change s.shared.tasks + (parts : Multiset Segment) + Tally.total _ (Function.update s.proc i none) = _
    ac_rfl
  · intro j hj
    have hle := Tally.le_total (fun _ w => Worker.segments w) (Function.update s.proc i none) j
    rw [Function.update_of_ne hj] at hle
    exact hle.trans (Multiset.le_add_left _ _)

theorem not_has_of_apart {rest : Multiset Segment} {k : Int} {p : Segment}
    (hapart : (t ::ₘ rest).countP (·.Has k) ≤ 1) (ht : t.Has k) (hp : p ∈ rest) : ¬p.Has k := by
  intro hk
  rw [Multiset.countP_cons_of_pos rest (p := fun p => p.Has k) ht] at hapart
  have hpos : 0 < rest.countP fun p => p.Has k := Multiset.countP_pos.mpr ⟨p, hp, hk⟩
  omega

/-- Moving the values of one segment about does not change the order in which
they stand to what is outside of it. -/
theorem ordered_finish {data data₁ : Int → α} {rest : Multiset Segment} {l u : Int}
    (hold : ∀ a b, l ≤ a → a < b → b ≤ u →
      r (data a) (data b) ∨ ∃ p ∈ t ::ₘ rest, p.left ≤ a ∧ b ≤ p.right)
    (hbounds : l ≤ t.left ∧ t.right ≤ u) (hmoved : Rearranged t.left t.right data data₁)
    (hapart : ∀ k, t.Has k → ∀ p ∈ rest, ¬p.Has k)
    (hnew : ∀ a b, t.left ≤ a → a < b → b ≤ t.right →
      r (data₁ a) (data₁ b) ∨ ∃ p ∈ parts, p.left ≤ a ∧ b ≤ p.right) :
    ∀ a b, l ≤ a → a < b → b ≤ u → r (data₁ a) (data₁ b) ∨
      ∃ p ∈ (parts : Multiset Segment) + rest, p.left ≤ a ∧ b ≤ p.right := by
  obtain ⟨σ, hσ, rfl⟩ := hmoved
  -- an old obligation between two places that are not both in the segment
  have hcross (a b a' b' : Int) (hla : l ≤ a') (hab : a' < b') (hbu : b' ≤ u)
      (hout : ¬(t.left ≤ a' ∧ b' ≤ t.right)) (ha : data (σ a) = data a')
      (hb : data (σ b) = data b') (hin : t.Has a' ∨ t.Has b' ∨ (a' = a ∧ b' = b)) :
      r (data (σ a)) (data (σ b)) ∨
        ∃ p ∈ (parts : Multiset Segment) + rest, p.left ≤ a ∧ b ≤ p.right := by
    rw [ha, hb]
    refine (hold a' b' hla hab hbu).imp_right ?_
    rintro ⟨p, hp, hpa, hpb⟩
    rcases Multiset.mem_cons.mp hp with rfl | hp
    · exact absurd ⟨hpa, hpb⟩ hout
    · rcases hin with hta | htb | ⟨rfl, rfl⟩
      · exact absurd ⟨hpa, by omega⟩ (hapart a' hta p hp)
      · exact absurd ⟨by omega, hpb⟩ (hapart b' htb p hp)
      · exact ⟨p, Multiset.mem_add.mpr (.inr hp), hpa, hpb⟩
  intro a b ha hab hb
  by_cases hta : t.Has a
  · have hσa := stays_inside hσ hta
    by_cases htb : t.Has b
    · refine (hnew a b hta.1 hab htb.2).imp_right ?_
      rintro ⟨p, hp, hpab⟩
      exact ⟨p, Multiset.mem_add.mpr (.inl (Multiset.mem_coe.mpr hp)), hpab⟩
    · rw [Segment.Has] at hta htb
      exact hcross a b (σ a) b (by omega) (by omega) hb (by omega) rfl
        (congrArg data (hσ b (by omega))) (.inl hσa)
  · rw [Segment.Has] at hta
    by_cases htb : t.Has b
    · have hσb := stays_inside hσ htb
      rw [Segment.Has] at htb
      exact hcross a b a (σ b) ha (by omega) (by omega) (by omega)
        (congrArg data (hσ a (by omega))) rfl (.inr (.inl hσb))
    · rw [Segment.Has] at htb
      exact hcross a b a b ha hab hb (by omega) (congrArg data (hσ a (by omega)))
        (congrArg data (hσ b (by omega))) (.inr (.inr ⟨rfl, rfl⟩))

theorem Inv.take (hs : Inv r t₀ data₀ s) (hi : s.proc i = none) (ht : t ∈ s.shared.tasks) :
    Inv r t₀ data₀ (s.set i (some (t, s.shared.data),
      { s.shared with tasks := s.shared.tasks.erase t })) := by
  have hlive := live_take hi ht s.shared.data
  refine ⟨hs.moved, ?_, ?_, ?_, ?_⟩
  · rw [hlive]
    exact hs.inside
  · rw [hlive]
    exact hs.apart
  · rw [hlive]
    exact hs.ordered
  · intro j u seen hj k hk
    by_cases hji : j = i
    · subst j
      rw [set_proc_self] at hj
      cases hj
      rfl
    · rw [set_proc_of_ne _ _ hji] at hj
      exact hs.seen j u seen hj k hk

theorem Inv.finish (hs : Inv r t₀ data₀ s) (hi : s.proc i = some (t, seen))
    (hbody : Divides r weight t seen data' parts) :
    Inv r t₀ data₀ (s.set i (none,
      ⟨write t data' s.shared.data, s.shared.tasks + (parts : Multiset Segment)⟩)) := by
  obtain ⟨rest, hlive, hlive', hothers⟩ := live_finish hi (write t data' s.shared.data) parts
  have hmem := mem_live hi
  have hbounds := hs.inside t hmem
  have hwrite := write_rearranged hbody.moved (hs.seen i t seen hi)
  have hapart (k : Int) (hk : t.Has k) (p : Segment) (hp : p ∈ rest) : ¬p.Has k :=
    not_has_of_apart (hlive ▸ hs.apart k) hk hp
  have hpartsIn (p : Segment) (hp : p ∈ parts) (k : Int) (hk : p.Has k) : t.Has k := by
    have hin := hbody.inside p hp
    rw [Segment.Has] at hk ⊢
    omega
  refine ⟨?_, ?_, ?_, ?_, ?_⟩
  · exact hs.moved.trans (hwrite.mono hbounds.1 hbounds.2.1)
  · rw [hlive']
    intro p hp
    rcases Multiset.mem_add.mp hp with hp | hp
    · have hin := hbody.inside p hp
      omega
    · exact hs.inside p (hlive ▸ Multiset.mem_cons_of_mem hp)
  · intro k
    have hold := hs.apart k
    rw [hlive, Multiset.countP_cons] at hold
    rw [hlive', Multiset.countP_add, Multiset.coe_countP]
    by_cases hk : t.Has k
    · rw [if_pos hk] at hold
      have hone := hbody.apart k
      omega
    · have hnone : parts.countP (·.Has k) = 0 := by
        rw [List.countP_eq_zero]
        exact fun p hp => by simpa using fun h => hk (hpartsIn p hp k h)
      omega
  · rw [hlive']
    refine ordered_finish (fun a b ha hab hb => ?_) ⟨hbounds.1, hbounds.2.1⟩ hwrite hapart fun a b ha hab hb => ?_
    · rw [← hlive]
      exact hs.ordered a b ha hab hb
    · simp only [set_shared, write_of_has (t := t) ⟨ha, show a ≤ t.right by omega⟩,
        write_of_has (t := t) ⟨show t.left ≤ b by omega, hb⟩]
      exact hbody.ordered a b ha hab hb
  · intro j u seen' hj k hk
    have hji : j ≠ i := by
      rintro rfl
      rw [set_proc_self] at hj
      cases hj
    rw [set_proc_of_ne _ _ hji] at hj
    have hu : u ∈ rest := by
      refine Multiset.mem_of_le (hothers j hji) ?_
      rw [hj, segments_some]
      exact Multiset.mem_singleton_self u
    have hout : ¬t.Has k := fun htk => hapart k htk u hu hk
    rw [hs.seen j u seen' hj k hk]
    exact (write_of_not_has hout).symm

end Steps

section Runs

variable [Fintype ι] [DecidableEq ι] {r : α → α → Prop} {weight : Segment → Nat} {body : Body α}
  {t₀ : Segment} {data₀ : Int → α} {s : Global ι (Worker α) (Memory α)}

def DividesBelow (r : α → α → Prop) (weight : Segment → Nat) (body : Body α) (t₀ : Segment) : Prop :=
  ∀ t data data' parts, t₀.left ≤ t.left → t.right ≤ t₀.right → body t data = some (data', parts) →
    Divides r weight t data data' parts

def TotalBelow (body : Body α) (t₀ : Segment) : Prop :=
  ∀ t data, t₀.left ≤ t.left → t.right ≤ t₀.right → t.left ≤ t.right + 1 →
    ∃ data' parts, body t data = some (data', parts)

theorem inv_reachable (hbody : DividesBelow r weight body t₀) (hle : t₀.left ≤ t₀.right + 1)
    (hs : Reachable (system ι body data₀ t₀) s) : Inv r t₀ data₀ s := by
  have hlive : live (system ι body data₀ t₀).init = {t₀} := by
    simp [live, system, Tally.total]
  have hinit : Inv r t₀ data₀ (system ι body data₀ t₀).init := by
    refine ⟨refl _ _ _, ?_, ?_, ?_, ?_⟩
    · simpa [hlive] using hle
    · intro k
      rw [hlive]
      exact Multiset.countP_le_card (fun p : Segment => p.Has k) {t₀}
    · intro a b ha _ hb
      exact .inr ⟨t₀, by simp [hlive], ha, hb⟩
    · intro i t seen hi
      cases hi
  refine hs.invariant hinit ?_
  intro s i a w m _ _ hI ha
  change act body a (s.proc i) s.shared = _ at ha
  unfold act at ha
  split at ha
  · rename_i t hi
    simp only [Option.ite_none_right_eq_some] at ha
    obtain ⟨ht, ha⟩ := ha
    cases ha
    exact hI.take hi ht
  · rename_i t seen hi
    have hbounds := hI.inside t (mem_live hi)
    obtain ⟨⟨data', parts⟩, hrun, heq⟩ := Option.map_eq_some_iff.mp ha
    cases heq
    exact hI.finish hi (hbody t seen data' parts hbounds.1 hbounds.2.1 hrun)
  · cases ha

/-- Two tasks that run at the same time have no place in common. -/
theorem apart_of_running (hbody : DividesBelow r weight body t₀) (hle : t₀.left ≤ t₀.right + 1)
    (hs : Reachable (system ι body data₀ t₀) s) {i j : ι} (hij : i ≠ j) {t u : Segment}
    {seen seen' : Int → α} (hi : s.proc i = some (t, seen)) (hj : s.proc j = some (u, seen')) (k : Int) :
    ¬(t.Has k ∧ u.Has k) := by
  rintro ⟨ht, hu⟩
  obtain ⟨rest, hlive, -, hothers⟩ := live_finish hi s.shared.data []
  have hmem : u ∈ rest := by
    refine Multiset.mem_of_le (hothers j hij.symm) ?_
    rw [hj, segments_some]
    exact Multiset.mem_singleton_self u
  exact not_has_of_apart (hlive ▸ (inv_reachable hbody hle hs).apart k) ht hmem hu

def complete (s : Global ι (Worker α) (Memory α)) : Prop :=
  s.shared.tasks = 0 ∧ ∀ i, s.proc i = none

theorem complete_spec (hbody : DividesBelow r weight body t₀) (hle : t₀.left ≤ t₀.right + 1)
    (hs : Reachable (system ι body data₀ t₀) s) (hend : complete s) :
    Rearranged t₀.left t₀.right data₀ s.shared.data ∧
      ∀ a b, t₀.left ≤ a → a < b → b ≤ t₀.right → r (s.shared.data a) (s.shared.data b) := by
  have hinv := inv_reachable hbody hle hs
  have hlive : live s = 0 := by
    simp [live, Tally.total, hend.1, hend.2]
  refine ⟨hinv.moved, fun a b ha hab hb => (hinv.ordered a b ha hab hb).resolve_right ?_⟩
  rintro ⟨t, ht, -⟩
  rw [hlive] at ht
  exact Multiset.notMem_zero t ht

def Worker.measure (weight : Segment → Nat) : Worker α → Nat
  | none => 0
  | some (t, _) => weight t - 1

def measure (weight : Segment → Nat) (s : Global ι (Worker α) (Memory α)) : Nat :=
  (s.shared.tasks.map weight).sum + Tally.total (fun _ w => Worker.measure weight w) s.proc

section

variable (hbody : DividesBelow r weight body t₀) (htotal : TotalBelow body t₀)
  (hle : t₀.left ≤ t₀.right + 1)
include hbody htotal hle

theorem measure_next {s' : Global ι (Worker α) (Memory α)} {i : ι} {a : Act} (hs : Reachable (system ι body data₀ t₀) s)
    (h : (system ι body data₀ t₀).next s i a = some s') : measure weight s' < measure weight s := by
  obtain ⟨w, m, ha, rfl⟩ := next_eq_some.mp h
  have hinv := inv_reachable hbody hle hs
  have hmeasure := Tally.total_update (fun _ w => Worker.measure weight w) s.proc i w
  change (m.tasks.map weight).sum +
    Tally.total (fun _ w => Worker.measure weight w) (Function.update s.proc i w) < _
  rw [measure]
  change act body a (s.proc i) s.shared = _ at ha
  unfold act at ha
  split at ha
  · rename_i t hi
    simp only [Option.ite_none_right_eq_some] at ha
    obtain ⟨ht, ha⟩ := ha
    have hbounds := hinv.inside t (Multiset.mem_add.mpr (.inl ht))
    obtain ⟨data', parts, hrun⟩ := htotal t s.shared.data hbounds.1 hbounds.2.1 hbounds.2.2
    have hshorter := (hbody t _ data' parts hbounds.1 hbounds.2.1 hrun).shorter
    have hsum : (s.shared.tasks.map weight).sum =
        weight t + ((s.shared.tasks.erase t).map weight).sum := by
      conv_lhs => rw [← Multiset.cons_erase ht, Multiset.map_cons, Multiset.sum_cons]
    cases ha
    rw [hi] at hmeasure
    simp only [Worker.measure] at hmeasure ⊢
    omega
  · rename_i t seen hi
    have hbounds := hinv.inside t (mem_live hi)
    obtain ⟨⟨data', parts⟩, hrun, heq⟩ := Option.map_eq_some_iff.mp ha
    have hshorter := (hbody t seen data' parts hbounds.1 hbounds.2.1 hrun).shorter
    cases heq
    rw [hi] at hmeasure
    rw [Multiset.map_add, Multiset.sum_add, Multiset.map_coe, Multiset.sum_coe]
    simp only [Worker.measure] at hmeasure ⊢
    omega
  · cases ha

theorem complete_of_stuck [Nonempty ι] (hs : Reachable (system ι body data₀ t₀) s)
    (hstuck : ∀ i a, (system ι body data₀ t₀).next s i a = none) : complete s := by
  have hinv := inv_reachable hbody hle hs
  have hact (i : ι) (a : Act) : act body a (s.proc i) s.shared = none := by
    simpa [System.next, system] using hstuck i a
  have hidle (i : ι) : s.proc i = none := by
    by_contra hi
    obtain ⟨⟨t, seen⟩, hi⟩ := Option.ne_none_iff_exists'.mp hi
    have hbounds := hinv.inside t (mem_live hi)
    obtain ⟨data', parts, hrun⟩ := htotal t seen hbounds.1 hbounds.2.1 hbounds.2.2
    have hnone := hact i .finish
    simp [act, hi, hrun] at hnone
  refine ⟨Multiset.eq_zero_of_forall_notMem fun t ht => ?_, hidle⟩
  obtain ⟨i⟩ := ‹Nonempty ι›
  have hnone := hact i (.take t)
  simp [act, hidle i, ht] at hnone

/-- Every run ends, with all tasks done. -/
theorem completes [Nonempty ι] (hs : Reachable (system ι body data₀ t₀) s) :
    (∀ acts s', (system ι body data₀ t₀).run s acts = some s' → acts.length ≤ measure weight s) ∧
      ∃ acts s', (system ι body data₀ t₀).run s acts = some s' ∧ complete s' := by
  constructor
  · intro acts s' hrun
    have hlength := run_length_le (fun _ _ _ _ => measure_next hbody htotal hle) hs hrun
    omega
  · obtain ⟨acts, s', hrun, hstuck⟩ :=
      runs_until_stuck (fun _ _ _ _ => measure_next hbody htotal hle) hs
    exact ⟨acts, s', hrun, complete_of_stuck hbody htotal hle (reachable_of_run hs acts hrun) hstuck⟩

end

end Runs

end HabaneroUpc.ForkJoin
