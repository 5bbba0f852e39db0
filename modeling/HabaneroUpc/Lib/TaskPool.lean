import Mathlib.Algebra.BigOperators.Group.Multiset.Basic
import Mathlib.Algebra.BigOperators.Ring.Finset
import Mathlib.Algebra.Order.BigOperators.Group.Multiset

namespace HabaneroUpc.TaskPool

/-- Tasks that may run on any of the places in any order, and what has been
executed so far, with the place that did it. -/
structure Pool (ι T E : Type*) where
  tasks : Multiset T
  done : Multiset (ι × E)

variable {ι T E : Type*}

inductive Step (run : T → Option (List T × List E)) : Pool ι T E → Pool ι T E → Prop
  | step {t rest done spawned out} (p : ι) (h : run t = some (spawned, out)) :
      Step run ⟨t ::ₘ rest, done⟩ ⟨(spawned : Multiset T) + rest, (out.map fun e => (p, e)) + done⟩

inductive Runs (run : T → Option (List T × List E)) : Nat → Pool ι T E → Pool ι T E → Prop
  | refl (P) : Runs run 0 P P
  | step {k P Q R} (h : Runs run k P Q) (hs : Step run Q R) : Runs run (k + 1) P R

variable {run : T → Option (List T × List E)} {P Q R : Pool ι T E} {k : Nat}

namespace Runs

/-- What every task hands on to the tasks it spawns holds of all tasks. -/
theorem invariant {I : T → Prop}
    (hI : ∀ t spawned out, I t → run t = some (spawned, out) → ∀ u ∈ spawned, I u)
    (h : Runs run k P Q) (hP : ∀ t ∈ P.tasks, I t) : ∀ t ∈ Q.tasks, I t := by
  induction h with
  | refl P => exact hP
  | step _ hs ih =>
      obtain ⟨p, hrun⟩ := hs
      have ih := ih hP
      intro u hu
      rcases Multiset.mem_add.mp hu with hu | hu
      · exact hI _ _ _ (ih _ (Multiset.mem_cons_self _ _)) hrun u (Multiset.mem_coe.mp hu)
      · exact ih u (Multiset.mem_cons_of_mem hu)

/-- When every task outweighs what it spawns, the weight bounds the steps. -/
theorem bounded {w : T → Nat}
    (hw : ∀ t spawned out, run t = some (spawned, out) → (spawned.map w).sum + 1 ≤ w t)
    (h : Runs run k P Q) : k + (Q.tasks.map w).sum ≤ (P.tasks.map w).sum := by
  induction h with
  | refl P => omega
  | step _ hs ih =>
      obtain ⟨p, hrun⟩ := hs
      have hstep := hw _ _ _ hrun
      simp only [Multiset.map_add, Multiset.map_coe, Multiset.sum_add, Multiset.sum_coe,
        Multiset.map_cons, Multiset.sum_cons] at ih ⊢
      omega

/-- When every task stands for what it executes and what its spawned tasks
stand for, nothing is lost and nothing is executed twice. -/
theorem conserved {m : T → Multiset E}
    (hm : ∀ t spawned out, run t = some (spawned, out) → (spawned.map m).sum + (out : Multiset E) = m t)
    (h : Runs run k P Q) :
    (Q.tasks.map m).sum + Q.done.map Prod.snd = (P.tasks.map m).sum + P.done.map Prod.snd := by
  induction h with
  | refl P => rfl
  | step _ hs ih =>
      obtain ⟨p, hrun⟩ := hs
      rw [← ih]
      simp only [Multiset.map_add, Multiset.map_coe, Multiset.sum_add, Multiset.sum_coe,
        Multiset.map_cons, Multiset.sum_cons, List.map_map, ← hm _ _ _ hrun]
      have hout (out : List E) : out.map (Prod.snd ∘ fun e => (p, e)) = out := by simp [Function.comp_def]
      rw [hout]
      ac_rfl

/-- A pool none of whose tasks can get stuck runs to its end. -/
theorem completes [Nonempty ι] {w : T → Nat}
    (hw : ∀ t spawned out, run t = some (spawned, out) → (spawned.map w).sum + 1 ≤ w t)
    (hsafe : ∀ k Q, Runs run k P Q → ∀ t ∈ Q.tasks, (run t).isSome) :
    ∃ k Q, Runs run k P Q ∧ Q.tasks = 0 := by
  have hrun (j : Nat) : (∃ Q, Runs run j P Q) ∨ ∃ k Q, Runs run k P Q ∧ Q.tasks = 0 := by
    induction j with
    | zero => exact .inl ⟨P, .refl P⟩
    | succ j ih =>
        obtain ⟨⟨tasks, done⟩, hQ⟩ | hended := ih
        · by_cases htasks : tasks = 0
          · exact .inr ⟨j, _, hQ, htasks⟩
          · obtain ⟨t, ht⟩ := Multiset.exists_mem_of_ne_zero htasks
            obtain ⟨rest, rfl⟩ := Multiset.exists_cons_of_mem ht
            obtain ⟨⟨spawned, out⟩, hsome⟩ := Option.isSome_iff_exists.mp (hsafe j _ hQ t ht)
            exact .inl ⟨_, .step hQ (.step (Classical.arbitrary ι) hsome)⟩
        · exact .inr hended
  rcases hrun ((P.tasks.map w).sum + 1) with ⟨Q, hQ⟩ | hended
  · have hle := bounded hw hQ
    omega
  · exact hended

end Runs

end HabaneroUpc.TaskPool
