import Mathlib.Algebra.BigOperators.Ring.Finset
import Mathlib.Algebra.Order.BigOperators.Group.List
import Mathlib.Algebra.Order.Ring.Nat
import Mathlib.Logic.Relation

namespace HabaneroUpc.Circulant

inductive Hops {V : Type*} (E : V → V → Prop) : Nat → V → V → Prop
  | refl (a : V) : Hops E 0 a a
  | step {h : Nat} {a b c : V} (hw : Hops E h a b) (he : E b c) : Hops E (h + 1) a c

theorem Hops.reaches {V : Type*} {E : V → V → Prop} {h : Nat} {a b : V} (hw : Hops E h a b) :
    Relation.ReflTransGen E a b := by
  induction hw with
  | refl a => exact .refl
  | step _ he ih => exact ih.tail he

variable {n : Nat} {S : Nat → Prop} {a b : Fin n}

/-- An edge of the circulant graph on n places leads some jump further, around
the end. -/
def Jump (n : Nat) (S : Nat → Prop) (a b : Fin n) : Prop := ∃ j, S j ∧ b.val = (j + a.val) % n

/-- A walk is a list of jumps, of which only the sum matters. -/
theorem hops_iff {h : Nat} : Hops (Jump n S) h a b ↔
    ∃ js : List Nat, js.length = h ∧ (∀ j ∈ js, S j) ∧ b.val = (js.sum + a.val) % n := by
  constructor
  · intro hw
    induction hw with
    | refl a => exact ⟨[], rfl, by simp, by simp [Nat.mod_eq_of_lt a.isLt]⟩
    | step _ he ih =>
        obtain ⟨js, hlen, hjs, hb⟩ := ih
        obtain ⟨j, hj, hc⟩ := he
        refine ⟨j :: js, by simp [hlen], List.forall_mem_cons.mpr ⟨hj, hjs⟩, ?_⟩
        rw [hc, hb, List.sum_cons, Nat.add_mod_mod, Nat.add_assoc]
  · rintro ⟨js, rfl, hjs, hb⟩
    induction js generalizing b with
    | nil =>
        have hab : b = a := Fin.ext (by simpa [Nat.mod_eq_of_lt a.isLt] using hb)
        rw [hab]
        exact .refl a
    | cons j js ih =>
        have hn := Fin.pos a
        obtain ⟨hj, hjs⟩ := List.forall_mem_cons.mp hjs
        have hbefore := ih (b := ⟨(js.sum + a.val) % n, Nat.mod_lt _ hn⟩) hjs rfl
        refine .step hbefore ⟨j, hj, ?_⟩
        rw [hb, List.sum_cons, Nat.add_mod_mod, Nat.add_assoc]

theorem exists_distance (a b : Fin n) : ∃ d < n, (d + a.val) % n = b.val := by
  have ha := a.isLt
  have hb := b.isLt
  rcases Nat.le_total a b with hab | hab
  · refine ⟨b - a, by omega, ?_⟩
    rw [Nat.sub_add_cancel hab, Nat.mod_eq_of_lt hb]
  · rcases Nat.eq_or_lt_of_le hab with heq | hlt
    · exact ⟨0, by omega, by rw [heq, Nat.zero_add, Nat.mod_eq_of_lt ha]⟩
    · refine ⟨b + n - a, by omega, ?_⟩
      rw [Nat.sub_add_cancel (by omega), Nat.add_mod_right, Nat.mod_eq_of_lt hb]

theorem hops_of_one (h : S 1) (a b : Fin n) : ∃ d < n, Hops (Jump n S) d a b := by
  obtain ⟨d, hd, hdb⟩ := exists_distance a b
  refine ⟨d, hd, hops_iff.mpr ⟨List.replicate d 1, by simp, ?_, by simp [hdb]⟩⟩
  intro j hj
  rwa [List.eq_of_mem_replicate hj]

theorem hops_of_two (h : S 1) (h' : S 2) (a b : Fin n) : ∃ d ≤ n / 2, Hops (Jump n S) d a b := by
  obtain ⟨d, hd, hdb⟩ := exists_distance a b
  refine ⟨d / 2 + d % 2, by omega, hops_iff.mpr ⟨List.replicate (d / 2) 2 ++ List.replicate (d % 2) 1,
    by simp, ?_, ?_⟩⟩
  · intro j hj
    rcases List.mem_append.mp hj with hj | hj
    · rwa [List.eq_of_mem_replicate hj]
    · rwa [List.eq_of_mem_replicate hj]
  · have hsum : d / 2 * 2 + d % 2 = d := by omega
    simp [hsum, hdb]

theorem Hops.distance_le {h L : Nat} (hS : ∀ j, S j → j ≤ L) (hw : Hops (Jump n S) h a b)
    (hab : a ≤ b) : b.val - a.val ≤ h * L := by
  obtain ⟨js, rfl, hjs, hb⟩ := hops_iff.mp hw
  have hsum : js.sum ≤ js.length * L := by
    simpa using List.sum_le_card_nsmul js L fun j hj => hS j (hjs j hj)
  have hmod := Nat.mod_le (js.sum + a.val) n
  omega

end HabaneroUpc.Circulant
