import HabaneroUpc.Lib.Loops
import Mathlib.Logic.Equiv.Basic
import Mathlib.Algebra.Group.End
import Mathlib.Data.List.Perm.Subperm

namespace HabaneroUpc.Rearrange

variable {α β : Type*} {f g h : Int → α} {l r l' r' : Int}

/-- g holds the values of f, moved about between l and r only. -/
def Rearranged (l r : Int) (f g : Int → α) : Prop :=
  ∃ σ : Equiv.Perm Int, (∀ k, k < l ∨ r < k → σ k = k) ∧ g = f ∘ σ

theorem refl (l r : Int) (f : Int → α) : Rearranged l r f f := ⟨1, fun _ _ => rfl, rfl⟩

theorem Rearranged.trans (hfg : Rearranged l r f g) (hgh : Rearranged l r g h) :
    Rearranged l r f h := by
  obtain ⟨σ, hσ, rfl⟩ := hfg
  obtain ⟨τ, hτ, rfl⟩ := hgh
  refine ⟨σ * τ, ?_, rfl⟩
  intro k hk
  rw [Equiv.Perm.mul_apply, hτ k hk, hσ k hk]

theorem Rearranged.mono (hfg : Rearranged l r f g) (hl : l' ≤ l) (hr : r ≤ r') :
    Rearranged l' r' f g := by
  obtain ⟨σ, hσ, rfl⟩ := hfg
  exact ⟨σ, fun k hk => hσ k (by omega), rfl⟩

theorem Rearranged.outside (hfg : Rearranged l r f g) {k : Int} (hk : k < l ∨ r < k) :
    g k = f k := by
  obtain ⟨σ, hσ, rfl⟩ := hfg
  exact congrArg f (hσ k hk)

theorem swap_rearranged {i j : Int} (hi : l ≤ i ∧ i ≤ r) (hj : l ≤ j ∧ j ≤ r) :
    Rearranged l r f (f ∘ Equiv.swap i j) := by
  refine ⟨Equiv.swap i j, ?_, rfl⟩
  intro k hk
  apply Equiv.swap_apply_of_ne_of_ne <;> omega

theorem stays_inside {σ : Equiv.Perm Int} (hσ : ∀ k, k < l ∨ r < k → σ k = k) {k : Int}
    (hk : l ≤ k ∧ k ≤ r) : l ≤ σ k ∧ σ k ≤ r := by
  by_contra hout
  have hfix : σ (σ k) = σ k := hσ _ (by omega)
  have hself : σ k = k := σ.injective hfix
  omega

/-- What all values between l and r satisfy is not lost. -/
theorem Rearranged.forall_inside {p : α → Prop} (hfg : Rearranged l r f g)
    (hp : ∀ k, l ≤ k → k ≤ r → p (f k)) : ∀ k, l ≤ k → k ≤ r → p (g k) := by
  obtain ⟨σ, hσ, rfl⟩ := hfg
  intro k hl hr
  obtain ⟨hl', hr'⟩ := stays_inside hσ ⟨hl, hr⟩
  exact hp _ hl' hr'

theorem Rearranged.perm (hfg : Rearranged l r f g) :
    ((Int.range l (r + 1)).map g).Perm ((Int.range l (r + 1)).map f) := by
  obtain ⟨σ, hσ, rfl⟩ := hfg
  rw [← List.map_map]
  apply List.Perm.map
  have hinside : ∀ k, k ∈ Int.range l (r + 1) → σ k ∈ Int.range l (r + 1) := by
    intro k hk
    rw [Int.mem_range_iff] at hk ⊢
    have h := stays_inside hσ (k := k) (by omega)
    omega
  have hsub : (Int.range l (r + 1)).map σ ⊆ Int.range l (r + 1) := by
    intro k hk
    obtain ⟨j, hj, rfl⟩ := List.mem_map.mp hk
    exact hinside j hj
  have hnodup : ((Int.range l (r + 1)).map σ).Nodup := Loops.range_nodup.map σ.injective
  exact (List.subperm_of_subset hnodup hsub).perm_of_length_le (by rw [List.length_map])

/-- Conversely, an array with the same values between l and r, in any order, has
been moved about there. -/
theorem rearranged_of_perm (hout : ∀ k, k < l ∨ r < k → g k = f k)
    (hperm : ((Int.range l (r + 1)).map g).Perm ((Int.range l (r + 1)).map f)) :
    Rearranged l r f g := by
  induction hn : (r + 1 - l).toNat generalizing l f with
  | zero =>
      have heq : g = f := funext fun k => hout k (by omega)
      exact heq ▸ refl l r f
  | succ n ih =>
      have hlt : l < r + 1 := by omega
      -- swap the first value into its place
      obtain ⟨k, hk, hkg⟩ : ∃ k ∈ Int.range l (r + 1), f k = g l := by
        refine List.mem_map.mp (hperm.subset ?_)
        exact List.mem_map_of_mem (Int.mem_range_iff.mpr ⟨le_refl l, hlt⟩)
      rw [Int.mem_range_iff] at hk
      have hswap : Rearranged l r f (f ∘ Equiv.swap l k) :=
        swap_rearranged ⟨le_refl l, by omega⟩ ⟨hk.1, by omega⟩
      have hfirst : (f ∘ Equiv.swap l k) l = g l := by
        rw [Function.comp_apply, Equiv.swap_apply_left, hkg]
      refine hswap.trans ((ih (l := l + 1) ?_ ?_ (by omega)).mono (by omega) (le_refl r))
      · intro j hj
        by_cases hjl : j = l
        · rw [hjl, hfirst]
        · rw [hout j (by omega), hswap.outside (by omega)]
      · have hperm' := hperm.trans hswap.perm.symm
        rw [Loops.range_cons hlt, List.map_cons, List.map_cons, hfirst] at hperm'
        exact hperm'.cons_inv

end HabaneroUpc.Rearrange
