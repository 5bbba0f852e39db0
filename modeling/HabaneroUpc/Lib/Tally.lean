import HabaneroUpc.Lib.Interleaving
import Mathlib.Algebra.BigOperators.Group.Finset.Basic
import Mathlib.Algebra.BigOperators.Ring.Finset
import Mathlib.Algebra.BigOperators.Ring.List
import Mathlib.Algebra.Order.BigOperators.Group.Finset

namespace HabaneroUpc.Tally

open Interleaving

variable {ι A L G M : Type*} [Fintype ι] [DecidableEq ι] [AddCommMonoid M]

def total (f : ι → L → M) (procs : ι → L) : M := ∑ i, f i (procs i)

theorem sum_update_of_mem {κ : Type*} [DecidableEq κ] {β : κ → Type*} (f : (k : κ) → β k → M)
    (h : (k : κ) → β k) {k : κ} (x : β k) {S : Finset κ} (hk : k ∈ S) :
    ∑ k' ∈ S, f k' (Function.update h k x k') + f k (h k) = ∑ k' ∈ S, f k' (h k') + f k x := by
  have hne (k' : κ) (hk' : k' ∈ S.erase k) : f k' (Function.update h k x k') = f k' (h k') := by
    rw [Function.update_of_ne (Finset.ne_of_mem_erase hk')]
  rw [← Finset.add_sum_erase S _ hk, ← Finset.add_sum_erase S (fun k' => f k' (h k')) hk,
    Finset.sum_congr rfl hne, Function.update_self]
  ac_rfl

theorem total_update (f : ι → L → M) (procs : ι → L) (i : ι) (l : L) :
    total f (Function.update procs i l) + f i (procs i) = total f procs + f i l :=
  sum_update_of_mem f procs l (Finset.mem_univ i)

omit [DecidableEq ι] in
theorem total_add (f f' : ι → L → M) (procs : ι → L) :
    total (fun i l => f i l + f' i l) procs = total f procs + total f' procs :=
  Finset.sum_add_distrib

omit [DecidableEq ι] in
theorem total_sub {M : Type*} [AddCommGroup M] (f f' : ι → L → M) (procs : ι → L) :
    total (fun i l => f i l - f' i l) procs = total f procs - total f' procs :=
  Finset.sum_sub_distrib ..

omit [DecidableEq ι] in
theorem total_cast (f : ι → L → Nat) (procs : ι → L) :
    total (fun i l => (f i l : Int)) procs = (total f procs : Nat) :=
  (Nat.cast_sum ..).symm

omit [DecidableEq ι] in
theorem le_total {M : Type*} [AddCommMonoid M] [PartialOrder M] [CanonicallyOrderedAdd M]
    [IsOrderedAddMonoid M] (f : ι → L → M) (procs : ι → L) (i : ι) :
    f i (procs i) ≤ total f procs :=
  Finset.single_le_sum (f := fun j => f j (procs j)) (fun _ _ => zero_le) (Finset.mem_univ i)

theorem countP_erase_of_not {α : Type*} [BEq α] [LawfulBEq α] {f : α → Bool} {a : α}
    (ha : ¬f a = true) (l : List α) : (l.erase a).countP f = l.countP f := by
  rw [List.countP_erase, if_neg fun h => ha h.2, Nat.sub_zero]

/-- A conservation law: when every action changes what is shared by as much as
it changes the share of the process that acts, the difference never changes. -/
theorem conserved {M : Type*} [AddCommGroup M] {S : System ι A L G}
    {ok : Global ι L G → ι → A → Prop}
    (w : G → M) (f : ι → L → M) (hinit : w S.init.shared = total f S.init.proc)
    (hstep : ∀ s i a l g, ReachableWhen S ok s → ok s i a → w s.shared = total f s.proc →
      S.act i a (s.proc i) s.shared = some (l, g) → w g - f i l = w s.shared - f i (s.proc i))
    {s : Global ι L G} (h : ReachableWhen S ok s) : w s.shared = total f s.proc := by
  refine h.invariant (I := fun s => w s.shared = total f s.proc) hinit ?_
  intro s i a l g hs hok hI ha
  have hl := hstep s i a l g hs hok hI ha
  have hu := total_update f s.proc i l
  calc w g = w s.shared - f i (s.proc i) + f i l := sub_eq_iff_eq_add.mp hl
    _ = total f s.proc + f i l - f i (s.proc i) := by rw [hI, sub_add_eq_add_sub]
    _ = total f (Function.update s.proc i l) := by rw [← hu, add_sub_cancel_right]

/-- When every action gives to what is shared as much as it takes from the share
of the process that acts, all together stays the same. -/
theorem constant {M : Type*} [AddCommMonoid M] [IsCancelAdd M] {S : System ι A L G}
    {ok : Global ι L G → ι → A → Prop} (w : G → M) (f : ι → L → M)
    (hstep : ∀ s i a l g, ReachableWhen S ok s → ok s i a →
      S.act i a (s.proc i) s.shared = some (l, g) → w g + f i l = w s.shared + f i (s.proc i))
    {s : Global ι L G} (h : ReachableWhen S ok s) :
    w s.shared + total f s.proc = w S.init.shared + total f S.init.proc := by
  refine h.invariant (I := fun s => w s.shared + total f s.proc = _) rfl ?_
  intro s i a l g hs hok hI ha
  have hu := total_update f s.proc i l
  rw [← hI]
  refine add_right_cancel (b := f i (s.proc i)) ?_
  calc w g + total f (Function.update s.proc i l) + f i (s.proc i)
      = w g + f i l + total f s.proc := by rw [add_assoc, hu]; ac_rfl
    _ = w s.shared + total f s.proc + f i (s.proc i) := by
        rw [hstep s i a l g hs hok ha]; ac_rfl

end HabaneroUpc.Tally
