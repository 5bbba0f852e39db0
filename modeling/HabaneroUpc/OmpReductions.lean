import HabaneroUpc.OmpCollapse
import Mathlib.Algebra.Group.Basic
import Mathlib.Order.MinMax

namespace HabaneroUpc.OmpToHcupc

open ForasyncAny (LoopDomain inInt inInt_iff)
open Loops Reduction

def hcWorkers : Nat := 24

section Pragmas

variable (forasync1D : LoopDomain → List Int)

structure Blocks where
  loop : ForLoop
  ifVar : Int
  seqLimit : Int

namespace Blocks

def Sequential (b : Blocks) : Prop := b.ifVar ≤ 1 ∨ b.loop.highBound ≤ b.seqLimit

instance (b : Blocks) : Decidable b.Sequential := inferInstanceAs (Decidable (_ ∨ _))

def lambdaRuns (b : Blocks) (worker : Int → Nat) (factor : Int) : List (Nat × Int) :=
  (forasync1D (loopT b.loop.lowBound (chunks b.loop.highBound factor))).flatMap fun o =>
    (lambdaBody factor o).map fun i => (worker o, i)

def remainder (b : Blocks) (factor : Int) : List Int :=
  if sizeB b.loop.highBound factor < b.loop.highBound then
    Int.range (sizeB b.loop.highBound factor) b.loop.highBound
  else []

variable {α : Type*}

def plain (op : α → α → α) (b : Blocks) (v : Int → α) (acc : α) : α :=
  b.loop.indices.foldl (fun acc i => op acc (v i)) acc

/-- The three branches for a reduction pragma. No result is a worker without an
element in the array. -/
def reduction (op : α → α → α) (zero : α) (b : Blocks) (worker : Int → Nat) (factor : Int)
    (v : Int → α) (acc : α) : Option α :=
  if b.Sequential then some (b.plain op v acc)
  else do
    let copies ← (b.lambdaRuns forasync1D worker factor).foldlM
      (fun copies c => if c.1 < hcWorkers then some (give op copies (c.1, v c.2)) else none)
      fun _ => zero
    return merge op hcWorkers copies ((b.remainder factor).foldl (fun acc i => op acc (v i)) acc)

def sum [Add α] [Zero α] : Blocks → (Int → Nat) → Int → (Int → α) → α → Option α :=
  reduction forasync1D (· + ·) 0

def larger [LT α] [DecidableLT α] (max x : α) : α := if max < x then x else max

def max [LT α] [DecidableLT α] [Zero α] : Blocks → (Int → Nat) → Int → (Int → α) → α → Option α :=
  reduction forasync1D larger 0

end Blocks

end Pragmas

section Reductions

variable {forasync1D : LoopDomain → List Int} {α : Type*} {op : α → α → α} {zero : α} {b : Blocks}
  {worker : Int → Nat} {factor : Int}

theorem foldlM_copies (runs : List (Nat × Int)) (v : Int → α) (copies : Nat → α) :
    runs.foldlM (fun copies c =>
      if c.1 < hcWorkers then some (give op copies (c.1, v c.2)) else none) copies =
    if ∀ c ∈ runs, c.1 < hcWorkers then
      some ((runs.map fun c => (c.1, v c.2)).foldl (give op) copies)
    else none := by
  induction runs generalizing copies with
  | nil => simp
  | cons c runs ih =>
      rw [List.foldlM_cons]
      by_cases hc : c.1 < hcWorkers
      · simp only [hc, if_true, Option.bind_eq_bind, Option.bind_some, ih, List.forall_mem_cons,
          true_and, List.map_cons, List.foldl_cons]
      · simp [hc]

theorem remainder_eq (b : Blocks) (factor : Int) :
    b.remainder factor = Int.range (sizeB b.loop.highBound factor) b.loop.highBound := by
  rw [Blocks.remainder]
  split
  · rfl
  · rename_i h
    rw [range_eq_nil (not_lt.mp h)]

theorem lambdaRuns_map (b : Blocks) (worker : Int → Nat) (factor : Int) :
    (b.lambdaRuns forasync1D worker factor).map Prod.snd ++ b.remainder factor =
      branch forasync1D b.loop.lowBound b.loop.highBound (chunks b.loop.highBound factor) factor := by
  rw [Blocks.lambdaRuns, List.map_flatMap, branch, remainder_eq, sizeB]
  simp only [List.map_map, Function.comp_def, List.map_id']

/-- With every index in the parallel branch once, the zeros of the array are all
that the reduction adds. -/
theorem reduction_spec [Std.Commutative op] [Std.Associative op]
    (hzero : ∀ x, op (op x zero) zero = op x zero)
    (hindices : (branch forasync1D b.loop.lowBound b.loop.highBound (chunks b.loop.highBound factor)
      factor).Perm b.loop.indices)
    (v : Int → α) (acc : α) :
    b.reduction forasync1D op zero worker factor v acc =
      if b.Sequential then some (b.plain op v acc)
      else if ∀ c ∈ b.lambdaRuns forasync1D worker factor, c.1 < hcWorkers then
        some (op (b.plain op v acc) zero)
      else none := by
  rw [Blocks.reduction, foldlM_copies]
  split
  · rfl
  · split
    · rename_i hworkers
      have hvalues : ((b.remainder factor).map v ++
          (b.lambdaRuns forasync1D worker factor).map fun c => v c.2).Perm (b.loop.indices.map v) := by
        have hmap := hindices.map v
        rw [← lambdaRuns_map b worker, List.map_append, List.map_map] at hmap
        exact List.perm_append_comm.trans hmap
      have hlt : ∀ c ∈ (b.lambdaRuns forasync1D worker factor).map fun c => (c.1, v c.2),
          c.1 < hcWorkers := by
        intro c hc
        obtain ⟨run, hrun, rfl⟩ := List.mem_map.mp hc
        exact hworkers run hrun
      have hplain : b.plain op v acc = (b.loop.indices.map v).foldl op acc := List.foldl_map.symm
      have hremainder : (b.remainder factor).foldl (fun acc i => op acc (v i)) acc =
          ((b.remainder factor).map v).foldl op acc := List.foldl_map.symm
      simp only [Option.bind_eq_bind, Option.bind_some, Option.pure_def, Option.some.injEq]
      rw [merge_gives hlt, merge_const hzero (by decide), foldl_op, List.map_map, hremainder,
        ← List.foldl_append, hplain]
      exact congrArg (op · zero) (foldl_perm hvalues acc)
    · rfl

theorem larger_eq_max [LinearOrder α] (x y : α) : Blocks.larger x y = Max.max x y := by
  rw [Blocks.larger]
  split
  · rename_i hlt
    exact (max_eq_right hlt.le).symm
  · rename_i hle
    exact (max_eq_left (not_lt.mp hle)).symm

instance [LinearOrder α] : Std.Commutative (Blocks.larger (α := α)) :=
  ⟨fun x y => by rw [larger_eq_max, larger_eq_max, max_comm]⟩

instance [LinearOrder α] : Std.Associative (Blocks.larger (α := α)) :=
  ⟨fun x y z => by simp only [larger_eq_max, max_assoc]⟩

section

variable (once : ∀ ld, (forasync1D ld).Perm (ForasyncAny.indices ld ld.low))
include once

/-- The sum of the array and of the remainder is the sum of the loop, whichever
worker runs which chunk, as long as each has its element. -/
theorem sum_preserved [AddCommMonoid α] (hlow : 0 ≤ b.loop.lowBound)
    (hle : b.loop.lowBound ≤ b.loop.highBound) (hfactor : 0 ≤ factor)
    (haligned : b.loop.lowBound = 0 ∨ factor ≤ 1 ∨ sizeB b.loop.highBound factor = b.loop.lowBound)
    (v : Int → α) (acc : α) :
    b.sum forasync1D worker factor v acc =
      if b.Sequential ∨ ∀ c ∈ b.lambdaRuns forasync1D worker factor, c.1 < hcWorkers then
        some (b.plain (· + ·) v acc)
      else none := by
  have hindices := branch_aligned once hlow hle hfactor haligned
  have hspec : b.sum forasync1D worker factor v acc = _ :=
    reduction_spec (fun x => add_zero (x + 0)) hindices v acc
  rw [hspec, add_zero]
  by_cases hseq : b.Sequential
  · rw [if_pos hseq, if_pos (Or.inl hseq)]
  · simp only [hseq, false_or, if_false]

omit once in
theorem lambdaRuns_in_order (b : Blocks) (worker : Int → Nat) (factor : Int) :
    b.lambdaRuns (fun ld => ForasyncAny.indices ld ld.low) worker factor =
      (Int.range b.loop.lowBound (chunks b.loop.highBound factor)).flatMap fun o =>
        (lambdaBody factor o).map fun i => (worker o, i) := by
  rw [Blocks.lambdaRuns, indices_unit _ rfl]
  rfl

omit once in
theorem sum_preserved_five :
    Blocks.sum (fun ld => ForasyncAny.indices ld ld.low) ⟨⟨0, 5⟩, 8, 0⟩ (fun o => o.toNat) 2
      (fun i => i * i) (7 : Int) = some 37 := by
  rw [sum_preserved (fun ld => List.Perm.refl _) (by decide) (by decide) (by decide) (.inl rfl),
    lambdaRuns_in_order]
  decide

/-- The elements of the array start with 0: the maximum is that of the loop if and
only if it is not negative. -/
theorem max_preserved_iff [LinearOrder α] [Zero α] (hlow : 0 ≤ b.loop.lowBound)
    (hle : b.loop.lowBound ≤ b.loop.highBound) (hfactor : 0 ≤ factor)
    (haligned : b.loop.lowBound = 0 ∨ factor ≤ 1 ∨ sizeB b.loop.highBound factor = b.loop.lowBound)
    (v : Int → α) (acc : α) :
    b.max forasync1D worker factor v acc = some (b.plain Blocks.larger v acc) ↔
      b.Sequential ∨ (∀ c ∈ b.lambdaRuns forasync1D worker factor, c.1 < hcWorkers) ∧
        0 ≤ b.plain Blocks.larger v acc := by
  have hindices := branch_aligned once hlow hle hfactor haligned
  have hzero : ∀ x : α, Blocks.larger (Blocks.larger x 0) 0 = Blocks.larger x 0 := by
    intro x
    simp only [larger_eq_max, max_assoc, max_self]
  have hspec : b.max forasync1D worker factor v acc = _ := reduction_spec hzero hindices v acc
  rw [hspec]
  by_cases hseq : b.Sequential
  · rw [if_pos hseq]
    exact iff_of_true rfl (Or.inl hseq)
  · rw [if_neg hseq, or_iff_right hseq]
    by_cases hworkers : ∀ c ∈ b.lambdaRuns forasync1D worker factor, c.1 < hcWorkers
    · rw [if_pos hworkers, Option.some.injEq, larger_eq_max, max_eq_left_iff]
      exact (and_iff_right hworkers).symm
    · rw [if_neg hworkers]
      exact iff_of_false (by simp) fun h => hworkers h.1

omit once in
theorem max_preserved_five :
    Blocks.max (fun ld => ForasyncAny.indices ld ld.low) ⟨⟨0, 5⟩, 8, 0⟩ (fun o => o.toNat) 2
      (fun i => i - 2) (-7 : Int) = some 2 ∧
    Blocks.max (fun ld => ForasyncAny.indices ld ld.low) ⟨⟨0, 5⟩, 8, 0⟩ (fun o => o.toNat) 2
      (fun i => i - 6) (-7 : Int) ≠ some (-2) := by
  have hiff (v : Int → Int) :
      Blocks.max (fun ld => ForasyncAny.indices ld ld.low) ⟨⟨0, 5⟩, 8, 0⟩ (fun o => o.toNat) 2 v (-7) =
        some _ ↔ _ :=
    max_preserved_iff (fun ld => List.Perm.refl _) (by decide) (by decide) (by decide) (.inl rfl) v (-7)
  constructor
  · apply (hiff fun i => i - 2).mpr
    rw [lambdaRuns_in_order]
    decide
  · intro h
    have hnonneg := (hiff fun i => i - 6).mp h
    rw [lambdaRuns_in_order] at hnonneg
    exact absurd hnonneg (by decide)

theorem loop_visits {loop : ForLoop} (seqLimit : Int) (hlow : 0 ≤ loop.lowBound)
    (hle : loop.lowBound ≤ loop.highBound) (hfits : inInt loop.highBound = true) (hfactor : 0 ≤ factor)
    (haligned : loop.lowBound = 0 ∨ factor ≤ 1 ∨ sizeB loop.highBound factor = loop.lowBound) :
    Exactly (acrossLoop forasync1D seqLimit (int loop.lowBound) (int loop.highBound) factor)
      ((if loop.highBound ≤ seqLimit then loop.indices else []) ++ loop.indices) := by
  have hlowfits : inInt loop.lowBound = true := by
    rw [inInt_iff] at hfits ⊢
    omega
  have hvalues := term_across (e := .atom (some (some loop.highBound))) trivial rfl seqLimit
    (value_int loop.lowBound) hlowfits hfits hfactor
  obtain ⟨visits, hrun, hperm⟩ := acrossLoop_perm once hvalues (.inl hlow)
  refine ⟨visits, hrun, hperm.trans ?_⟩
  rw [acrossIndices, stop_eq (hlow.trans hle) hfactor, max_eq_left hle]
  have hbefore : (if (if loop.highBound ≤ seqLimit then (1 : Int) else 0) = 0 then []
      else Int.range loop.lowBound loop.highBound) =
      if loop.highBound ≤ seqLimit then loop.indices else [] := by
    split <;> rfl
  rw [hbefore]
  have hbranch := branch_perm once loop.lowBound (sizeB_bounds (hlow.trans hle) hfactor).2.2
  exact (hbranch.symm.trans (branch_aligned once hlow hle hfactor haligned)).append_left _

theorem nest2_visits {nest : Nest2} {env : Scope} {high1 high2 : Int} (seqLimit : Int)
    (haccepted : nest.accepted = true) (hrect : nest.Rectangular) (hoperand1 : nest.line1.Operand)
    (hoperand2 : nest.line2.Operand) (hhigh1 : nest.line1.highValue env = some high1)
    (hhigh2 : nest.line2.highValue env = some high2) (hint : inInt (high1 * high2) = true)
    (hpos1 : 0 < high1) (hpos2 : 0 < high2) (hlow1 : nest.line1.low = 0) (hfactor : 0 ≤ factor) :
    Exactly (nest.collapsed env forasync1D seqLimit factor)
      ((if high1 * high2 ≤ seqLimit then nest.tuples high1 fun _ => high2 else []) ++
        nest.tuples high1 fun _ => high2) := by
  simp only [Nest2.accepted, Bool.not_eq_true', lowerBoundsFail_iff] at haccepted
  have hlow2 : nest.line2.low = 0 := by omega
  have htext1 := highText_operand hoperand1 hhigh1
  have htext2 := highText_operand hoperand2 hhigh2
  have htuples : nest.tuples high1 (fun _ => high2) =
      (Int.range 0 (high1 * high2)).map (iterators2 high1 high2) := by
    rw [iterators2_eq hpos1 hpos2, Nest2.tuples, hlow1, hlow2]
    rfl
  have hvalue := product2_value high1 high2
  rw [if_pos hint] at hvalue
  rw [Nest2.collapsed, Nest2.highB, htext1, htext2, htuples]
  exact collapse_visits once seqLimit hfactor (product2_plain high1 high2) hvalue hint
    (loopBodyTop2_operand hrect htext1 htext2 hint)

theorem nest3_visits {nest : Nest3} {env : Scope} {high1 high2 high3 : Int} (seqLimit : Int)
    (haccepted : nest.accepted = true) (hrect : nest.Rectangular) (hoperand1 : nest.line1.Operand)
    (hoperand2 : nest.line2.Operand) (hoperand3 : nest.line3.Operand)
    (hhigh1 : nest.line1.highValue env = some high1) (hhigh2 : nest.line2.highValue env = some high2)
    (hhigh3 : nest.line3.highValue env = some high3) (hint12 : inInt (high1 * high2) = true)
    (hint : inInt (high1 * high2 * high3) = true) (hpos1 : 0 < high1) (hpos2 : 0 < high2)
    (hpos3 : 0 < high3) (hlow1 : nest.line1.low = 0) (hfactor : 0 ≤ factor) :
    Exactly (nest.collapsed env forasync1D seqLimit factor)
      ((if high1 * high2 * high3 ≤ seqLimit then nest.tuples high1 (fun _ => high2) fun _ _ => high3
        else []) ++ nest.tuples high1 (fun _ => high2) fun _ _ => high3) := by
  simp only [Nest3.accepted, Bool.and_eq_true, Bool.not_eq_true', lowerBoundsFail_iff,
    beq_iff_eq] at haccepted
  have hlow2 : nest.line2.low = 0 := by omega
  have htext1 := highText_operand hoperand1 hhigh1
  have htext2 := highText_operand hoperand2 hhigh2
  have htext3 := highText_operand hoperand3 hhigh3
  have htuples : nest.tuples high1 (fun _ => high2) (fun _ _ => high3) =
      (Int.range 0 (high1 * high2 * high3)).map (iterators3 high1 high2 high3) := by
    rw [iterators3_eq hpos1 hpos2 hpos3, Nest3.tuples, hlow1, hlow2, haccepted.2]
    rfl
  have hvalue := product3_value high1 high2 high3
  rw [if_pos ⟨hint12, hint⟩] at hvalue
  rw [Nest3.collapsed, Nest3.highB, htext1, htext2, htext3, htuples]
  exact collapse_visits once seqLimit hfactor (product3_plain high1 high2 high3) hvalue hint
    (loopBodyTop3_operand hrect htext1 htext2 htext3 hint)

end

end Reductions

end HabaneroUpc.OmpToHcupc
