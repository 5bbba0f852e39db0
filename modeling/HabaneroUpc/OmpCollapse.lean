import HabaneroUpc.OmpToHcupc

namespace HabaneroUpc.OmpToHcupc

open ForasyncAny (LoopDomain inInt inInt_iff)
open COperators InfixText Loops

/-- int(lowBound1) != 0 | int(lowBound2) != 0, where Python reads the operator
before the comparisons, and these as a chain. -/
def lowerBoundsFail (lowBound1 lowBound2 : Int) : Bool :=
  lowBound1 ≠ Int.lor 0 lowBound2 ∧ Int.lor 0 lowBound2 ≠ 0

/-- A loop of a nest, whose lower bound has to be a number. Its iterator is a name
that replace_all leaves as it is. -/
structure NestLine extends ForLine Int where
  itr : Name

/-- int itr = ...: the name stands for the new variable in its own initializer. -/
def declared (env : Scope) (itr : Name) : Scope := Function.update env itr (some none)

def assigned (env : Scope) (itr : Name) (i : Int) : Scope :=
  Function.update env itr (some (some i))

structure Nest2 where
  line1 : NestLine
  line2 : NestLine

namespace Nest2

variable (nest : Nest2) (env : Scope)

def accepted : Bool := !lowerBoundsFail nest.line1.low nest.line2.low

def itrs : List Name := [nest.line1.itr, nest.line2.itr]

/-- A bound may depend on the iterators of the loops around its own. -/
structure Bounds (high1 : Int) (high2 : Int → Int) : Prop where
  distinct : nest.itrs.Nodup
  fixed1 : nest.line1.high.atoms.Disjoint nest.itrs
  fixed2 : nest.line2.itr ∉ nest.line2.high.atoms
  value1 : nest.line1.highValue env = some high1
  value2 : ∀ i, nest.line1.low ≤ i → i < high1 →
    nest.line2.highValue (assigned env nest.line1.itr i) = some (high2 i)

def tuples (high1 : Int) (high2 : Int → Int) : List (Int × Int) :=
  rows (Int.range nest.line1.low high1) fun i => Int.range nest.line2.low (high2 i)

def highB : CText := (nest.line1.highText env).paste (.op .mul) (nest.line2.highText env)

def loopBodyTop (i : Int) : Option (Int × Int) := do
  let env1 := declared env nest.line1.itr
  let row := ((int i).paste (.op .div) (nest.line2.highText env1)).paren cOperators
  let i1 ← value (row.paste (.op .mod) (nest.line1.highText env1))
  let env2 := declared (assigned env nest.line1.itr i1) nest.line2.itr
  let i2 ← value ((int i).paste (.op .mod) (nest.line2.highText env2))
  return (i1, i2)

def collapsed (forasync1D : LoopDomain → List Int) (seqLimit factor : Int) :
    Option (List (Int × Int)) := do
  let visits ← acrossLoop forasync1D seqLimit (int 0) (nest.highB env) factor
  visits.mapM (nest.loopBodyTop env)

def Rectangular : Prop :=
  nest.itrs.Nodup ∧ nest.line1.Fixed nest.itrs ∧ nest.line2.Fixed nest.itrs

instance : Decidable nest.Rectangular := inferInstanceAs (Decidable (_ ∧ _ ∧ _))

end Nest2

structure Nest3 where
  line1 : NestLine
  line2 : NestLine
  line3 : NestLine

namespace Nest3

variable (nest : Nest3) (env : Scope)

def accepted : Bool := !lowerBoundsFail nest.line1.low nest.line2.low && nest.line3.low == 0

def itrs : List Name := [nest.line1.itr, nest.line2.itr, nest.line3.itr]

structure Bounds (high1 : Int) (high2 : Int → Int) (high3 : Int → Int → Int) : Prop where
  distinct : nest.itrs.Nodup
  fixed1 : nest.line1.high.atoms.Disjoint nest.itrs
  fixed2 : nest.line2.high.atoms.Disjoint [nest.line2.itr, nest.line3.itr]
  fixed3 : nest.line3.itr ∉ nest.line3.high.atoms
  value1 : nest.line1.highValue env = some high1
  value2 : ∀ i, nest.line1.low ≤ i → i < high1 →
    nest.line2.highValue (assigned env nest.line1.itr i) = some (high2 i)
  value3 : ∀ i j, nest.line1.low ≤ i → i < high1 → nest.line2.low ≤ j → j < high2 i →
    nest.line3.highValue (assigned (assigned env nest.line1.itr i) nest.line2.itr j) = some (high3 i j)

def tuples (high1 : Int) (high2 : Int → Int) (high3 : Int → Int → Int) : List (Int × Int × Int) :=
  rows (Int.range nest.line1.low high1) fun i =>
    rows (Int.range nest.line2.low (high2 i)) fun j => Int.range nest.line3.low (high3 i j)

def highB : CText :=
  ((nest.line1.highText env).paste (.op .mul) (nest.line2.highText env)).paste (.op .mul)
    (nest.line3.highText env)

def loopBodyTop (i : Int) : Option (Int × Int × Int) := do
  let env1 := declared env nest.line1.itr
  let size := ((nest.line2.highText env1).paste (.op .mul) (nest.line3.highText env1)).paren cOperators
  let plane := ((int i).paste (.op .div) size).paren cOperators
  let i1 ← value (plane.paste (.op .mod) (nest.line1.highText env1))
  let env2 := declared (assigned env nest.line1.itr i1) nest.line2.itr
  let row := ((int i).paste (.op .div) (nest.line3.highText env2)).paren cOperators
  let i2 ← value (row.paste (.op .mod) (nest.line2.highText env2))
  let env3 := declared (assigned (assigned env nest.line1.itr i1) nest.line2.itr i2) nest.line3.itr
  let i3 ← value ((int i).paste (.op .mod) (nest.line3.highText env3))
  return (i1, i2, i3)

def collapsed (forasync1D : LoopDomain → List Int) (seqLimit factor : Int) :
    Option (List (Int × Int × Int)) := do
  let visits ← acrossLoop forasync1D seqLimit (int 0) (nest.highB env) factor
  visits.mapM (nest.loopBodyTop env)

def Rectangular : Prop :=
  nest.itrs.Nodup ∧ nest.line1.Fixed nest.itrs ∧ nest.line2.Fixed nest.itrs ∧ nest.line3.Fixed nest.itrs

instance : Decidable nest.Rectangular := inferInstanceAs (Decidable (_ ∧ _ ∧ _ ∧ _))

end Nest3

section General

variable {forasync1D : LoopDomain → List Int} {α : Type} {digits : Int → Option α} {tuples : List α}
  {highB : CText} {seqLimit factor : Int}

theorem collapse_iff (once : ∀ ld, (forasync1D ld).Perm (ForasyncAny.indices ld ld.low))
    (hnodup : tuples.Nodup) :
    Exactly ((acrossLoop forasync1D seqLimit (int 0) highB factor).bind (·.mapM digits)) tuples ↔
      ∃ stop quotient small seqStop,
        AcrossValues (int 0) highB seqLimit factor 0 stop quotient small seqStop ∧
        OneToOne digits (acrossIndices 0 stop quotient small seqStop factor) tuples := by
  have hvisits : ∀ stop quotient small seqStop,
      AcrossValues (int 0) highB seqLimit factor 0 stop quotient small seqStop →
      (Exactly ((acrossLoop forasync1D seqLimit (int 0) highB factor).bind (·.mapM digits)) tuples ↔
        OneToOne digits (acrossIndices 0 stop quotient small seqStop factor) tuples) := by
    intro stop quotient small seqStop hvalues
    obtain ⟨visits, hrun, hperm⟩ := acrossLoop_perm once hvalues (.inl (le_refl 0))
    rw [hrun, Option.bind_some, Exactly, mapM_perm_iff hnodup]
    exact OneToOne.congr hperm
  constructor
  · rintro ⟨result, hresult, hperm⟩
    obtain ⟨visits, hrun, _⟩ := Option.bind_eq_some_iff.mp hresult
    obtain ⟨low, stop, quotient, small, seqStop, hvalues⟩ := acrossLoop_values hrun
    have hlow : 0 = low := Option.some.inj hvalues.value_low
    subst hlow
    exact ⟨stop, quotient, small, seqStop, hvalues,
      (hvisits stop quotient small seqStop hvalues).mp ⟨result, hresult, hperm⟩⟩
  · rintro ⟨stop, quotient, small, seqStop, hvalues, h⟩
    exact (hvisits stop quotient small seqStop hvalues).mpr h

end General

/-- With one operand for each bound the collapsed loop runs from 0 to the product. -/
theorem acrossIndices_operand (seqLimit high : Int) {factor : Int} (hfactor : 0 ≤ factor) :
    acrossIndices 0 (max high (sizeB high factor)) (chunks high factor)
        (if high ≤ seqLimit then 1 else 0) (max high 0) factor =
      (if high ≤ seqLimit then Int.range 0 high else []) ++ Int.range 0 high := by
  have hpos := ltile_pos hfactor
  have hbefore : Int.range 0 (max high 0) = Int.range 0 high := by
    rcases le_total 0 high with hhigh | hhigh
    · rw [max_eq_left hhigh]
    · rw [max_eq_right hhigh, range_eq_nil hhigh, range_eq_nil (le_refl 0)]
  have hrest : Int.range (first 0 (chunks high factor) factor) (max high (sizeB high factor)) =
      Int.range 0 high := by
    rw [first, if_pos hpos, zero_mul]
    rcases le_total 0 high with hhigh | hhigh
    · obtain ⟨hchunks, hsize, hle⟩ := sizeB_bounds hhigh hfactor
      rw [max_eq_left hle]
      rw [sizeB] at hsize
      rw [min_eq_left (hchunks.trans hsize)]
    · have hbounds := sizeB_bounds (Int.neg_nonneg.mpr hhigh) hfactor
      rw [(sizeB_neg high factor).1, (sizeB_neg high factor).2, sizeB] at hbounds
      rw [range_eq_nil hhigh]
      apply range_eq_nil
      rw [sizeB]
      omega
  rw [acrossIndices, hrest, hbefore]
  split <;> rfl

/-- Nothing is in a list twice if and only if it is not twice the same list. -/
theorem perm_twice_iff {α : Type} {xs tuples : List α} (hnodup : tuples.Nodup) (small : Prop)
    [Decidable small] :
    ((if small then xs else []) ++ xs).Perm tuples ↔ (xs ≠ [] → ¬small) ∧ xs.Perm tuples := by
  by_cases hsmall : small
  · rw [if_pos hsmall]
    cases xs with
    | nil => simp
    | cons x xs =>
        apply iff_of_false
        · intro h
          have hmem : x ∈ x :: xs := List.mem_cons_self
          exact (List.nodup_append.mp (h.nodup_iff.mpr hnodup)).2.2 x hmem x hmem rfl
        · exact fun h => h.1 (List.cons_ne_nil x xs) hsmall
  · simp [hsmall]

section Operands

variable {forasync1D : LoopDomain → List Int} {a b c low1 low2 low3 seqLimit factor : Int}

theorem lowerBoundsFail_iff (lowBound1 lowBound2 : Int) :
    lowerBoundsFail lowBound1 lowBound2 = false ↔ lowBound1 = lowBound2 ∨ lowBound2 = 0 := by
  have hlor : Int.lor 0 lowBound2 = lowBound2 := by
    cases lowBound2 with
    | ofNat k => simp [Int.lor]
    | negSucc k => simp [Int.lor, Nat.ldiff]
  simp only [lowerBoundsFail, hlor, decide_eq_false_iff_not, not_and, not_not]
  tauto

theorem tdiv_fits {i x : Int} (hi : inInt i = true) (h : 0 ≤ i) (hx : x.natAbs ≤ i.natAbs) (y : Int) :
    inInt (x.tdiv y) = true ∧ (x.tdiv y).natAbs ≤ i.natAbs := by
  have hle := Int.natAbs_tdiv_le_natAbs x y
  rw [inInt_iff] at hi ⊢
  omega

theorem value_digit {i x : Int} (hi : inInt i = true) (h : 0 ≤ i) (hx : x.natAbs ≤ i.natAbs) {y : Int}
    (hy : y ≠ 0) :
    ((int x).paste (.op .div) (int y)).paren cOperators = int (x.tdiv y) ∧
      value ((int x).paste (.op .mod) (int y)) = some (x.tmod y) := by
  have hfits := (tdiv_fits hi h hx y).1
  constructor
  · apply Text.paren_eq_num
    apply (Text.value_num_paste _ _ _).trans
    exact congrArg some ((if_neg hy).trans (if_pos hfits))
  · rw [value_int_paste]
    exact if_pos ⟨hy, hfits⟩

theorem inInt_factor {x y : Int} (hint : inInt (x * y) = true) (hpos : 0 < x * y) :
    inInt y = true := by
  rw [inInt_iff] at hint ⊢
  have hne : x ≠ 0 := by
    rintro rfl
    simp at hpos
  have hle : y.natAbs ≤ (x * y).natAbs := by
    rw [Int.natAbs_mul]
    exact Nat.le_mul_of_pos_left _ (Int.natAbs_pos.mpr hne)
  omega

theorem inInt_index {i high : Int} (hint : inInt high = true) (hi : i ∈ Int.range 0 high) :
    inInt i = true ∧ 0 ≤ i ∧ 0 < high := by
  rw [Int.mem_range_iff] at hi
  rw [inInt_iff] at hint ⊢
  omega

def iterators2 (a b i : Int) : Int × Int := ((i.tdiv b).tmod a, i.tmod b)

def iterators3 (a b c i : Int) : Int × Int × Int :=
  ((i.tdiv (b * c)).tmod a, (i.tdiv c).tmod b, i.tmod c)

theorem declared_of_not_mem {env : Scope} {itrs : List Name} {itr name : Name} (hitr : itr ∈ itrs)
    (hname : name ∉ itrs) : declared env itr name = env name :=
  Function.update_of_ne (ne_of_mem_of_not_mem hitr hname).symm _ _

theorem assigned_of_not_mem {env : Scope} {itrs : List Name} {itr name : Name} (i : Int)
    (hitr : itr ∈ itrs) (hname : name ∉ itrs) : assigned env itr i name = env name :=
  Function.update_of_ne (ne_of_mem_of_not_mem hitr hname).symm _ _

theorem loopBodyTop2_operand {nest : Nest2} {env : Scope} (hrect : nest.Rectangular)
    (hhigh1 : nest.line1.highText env = int a) (hhigh2 : nest.line2.highText env = int b)
    (hint : inInt (a * b) = true) :
    ∀ i ∈ Int.range 0 (a * b), nest.loopBodyTop env i = some (iterators2 a b i) := by
  intro i hi
  obtain ⟨hfits, hnonneg, hpos⟩ := inInt_index hint hi
  have ha : a ≠ 0 := left_ne_zero_of_mul hpos.ne'
  have hb : b ≠ 0 := right_ne_zero_of_mul hpos.ne'
  have hdiv := value_digit hfits hnonneg (le_refl _) hb
  have hmod := value_digit hfits hnonneg (tdiv_fits hfits hnonneg (le_refl _) b).2 ha
  have hitr1 : nest.line1.itr ∈ nest.itrs := List.mem_cons_self
  have hitr2 : nest.line2.itr ∈ nest.itrs := List.mem_cons_of_mem _ List.mem_cons_self
  have hscope1 : ∀ name, name ∉ nest.itrs → declared env nest.line1.itr name = env name :=
    fun name hname => declared_of_not_mem hitr1 hname
  have hscope2 : ∀ i1 name, name ∉ nest.itrs →
      declared (assigned env nest.line1.itr i1) nest.line2.itr name = env name :=
    fun i1 name hname => (declared_of_not_mem hitr2 hname).trans (assigned_of_not_mem i1 hitr1 hname)
  obtain ⟨_, hfixed1, hfixed2⟩ := hrect
  simp [Nest2.loopBodyTop, highText_fixed hfixed1 hscope1, highText_fixed hfixed2 hscope1,
    highText_fixed hfixed2 (hscope2 _), hhigh1, hhigh2, hdiv, hmod, iterators2]

theorem loopBodyTop3_operand {nest : Nest3} {env : Scope} (hrect : nest.Rectangular)
    (hhigh1 : nest.line1.highText env = int a) (hhigh2 : nest.line2.highText env = int b)
    (hhigh3 : nest.line3.highText env = int c) (hint : inInt (a * b * c) = true) :
    ∀ i ∈ Int.range 0 (a * b * c), nest.loopBodyTop env i = some (iterators3 a b c i) := by
  intro i hi
  obtain ⟨hfits, hnonneg, hpos⟩ := inInt_index hint hi
  have ha : a ≠ 0 := left_ne_zero_of_mul (left_ne_zero_of_mul hpos.ne')
  have hb : b ≠ 0 := right_ne_zero_of_mul (left_ne_zero_of_mul hpos.ne')
  have hc : c ≠ 0 := right_ne_zero_of_mul hpos.ne'
  have hrow : inInt (b * c) = true := by
    rw [mul_assoc] at hint hpos
    exact inInt_factor hint hpos
  have hsize : ((int b).paste (.op .mul) (int c)).paren cOperators = int (b * c) := by
    apply Text.paren_eq_num
    apply (Text.value_num_paste _ _ _).trans
    exact congrArg some (if_pos hrow)
  have hdiv1 := value_digit hfits hnonneg (le_refl _) (mul_ne_zero hb hc)
  have hmod1 := value_digit hfits hnonneg (tdiv_fits hfits hnonneg (le_refl _) (b * c)).2 ha
  have hdiv2 := value_digit hfits hnonneg (le_refl _) hc
  have hmod2 := value_digit hfits hnonneg (tdiv_fits hfits hnonneg (le_refl _) c).2 hb
  have hitr1 : nest.line1.itr ∈ nest.itrs := List.mem_cons_self
  have hitr2 : nest.line2.itr ∈ nest.itrs := List.mem_cons_of_mem _ List.mem_cons_self
  have hitr3 : nest.line3.itr ∈ nest.itrs :=
    List.mem_cons_of_mem _ (List.mem_cons_of_mem _ List.mem_cons_self)
  have hscope1 : ∀ name, name ∉ nest.itrs → declared env nest.line1.itr name = env name :=
    fun name hname => declared_of_not_mem hitr1 hname
  have hscope2 : ∀ i1 name, name ∉ nest.itrs →
      declared (assigned env nest.line1.itr i1) nest.line2.itr name = env name :=
    fun i1 name hname => (declared_of_not_mem hitr2 hname).trans (assigned_of_not_mem i1 hitr1 hname)
  have hscope3 : ∀ i1 i2 name, name ∉ nest.itrs →
      declared (assigned (assigned env nest.line1.itr i1) nest.line2.itr i2) nest.line3.itr name =
        env name :=
    fun i1 i2 name hname => (declared_of_not_mem hitr3 hname).trans
      ((assigned_of_not_mem i2 hitr2 hname).trans (assigned_of_not_mem i1 hitr1 hname))
  obtain ⟨_, hfixed1, hfixed2, hfixed3⟩ := hrect
  simp [Nest3.loopBodyTop, highText_fixed hfixed1 hscope1, highText_fixed hfixed2 hscope1,
    highText_fixed hfixed3 hscope1, highText_fixed hfixed2 (hscope2 _),
    highText_fixed hfixed3 (hscope2 _), highText_fixed hfixed3 (hscope3 _ _), hhigh1, hhigh2, hhigh3,
    hsize, hdiv1, hmod1, hdiv2, hmod2, iterators3]

/-- A nest that starts below 0 is not the one that starts at 0. -/
theorem low_eq_zero {β : Type*} {xs ys : List β} {y : β} {low high : Int}
    (h : (Int.range 0 high ×ˢ xs).Perm (Int.range low high ×ˢ ys)) (hlow : low ≤ 0) (hpos : 0 < high)
    (hy : y ∈ ys) : low = 0 := by
  have hfirst : (low, y) ∈ Int.range low high ×ˢ ys :=
    List.mem_product.mpr ⟨Int.mem_range_iff.mpr ⟨le_refl _, hlow.trans_lt hpos⟩, hy⟩
  rw [← h.mem_iff, List.mem_product, Int.mem_range_iff] at hfirst
  exact le_antisymm hlow hfirst.1.1

theorem product_eq_nil {α β : Type*} (xs : List α) (ys : List β) :
    xs ×ˢ ys = [] ↔ xs = [] ∨ ys = [] := by
  cases xs <;> cases ys <;> simp [SProd.sprod, List.product]

theorem iterators2_eq (ha : 0 < a) (hb : 0 < b) :
    (Int.range 0 (a * b)).map (iterators2 a b) = Int.range 0 a ×ˢ Int.range 0 b := by
  rw [← map_digits ha.le hb]
  apply List.map_congr_left
  intro i hi
  obtain ⟨hge, hlt⟩ := Int.mem_range_iff.mp hi
  have hdiv : 0 ≤ i / b := Int.ediv_nonneg hge hb.le
  rw [iterators2, Int.tdiv_eq_ediv_of_nonneg hge, Int.tmod_eq_emod_of_nonneg hdiv,
    Int.tmod_eq_emod_of_nonneg hge, Int.emod_eq_of_lt hdiv (Int.ediv_lt_of_lt_mul hb hlt)]

theorem iterators3_eq (ha : 0 < a) (hb : 0 < b) (hc : 0 < c) :
    (Int.range 0 (a * b * c)).map (iterators3 a b c) =
      Int.range 0 a ×ˢ Int.range 0 b ×ˢ Int.range 0 c := by
  rw [← map_digits3 ha.le hb hc, ← mul_assoc]
  apply List.map_congr_left
  intro i hi
  rw [mul_assoc] at hi
  obtain ⟨hge, hlt⟩ := Int.mem_range_iff.mp hi
  have hrow : 0 < b * c := mul_pos hb hc
  have hdiv : 0 ≤ i / (b * c) := Int.ediv_nonneg hge hrow.le
  rw [iterators3, Int.tdiv_eq_ediv_of_nonneg hge, Int.tdiv_eq_ediv_of_nonneg hge,
    Int.tmod_eq_emod_of_nonneg hdiv, Int.tmod_eq_emod_of_nonneg (Int.ediv_nonneg hge hc.le),
    Int.tmod_eq_emod_of_nonneg hge, Int.emod_eq_of_lt hdiv (Int.ediv_lt_of_lt_mul hrow hlt)]

theorem iterators2_perm_iff (hlows : low1 = low2 ∨ low2 = 0) :
    ((Int.range 0 (a * b)).map (iterators2 a b)).Perm (Int.range low1 a ×ˢ Int.range low2 b) ↔
      if 0 < a * b then 0 < a ∧ 0 < b ∧ low1 = 0 else a ≤ low1 ∨ b ≤ low2 := by
  split
  · rename_i hpos
    constructor
    · intro htuples
      have hzero : (0, 0) ∈ Int.range low1 a ×ˢ Int.range low2 b := by
        rw [← htuples.mem_iff, List.mem_map]
        exact ⟨0, Int.mem_range_iff.mpr ⟨le_refl 0, hpos⟩, by simp [iterators2]⟩
      have hzero2 := (List.mem_product.mp hzero).2
      simp only [List.mem_product, Int.mem_range_iff] at hzero
      obtain ⟨⟨hlow1, ha⟩, hlow2, hb⟩ := hzero
      rw [iterators2_eq ha hb] at htuples
      exact ⟨ha, hb, low_eq_zero htuples hlow1 ha hzero2⟩
    · rintro ⟨ha, hb, hlow1⟩
      have hlow2 : low2 = 0 := by omega
      rw [iterators2_eq ha hb, hlow1, hlow2]
  · rename_i hpos
    rw [range_eq_nil (not_lt.mp hpos), List.map_nil, List.nil_perm, product_eq_nil,
      range_eq_nil_iff, range_eq_nil_iff]

theorem iterators3_perm_iff (hlows : low1 = low2 ∨ low2 = 0) :
    ((Int.range 0 (a * b * c)).map (iterators3 a b c)).Perm
        (Int.range low1 a ×ˢ Int.range low2 b ×ˢ Int.range 0 c) ↔
      if 0 < a * b * c then 0 < a ∧ 0 < b ∧ low1 = 0 else a ≤ low1 ∨ b ≤ low2 ∨ c ≤ 0 := by
  split
  · rename_i hpos
    constructor
    · intro htuples
      have hzero : (0, 0, 0) ∈ Int.range low1 a ×ˢ Int.range low2 b ×ˢ Int.range 0 c := by
        rw [← htuples.mem_iff, List.mem_map]
        exact ⟨0, Int.mem_range_iff.mpr ⟨le_refl 0, hpos⟩, by simp [iterators3]⟩
      have hzero23 := (List.mem_product.mp hzero).2
      simp only [List.mem_product, Int.mem_range_iff] at hzero
      obtain ⟨⟨hlow1, ha⟩, ⟨hlow2, hb⟩, _, hc⟩ := hzero
      rw [iterators3_eq ha hb hc] at htuples
      exact ⟨ha, hb, low_eq_zero htuples hlow1 ha hzero23⟩
    · rintro ⟨ha, hb, hlow1⟩
      have hlow2 : low2 = 0 := by omega
      have hc : 0 < c := pos_of_mul_pos_right hpos (mul_pos ha hb).le
      rw [iterators3_eq ha hb hc, hlow1, hlow2]
  · rename_i hpos
    rw [range_eq_nil (not_lt.mp hpos), List.map_nil, List.nil_perm, product_eq_nil,
      product_eq_nil, range_eq_nil_iff, range_eq_nil_iff, range_eq_nil_iff]

def product2 (a b : Int) : Expr Op (Option (Option Int)) :=
  .op .mul (.atom (some (some a))) (.atom (some (some b)))

def product3 (a b c : Int) : Expr Op (Option (Option Int)) := .op .mul (product2 a b) (.atom (some (some c)))

theorem product2_plain (a b : Int) : (product2 a b).Plain cOperators 10 := ⟨le_refl _, trivial, trivial⟩

theorem product3_plain (a b c : Int) : (product3 a b c).Plain cOperators 10 :=
  ⟨le_refl _, product2_plain a b, trivial⟩

theorem product2_value (a b : Int) :
    ((product2 a b).value cOperators).join = if inInt (a * b) = true then some (a * b) else none := rfl

theorem product3_value (a b c : Int) :
    ((product3 a b c).value cOperators).join =
      if inInt (a * b) = true ∧ inInt (a * b * c) = true then some (a * b * c) else none := by
  change Op.apply inInt 32 .mul (Op.within inInt (a * b)) (some c) = _
  by_cases hint : inInt (a * b) = true
  · rw [Op.within, if_pos hint]
    simp only [hint, true_and]
    rfl
  · rw [Op.within, if_neg hint, if_neg fun h => hint h.1]
    rfl

section

variable (once : ∀ ld, (forasync1D ld).Perm (ForasyncAny.indices ld ld.low))
include once

/-- The loop in front of the parallel branch visits what the branch visits. -/
theorem collapse_visits {α : Type} {digits : Int → Option α} {g : Int → α}
    {highB : Expr Op (Option (Option Int))} {high : Int} (seqLimit : Int) (hfactor : 0 ≤ factor)
    (hplain : highB.Plain cOperators 10) (hhigh : (highB.value cOperators).join = some high)
    (hint : inInt high = true) (hdigits : ∀ i ∈ Int.range 0 high, digits i = some (g i)) :
    ∃ visits, (acrossLoop forasync1D seqLimit (int 0) highB.text factor).bind (·.mapM digits) =
        some visits ∧
      visits.Perm ((if high ≤ seqLimit then (Int.range 0 high).map g else []) ++
        (Int.range 0 high).map g) := by
  have hvalues := term_across hplain hhigh seqLimit (value_int 0) rfl hint hfactor
  obtain ⟨indices, hrun, hperm⟩ := acrossLoop_perm once hvalues (.inl (le_refl 0))
  rw [acrossIndices_operand seqLimit high hfactor] at hperm
  have hinside : ∀ i ∈ indices, digits i = some (g i) := by
    intro i hi
    apply hdigits
    rcases List.mem_append.mp (hperm.mem_iff.mp hi) with h | h
    · split at h
      · exact h
      · cases h
    · exact h
  refine ⟨indices.map g, ?_, ?_⟩
  · rw [hrun, Option.bind_some, mapM_some digits g indices hinside]
  · have hmap := hperm.map g
    rwa [List.map_append, apply_ite (List.map g), List.map_nil] at hmap

theorem collapse_operand {α : Type} {digits : Int → Option α} {g : Int → α} {tuples : List α}
    {highB : Expr Op (Option (Option Int))} {high : Int} (hfactor : 0 ≤ factor)
    (hplain : highB.Plain cOperators 10) (hhigh : (highB.value cOperators).join = some high)
    (hint : inInt high = true) (hnodup : tuples.Nodup)
    (hdigits : ∀ i ∈ Int.range 0 high, digits i = some (g i)) :
    Exactly ((acrossLoop forasync1D seqLimit (int 0) highB.text factor).bind (·.mapM digits)) tuples ↔
      (0 < high → seqLimit < high) ∧ ((Int.range 0 high).map g).Perm tuples := by
  obtain ⟨visits, hrun, hvisits⟩ :=
    collapse_visits once seqLimit hfactor hplain hhigh hint hdigits
  have hexact : Exactly (some visits) tuples ↔ visits.Perm tuples :=
    ⟨fun ⟨_, heq, h⟩ => Option.some.inj heq ▸ h, fun h => ⟨visits, rfl, h⟩⟩
  have hne : (Int.range 0 high).map g ≠ [] ↔ 0 < high := by
    rw [ne_eq, List.map_eq_nil_iff, range_eq_nil_iff, not_le]
  have hswap : visits.Perm tuples ↔ _ := ⟨hvisits.symm.trans, hvisits.trans⟩
  rw [hrun, hexact, hswap, perm_twice_iff hnodup, hne, not_le]

theorem collapse_misfit {α : Type} {digits : Int → Option α} {tuples : List α}
    {highB : Expr Op (Option (Option Int))} (hplain : highB.Plain cOperators 10)
    (hhigh : (highB.value cOperators).join = none) (hnodup : tuples.Nodup) :
    ¬Exactly ((acrossLoop forasync1D seqLimit (int 0) highB.text factor).bind (·.mapM digits)) tuples := by
  rw [collapse_iff once hnodup]
  rintro ⟨stop, quotient, small, seqStop, hvalues, _⟩
  exact not_across hplain hhigh hvalues

theorem collapse2_iff {digits : Int → Option (Int × Int)} (hlows : low1 = low2 ∨ low2 = 0)
    (hfactor : 0 ≤ factor)
    (hdigits : inInt (a * b) = true → ∀ i ∈ Int.range 0 (a * b), digits i = some (iterators2 a b i)) :
    Exactly ((acrossLoop forasync1D seqLimit (int 0) (product2 a b).text factor).bind (·.mapM digits))
        (Int.range low1 a ×ˢ Int.range low2 b) ↔
      inInt (a * b) = true ∧
        if 0 < a * b then seqLimit < a * b ∧ 0 < a ∧ 0 < b ∧ low1 = 0 else a ≤ low1 ∨ b ≤ low2 := by
  have hnodup : (Int.range low1 a ×ˢ Int.range low2 b).Nodup := range_nodup.product range_nodup
  have hvalue := product2_value a b
  by_cases hint : inInt (a * b) = true
  · rw [if_pos hint] at hvalue
    rw [collapse_operand once hfactor (product2_plain a b) hvalue hint hnodup
      (hdigits hint), iterators2_perm_iff hlows, and_iff_right hint]
    split
    · rename_i hpos
      rw [forall_prop_of_true hpos]
    · rename_i hpos
      rw [forall_prop_of_false hpos, true_and]
  · rw [if_neg hint] at hvalue
    exact iff_of_false (collapse_misfit once (product2_plain a b) hvalue hnodup) fun h => hint h.1

theorem collapse3_iff {digits : Int → Option (Int × Int × Int)} (hlows : low1 = low2 ∨ low2 = 0)
    (hfactor : 0 ≤ factor)
    (hdigits : inInt (a * b * c) = true →
      ∀ i ∈ Int.range 0 (a * b * c), digits i = some (iterators3 a b c i)) :
    Exactly ((acrossLoop forasync1D seqLimit (int 0) (product3 a b c).text factor).bind (·.mapM digits))
        (Int.range low1 a ×ˢ Int.range low2 b ×ˢ Int.range 0 c) ↔
      inInt (a * b) = true ∧ inInt (a * b * c) = true ∧
        if 0 < a * b * c then seqLimit < a * b * c ∧ 0 < a ∧ 0 < b ∧ low1 = 0
        else a ≤ low1 ∨ b ≤ low2 ∨ c ≤ 0 := by
  have hnodup : (Int.range low1 a ×ˢ Int.range low2 b ×ˢ Int.range 0 c).Nodup :=
    range_nodup.product (range_nodup.product range_nodup)
  have hvalue := product3_value a b c
  by_cases hint : inInt (a * b) = true ∧ inInt (a * b * c) = true
  · rw [if_pos hint] at hvalue
    rw [collapse_operand once hfactor (product3_plain a b c) hvalue hint.2 hnodup
      (hdigits hint.2), iterators3_perm_iff hlows, and_iff_right hint.1,
      and_iff_right hint.2]
    split
    · rename_i hpos
      rw [forall_prop_of_true hpos]
    · rename_i hpos
      rw [forall_prop_of_false hpos, true_and]
  · rw [if_neg hint] at hvalue
    exact iff_of_false (collapse_misfit once (product3_plain a b c) hvalue hnodup)
      fun h => hint ⟨h.1, h.2.1⟩

end

end Operands

section Lines

def oneDigit : Scope
  | ['n'] => some (some 4)
  | [c] => if c.isDigit then some (some (c.toNat - 48)) else none
  | _ => none

def inOrder (ld : LoopDomain) : List Int := ForasyncAny.indices ld ld.low

def fromOneToFour : ForLine (Expr Op Name) := ⟨.atom ['1'], .atom ['4'], false⟩

def toNPlusOne : ForLine (Expr Op Name) := ⟨.atom ['0'], .op .add (.atom ['n']) (.atom ['1']), false⟩

def lineTo (itr : Char) (low : Int) (high : Char) (le : Bool) : NestLine := ⟨⟨low, .atom [high], le⟩, [itr]⟩

def fourByThree : Nest2 := ⟨lineTo 'i' 0 'n' false, lineTo 'j' 0 '2' true⟩

def fourByThreeByTwo : Nest3 := ⟨lineTo 'i' 0 'n' false, lineTo 'j' 0 '2' true, lineTo 'k' 0 '2' false⟩

def square (low : Int) : Nest2 := ⟨lineTo 'i' low '2' false, lineTo 'j' low '2' false⟩

end Lines

/-- A remainder loop that is left out. -/
theorem Stops.at_once {cond : Int → Option Int} {start : Int} (hstart : inInt start = true)
    (hends : cond start = some 0) : Stops cond start start where
  le := le_refl start
  start_fits := hstart
  stop_fits := hstart
  goes_on _ hi hlt := absurd hlt (not_lt.mpr hi)
  ends := hends

end HabaneroUpc.OmpToHcupc
