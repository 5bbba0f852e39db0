import HabaneroUpc.ForasyncAny
import HabaneroUpc.Lib.InfixText
import HabaneroUpc.Lib.Loops

namespace HabaneroUpc.OmpToHcupc

open ForasyncAny (LoopDomain inInt inInt_iff)
open COperators InfixText Loops

def cOperators : Operators Op (Option Int) := operators inInt 32

/-- The text of an expression of type int, with the values of its operands. -/
abbrev CText := Text Op (Option (Option Int))

/-- No result is a text that is not an expression, or undefined behaviour. -/
def value (t : CText) : Option Int := (t.value cOperators).join

def int (x : Int) : CText := .num (some x)

/-- A text that is not C. -/
def notC : CText := ⟨none, []⟩

structure ForLoop where
  lowBound : Int
  highBound : Int

def ForLoop.indices (loop : ForLoop) : List Int := Int.range loop.lowBound loop.highBound

/-- An operand of a bound: a name, a number, a call, and a unary operator in front
of one of them. No binary operator, ; or = is in it. -/
abbrev Name := List Char

/-- The names in scope with their values. A variable has none in its own initializer. -/
abbrev Scope := Name → Option (Option Int)

structure ForLine (β : Type) where
  low : β
  high : Expr Op Name
  le : Bool

def dropFor : List Char → List Char
  | 'f' :: 'o' :: 'r' :: text => dropFor text
  | c :: text => c :: dropFor text
  | [] => []

/-- replace_all with the dictionary of parse_forloop_properties, which is iterated
with "for" as the last key. -/
def replaceAll (text : Name) : Name :=
  dropFor (text.filter fun c => c ≠ ')' ∧ c ≠ '(' ∧ c ≠ '{')

section Split

variable {α : Type}

def splitRest (mark : Op → Bool) : List (Token Op × α) → List (Token Op × α) × Option (Op × Text Op α)
  | [] => ([], none)
  | (.op o, a) :: rest =>
    if mark o then ([], some (o, ⟨a, rest⟩))
    else
      let (front, behind) := splitRest mark rest
      ((.op o, a) :: front, behind)
  | a :: rest =>
    let (front, behind) := splitRest mark rest
    (a :: front, behind)

/-- A text up to the first operator with the character in it, this operator and
the text behind it. -/
def split (mark : Op → Bool) (t : Text Op α) : Text Op α × Option (Op × Text Op α) :=
  let (front, behind) := splitRest mark t.rest
  (⟨t.first, front⟩, behind)

end Split

def hasEqual : Op → Bool
  | .le | .ge | .eq | .ne => true
  | _ => false

def hasLess : Op → Bool
  | .shl | .lt | .le => true
  | _ => false

/-- i<=10 ==> i<(10+1). The text ends at the next =, and what is left of an
operator with = in it stands in front of +1. -/
def plusOne (t : CText) : CText :=
  match split hasEqual t with
  | (t, none) | (t, some (.eq, _)) => (t.paste (.op .add) (int 1)).paren cOperators
  | (t, some (.le, _)) => (t.paste (.op .lt) (int 1)).paren cOperators
  | (t, some (.ge, _)) => (t.paste (.op .gt) (int 1)).paren cOperators
  | _ => notC

namespace ForLine

variable {β : Type} (env : Scope)

def valueIn (e : Expr Op Name) : Option Int :=
  ((e.map env).value cOperators).join

def highValue (line : ForLine β) : Option Int := do
  let high ← valueIn env line.high
  let stop := if line.le then high + 1 else high
  if inInt stop then some stop else none

def loop (line : ForLine (Expr Op Name)) : Option ForLoop := do
  let low ← valueIn env line.low
  let high ← line.highValue env
  return ⟨low, high⟩

/-- An expression without its parentheses. -/
def stripped (e : Expr Op Name) : CText :=
  (e.text.map replaceAll).map env

def lowText (line : ForLine (Expr Op Name)) : CText :=
  match split hasEqual (stripped env line.low) with
  | (t, none) | (t, some (.eq, _)) => t
  | _ => notC

/-- A = in the bound makes the script take < for <=. -/
def highText (line : ForLine β) : CText :=
  let high := stripped env line.high
  if line.le then plusOne high
  else
    match split hasEqual high with
    | (_, none) => (split hasLess high).1
    | (_, some (.eq, _)) => int 1
    | (_, some (_, behind)) => plusOne behind

end ForLine

/-- for(int i=start; cond; i++). No result is undefined behaviour. -/
def runLoop (cond : Int → Option Int) (i : Int) : Option (List Int) :=
  if inInt i then
    (cond i).bind fun c => if c = 0 then some [] else (runLoop cond (i + 1)).map (i :: ·)
  else none
termination_by (2 ^ 31 - i).toNat
decreasing_by
  rename_i h
  rw [inInt_iff] at h
  omega

def below (highBound : CText) (i : Int) : Option Int := value ((int i).paste (.op .lt) highBound)

def ltile (factor : Int) : Int := if factor = 0 then 1 else factor

def chunks (highBound factor : Int) : Int := highBound.tdiv (ltile factor)

def sizeB (highBound factor : Int) : Int := ltile factor * chunks highBound factor

def lambdaBody (factor outter : Int) : List Int :=
  Int.range (outter * ltile factor) (outter * ltile factor + ltile factor)

def loopT (lowBound chunks : Int) : LoopDomain where
  low := lowBound
  high := chunks
  stride := 1
  tile := 1
  stride_pos := le_refl 1
  tile_pos := le_refl 1

def startFits (factor outter : Int) : Bool :=
  inInt (outter * ltile factor) && inInt (outter * ltile factor + ltile factor)

def remainderLoop (highBound : CText) (size : Int) : Option (List Int) :=
  (below highBound size).bind fun remains =>
    if remains = 0 then some [] else runLoop (below highBound) size

def seqForloop (seqLimit : Int) (lowBound highBound : CText) : Option (List Int) :=
  (value (highBound.paste (.op .le) (int seqLimit))).bind fun small =>
    if small = 0 then some [] else (value lowBound).bind (runLoop (below highBound))

section Branches

/- forasync1D, as the order in which its body is run. -/
variable (forasync1D : LoopDomain → List Int)

def branch (low high chunks factor : Int) : List Int :=
  (forasync1D (loopT low chunks)).flatMap (lambdaBody factor) ++ Int.range (ltile factor * chunks) high

/-- The parallel branch: lambda_signature, the loop body and lambda_call. The
bounds are pasted into it as texts. No result is undefined behaviour. -/
def parallelBranch (lowBound highBound : CText) (factor : Int) : Option (List Int) := do
  let chunks ← value (highBound.paste (.op .div) (int (ltile factor)))
  let size ← Op.mul.eval inInt 32 (ltile factor) chunks
  let low ← value lowBound
  let remainder ← remainderLoop highBound size
  if (forasync1D (loopT low chunks)).all (startFits factor) then
    some ((forasync1D (loopT low chunks)).flatMap (lambdaBody factor) ++ remainder)
  else none

/-- What is written for PRAGMA_THREAD_ACROSS_LOOP and for the loop over collapse_i:
the if of seq_forloop has no else, and the parallel branch is behind it. -/
def acrossLoop (seqLimit : Int) (lowBound highBound : CText) (factor : Int) : Option (List Int) := do
  let before ← seqForloop seqLimit lowBound highBound
  let visits ← parallelBranch forasync1D lowBound highBound factor
  return before ++ visits

end Branches

theorem indices_unit (ld : LoopDomain) (h : ld.stride = 1) (i : Int) :
    ForasyncAny.indices ld i = Int.range i ld.high := by
  induction i using ForasyncAny.indices.induct ld with
  | case1 i hi ih => rw [ForasyncAny.indices_of_lt hi, ih, h, range_cons hi]
  | case2 i hi => rw [ForasyncAny.indices_of_le hi, range_eq_nil (not_lt.mp hi)]

theorem ltile_ne (factor : Int) : ltile factor ≠ 0 := by
  unfold ltile
  split <;> omega

theorem ltile_pos {factor : Int} (h : 0 ≤ factor) : 0 < ltile factor := by
  unfold ltile
  split <;> omega

/-- A loop from start ends at stop. -/
structure Stops (cond : Int → Option Int) (start stop : Int) : Prop where
  le : start ≤ stop
  start_fits : inInt start = true
  stop_fits : inInt stop = true
  goes_on : ∀ i, start ≤ i → i < stop → ∃ c, cond i = some c ∧ c ≠ 0
  ends : cond stop = some 0

section Loop

variable {cond : Int → Option Int} {start stop : Int}

theorem Stops.unique {stop' : Int} (h : Stops cond start stop) (h' : Stops cond start stop') :
    stop = stop' := by
  rcases lt_trichotomy stop stop' with hlt | heq | hgt
  · obtain ⟨c, hc, hne⟩ := h'.goes_on stop h.le hlt
    rw [h.ends, Option.some.injEq] at hc
    exact absurd hc.symm hne
  · exact heq
  · obtain ⟨c, hc, hne⟩ := h.goes_on stop' h'.le hgt
    rw [h'.ends, Option.some.injEq] at hc
    exact absurd hc.symm hne

theorem Stops.tail (h : Stops cond start stop) (hlt : start < stop) : Stops cond (start + 1) stop where
  le := hlt
  start_fits := by
    have hstart := h.start_fits
    have hstop := h.stop_fits
    rw [inInt_iff] at hstart hstop ⊢
    omega
  stop_fits := h.stop_fits
  goes_on i hi := h.goes_on i (by omega)
  ends := h.ends

theorem runLoop_stops (h : Stops cond start stop) : runLoop cond start = some (Int.range start stop) := by
  induction start using runLoop.induct with
  | case1 i hi ih =>
      rw [runLoop, if_pos hi]
      by_cases hlt : i < stop
      · obtain ⟨c, hc, hne⟩ := h.goes_on i (le_refl i) hlt
        rw [hc, Option.bind_some, if_neg hne, ih (h.tail hlt), Option.map_some, range_cons hlt]
      · obtain rfl : i = stop := le_antisymm h.le (not_lt.mp hlt)
        rw [h.ends, Option.bind_some, if_pos rfl, range_eq_nil (le_refl i)]
  | case2 i hi => exact absurd h.start_fits hi

theorem stops_of_runLoop {visits : List Int} (h : runLoop cond start = some visits) :
    ∃ stop, Stops cond start stop ∧ visits = Int.range start stop := by
  induction start using runLoop.induct generalizing visits with
  | case1 i hi ih =>
      rw [runLoop, if_pos hi, Option.bind_eq_some_iff] at h
      obtain ⟨c, hc, hvisits⟩ := h
      by_cases hzero : c = 0
      · subst hzero
        rw [if_pos rfl, Option.some.injEq] at hvisits
        refine ⟨i, ⟨le_refl i, hi, hi, ?_, hc⟩, ?_⟩
        · intro j hj hlt
          omega
        · rw [← hvisits, range_eq_nil (le_refl i)]
      · rw [if_neg hzero, Option.map_eq_some_iff] at hvisits
        obtain ⟨rest, hrest, rfl⟩ := hvisits
        obtain ⟨stop, hstops, rfl⟩ := ih hrest
        have hlt : i < stop := hstops.le
        refine ⟨stop, ⟨hlt.le, hi, hstops.stop_fits, ?_, hstops.ends⟩, (range_cons hlt).symm⟩
        intro j hj hjlt
        rcases hj.eq_or_lt with rfl | hgt
        · exact ⟨c, hc, hzero⟩
        · exact hstops.goes_on j hgt hjlt
  | case2 i hi =>
      rw [runLoop, if_neg hi] at h
      cases h

theorem stops_of_lt {high : Int} (hcond : ∀ i, cond i = Op.truth (i < high)) (hstart : inInt start = true)
    (hhigh : inInt high = true) : Stops cond start (max high start) where
  le := le_max_right high start
  start_fits := hstart
  stop_fits := by
    rcases max_choice high start with h | h <;> rwa [h]
  goes_on i hi hlt := by
    have hlt : i < high := by omega
    exact ⟨1, by rw [hcond, Op.truth, if_pos hlt], one_ne_zero⟩
  ends := by
    have hge : ¬max high start < high := not_lt.mpr (le_max_left high start)
    rw [hcond, Op.truth, if_neg hge]

/-- The test in front of the remainder loop is that of its first iteration. -/
theorem remainderLoop_eq (highBound : CText) (hstart : inInt start = true) :
    remainderLoop highBound start = runLoop (below highBound) start := by
  rw [remainderLoop, runLoop, if_pos hstart]
  cases hc : below highBound start with
  | none => rfl
  | some c => by_cases hzero : c = 0 <;> simp [hzero]

end Loop

def first (low chunks factor : Int) : Int :=
  if 0 < ltile factor then min (low * ltile factor) (ltile factor * chunks)
  else ltile factor * chunks

section Parallel

variable {forasync1D : LoopDomain → List Int}
  (once : ∀ ld, (forasync1D ld).Perm (ForasyncAny.indices ld ld.low))
  {low high chunks factor : Int}
include once

theorem chunks_perm (low chunks : Int) :
    (forasync1D (loopT low chunks)).Perm (Int.range low chunks) := by
  have h := once (loopT low chunks)
  rw [indices_unit _ rfl] at h
  exact h

/-- The parallel branch starts at the tile numbered low, not at the index low. -/
theorem branch_perm (low : Int) (hhigh : ltile factor * chunks ≤ high) :
    (branch forasync1D low high chunks factor).Perm (Int.range (first low chunks factor) high) := by
  have htiles := (chunks_perm once low chunks).flatMap_right (lambdaBody factor)
  rw [branch]
  unfold first
  by_cases hpos : 0 < ltile factor
  · rw [if_pos hpos]
    have hcomm : chunks * ltile factor = ltile factor * chunks := mul_comm _ _
    by_cases hlow : low ≤ chunks
    · have hstart : low * ltile factor ≤ ltile factor * chunks := by
        rw [← hcomm]
        exact Int.mul_le_mul_of_nonneg_right hlow hpos.le
      have hflat := flatMap_tiles hpos.le hlow
      rw [hcomm] at hflat
      unfold lambdaBody at htiles ⊢
      rw [hflat] at htiles
      rw [min_eq_left hstart]
      apply (htiles.append_right _).trans
      rw [range_append hstart hhigh]
    · have hstart : ltile factor * chunks ≤ low * ltile factor := by
        rw [← hcomm]
        exact Int.mul_le_mul_of_nonneg_right (not_le.mp hlow).le hpos.le
      rw [range_eq_nil (not_le.mp hlow).le, List.flatMap_nil] at htiles
      rw [htiles.eq_nil, List.nil_append, min_eq_right hstart]
  · rw [if_neg hpos]
    -- A tile of negative size has no index.
    have hnil : (Int.range low chunks).flatMap (lambdaBody factor) = [] := by
      apply List.flatMap_eq_nil_iff.mpr
      intro o _
      apply range_eq_nil
      omega
    rw [hnil] at htiles
    rw [htiles.eq_nil, List.nil_append]

theorem startFits_all (hsize : inInt (ltile factor * chunks) = true) (hlow : 0 ≤ low ∨ chunks ≤ low) :
    (forasync1D (loopT low chunks)).all (startFits factor) = true := by
  rw [List.all_eq_true]
  intro o ho
  rw [(chunks_perm once low chunks).mem_iff, Int.mem_range_iff] at ho
  rw [inInt_iff] at hsize
  rw [startFits, Bool.and_eq_true, inInt_iff, inInt_iff]
  have hnonneg : 0 ≤ o := by omega
  have hprod : ltile factor * chunks = o * ltile factor + ltile factor +
      (chunks - o - 1) * ltile factor := by ring
  rcases lt_or_gt_of_ne (ltile_ne factor) with hneg | hpos
  · have htile : o * ltile factor ≤ 0 := Int.mul_nonpos_of_nonneg_of_nonpos hnonneg hneg.le
    have hrest : (chunks - o - 1) * ltile factor ≤ 0 :=
      Int.mul_nonpos_of_nonneg_of_nonpos (by omega) hneg.le
    omega
  · have htile : 0 ≤ o * ltile factor := Int.mul_nonneg hnonneg hpos.le
    have hrest : 0 ≤ (chunks - o - 1) * ltile factor := Int.mul_nonneg (by omega) hpos.le
    omega

end Parallel

def Exactly {α : Type} (code : Option (List α)) (source : List α) : Prop :=
  ∃ visits, code = some visits ∧ visits.Perm source

/-- The values of the two bounds as they are pasted, and where the remainder loop stops. -/
structure TextValues (lowBound highBound : CText) (factor low stop quotient : Int) : Prop where
  value_low : value lowBound = some low
  value_quotient : value (highBound.paste (.op .div) (int (ltile factor))) = some quotient
  stops : Stops (below highBound) (ltile factor * quotient) stop

/-- Beside the parallel branch, where the loop in front of it stops when it is run. -/
structure AcrossValues (lowBound highBound : CText) (seqLimit factor low stop quotient small seqStop : Int) :
    Prop extends TextValues lowBound highBound factor low stop quotient where
  value_small : value (highBound.paste (.op .le) (int seqLimit)) = some small
  seq_stops : small ≠ 0 → Stops (below highBound) low seqStop

def TilesMeet (loop : ForLoop) (factor low stop quotient : Int) : Prop :=
  min (low * ltile factor) (ltile factor * quotient) = loop.lowBound ∧ stop = loop.highBound ∨
    loop.lowBound = loop.highBound ∧ stop = ltile factor * quotient ∧
      ltile factor * quotient ≤ low * ltile factor

section Texts

variable {forasync1D : LoopDomain → List Int} {lowBound highBound : CText}
  {seqLimit factor low stop quotient small seqStop : Int} {visits : List Int}

theorem parallelBranch_eq (h : TextValues lowBound highBound factor low stop quotient) :
    parallelBranch forasync1D lowBound highBound factor =
      if (forasync1D (loopT low quotient)).all (startFits factor) then
        some (branch forasync1D low stop quotient factor)
      else none := by
  have hsize := h.stops.start_fits
  have hmul : Op.mul.eval inInt 32 (ltile factor) quotient = some (ltile factor * quotient) := if_pos hsize
  simp only [parallelBranch, h.value_quotient, h.value_low, hmul, remainderLoop_eq highBound hsize,
    runLoop_stops h.stops, Option.bind_eq_bind, Option.bind_some]
  rfl

theorem values_of_some (h : parallelBranch forasync1D lowBound highBound factor = some visits) :
    ∃ low stop quotient, TextValues lowBound highBound factor low stop quotient ∧
      visits = branch forasync1D low stop quotient factor := by
  have hrun := h
  simp only [parallelBranch, Option.bind_eq_bind, Option.bind_eq_some_iff] at h
  obtain ⟨quotient, hquotient, size, hsize, low, hlow, remainder, hremainder, _⟩ := h
  simp only [Op.eval, Op.within, Option.ite_none_right_eq_some, Option.some.injEq] at hsize
  obtain ⟨hfits, rfl⟩ := hsize
  rw [remainderLoop_eq highBound hfits] at hremainder
  obtain ⟨stop, hstops, _⟩ := stops_of_runLoop hremainder
  have hvalues : TextValues lowBound highBound factor low stop quotient := ⟨hlow, hquotient, hstops⟩
  rw [parallelBranch_eq hvalues, Option.ite_none_right_eq_some, Option.some.injEq] at hrun
  exact ⟨low, stop, quotient, hvalues, hrun.2.symm⟩

theorem TextValues.unique {low' stop' quotient' : Int}
    (h : TextValues lowBound highBound factor low stop quotient)
    (h' : TextValues lowBound highBound factor low' stop' quotient') :
    low = low' ∧ stop = stop' ∧ quotient = quotient' := by
  have hquotient := Option.some.inj (h.value_quotient.symm.trans h'.value_quotient)
  subst hquotient
  exact ⟨Option.some.inj (h.value_low.symm.trans h'.value_low), h.stops.unique h'.stops, rfl⟩

section

variable (once : ∀ ld, (forasync1D ld).Perm (ForasyncAny.indices ld ld.low))
include once

theorem parallelBranch_some (h : TextValues lowBound highBound factor low stop quotient)
    (hlow : 0 ≤ low ∨ quotient ≤ low) :
    parallelBranch forasync1D lowBound highBound factor =
      some (branch forasync1D low stop quotient factor) := by
  rw [parallelBranch_eq h, if_pos (startFits_all once h.stops.start_fits hlow)]

theorem parallelBranch_iff {loop : ForLoop} (hlow : 0 ≤ loop.lowBound)
    (hle : loop.lowBound ≤ loop.highBound) (hfactor : 0 ≤ factor) :
    Exactly (parallelBranch forasync1D lowBound highBound factor) loop.indices ↔
    ∃ low stop quotient, TextValues lowBound highBound factor low stop quotient ∧
      TilesMeet loop factor low stop quotient := by
  have hpos := ltile_pos hfactor
  have hindices : ∀ {low stop quotient}, ltile factor * quotient ≤ stop →
      ((branch forasync1D low stop quotient factor).Perm loop.indices ↔
        TilesMeet loop factor low stop quotient) := by
    intro low stop quotient hstop
    have hperm := branch_perm once low hstop
    rw [first, if_pos hpos] at hperm
    have hswap : (branch forasync1D low stop quotient factor).Perm loop.indices ↔
        (Int.range (min (low * ltile factor) (ltile factor * quotient)) stop).Perm loop.indices :=
      ⟨hperm.symm.trans, hperm.trans⟩
    rw [hswap, ForLoop.indices, TilesMeet, range_perm_iff, le_min_iff]
    constructor
    · rintro (⟨⟨htile, hsize⟩, hempty⟩ | h)
      · have heq := le_antisymm hsize hstop
        exact .inr ⟨le_antisymm hle hempty, heq, heq ▸ htile⟩
      · exact .inl h
    · rintro (h | ⟨hempty, heq, htile⟩)
      · exact .inr h
      · exact .inl ⟨⟨heq.trans_le htile, heq.le⟩, hempty.ge⟩
  constructor
  · rintro ⟨visits, hvisits, hperm⟩
    obtain ⟨low, stop, quotient, hvalues, rfl⟩ := values_of_some hvisits
    exact ⟨low, stop, quotient, hvalues, (hindices hvalues.stops.le).mp hperm⟩
  · rintro ⟨low, stop, quotient, hvalues, h⟩
    have hstart : 0 ≤ low ∨ quotient ≤ low := by
      rcases h with ⟨hfirst, _⟩ | ⟨_, _, htile⟩
      · left
        have hge : 0 ≤ low * ltile factor := (hlow.trans hfirst.ge).trans (min_le_left _ _)
        exact nonneg_of_mul_nonneg_left hge hpos
      · right
        rw [mul_comm] at htile
        exact le_of_mul_le_mul_right htile hpos
    exact ⟨_, parallelBranch_some once hvalues hstart, (hindices hvalues.stops.le).mpr h⟩

end

def acrossIndices (low stop quotient small seqStop factor : Int) : List Int :=
  (if small = 0 then [] else Int.range low seqStop) ++ Int.range (first low quotient factor) stop

theorem acrossLoop_perm (once : ∀ ld, (forasync1D ld).Perm (ForasyncAny.indices ld ld.low))
    (h : AcrossValues lowBound highBound seqLimit factor low stop quotient small seqStop)
    (hlow : 0 ≤ low ∨ quotient ≤ low) :
    ∃ visits, acrossLoop forasync1D seqLimit lowBound highBound factor = some visits ∧
      visits.Perm (acrossIndices low stop quotient small seqStop factor) := by
  have hbefore : seqForloop seqLimit lowBound highBound =
      some (if small = 0 then [] else Int.range low seqStop) := by
    rw [seqForloop, h.value_small, Option.bind_some]
    by_cases hsmall : small = 0
    · rw [if_pos hsmall, if_pos hsmall]
    · rw [if_neg hsmall, if_neg hsmall, h.value_low, Option.bind_some, runLoop_stops (h.seq_stops hsmall)]
  refine ⟨_, ?_, (branch_perm once low h.stops.le).append_left _⟩
  simp only [acrossLoop, hbefore, parallelBranch_some once h.toTextValues hlow,
    Option.bind_eq_bind, Option.bind_some, Option.pure_def]

theorem acrossLoop_values (h : acrossLoop forasync1D seqLimit lowBound highBound factor = some visits) :
    ∃ low stop quotient small seqStop,
      AcrossValues lowBound highBound seqLimit factor low stop quotient small seqStop := by
  simp only [acrossLoop, seqForloop, Option.bind_eq_bind, Option.bind_eq_some_iff] at h
  obtain ⟨before, ⟨small, hsmall, hbefore⟩, branch, hbranch, _⟩ := h
  obtain ⟨low, stop, quotient, hvalues, _⟩ := values_of_some hbranch
  by_cases hzero : small = 0
  · exact ⟨low, stop, quotient, small, low, hvalues, hsmall, fun hne => absurd hzero hne⟩
  · rw [if_neg hzero, hvalues.value_low, Option.bind_some] at hbefore
    obtain ⟨seqStop, hseq, _⟩ := stops_of_runLoop hbefore
    exact ⟨low, stop, quotient, small, seqStop, hvalues, hsmall, fun _ => hseq⟩

end Texts

section Operands

variable {low high factor : Int}

theorem sizeB_bounds (hhigh : 0 ≤ high) (hfactor : 0 ≤ factor) :
    0 ≤ chunks high factor ∧ chunks high factor ≤ sizeB high factor ∧ sizeB high factor ≤ high := by
  have hpos := ltile_pos hfactor
  have hchunks : 0 ≤ chunks high factor := Int.tdiv_nonneg hhigh hpos.le
  have hmod := Int.mul_tdiv_add_tmod high (ltile factor)
  have hrest := Int.tmod_nonneg (ltile factor) hhigh
  refine ⟨hchunks, le_mul_of_one_le_left hchunks hpos, ?_⟩
  simp only [sizeB, chunks]
  omega

theorem sizeB_neg (high factor : Int) :
    chunks (-high) factor = -chunks high factor ∧ sizeB (-high) factor = -sizeB high factor := by
  simp [sizeB, chunks, Int.neg_tdiv]

theorem sizeB_fits (hhigh : inInt high = true) (hfactor : 0 ≤ factor) :
    inInt (chunks high factor) = true ∧ inInt (sizeB high factor) = true := by
  rw [inInt_iff] at hhigh ⊢
  rw [inInt_iff]
  rcases le_total 0 high with hnonneg | hneg
  · have hbounds := sizeB_bounds hnonneg hfactor
    omega
  · have hbounds := sizeB_bounds (Int.neg_nonneg.mpr hneg) hfactor
    rw [(sizeB_neg high factor).1, (sizeB_neg high factor).2] at hbounds
    omega

theorem level_le (o : Op) : o.level ≤ 9 := by
  cases o <;> decide

section Terms

variable {e : Expr Op (Option (Option Int))} {x : Int} {lowBound : CText}
  (he : e.Plain cOperators 10) (hx : (e.value cOperators).join = some x)
include he hx

theorem value_term_paste (o : Op) (y : Int) :
    value (e.text.paste (.op o) (int y)) = o.apply inInt 32 (some x) (some y) := by
  have hplain : (Expr.op o e (.atom (some (some y)))).Plain cOperators 0 :=
    ⟨Nat.zero_le _, Expr.plain_mono he (Nat.succ_le_succ (level_le o)), trivial⟩
  have hvalue := congrArg Option.join (Expr.value_text hplain)
  rw [Option.join_eq_some_iff] at hx
  rwa [Expr.value, hx] at hvalue

theorem below_term (i : Int) : below e.text i = Op.truth (i < x) := by
  have hplain : (Expr.op .lt (.atom (some (some i))) e).Plain cOperators 0 :=
    ⟨Nat.zero_le _, trivial, Expr.plain_mono he (by decide)⟩
  have hvalue := congrArg Option.join (Expr.value_text hplain)
  rw [Option.join_eq_some_iff] at hx
  rwa [Expr.value, hx] at hvalue

/-- A product of operands is pasted with its value. -/
theorem term_values (hlow : value lowBound = some low) (hint : inInt x = true) (hfactor : 0 ≤ factor) :
    TextValues lowBound e.text factor low (max x (sizeB x factor)) (chunks x factor) where
  value_low := hlow
  value_quotient := by
    rw [value_term_paste he hx]
    exact (if_neg (ltile_ne factor)).trans (if_pos (sizeB_fits hint hfactor).1)
  stops := stops_of_lt (below_term he hx) (sizeB_fits hint hfactor).2 hint

theorem term_across (seqLimit : Int) (hlow : value lowBound = some low) (hlowint : inInt low = true)
    (hint : inInt x = true) (hfactor : 0 ≤ factor) :
    AcrossValues lowBound e.text seqLimit factor low (max x (sizeB x factor)) (chunks x factor)
      (if x ≤ seqLimit then 1 else 0) (max x low) where
  toTextValues := term_values he hx hlow hint hfactor
  value_small := value_term_paste he hx .le seqLimit
  seq_stops _ := stops_of_lt (below_term he hx) hlowint hint

omit hx in
theorem not_across {seqLimit stop quotient small seqStop : Int}
    (hvalue : (e.value cOperators).join = none) :
    ¬AcrossValues lowBound e.text seqLimit factor low stop quotient small seqStop := by
  intro h
  have hplain : (Expr.op .div e (.atom (some (some (ltile factor))))).Plain cOperators 0 :=
    ⟨Nat.zero_le _, Expr.plain_mono he (le_refl _), trivial⟩
  have hquotient := (congrArg Option.join (Expr.value_text hplain)).symm.trans h.value_quotient
  rw [Expr.value] at hquotient
  rcases Option.join_eq_none_iff.mp hvalue with hnone | hnone <;>
    rw [hnone] at hquotient <;> cases hquotient

end Terms

theorem value_int_paste (o : Op) (x y : Int) :
    value ((int x).paste (.op o) (int y)) = o.apply inInt 32 (some x) (some y) :=
  congrArg Option.join (Text.value_num_paste (some x) (some y) o)

theorem low_mul_ltile (low : Int) (hfactor : 0 ≤ factor) :
    low * ltile factor = low ↔ low = 0 ∨ factor ≤ 1 := by
  have hone : ltile factor = 1 ↔ factor ≤ 1 := by
    unfold ltile
    split <;> omega
  rw [← hone]
  constructor
  · intro h
    by_cases hzero : low = 0
    · exact .inl hzero
    · exact .inr (Int.eq_one_of_mul_eq_self_right hzero h)
  · rintro (h | h) <;> simp [h]

/-- The bounds of the loop and the start of the tiles have to meet: the first
tile is 0, or a tile is an index, or all tiles are left out. -/
theorem start_eq_low (hlow : 0 ≤ low) (hle : low ≤ high) (hfactor : 0 ≤ factor) :
    min (low * ltile factor) (sizeB high factor) = low ↔
      low = 0 ∨ factor ≤ 1 ∨ sizeB high factor = low := by
  have hstart := low_mul_ltile low hfactor
  have hge : low ≤ low * ltile factor := le_mul_of_one_le_right hlow (ltile_pos hfactor)
  obtain ⟨hchunks, hsize, _⟩ := sizeB_bounds (hlow.trans hle) hfactor
  have hunit : factor ≤ 1 → sizeB high factor = high := by
    intro h
    have hone : ltile factor = 1 := by
      unfold ltile
      split <;> omega
    simp [sizeB, chunks, hone]
  rw [← or_assoc, ← hstart]
  constructor
  · intro h
    rcases min_choice (low * ltile factor) (sizeB high factor) with hmin | hmin <;>
      rw [hmin] at h
    · exact .inl h
    · exact .inr h
  · rintro (h | h)
    · rw [h]
      apply min_eq_left
      rcases hstart.mp h with rfl | hone
      · exact hchunks.trans hsize
      · rw [hunit hone]
        exact hle
    · rw [h]
      exact min_eq_right hge

theorem stop_eq (hhigh : 0 ≤ high) (hfactor : 0 ≤ factor) : max high (sizeB high factor) = high :=
  max_eq_left (sizeB_bounds hhigh hfactor).2.2

theorem value_int (x : Int) : value (int x) = some x := rfl

theorem operand_values {lowBound : CText} (hlow : value lowBound = some low) (hhigh : 0 ≤ high)
    (hint : inInt high = true) (hfactor : 0 ≤ factor) :
    TextValues lowBound (int high) factor low high (chunks high factor) := by
  have hvalues := term_values (e := .atom (some (some high))) trivial rfl hlow hint hfactor
  rwa [stop_eq hhigh hfactor] at hvalues

section

variable {forasync1D : LoopDomain → List Int} {loop : ForLoop}
  (once : ∀ ld, (forasync1D ld).Perm (ForasyncAny.indices ld ld.low))
include once

theorem branch_operand (low : Int) (hhigh : 0 ≤ high) (hfactor : 0 ≤ factor) :
    (branch forasync1D low high (chunks high factor) factor).Perm
      (Int.range (min (low * ltile factor) (sizeB high factor)) high) := by
  have hperm := branch_perm once low (sizeB_bounds hhigh hfactor).2.2
  rwa [first, if_pos (ltile_pos hfactor)] at hperm

theorem branch_aligned (hlow : 0 ≤ loop.lowBound) (hle : loop.lowBound ≤ loop.highBound)
    (hfactor : 0 ≤ factor)
    (haligned : loop.lowBound = 0 ∨ factor ≤ 1 ∨ sizeB loop.highBound factor = loop.lowBound) :
    (branch forasync1D loop.lowBound loop.highBound (chunks loop.highBound factor) factor).Perm
      loop.indices := by
  have hperm := branch_operand once loop.lowBound (hlow.trans hle) hfactor
  rwa [(start_eq_low hlow hle hfactor).mpr haligned] at hperm

theorem operand_iff {lowBound : CText} (hvalue : value lowBound = some loop.lowBound)
    (hfits : inInt loop.highBound = true) (hlow : 0 ≤ loop.lowBound)
    (hle : loop.lowBound ≤ loop.highBound) (hfactor : 0 ≤ factor) :
    Exactly (parallelBranch forasync1D lowBound (int loop.highBound) factor) loop.indices ↔
      loop.lowBound = 0 ∨ factor ≤ 1 ∨ sizeB loop.highBound factor = loop.lowBound := by
  have hvalues := operand_values hvalue (hlow.trans hle) hfits hfactor
  rw [parallelBranch_some once hvalues (.inl hlow)]
  constructor
  · rintro ⟨visits, hvisits, hindices⟩
    cases hvisits
    have hperm := branch_operand once loop.lowBound (hlow.trans hle) hfactor
    have hsize := (sizeB_bounds (hlow.trans hle) hfactor).2.2
    rw [← start_eq_low hlow hle hfactor]
    rcases range_perm_iff.mp (hperm.symm.trans hindices) with ⟨hempty, hloop⟩ | ⟨hstart, _⟩
    · apply le_antisymm
      · exact (min_le_right _ _).trans (hsize.trans hloop)
      · exact hle.trans hempty
    · exact hstart
  · intro haligned
    exact ⟨_, rfl, branch_aligned once hlow hle hfactor haligned⟩

end

end Operands

section Kept

variable {α : Type} {mark : Op → Bool} {t : Text Op α}

def Avoids (mark : Op → Bool) (t : Text Op α) : Prop := ∀ o, .op o ∈ t.rest.map Prod.fst → mark o = false

theorem splitRest_avoids {rest : List (Token Op × α)}
    (h : ∀ o, .op o ∈ rest.map Prod.fst → mark o = false) : splitRest mark rest = (rest, none) := by
  induction rest with
  | nil => rfl
  | cons a rest ih =>
      have hrest := ih fun o ho => h o (List.mem_cons_of_mem _ ho)
      obtain ⟨token, a⟩ := a
      cases token with
      | op o => simp [splitRest, h o List.mem_cons_self, hrest]
      | question => simp [splitRest, hrest]
      | colon => simp [splitRest, hrest]

theorem split_avoids (h : Avoids mark t) : split mark t = (t, none) := by
  rw [split, splitRest_avoids h]

theorem avoids_map {β : Type} (f : α → β) (h : Avoids mark t) : Avoids mark (t.map f) := by
  intro o ho
  apply h o
  simpa [Text.map, Function.comp_def] using ho

/-- An expression that is the same without its parentheses and every "for". -/
structure Kept (e : Expr Op Name) (level : Nat) : Prop where
  plain : e.Plain cOperators level
  no_for : e.map replaceAll = e
  no_equal : Avoids hasEqual e.text

/-- The upper bound is pasted as one operand: it is one, or <= puts it into parentheses. -/
def ForLine.Operand {β : Type} (line : ForLine β) : Prop :=
  line.le = true ∧ Kept line.high (Op.add.level + 1) ∨
    ∃ name, line.high = .atom name ∧ replaceAll name = name

variable {env : Scope} {e : Expr Op Name} {level : Nat} {high : Int}

/-- The upper bound has none of these iterators in it. -/
def ForLine.Fixed {β : Type} (itrs : List Name) (line : ForLine β) : Prop :=
  ∀ name ∈ line.high.atoms, replaceAll name ∉ itrs

instance {β : Type} (itrs : List Name) (line : ForLine β) : Decidable (line.Fixed itrs) :=
  inferInstanceAs (Decidable (∀ name ∈ _, _))

theorem highText_fixed {β : Type} {line : ForLine β} {itrs : List Name} {env' : Scope}
    (h : line.Fixed itrs) (henv : ∀ name, name ∉ itrs → env' name = env name) :
    line.highText env' = line.highText env := by
  have hmap : line.high.map (env' ∘ replaceAll) = line.high.map (env ∘ replaceAll) :=
    Expr.map_congr fun name hname => henv _ (h name hname)
  have hstripped : ForLine.stripped env' line.high = ForLine.stripped env line.high := by
    rw [ForLine.stripped, ForLine.stripped, ← Expr.map_text, ← Expr.map_text, ← Expr.map_text,
      Expr.map_map, Expr.map_map, hmap]
  rw [ForLine.highText, ForLine.highText, hstripped]

theorem stripped_kept (h : Kept e level) :
    ForLine.stripped env e = (e.map env).text := by
  rw [ForLine.stripped, ← Expr.map_text, h.no_for, ← Expr.map_text]

theorem split_kept (h : Kept e level) :
    split hasEqual (ForLine.stripped env e) = (ForLine.stripped env e, none) := by
  rw [stripped_kept h, Expr.map_text]
  exact split_avoids (avoids_map _ h.no_equal)

theorem ForLine.loop_values {line : ForLine (Expr Op Name)} {loop : ForLoop}
    (h : line.loop env = some loop) :
    valueIn env line.low = some loop.lowBound ∧ line.highValue env = some loop.highBound ∧
      inInt loop.highBound = true := by
  simp only [ForLine.loop, Option.bind_eq_bind, Option.bind_eq_some_iff] at h
  obtain ⟨low, hlow, high, hhigh, hloop⟩ := h
  cases hloop
  refine ⟨hlow, hhigh, ?_⟩
  simp only [ForLine.highValue, Option.bind_eq_bind, Option.bind_eq_some_iff,
    Option.ite_none_right_eq_some] at hhigh
  obtain ⟨_, _, hfits, heq⟩ := hhigh
  rwa [← Option.some.inj heq]

theorem lowText_kept {line : ForLine (Expr Op Name)} (h : Kept line.low 0) :
    value (line.lowText env) = ForLine.valueIn env line.low := by
  rw [ForLine.lowText, split_kept h, stripped_kept h]
  exact congrArg Option.join (Expr.value_text (Expr.plain_map _ h.plain))

theorem plusOne_kept (h : Kept e (Op.add.level + 1)) (hvalue : ForLine.valueIn env e = some high)
    (hfits : inInt (high + 1) = true) : plusOne (ForLine.stripped env e) = int (high + 1) := by
  rw [ForLine.valueIn, Option.join_eq_some_iff] at hvalue
  rw [plusOne, split_kept h, stripped_kept h]
  have hplain : (Expr.op .add (e.map env)
      (.atom (some (some 1)))).Plain cOperators 0 :=
    ⟨Nat.zero_le _, Expr.plain_map _ h.plain, trivial⟩
  apply Text.paren_eq_num
  apply (Expr.value_text hplain).trans
  rw [Expr.value, hvalue]
  exact congrArg some (if_pos hfits)

theorem kept_name {name : Name} (h : replaceAll name = name) (level : Nat) : Kept (.atom name) level where
  plain := trivial
  no_for := congrArg Expr.atom h
  no_equal _ ho := absurd ho List.not_mem_nil

theorem highText_operand {β : Type} {line : ForLine β} (h : line.Operand)
    (hhigh : line.highValue env = some high) : line.highText env = int high := by
  simp only [ForLine.highValue, Option.bind_eq_bind, Option.bind_eq_some_iff] at hhigh
  obtain ⟨value, hvalue, hstop⟩ := hhigh
  rw [Option.ite_none_right_eq_some, Option.some.injEq] at hstop
  obtain ⟨hfits, rfl⟩ := hstop
  by_cases hle : line.le = true
  · have hkept : Kept line.high (Op.add.level + 1) := by
      rcases h with ⟨_, hkept⟩ | ⟨name, hname, hfor⟩
      · exact hkept
      · rw [hname]
        exact kept_name hfor _
    simp only [if_pos hle] at hfits ⊢
    rw [ForLine.highText, if_pos hle]
    exact plusOne_kept hkept hvalue hfits
  · obtain ⟨name, hname, hfor⟩ := h.resolve_left fun hplus => hle hplus.1
    rw [hname, ForLine.valueIn, Option.join_eq_some_iff] at hvalue
    rw [ForLine.highText, if_neg hle, if_neg hle, hname, stripped_kept (kept_name hfor 0)]
    exact congrArg (Text.mk · []) hvalue

end Kept

end HabaneroUpc.OmpToHcupc
