import HabaneroUpc.Lib.Alignment
import HabaneroUpc.Lib.Dataflow

namespace HabaneroUpc.SmithWaterman

open HabaneroUpc.Alignment

inductive Nucleotide
  | gap | adenine | cytosine | guanine | thymine
  deriving DecidableEq

inductive Corner
  | bottom | right | diag
  deriving DecidableEq

def Corner.tag : Corner → Nat
  | bottom => 0
  | right => 1
  | diag => 2

def gapPenalty : Int := -1
def transitionPenalty : Int := -2
def transversionPenalty : Int := -4
def matchScore : Int := 2

def alignmentScoreMatrix : Nucleotide → Nucleotide → Int
  | .gap, _ => gapPenalty
  | .adenine, .gap => gapPenalty
  | .adenine, .adenine => matchScore
  | .adenine, .cytosine => transversionPenalty
  | .adenine, .guanine => transitionPenalty
  | .adenine, .thymine => transversionPenalty
  | .cytosine, .gap => gapPenalty
  | .cytosine, .adenine => transversionPenalty
  | .cytosine, .cytosine => matchScore
  | .cytosine, .guanine => transversionPenalty
  | .cytosine, .thymine => transitionPenalty
  | .guanine, .gap => gapPenalty
  | .guanine, .adenine => transitionPenalty
  | .guanine, .cytosine => transversionPenalty
  | .guanine, .guanine => matchScore
  | .guanine, .thymine => transversionPenalty
  | .thymine, .gap => gapPenalty
  | .thymine, .adenine => transversionPenalty
  | .thymine, .cytosine => transitionPenalty
  | .thymine, .guanine => transversionPenalty
  | .thymine, .thymine => matchScore

/-- The arguments of main and the ranks of the job, as far as main accepts them and
the guids, the scores, the indices in a tile and those in the shared array of a
DDF are ints. -/
structure Config where
  string1 : List Nucleotide
  string2 : List Nucleotide
  outerTileWidth : Nat
  outerTileHeight : Nat
  innerTileWidth : Nat
  innerTileHeight : Nat
  nproc : Nat
  nproc_pos : 0 < nproc
  outerTileWidth_pos : 0 < outerTileWidth
  outerTileHeight_pos : 0 < outerTileHeight
  innerTileWidth_dvd : innerTileWidth ∣ outerTileWidth
  innerTileHeight_dvd : innerTileHeight ∣ outerTileHeight
  guids_fit : 3 * ((1 + string2.length / outerTileHeight * (outerTileHeight / innerTileHeight)) *
    (1 + string1.length / outerTileWidth * (outerTileWidth / innerTileWidth))) ≤ 2 ^ 31
  scores_fit : string1.length + string2.length + 2 ≤ 2 ^ 31
  tile_fits : innerTileHeight * (1 + innerTileWidth) < 2 ^ 31
  data_fit : nproc * (4 * max innerTileWidth innerTileHeight) < 2 ^ 31

namespace Config

variable (c : Config)

def nOuterTilesWidth : Nat := c.string1.length / c.outerTileWidth
def nOuterTilesHeight : Nat := c.string2.length / c.outerTileHeight
def nInnerTilesWidth : Nat := c.outerTileWidth / c.innerTileWidth
def nInnerTilesHeight : Nat := c.outerTileHeight / c.innerTileHeight
def iDomain : Nat := 1 + c.nOuterTilesHeight * c.nInnerTilesHeight
def jDomain : Nat := 1 + c.nOuterTilesWidth * c.nInnerTilesWidth
def tagOffset : Nat := c.iDomain * c.jDomain

def guid (corner : Corner) (i j : Nat) : Nat := corner.tag * c.tagOffset + i * c.jDomain + j

def ddfHome (guid : Nat) : Nat := guid % c.tagOffset / c.jDomain % c.nproc

/-- DDF_SIZE, the size_distribution_function, in ints; no length is set for any
other tag. -/
def ddfSize (guid : Nat) : Option Nat :=
  match guid / c.tagOffset with
  | 0 => some c.innerTileWidth
  | 1 => some c.innerTileHeight
  | 2 => some 1
  | _ => none

theorem innerTileWidth_pos : 0 < c.innerTileWidth :=
  Nat.pos_of_dvd_of_pos c.innerTileWidth_dvd c.outerTileWidth_pos

theorem iDomain_pos : 0 < c.iDomain := Nat.add_pos_left Nat.one_pos _

theorem jDomain_pos : 0 < c.jDomain := Nat.add_pos_left Nat.one_pos _

def char1 (k : Nat) : Nucleotide := c.string1.getD k .gap
def char2 (k : Nat) : Nucleotide := c.string2.getD k .gap

def relax (i j : Nat) (currTile : Nat → Nat → Int) (ii jj : Nat) : Nat → Nat → Int :=
  let charFrom1 := c.char1 ((j - 1) * c.innerTileWidth + (jj - 1))
  let charFrom2 := c.char2 ((i - 1) * c.innerTileHeight + (ii - 1))
  let diagScore := currTile (ii - 1) (jj - 1) + alignmentScoreMatrix charFrom2 charFrom1
  let leftScore := currTile ii (jj - 1) + alignmentScoreMatrix charFrom1 .gap
  let topScore := currTile (ii - 1) jj + alignmentScoreMatrix .gap charFrom2
  let biggerOfLeftTop := if leftScore > topScore then leftScore else topScore
  Function.update currTile ii (Function.update (currTile ii) jj
    (if biggerOfLeftTop > diagScore then biggerOfLeftTop else diagScore))

def relaxRow (i j : Nat) (currTile : Nat → Nat → Int) (ii : Nat) : Nat → Nat → Int :=
  (List.range' 1 c.innerTileWidth).foldl (fun tile jj => c.relax i j tile ii jj) currTile

def relaxTile (i j : Nat) (currTile : Nat → Nat → Int) : Nat → Nat → Int :=
  (List.range' 1 c.innerTileHeight).foldl (fun tile ii => c.relaxRow i j tile ii) currTile

def border (aboveTileBottomRow leftTileRightColumn diagonalTileBottomRight : List Int) :
    Nat → Nat → Int
  | 0, 0 => diagonalTileBottomRight.getD 0 0
  | 0, jj + 1 => aboveTileBottomRow.getD jj 0
  | ii + 1, 0 => leftTileRightColumn.getD ii 0
  | _ + 1, _ + 1 => 0

def currTile (i j : Nat) (get : Nat → Option (List Int)) : Nat → Nat → Int :=
  c.relaxTile i j (border ((get (c.guid .bottom (i - 1) j)).getD [])
    ((get (c.guid .right i (j - 1))).getD []) ((get (c.guid .diag (i - 1) (j - 1))).getD []))

def scoring : Scoring Nucleotide Nucleotide Int where
  both x y := alignmentScoreMatrix y x
  left x := alignmentScoreMatrix x .gap
  top y := alignmentScoreMatrix .gap y

def table : Nat → Nat → Int := Alignment.table scoring c.char1 c.char2

end Config

theorem gap_right (x : Nucleotide) : alignmentScoreMatrix x .gap = gapPenalty := by
  cases x <;> rfl

variable {c : Config} {i j : Nat} {tile : Nat → Nat → Int}

theorem table_top (c : Config) (j : Nat) : c.table 0 j = gapPenalty * j := by
  induction j with
  | zero => rfl
  | succ j ih =>
      change c.table 0 j + alignmentScoreMatrix (c.char1 j) .gap = _
      rw [ih, gap_right, Nat.cast_add, Nat.cast_one, Int.mul_add, Int.mul_one]

theorem table_left (c : Config) (i : Nat) : c.table i 0 = gapPenalty * i := by
  induction i with
  | zero => rfl
  | succ i ih =>
      change c.table i 0 + gapPenalty = _
      rw [ih, Nat.cast_add, Nat.cast_one, Int.mul_add, Int.mul_one]

theorem table_succ (c : Config) (i j : Nat) :
    c.table (i + 1) (j + 1) =
      max (max (c.table (i + 1) j + alignmentScoreMatrix (c.char1 j) .gap)
        (c.table i (j + 1) + alignmentScoreMatrix .gap (c.char2 i)))
        (c.table i j + alignmentScoreMatrix (c.char2 i) (c.char1 j)) := rfl

section

variable {a b : Nat}

theorem relax_self (h : tile a (b + 1) = c.table (i * c.innerTileHeight + a) (j * c.innerTileWidth + (b + 1)))
    (hleft : tile (a + 1) b = c.table (i * c.innerTileHeight + (a + 1)) (j * c.innerTileWidth + b))
    (hdiag : tile a b = c.table (i * c.innerTileHeight + a) (j * c.innerTileWidth + b)) :
    c.relax (i + 1) (j + 1) tile (a + 1) (b + 1) (a + 1) (b + 1) =
      c.table (i * c.innerTileHeight + (a + 1)) (j * c.innerTileWidth + (b + 1)) := by
  simp only [Config.relax, Function.update_self, Nat.add_sub_cancel, h, hleft, hdiag]
  rw [← Nat.add_assoc, ← Nat.add_assoc, table_succ]
  split <;> split <;> omega

theorem relax_of_ne {ii jj a b : Nat} (h : a ≠ ii ∨ b ≠ jj) : c.relax i j tile ii jj a b = tile a b := by
  simp only [Config.relax]
  by_cases ha : a = ii
  · subst a
    rw [Function.update_self, Function.update_of_ne (h.resolve_left (fun hn => hn rfl))]
  · rw [Function.update_of_ne ha]

def Filled (c : Config) (i j r : Nat) (tile : Nat → Nat → Int) : Prop :=
  (∀ a ≤ r, ∀ b ≤ c.innerTileWidth,
    tile a b = c.table (i * c.innerTileHeight + a) (j * c.innerTileWidth + b)) ∧
  ∀ a ≤ c.innerTileHeight,
    tile a 0 = c.table (i * c.innerTileHeight + a) (j * c.innerTileWidth)

theorem relaxRow_filled {r : Nat} (h : Filled c i j r tile) (hr : r < c.innerTileHeight) :
    Filled c i j (r + 1) (c.relaxRow (i + 1) (j + 1) tile (r + 1)) := by
  have hrow (n : Nat) (hn : n ≤ c.innerTileWidth) :
      let tile' := (List.range' 1 n).foldl (fun t jj => c.relax (i + 1) (j + 1) t (r + 1) jj) tile
      (∀ b ≤ n, tile' (r + 1) b =
        c.table (i * c.innerTileHeight + (r + 1)) (j * c.innerTileWidth + b)) ∧
      ∀ a b, a ≠ r + 1 ∨ b = 0 → tile' a b = tile a b := by
    induction n with
    | zero =>
        refine ⟨fun b hb => ?_, fun a b _ => rfl⟩
        obtain rfl := Nat.le_zero.mp hb
        exact h.2 (r + 1) hr
    | succ n ih =>
        obtain ⟨hleft, hother⟩ := ih (Nat.le_of_succ_le hn)
        rw [List.range'_1_concat, List.foldl_append, Nat.add_comm 1 n]
        simp only [List.foldl_cons, List.foldl_nil]
        refine ⟨fun b hb => ?_, fun a b hab => ?_⟩
        · rcases Nat.lt_or_eq_of_le hb with hb | rfl
          · rw [relax_of_ne (.inr (by omega))]
            exact hleft b (by omega)
          · refine relax_self ?_ (hleft n (le_refl n)) ?_
            · rw [hother r (n + 1) (.inl (by omega))]
              exact h.1 r (le_refl r) (n + 1) hn
            · rw [hother r n (.inl (by omega))]
              exact h.1 r (le_refl r) n (by omega)
        · rw [relax_of_ne (by omega), hother a b hab]
  obtain ⟨hfilled, hother⟩ := hrow c.innerTileWidth (le_refl _)
  refine ⟨fun a ha b hb => ?_, fun a ha => ?_⟩
  · rcases Nat.lt_or_eq_of_le ha with ha | rfl
    · rw [Config.relaxRow, hother a b (.inl (by omega))]
      exact h.1 a (by omega) b hb
    · exact hfilled b hb
  · rw [Config.relaxRow, hother a 0 (.inr rfl)]
    exact h.2 a ha

theorem relaxTile_filled (h : Filled c i j 0 tile) :
    Filled c i j c.innerTileHeight (c.relaxTile (i + 1) (j + 1) tile) := by
  have hrows (n : Nat) (hn : n ≤ c.innerTileHeight) :
      Filled c i j n
        ((List.range' 1 n).foldl (fun t ii => c.relaxRow (i + 1) (j + 1) t ii) tile) := by
    induction n with
    | zero => exact h
    | succ n ih =>
        rw [List.range'_1_concat, List.foldl_append, Nat.add_comm 1 n]
        exact relaxRow_filled (ih (Nat.le_of_succ_le hn)) hn
  exact hrows _ (le_refl _)

end

end HabaneroUpc.SmithWaterman
