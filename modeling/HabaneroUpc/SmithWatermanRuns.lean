import HabaneroUpc.SmithWaterman
import Mathlib.Algebra.Order.Ring.Int

namespace HabaneroUpc.SmithWaterman

open HabaneroUpc.Alignment Dataflow Interleaving

namespace Config

variable (c : Config)

def initDiag : List (Stmt (Nat × Nat) Nat (List Int)) := [.put (c.guid .diag 0 0) [0]]

def initTop (j : Nat) : List (Stmt (Nat × Nat) Nat (List Int)) :=
  [.put (c.guid .bottom 0 j) ((List.range c.innerTileWidth).map fun index =>
      gapPenalty * ((j - 1) * c.innerTileWidth + index + 1 : Nat)),
    .put (c.guid .diag 0 j) [gapPenalty * (j * c.innerTileWidth : Nat)]]

def initLeft (i : Nat) : List (Stmt (Nat × Nat) Nat (List Int)) :=
  [.put (c.guid .right i 0) ((List.range c.innerTileHeight).map fun index =>
      gapPenalty * ((i - 1) * c.innerTileHeight + index + 1 : Nat)),
    .put (c.guid .diag i 0) [gapPenalty * (i * c.innerTileHeight : Nat)]]

def onHome (rank i j : Nat) (stmts : List (Stmt (Nat × Nat) Nat (List Int))) :
    List (Stmt (Nat × Nat) Nat (List Int)) :=
  if rank = c.ddfHome (i * c.jDomain + j) then stmts else []

def main (rank : Nat) : List (Stmt (Nat × Nat) Nat (List Int)) :=
  c.onHome rank 0 0 c.initDiag ++
    (List.range' 1 (c.jDomain - 1)).flatMap (fun j => c.onHome rank 0 j (c.initTop j)) ++
    (List.range' 1 (c.iDomain - 1)).flatMap (fun i => c.onHome rank i 0 (c.initLeft i)) ++
    (List.range' 1 (c.iDomain - 1)).flatMap fun i =>
      (List.range' 1 (c.jDomain - 1)).flatMap fun j => c.onHome rank i j [.await (i, j)]

def needs (t : Nat × Nat) : List Nat :=
  [c.guid .right t.1 (t.2 - 1), c.guid .bottom (t.1 - 1) t.2, c.guid .diag (t.1 - 1) (t.2 - 1)]

def outs (t : Nat × Nat) : List Nat :=
  [c.guid .diag t.1 t.2, c.guid .right t.1 t.2, c.guid .bottom t.1 t.2]

def puts (t : Nat × Nat) (get : Nat → Option (List Int)) : List (Nat × List Int) :=
  let tile := c.currTile t.1 t.2 get
  [(c.guid .diag t.1 t.2, [tile c.innerTileHeight c.innerTileWidth]),
    (c.guid .right t.1 t.2,
      (List.range c.innerTileHeight).map fun index => tile (index + 1) c.innerTileWidth),
    (c.guid .bottom t.1 t.2,
      (List.range c.innerTileWidth).map fun index => tile c.innerTileHeight (index + 1))]

def home (guid : Nat) : Fin c.nproc := ⟨c.ddfHome guid, Nat.mod_lt _ c.nproc_pos⟩

/-- The program that all ranks run. How the value of a DDF comes from its home to
a rank that awaits it is modelled in Dddf; here it is one step. -/
def program : Program (Fin c.nproc) (Nat × Nat) Nat (List Int) where
  home := c.home
  main rank := c.main rank
  needs := c.needs
  outs := c.outs
  puts := c.puts
  puts_outs _ _ := rfl

abbrev State := Global (Fin c.nproc) (Place (Nat × Nat) Nat (List Int)) (Nat → Option (List Int))

def score (s : c.State) : Option Int :=
  let guid := c.guid .bottom (c.iDomain - 1) (c.jDomain - 1)
  ((s.proc (c.home guid)).cells guid).bind fun data => data[c.innerTileWidth - 1]?

def block : Corner → Nat → Nat → List Int
  | .bottom, i, j => (List.range c.innerTileWidth).map fun k =>
      c.table (i * c.innerTileHeight) ((j - 1) * c.innerTileWidth + (k + 1))
  | .right, i, j => (List.range c.innerTileHeight).map fun k =>
      c.table ((i - 1) * c.innerTileHeight + (k + 1)) (j * c.innerTileWidth)
  | .diag, i, j => [c.table (i * c.innerTileHeight) (j * c.innerTileWidth)]

def val (guid : Nat) : List Int :=
  let i := guid % c.tagOffset / c.jDomain
  let j := guid % c.tagOffset % c.jDomain
  match guid / c.tagOffset with
  | 0 => c.block .bottom i j
  | 1 => c.block .right i j
  | _ => c.block .diag i j

end Config

variable {c : Config} {i j i' j' : Nat} {corner corner' : Corner}

section Guids

theorem index_lt (hi : i < c.iDomain) (hj : j < c.jDomain) : i * c.jDomain + j < c.tagOffset := by
  have hle := Nat.mul_le_mul_right c.jDomain (show i + 1 ≤ c.iDomain from hi)
  rw [Nat.succ_mul] at hle
  simp only [Config.tagOffset]
  omega

theorem guid_fits (hi : i < c.iDomain) (hj : j < c.jDomain) : c.guid corner i j < 2 ^ 31 := by
  have htag : corner.tag * c.tagOffset ≤ 2 * c.tagOffset := by
    apply Nat.mul_le_mul_right
    cases corner <;> decide
  have hindex := index_lt hi hj
  have hfit : 3 * c.tagOffset ≤ 2 ^ 31 := c.guids_fit
  rw [Config.guid]
  omega

theorem guid_div (hi : i < c.iDomain) (hj : j < c.jDomain) :
    c.guid corner i j / c.tagOffset = corner.tag := by
  have hlt := index_lt hi hj
  rw [Config.guid, Nat.add_assoc, Nat.mul_comm, Nat.mul_add_div (by omega), Nat.div_eq_of_lt hlt,
    Nat.add_zero]

theorem guid_mod (hi : i < c.iDomain) (hj : j < c.jDomain) :
    c.guid corner i j % c.tagOffset = i * c.jDomain + j := by
  rw [Config.guid, Nat.add_assoc, Nat.mul_comm, Nat.mul_add_mod, Nat.mod_eq_of_lt (index_lt hi hj)]

theorem guid_row (hi : i < c.iDomain) (hj : j < c.jDomain) :
    c.guid corner i j % c.tagOffset / c.jDomain = i := by
  rw [guid_mod hi hj, Nat.mul_comm, Nat.mul_add_div c.jDomain_pos, Nat.div_eq_of_lt hj, Nat.add_zero]

theorem guid_col (hi : i < c.iDomain) (hj : j < c.jDomain) :
    c.guid corner i j % c.tagOffset % c.jDomain = j := by
  rw [guid_mod hi hj, Nat.mul_comm, Nat.mul_add_mod, Nat.mod_eq_of_lt hj]

theorem tag_injective (h : corner.tag = corner'.tag) : corner = corner' := by
  cases corner <;> cases corner' <;> simp_all [Corner.tag]

theorem guid_injective (hi : i < c.iDomain) (hj : j < c.jDomain) (hi' : i' < c.iDomain)
    (hj' : j' < c.jDomain) (h : c.guid corner i j = c.guid corner' i' j') :
    corner = corner' ∧ i = i' ∧ j = j' := by
  refine ⟨tag_injective ?_, ?_, ?_⟩
  · calc corner.tag = c.guid corner i j / c.tagOffset := (guid_div hi hj).symm
      _ = corner'.tag := by rw [h, guid_div hi' hj']
  · calc i = c.guid corner i j % c.tagOffset / c.jDomain := (guid_row hi hj).symm
      _ = i' := by rw [h, guid_row hi' hj']
  · calc j = c.guid corner i j % c.tagOffset % c.jDomain := (guid_col hi hj).symm
      _ = j' := by rw [h, guid_col hi' hj']

theorem ddfHome_guid (hi : i < c.iDomain) (hj : j < c.jDomain) :
    c.ddfHome (c.guid corner i j) = i % c.nproc := by
  rw [Config.ddfHome, guid_row hi hj]

theorem ddfHome_index (hi : i < c.iDomain) (hj : j < c.jDomain) :
    c.ddfHome (i * c.jDomain + j) = i % c.nproc := by
  have hbottom : c.guid .bottom i j = i * c.jDomain + j := by
    rw [Config.guid, Corner.tag, Nat.zero_mul, Nat.zero_add]
  rw [← hbottom, ddfHome_guid hi hj]

theorem val_guid (hi : i < c.iDomain) (hj : j < c.jDomain) :
    c.val (c.guid corner i j) = c.block corner i j := by
  simp only [Config.val, guid_div hi hj, guid_row hi hj, guid_col hi hj]
  cases corner <;> rfl

theorem ddfSize_guid (hi : i < c.iDomain) (hj : j < c.jDomain) :
    c.ddfSize (c.guid corner i j) = some (c.block corner i j).length := by
  simp only [Config.ddfSize, guid_div hi hj]
  cases corner <;> simp [Corner.tag, Config.block]

end Guids

section Main

def stmtsAt (c : Config) : Nat × Nat → List (Stmt (Nat × Nat) Nat (List Int))
  | (0, 0) => c.initDiag
  | (0, j + 1) => c.initTop (j + 1)
  | (i + 1, 0) => c.initLeft (i + 1)
  | (i + 1, j + 1) => [.await (i + 1, j + 1)]

def positions (c : Config) : List (Nat × Nat) :=
  [(0, 0)] ++ (List.range' 1 (c.jDomain - 1)).map (fun j => (0, j)) ++
    (List.range' 1 (c.iDomain - 1)).map (fun i => (i, 0)) ++
    List.range' 1 (c.iDomain - 1) ×ˢ List.range' 1 (c.jDomain - 1)

theorem mem_positions {p : Nat × Nat} : p ∈ positions c ↔ p.1 < c.iDomain ∧ p.2 < c.jDomain := by
  obtain ⟨i, j⟩ := p
  have hi := c.iDomain_pos
  have hj := c.jDomain_pos
  simp only [positions, List.mem_append, List.mem_singleton, List.mem_map, List.mem_range'_1,
    List.mem_product, Prod.mk.injEq]
  constructor
  · rintro (((⟨rfl, rfl⟩ | ⟨j', hj', rfl, rfl⟩) | ⟨i', hi', rfl, rfl⟩) | ⟨hi', hj'⟩) <;> omega
  · rintro ⟨hi', hj'⟩
    rcases Nat.eq_zero_or_pos i with rfl | hpos <;> rcases Nat.eq_zero_or_pos j with rfl | hpos'
    · exact .inl (.inl (.inl ⟨rfl, rfl⟩))
    · exact .inl (.inl (.inr ⟨j, by omega, rfl, rfl⟩))
    · exact .inl (.inr ⟨i, by omega, rfl, rfl⟩)
    · exact .inr (by omega)

theorem nodup_positions (c : Config) : (positions c).Nodup := by
  have hrange (n : Nat) : (List.range' 1 n).Nodup := List.nodup_range'
  have htop : ((List.range' 1 (c.jDomain - 1)).map fun j => (0, j)).Nodup :=
    (hrange _).map fun _ _ h => (Prod.mk.inj h).2
  have hleft : ((List.range' 1 (c.iDomain - 1)).map fun i => (i, 0)).Nodup :=
    (hrange _).map fun _ _ h => (Prod.mk.inj h).1
  refine List.nodup_append'.mpr ⟨List.nodup_append'.mpr ⟨List.nodup_append'.mpr
    ⟨List.nodup_singleton _, htop, ?_⟩, hleft, ?_⟩, (hrange _).product (hrange _), ?_⟩
  · intro p hp hp'
    simp only [List.mem_singleton, List.mem_map, List.mem_range'_1] at hp hp'
    obtain ⟨j, hj, rfl⟩ := hp'
    simp only [Prod.mk.injEq] at hp
    omega
  · intro p hp hp'
    simp only [List.mem_append, List.mem_singleton, List.mem_map, List.mem_range'_1] at hp hp'
    obtain ⟨i, hi, rfl⟩ := hp'
    rcases hp with hp | ⟨j, hj, hp⟩ <;> simp only [Prod.mk.injEq] at hp <;> omega
  · rintro ⟨i, j⟩ hp hp'
    simp only [List.mem_append, List.mem_singleton, List.mem_map, List.mem_range'_1,
      List.mem_product, Prod.mk.injEq] at hp hp'
    rcases hp with (hp | ⟨_, _, hp⟩) | ⟨_, _, hp⟩ <;> omega

theorem flatMap_congr {α β : Type} {l : List α} {f g : α → List β} (h : ∀ a ∈ l, f a = g a) :
    l.flatMap f = l.flatMap g := by
  rw [List.flatMap_def, List.flatMap_def, List.map_congr_left h]

theorem main_eq (c : Config) (rank : Nat) :
    c.main rank = (positions c).flatMap fun p => c.onHome rank p.1 p.2 (stmtsAt c p) := by
  have hsucc {k n : Nat} (hk : k ∈ List.range' 1 n) : ∃ k', k = k' + 1 := by
    rw [List.mem_range'_1] at hk
    exact ⟨k - 1, by omega⟩
  have hproduct (l l' : List Nat) (f : Nat × Nat → List (Stmt (Nat × Nat) Nat (List Int))) :
      (l ×ˢ l').flatMap f = l.flatMap fun i => l'.flatMap fun j => f (i, j) := by
    simp [SProd.sprod, List.product, List.flatMap_assoc, List.flatMap_map]
  simp only [Config.main, positions, List.flatMap_append, List.flatMap_map, hproduct]
  refine congrArg₂ _ (congrArg₂ _ (congrArg₂ _ (by simp [stmtsAt]) ?_) ?_) ?_
  · refine flatMap_congr fun j hj => ?_
    obtain ⟨j, rfl⟩ := hsucc hj
    rfl
  · refine flatMap_congr fun i hi => ?_
    obtain ⟨i, rfl⟩ := hsucc hi
    rfl
  · refine flatMap_congr fun i hi => flatMap_congr fun j hj => ?_
    obtain ⟨i, rfl⟩ := hsucc hi
    obtain ⟨j, rfl⟩ := hsucc hj
    rfl

theorem mem_main {rank : Nat} {stmt : Stmt (Nat × Nat) Nat (List Int)} :
    stmt ∈ c.main rank ↔
      ∃ i j, i < c.iDomain ∧ j < c.jDomain ∧ rank = i % c.nproc ∧ stmt ∈ stmtsAt c (i, j) := by
  rw [main_eq, List.mem_flatMap]
  constructor
  · rintro ⟨⟨i, j⟩, hp, hstmt⟩
    obtain ⟨hi, hj⟩ := mem_positions.mp hp
    rw [Config.onHome, ddfHome_index hi hj] at hstmt
    split at hstmt
    · exact ⟨i, j, hi, hj, ‹_›, hstmt⟩
    · cases hstmt
  · rintro ⟨i, j, hi, hj, hrank, hstmt⟩
    refine ⟨(i, j), mem_positions.mpr ⟨hi, hj⟩, ?_⟩
    rwa [Config.onHome, ddfHome_index hi hj, if_pos hrank]

def cornersAt : Nat × Nat → List Corner
  | (0, 0) => [.diag]
  | (0, _ + 1) => [.bottom, .diag]
  | (_ + 1, 0) => [.right, .diag]
  | (_ + 1, _ + 1) => [.diag, .right, .bottom]

theorem keys_stmtsAt (c : Config) (p : Nat × Nat) :
    (stmtsAt c p).flatMap c.program.keys = (cornersAt p).map fun corner => c.guid corner p.1 p.2 := by
  obtain ⟨i, j⟩ := p
  cases i <;> cases j <;> rfl

theorem nodup_cornersAt (p : Nat × Nat) : (cornersAt p).Nodup := by
  obtain ⟨i, j⟩ := p
  cases i <;> cases j <;> simp [cornersAt]

theorem mem_keys {rank k : Nat} :
    k ∈ (c.main rank).flatMap c.program.keys ↔
      ∃ i j, i < c.iDomain ∧ j < c.jDomain ∧ rank = i % c.nproc ∧
        ∃ corner ∈ cornersAt (i, j), k = c.guid corner i j := by
  have hkeys (i j : Nat) : (∃ stmt ∈ stmtsAt c (i, j), k ∈ c.program.keys stmt) ↔
      ∃ corner ∈ cornersAt (i, j), k = c.guid corner i j := by
    rw [← List.mem_flatMap, keys_stmtsAt, List.mem_map]
    exact exists_congr fun corner => and_congr_right fun _ => eq_comm
  constructor
  · intro hk
    obtain ⟨stmt, hstmt, hk⟩ := List.mem_flatMap.mp hk
    obtain ⟨i, j, hi, hj, hrank, hstmt⟩ := mem_main.mp hstmt
    exact ⟨i, j, hi, hj, hrank, (hkeys i j).mp ⟨stmt, hstmt, hk⟩⟩
  · rintro ⟨i, j, hi, hj, hrank, hcorner⟩
    obtain ⟨stmt, hstmt, hk⟩ := (hkeys i j).mpr hcorner
    exact List.mem_flatMap.mpr ⟨stmt, mem_main.mpr ⟨i, j, hi, hj, hrank, hstmt⟩, hk⟩

theorem nodup_keys (c : Config) (rank : Nat) : ((c.main rank).flatMap c.program.keys).Nodup := by
  have hkeys (p : Nat × Nat) (k : Nat)
      (hk : k ∈ (c.onHome rank p.1 p.2 (stmtsAt c p)).flatMap c.program.keys) :
      ∃ corner, k = c.guid corner p.1 p.2 := by
    rw [Config.onHome] at hk
    split at hk
    · rw [keys_stmtsAt] at hk
      obtain ⟨corner, -, rfl⟩ := List.mem_map.mp hk
      exact ⟨corner, rfl⟩
    · cases hk
  rw [main_eq, List.flatMap_assoc, List.nodup_flatMap]
  constructor
  · intro p hp
    obtain ⟨hi, hj⟩ := mem_positions.mp hp
    rw [Config.onHome]
    split
    · rw [keys_stmtsAt]
      refine (nodup_cornersAt p).map fun a b h => ?_
      exact (guid_injective hi hj hi hj h).1
    · exact List.nodup_nil
  · refine (nodup_positions c).pairwise_of_forall_ne fun p hp p' hp' hne k hk hk' => hne ?_
    obtain ⟨hi, hj⟩ := mem_positions.mp hp
    obtain ⟨hi', hj'⟩ := mem_positions.mp hp'
    obtain ⟨corner, rfl⟩ := hkeys p k hk
    obtain ⟨corner', heq⟩ := hkeys p' _ hk'
    obtain ⟨-, h₁, h₂⟩ := guid_injective hi hj hi' hj' heq
    exact Prod.ext h₁ h₂

end Main

section Values

theorem getD_map_range {n k : Nat} (f : Nat → Int) (h : k < n) :
    ((List.range n).map f).getD k 0 = f k := by
  simp [List.getD, h]

/-- What is got from the neighbours of a tile fills the borders of its curr_tile. -/
theorem border_filled (hi : i + 1 < c.iDomain) (hj : j + 1 < c.jDomain) :
    Filled c i j 0 (Config.border (c.val (c.guid .bottom i (j + 1))) (c.val (c.guid .right (i + 1) j))
      (c.val (c.guid .diag i j))) := by
  have hdiag : (c.val (c.guid .diag i j)).getD 0 0 =
      c.table (i * c.innerTileHeight) (j * c.innerTileWidth) := by
    rw [val_guid (Nat.lt_of_succ_lt hi) (Nat.lt_of_succ_lt hj)]
    rfl
  refine ⟨fun a ha b hb => ?_, fun a ha => ?_⟩
  · obtain rfl := Nat.le_zero.mp ha
    cases b with
    | zero => exact hdiag
    | succ b =>
        rw [Config.border, val_guid (Nat.lt_of_succ_lt hi) hj, Config.block, getD_map_range _ hb]
        rfl
  · cases a with
    | zero => exact hdiag
    | succ a =>
        rw [Config.border, val_guid hi (Nat.lt_of_succ_lt hj), Config.block, getD_map_range _ ha]
        rfl

/-- The step of a tile continues the table. -/
theorem puts_val (hi : i + 1 < c.iDomain) (hj : j + 1 < c.jDomain) {get : Nat → Option (List Int)}
    (hget : ∀ k ∈ c.needs (i + 1, j + 1), get k = some (c.val k)) :
    ∀ kv ∈ c.puts (i + 1, j + 1) get, kv.2 = c.val kv.1 := by
  simp only [Config.needs, List.forall_mem_cons, Nat.add_sub_cancel] at hget
  obtain ⟨hright, hbottom, hdiag, -⟩ := hget
  have hfilled := (relaxTile_filled (border_filled hi hj)).1
  have htile : c.currTile (i + 1) (j + 1) get =
      c.relaxTile (i + 1) (j + 1) (Config.border (c.val (c.guid .bottom i (j + 1)))
        (c.val (c.guid .right (i + 1) j)) (c.val (c.guid .diag i j))) := by
    simp only [Config.currTile, Nat.add_sub_cancel, hright, hbottom, hdiag, Option.getD_some]
  simp only [Config.puts, htile, List.forall_mem_cons]
  refine ⟨?_, ?_, ?_, fun kv hkv => absurd hkv List.not_mem_nil⟩
  · rw [val_guid hi hj, Config.block, hfilled _ (le_refl _) _ (le_refl _), Nat.succ_mul, Nat.succ_mul]
  · rw [val_guid hi hj, Config.block, Nat.add_sub_cancel, Nat.succ_mul j]
    refine List.map_congr_left fun k hk => hfilled _ ?_ _ (le_refl _)
    exact List.mem_range.mp hk
  · rw [val_guid hi hj, Config.block, Nat.add_sub_cancel, Nat.succ_mul i]
    refine List.map_congr_left fun k hk => hfilled _ (le_refl _) _ ?_
    exact List.mem_range.mp hk

theorem init_val {k : Nat} {v : List Int} (hi : i < c.iDomain) (hj : j < c.jDomain)
    (hput : Stmt.put k v ∈ stmtsAt c (i, j)) :
    (∃ corner, k = c.guid corner i j) ∧ v = c.val k := by
  cases i with
  | zero =>
      cases j with
      | zero =>
          obtain ⟨rfl, rfl⟩ := Stmt.put.inj (List.mem_singleton.mp hput)
          refine ⟨⟨_, rfl⟩, ?_⟩
          rw [val_guid hi hj, Config.block, Nat.zero_mul, Nat.zero_mul]
          rfl
      | succ j =>
          simp only [stmtsAt, Config.initTop, List.mem_cons, Stmt.put.injEq, List.not_mem_nil,
            or_false] at hput
          rcases hput with ⟨rfl, rfl⟩ | ⟨rfl, rfl⟩
          · refine ⟨⟨_, rfl⟩, ?_⟩
            rw [val_guid hi hj, Config.block, Nat.zero_mul]
            exact List.map_congr_left fun k _ => (table_top c _).symm
          · refine ⟨⟨_, rfl⟩, ?_⟩
            rw [val_guid hi hj, Config.block, Nat.zero_mul, table_top]
  | succ i =>
      cases j with
      | zero =>
          simp only [stmtsAt, Config.initLeft, List.mem_cons, Stmt.put.injEq, List.not_mem_nil,
            or_false] at hput
          rcases hput with ⟨rfl, rfl⟩ | ⟨rfl, rfl⟩
          · refine ⟨⟨_, rfl⟩, ?_⟩
            rw [val_guid hi hj, Config.block, Nat.zero_mul]
            exact List.map_congr_left fun k _ => (table_left c _).symm
          · refine ⟨⟨_, rfl⟩, ?_⟩
            rw [val_guid hi hj, Config.block, Nat.zero_mul, table_left]
      | succ j => simp [stmtsAt] at hput

theorem home_eq {rank : Fin c.nproc} (hi : i < c.iDomain) (hj : j < c.jDomain)
    (hrank : (rank : Nat) = i % c.nproc) : c.home (c.guid corner i j) = rank := by
  refine Fin.ext ?_
  rw [hrank]
  exact ddfHome_guid hi hj

theorem await_mem {rank : Nat} {t : Nat × Nat} (h : Stmt.await t ∈ c.main rank) :
    ∃ i j, t = (i + 1, j + 1) ∧ i + 1 < c.iDomain ∧ j + 1 < c.jDomain ∧
      rank = (i + 1) % c.nproc := by
  obtain ⟨i, j, hi, hj, hrank, hstmt⟩ := mem_main.mp h
  cases i <;> cases j <;> simp [stmtsAt, Config.initDiag, Config.initTop, Config.initLeft] at hstmt
  exact ⟨_, _, hstmt, hi, hj, hrank⟩

/-- The program computes the table. -/
theorem program_valued (c : Config) : Valued c.program c.val := by
  constructor
  · intro rank k v hput
    obtain ⟨i, j, hi, hj, hrank, hstmt⟩ := mem_main.mp hput
    obtain ⟨⟨corner, rfl⟩, hv⟩ := init_val hi hj hstmt
    exact ⟨home_eq hi hj hrank, hv⟩
  · intro rank t hawait get hget kv hkv
    obtain ⟨i, j, rfl, hi, hj, hrank⟩ := await_mem hawait
    refine ⟨?_, puts_val hi hj hget kv hkv⟩
    have hout : kv.1 ∈ c.outs (i + 1, j + 1) := List.mem_map_of_mem (f := Prod.fst) hkv
    simp only [Config.outs, List.mem_cons, List.not_mem_nil, or_false] at hout
    rcases hout with h | h | h <;> rw [h] <;> exact home_eq hi hj hrank
  · exact fun rank => nodup_keys c rank

theorem mem_keys_main (hi : i < c.iDomain) (hj : j < c.jDomain) (hcorner : corner ∈ cornersAt (i, j)) :
    c.guid corner i j ∈ (c.main (c.home (c.guid corner i j))).flatMap c.program.keys :=
  mem_keys.mpr ⟨i, j, hi, hj, ddfHome_guid hi hj, corner, hcorner, rfl⟩

/-- A tile awaits only tiles of lower diagonals. -/
theorem program_ranked (c : Config) : Ranked c.program fun t => t.1 + t.2 := by
  constructor
  · intro rank t hawait k hk
    obtain ⟨i, j, rfl, hi, hj, -⟩ := await_mem hawait
    have hneeds : k ∈ c.needs (i + 1, j + 1) := hk
    simp only [Config.needs, Nat.add_sub_cancel, List.mem_cons, List.not_mem_nil, or_false] at hneeds
    rcases hneeds with rfl | rfl | rfl
    · refine mem_keys_main hi (by omega) ?_
      cases j <;> simp [cornersAt]
    · refine mem_keys_main (by omega) hj ?_
      cases i <;> simp [cornersAt]
    · refine mem_keys_main (by omega) (by omega) ?_
      cases i <;> cases j <;> simp [cornersAt]
  · intro rank t hawait k hk rank' u hawait' hout
    obtain ⟨i, j, rfl, hi, hj, -⟩ := await_mem hawait
    obtain ⟨i', j', rfl, hi', hj', -⟩ := await_mem hawait'
    have hneeds : k ∈ c.needs (i + 1, j + 1) := hk
    have houts : k ∈ c.outs (i' + 1, j' + 1) := hout
    simp only [Config.needs, Nat.add_sub_cancel, List.mem_cons, List.not_mem_nil, or_false] at hneeds
    simp only [Config.outs, List.mem_cons, List.not_mem_nil, or_false] at houts
    rcases hneeds with rfl | rfl | rfl
    · have heq (corner : Corner) (h : c.guid .right (i + 1) j = c.guid corner (i' + 1) (j' + 1)) :=
        guid_injective hi (by omega) hi' hj' h
      rcases houts with h | h | h <;> have heq' := heq _ h <;> simp only <;> omega
    · have heq (corner : Corner) (h : c.guid .bottom i (j + 1) = c.guid corner (i' + 1) (j' + 1)) :=
        guid_injective (by omega) hj hi' hj' h
      rcases houts with h | h | h <;> have heq' := heq _ h <;> simp only <;> omega
    · have heq (corner : Corner) (h : c.guid .diag i j = c.guid corner (i' + 1) (j' + 1)) :=
        guid_injective (by omega) (by omega) hi' hj' h
      rcases houts with h | h | h <;> have heq' := heq _ h <;> simp only <;> omega

end Values

section Runs

theorem oneTile_guids : 3 * ((1 + 1 / 1 * (1 / 1)) * (1 + 1 / 1 * (1 / 1))) ≤ 2 ^ 31 := by decide

theorem oneTile_scores : 1 + 1 + 2 ≤ 2 ^ 31 := by decide

theorem oneTile_tile : 1 * (1 + 1) < 2 ^ 31 := by decide

theorem oneTile_data : 2 * (4 * max 1 1) < 2 ^ 31 := by decide

def oneTile : Config where
  string1 := [.adenine]
  string2 := [.cytosine]
  outerTileWidth := 1
  outerTileHeight := 1
  innerTileWidth := 1
  innerTileHeight := 1
  nproc := 2
  nproc_pos := Nat.two_pos
  outerTileWidth_pos := Nat.one_pos
  outerTileHeight_pos := Nat.one_pos
  innerTileWidth_dvd := dvd_refl 1
  innerTileHeight_dvd := dvd_refl 1
  guids_fit := oneTile_guids
  scores_fit := oneTile_scores
  tile_fits := oneTile_tile
  data_fit := oneTile_data

def oneTileRun : List (Fin oneTile.nproc × Act (Nat × Nat) Nat (List Int)) :=
  let zero : Fin oneTile.nproc := ⟨0, oneTile.nproc_pos⟩
  let one : Fin oneTile.nproc := ⟨1, Nat.one_lt_two⟩
  [(one, .main), (one, .main), (one, .main), (zero, .main), (zero, .main), (one, .deliver 1),
    (one, .deliver 8), (one, .start (1, 1)), (one, .put [(11, [-2]), (7, [-2]), (3, [-2])]),
    (zero, .main), (one, .put [(7, [-2]), (3, [-2])]), (one, .put [(3, [-2])])]

def oneTileAfter (n : Nat) : oneTile.State := (system oneTile.program).after (oneTileRun.take n)

variable {s : c.State}

/-- Every rank that has a DDF of the matrix sees its block of the plain
recurrence, whatever the order of the steps, and no put is an error. -/
theorem ddfs_agree (hs : Reachable (system c.program) s) :
    (∀ rank corner i j v, i < c.iDomain → j < c.jDomain →
      (s.proc rank).cells (c.guid corner i j) = some v → v = c.block corner i j) ∧
    ∀ rank, (s.proc rank).failed = false := by
  obtain ⟨hplace, -⟩ := inv_reachable (program_valued c) hs
  refine ⟨fun rank corner i j v hi hj hv => ?_, fun rank => (hplace rank).failed⟩
  rw [(hplace rank).cells _ v hv, val_guid hi hj]

theorem ddfs_agree_oneTile : (∀ rank v, ((oneTileAfter 8).proc rank).cells 1 = some v → v = [-1]) ∧
    ∀ rank, ((oneTileAfter 8).proc rank).failed = false :=
  have h := ddfs_agree (after_reachable (system oneTile.program) (oneTileRun.take 8))
  ⟨fun rank v => h.1 rank .bottom 0 1 v (by decide) (by decide), h.2⟩

theorem puts_at_home (hs : Reachable (system c.program) s) (rank : Fin c.nproc) :
    (s.proc rank).assigned.Nodup ∧ ∀ k ∈ (s.proc rank).assigned, k < 2 ^ 31 ∧
      c.ddfHome k = rank ∧ ∃ v, (s.proc rank).cells k = some v ∧ c.ddfSize k = some v.length := by
  obtain ⟨hplace, -⟩ := inv_reachable (program_valued c) hs
  refine ⟨(hplace rank).nodup_assigned (program_valued c), fun k hk => ?_⟩
  have hkeys := (hplace rank).mem_due.mp (Multiset.mem_of_le (assigned_le_due _ _) hk)
  obtain ⟨i, j, hi, hj, hrank, corner, -, rfl⟩ := mem_keys.mp hkeys
  have hhome : c.program.home (c.guid corner i j) = rank := home_eq hi hj hrank
  obtain ⟨v, hv⟩ := Option.ne_none_iff_exists'.mp (((hplace rank).assigned _ hhome).mp hk)
  refine ⟨guid_fits hi hj, (ddfHome_guid hi hj).trans hrank.symm, v, hv, ?_⟩
  rw [(hplace rank).cells _ v hv, val_guid hi hj, ddfSize_guid hi hj]

theorem puts_at_home_oneTile :
    ((oneTileAfter 12).proc ⟨1, Nat.one_lt_two⟩).assigned.Nodup ∧
      oneTile.ddfHome 11 = 1 ∧ oneTile.ddfSize 11 = some 1 := by
  have h := puts_at_home (after_reachable (system oneTile.program) (oneTileRun.take 12))
    ⟨1, Nat.one_lt_two⟩
  exact ⟨h.1, (h.2 11 (by decide +kernel)).2.1, rfl⟩

/-- Every run ends, and when no rank has a step left all tiles have been computed. -/
theorem tiles_complete (hs : Reachable (system c.program) s) :
    (∃ bound, ∀ acts s', (system c.program).run s acts = some s' → acts.length ≤ bound) ∧
    (∃ acts s', (system c.program).run s acts = some s' ∧ ∀ rank, (s'.proc rank).complete) ∧
    ((∀ rank a, (system c.program).next s rank a = none) → ∀ rank, (s.proc rank).complete) := by
  have hpr := program_valued c
  have hrank := program_ranked c
  obtain ⟨hbound, hends⟩ := completes hpr hrank hs
  exact ⟨⟨_, hbound⟩, hends, complete_of_stuck hpr hrank hs⟩

theorem tiles_complete_oneTile :
    ∃ acts s', (system oneTile.program).run (oneTileAfter 5) acts = some s' ∧
      ∀ rank, (s'.proc rank).complete :=
  (tiles_complete (after_reachable (system oneTile.program) (oneTileRun.take 5))).2.1

theorem upTo_getD (l : List Nucleotide) {n : Nat} (hn : n ≤ l.length) :
    upTo (fun k => l.getD k .gap) n = l.take n := by
  refine List.ext_getElem (by simp [upTo, hn]) fun k hk hk' => ?_
  have hlt : k < l.length := lt_of_lt_of_le (by simpa [upTo] using hk) hn
  simp [upTo, List.getD, hlt]

theorem width_eq (c : Config) :
    (c.jDomain - 1) * c.innerTileWidth = c.nOuterTilesWidth * c.outerTileWidth := by
  rw [Config.jDomain, Nat.add_sub_cancel_left, Config.nInnerTilesWidth, Nat.mul_assoc,
    Nat.div_mul_cancel c.innerTileWidth_dvd]

theorem height_eq (c : Config) :
    (c.iDomain - 1) * c.innerTileHeight = c.nOuterTilesHeight * c.outerTileHeight := by
  rw [Config.iDomain, Nat.add_sub_cancel_left, Config.nInnerTilesHeight, Nat.mul_assoc,
    Nat.div_mul_cancel c.innerTileHeight_dvd]

theorem one_lt_jDomain (c : Config) : 1 < c.jDomain ↔ c.outerTileWidth ≤ c.string1.length := by
  have hinner : 0 < c.nInnerTilesWidth :=
    Nat.div_pos (Nat.le_of_dvd c.outerTileWidth_pos c.innerTileWidth_dvd) c.innerTileWidth_pos
  have houter : 0 < c.nOuterTilesWidth ↔ c.outerTileWidth ≤ c.string1.length :=
    Nat.div_pos_iff.trans (and_iff_right c.outerTileWidth_pos)
  rw [← houter, Config.jDomain, Nat.lt_add_right_iff_pos, Nat.mul_pos_iff_of_pos_right hinner]

def alignments (c : Config) : Set (List (Column Nucleotide Nucleotide)) :=
  {cols | Aligns cols (c.string1.take (c.nOuterTilesWidth * c.outerTileWidth))
    (c.string2.take (c.nOuterTilesHeight * c.outerTileHeight))}

theorem table_isGreatest_alignments (c : Config) :
    IsGreatest (Config.scoring.score '' alignments c)
      (c.table ((c.iDomain - 1) * c.innerTileHeight) ((c.jDomain - 1) * c.innerTileWidth)) := by
  have hgreatest := table_isGreatest Config.scoring c.char1 c.char2
    (c.nOuterTilesHeight * c.outerTileHeight) (c.nOuterTilesWidth * c.outerTileWidth)
  rw [width_eq, height_eq]
  have hx : upTo c.char1 (c.nOuterTilesWidth * c.outerTileWidth) = _ :=
    upTo_getD c.string1 (Nat.div_mul_le_self _ _)
  have hy : upTo c.char2 (c.nOuterTilesHeight * c.outerTileHeight) = _ :=
    upTo_getD c.string2 (Nat.div_mul_le_self _ _)
  rwa [hx, hy] at hgreatest

def Config.lastGuid (c : Config) : Nat := c.guid .bottom (c.iDomain - 1) (c.jDomain - 1)

theorem mem_keys_last (c : Config) :
    c.lastGuid ∈ (c.main (c.home c.lastGuid)).flatMap c.program.keys ↔
      c.outerTileWidth ≤ c.string1.length := by
  have hi : c.iDomain - 1 < c.iDomain := Nat.sub_one_lt c.iDomain_pos.ne'
  have hj : c.jDomain - 1 < c.jDomain := Nat.sub_one_lt c.jDomain_pos.ne'
  rw [← one_lt_jDomain, mem_keys]
  constructor
  · rintro ⟨i, j, hi', hj', -, corner, hcorner, heq⟩
    obtain ⟨rfl, rfl, rfl⟩ := guid_injective hi hj hi' hj' heq
    by_contra hle
    have hzero : c.jDomain - 1 = 0 := by omega
    rw [hzero] at hcorner
    cases hrow : c.iDomain - 1 <;> simp [cornersAt, hrow] at hcorner
  · intro hlt
    refine ⟨_, _, hi, hj, ddfHome_guid hi hj, .bottom, ?_, rfl⟩
    obtain ⟨j, hcol⟩ : ∃ j, c.jDomain - 1 = j + 1 := ⟨c.jDomain - 2, by omega⟩
    rw [hcol]
    cases c.iDomain - 1 <;> simp [cornersAt]

theorem last_val (c : Config) : c.val c.lastGuid = c.block .bottom (c.iDomain - 1) (c.jDomain - 1) :=
  val_guid (Nat.sub_one_lt c.iDomain_pos.ne') (Nat.sub_one_lt c.jDomain_pos.ne')

theorem score_isSome (hs : Reachable (system c.program) s) (hcomplete : ∀ rank, (s.proc rank).complete) :
    (c.score s).isSome ↔ c.outerTileWidth ≤ c.string1.length := by
  obtain ⟨hplace, -⟩ := inv_reachable (program_valued c) hs
  have hcell : c.lastGuid ∈ (s.proc (c.home c.lastGuid)).assigned ↔ c.outerTileWidth ≤ c.string1.length := by
    rw [(hplace _).assigned_complete (hcomplete _), Multiset.mem_coe]
    exact mem_keys_last c
  apply Iff.trans ?_ (((hplace _).assigned c.lastGuid rfl).symm.trans hcell)
  change (((s.proc (c.home c.lastGuid)).cells c.lastGuid).bind _).isSome ↔
    (s.proc (c.home c.lastGuid)).cells c.lastGuid ≠ none
  cases hget : (s.proc (c.home c.lastGuid)).cells c.lastGuid with
  | none => simp
  | some data =>
      have hdata := (hplace _).cells _ data hget
      rw [last_val] at hdata
      have hlt := Nat.sub_one_lt c.innerTileWidth_pos.ne'
      simp [hdata, Config.block, hlt]

theorem score_table {m : Int} (hs : Reachable (system c.program) s) (hm : c.score s = some m) :
    m = c.table ((c.iDomain - 1) * c.innerTileHeight) ((c.jDomain - 1) * c.innerTileWidth) := by
  obtain ⟨hplace, -⟩ := inv_reachable (program_valued c) hs
  obtain ⟨data, hget, hm⟩ := Option.bind_eq_some_iff.mp hm
  have hassigned := ((hplace _).assigned c.lastGuid rfl).mpr
    (Option.ne_none_iff_exists'.mpr ⟨data, hget⟩)
  have hlong := (mem_keys_last c).mp
    ((hplace _).mem_due.mp (Multiset.mem_of_le (assigned_le_due _ _) hassigned))
  have hcol : c.jDomain - 1 - 1 + 1 = c.jDomain - 1 := by
    have hlt := (one_lt_jDomain c).mpr hlong
    omega
  have hw := c.innerTileWidth_pos
  have hdata := (hplace _).cells _ data hget
  rw [show c.guid .bottom (c.iDomain - 1) (c.jDomain - 1) = c.lastGuid from rfl, last_val] at hdata
  rw [hdata, Config.block, List.getElem?_map, List.getElem?_range (by omega), Option.map_some,
    Nat.sub_add_cancel hw] at hm
  rw [← Option.some.inj hm, ← Nat.succ_mul, Nat.succ_eq_add_one, hcol]

/-- When the tiles have been computed, main has a score to print if and only if
string_1 fills an outer tile, and the score is that of a best alignment. -/
theorem score_complete (hs : Reachable (system c.program) s)
    (hcomplete : ∀ rank, (s.proc rank).complete) :
    ((c.score s).isSome ↔ c.outerTileWidth ≤ c.string1.length) ∧
      ∀ m, c.score s = some m → IsGreatest (Config.scoring.score '' alignments c) m := by
  refine ⟨score_isSome hs hcomplete, fun m hm => ?_⟩
  rw [score_table hs hm]
  exact table_isGreatest_alignments c

theorem score_complete_oneTile : IsGreatest (Config.scoring.score '' alignments oneTile) (-2) :=
  (score_complete (after_reachable (system oneTile.program) (oneTileRun.take 12))
    (by decide +kernel)).2 (-2) (by decide +kernel)

end Runs

end HabaneroUpc.SmithWaterman
