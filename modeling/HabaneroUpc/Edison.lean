import HabaneroUpc.TopologyTree

namespace HabaneroUpc.Topology

open Siblings

structure Coords.Valid (x : Coords) : Prop where
  col : 0 ≤ x.col ∧ x.col ≤ 7
  row : 0 ≤ x.row ∧ x.row ≤ 3
  present : x.row = 3 → x.col ≠ 0 ∧ x.col ≠ 1
  chasis : 0 ≤ x.chasis ∧ x.chasis ≤ 2

def Coords.path (x : Coords) : List Int :=
  [(edisonCabinetGroupId x.col x.row).getD 0,
    (edisonChasisIndexInCabinetGroup x.col x.chasis).getD 0, x.blade]

def Coords.SameBlade (x y : Coords) : Prop :=
  x.col = y.col ∧ x.row = y.row ∧ x.chasis = y.chasis ∧ x.blade = y.blade

instance (x y : Coords) : Decidable (x.SameBlade y) := inferInstanceAs (Decidable (_ ∧ _))

variable {h h' : Heap} {root a : Nat} {id myrank : Int} {path : List Int} {x y : Coords} {L : List Coords}
  {t t' : Hpt}

theorem cabinetGroupId_eq (hx : x.Valid) :
    edisonCabinetGroupId x.col x.row = some (4 * x.row + x.col / 2) := by
  rw [edisonCabinetGroupId, if_pos hx.present, maxCabinetGroupInRowOnEdison,
    maxCabinetInOneGroupOnEdison, Int.tdiv_eq_ediv_of_nonneg hx.col.1]

theorem chasisIndex_eq (hx : x.Valid) : edisonChasisIndexInCabinetGroup x.col x.chasis =
    some (if x.col % 2 = 0 then x.chasis + 3 else x.chasis) := by
  have hchasis := hx.chasis
  rw [edisonChasisIndexInCabinetGroup, Int.tmod_eq_emod_of_nonneg hx.col.1, maxChasisOnACabinet]
  apply if_pos
  split <;> omega

theorem path_of {gid chasis : Int} (hgid : edisonCabinetGroupId x.col x.row = some gid)
    (hchasis : edisonChasisIndexInCabinetGroup x.col x.chasis = some chasis) :
    x.path = [gid, chasis, x.blade] := by
  rw [Coords.path, hgid, hchasis]
  rfl

theorem path_eq (hx : x.Valid) :
    x.path = [4 * x.row + x.col / 2, if x.col % 2 = 0 then x.chasis + 3 else x.chasis,
      x.blade] :=
  path_of (cabinetGroupId_eq hx) (chasisIndex_eq hx)

/-- The path of ids tells the physical blades apart. -/
theorem path_injective (hx : x.Valid) (hy : y.Valid) : x.path = y.path ↔ x.SameBlade y := by
  rw [path_eq hx, path_eq hy]
  obtain ⟨hxc, hxr, -, hxh⟩ := hx
  obtain ⟨hyc, hyr, -, hyh⟩ := hy
  simp only [List.cons.injEq, and_true, Coords.SameBlade]
  constructor
  · rintro ⟨hgroup, hchasis, hblade⟩
    split at hchasis <;> split at hchasis <;> refine ⟨?_, ?_, ?_, hblade⟩ <;> omega
  · rintro ⟨hcol, hrow, hchasis, hblade⟩
    rw [hcol, hrow, hchasis]
    exact ⟨rfl, rfl, hblade⟩

theorem prefix_three {i j k : Int} :
    path <+: [i, j, k] ↔ path = [] ∨ path = [i] ∨ path = [i, j] ∨ path = [i, j, k] := by
  simp only [List.prefix_cons_iff, List.prefix_nil]
  constructor
  · rintro (rfl | ⟨_, rfl, rfl | ⟨_, rfl, rfl | ⟨_, rfl, rfl⟩⟩⟩) <;> simp
  · rintro (rfl | rfl | rfl | rfl) <;> simp

/-- The workers stay those that belong to the paths. -/
theorem Added.workers_of (had : Added h h' root path id a) {W : List Int → List Int}
    (hW : ∀ path b, h.At root path b → (h.place b).workers = W path)
    (hnone : ∀ path, W path ≠ [] → ∃ b, h.At root path b) :
    (∀ path b, h'.At root path b → (h'.place b).workers = W path) ∧
      ∀ path, W path ≠ [] → ∃ b, h'.At root path b := by
  have hold {path : List Int} {b : Nat} (hb : h.At root path b) : h'.At root path b :=
    (had.iff path b).mpr (.inl hb)
  refine ⟨fun path' b hb => ?_, fun path' hne => ?_⟩
  · rcases (had.iff path' b).mp hb with hb | ⟨rfl, rfl⟩
    · rw [had.workers path' b hb, hW path' b hb]
    · by_cases hex : ∃ c, h.At root (path ++ [id]) c
      · obtain ⟨c, hc⟩ := hex
        obtain rfl := hb.unique (hold hc)
        rw [had.workers _ b hc, hW _ b hc]
      · rw [had.empty fun c hc => hex ⟨c, hc⟩]
        by_contra hne
        exact hex (hnone _ (Ne.symm hne))
  · obtain ⟨b, hb⟩ := hnone path' hne
    exact ⟨b, hold hb⟩

def levelType : Nat → PlaceType
  | 0 => .root
  | 1 => .cabinetGroup
  | 2 => .chasis
  | _ => .blade

theorem Added.types_of {p : Nat} {type : PlaceType} (had : Added h h' root path id a)
    (hadd : addPlace h p type id = some (a, h'))
    (hallocated : ∀ path b, h.At root path b → b < h.allocated)
    (htypes : ∀ path b, h.At root path b → (h.place b).type = levelType path.length)
    (htype : type = levelType (path.length + 1)) :
    ∀ path b, h'.At root path b → (h'.place b).type = levelType path.length := by
  obtain ⟨hnew, hkept⟩ := addPlace_type hadd
  have ha : h'.At root (path ++ [id]) a := (had.iff _ a).mpr (.inr ⟨rfl, rfl⟩)
  intro path' b hb
  by_cases hba : b = a
  · subst hba
    rw [hnew, htype, hb.path_unique had.tree.top ha, List.length_append, List.length_singleton]
  · rcases (had.iff path' b).mp hb with hb | ⟨-, rfl⟩
    · rw [hkept b (hallocated path' b hb) hba, htypes path' b hb]
    · exact absurd rfl hba

structure Built (L : List Coords) (myrank : Int) (t : Hpt) : Prop where
  tree : Tree t.heap.links t.root
  allocated : ∀ path b, t.heap.At t.root path b → b < t.heap.allocated
  paths : ∀ path, (∃ b, t.heap.At t.root path b) ↔ path = [] ∨ ∃ x ∈ L, path <+: x.path
  workers : ∀ path b, t.heap.At t.root path b →
    (t.heap.place b).workers = (L.filter fun x => x.path = path).map Coords.rank
  types : ∀ path b, t.heap.At t.root path b → (t.heap.place b).type = levelType path.length
  mine : ∀ b, t.myBladePlace = some b ↔ ∃ x ∈ L, x.rank = myrank ∧ t.heap.At t.root x.path b

abbrev Heap.hired (h : Heap) (blade : Nat) (rank : Int) : Heap :=
  h.modify blade fun p => { p with workers := p.workers ++ [rank] }

theorem field_hired {α : Type} (field : PlaceT → α)
    (hf : ∀ x ws, field { x with workers := ws } = field x) (h : Heap) (blade : Nat) (rank : Int)
    (b : Nat) :
    field ((h.hired blade rank).place b) = field (h.place b) :=
  field_modify field (fun x => hf x _) h blade b

theorem links_hired (h : Heap) (blade : Nat) (rank : Int) :
    (h.hired blade rank).links = h.links := by
  simp only [Heap.links, Links.mk.injEq]
  refine ⟨funext ?_, funext ?_, funext ?_, funext ?_, funext ?_⟩
  · exact field_hired PlaceT.parent (fun _ _ => rfl) h blade rank
  · exact field_hired PlaceT.child (fun _ _ => rfl) h blade rank
  · exact field_hired PlaceT.next (fun _ _ => rfl) h blade rank
  · exact field_hired PlaceT.prev (fun _ _ => rfl) h blade rank
  · exact field_hired PlaceT.id (fun _ _ => rfl) h blade rank

theorem places_added {gid chasis : Int} (hpath : x.path = [gid, chasis, x.blade])
    (hb : Built L myrank t) : ∃ g c b h₁ h₂ h₃,
    addPlace t.heap t.root .cabinetGroup gid = some (g, h₁) ∧
    addPlace h₁ g .chasis chasis = some (c, h₂) ∧
    addPlace h₂ c .blade x.blade = some (b, h₃) ∧
    Tree h₃.links t.root ∧ (∀ path b, h₃.At t.root path b → b < h₃.allocated) ∧
    h₃.At t.root x.path b ∧
    (∀ path b, t.heap.At t.root path b → h₃.At t.root path b) ∧
    (∀ path, (∃ b, h₃.At t.root path b) ↔ path = [] ∨ ∃ y ∈ L ++ [x], path <+: y.path) ∧
    (∀ path b, h₃.At t.root path b →
      (h₃.place b).workers = (L.filter fun x => x.path = path).map Coords.rank) ∧
    ∀ path b, h₃.At t.root path b → (h₃.place b).type = levelType path.length := by
  have hnone (path : List Int) (hne : (L.filter fun x => x.path = path).map Coords.rank ≠ []) :
      ∃ b, t.heap.At t.root path b := by
    rw [hb.paths]
    obtain ⟨y, hy⟩ := List.exists_mem_of_ne_nil _ (mt (congrArg (List.map Coords.rank)) hne)
    obtain ⟨hyL, hpath⟩ := List.mem_filter.mp hy
    exact .inr ⟨y, hyL, by rw [of_decide_eq_true hpath]⟩
  obtain ⟨g, h₁, hadd₁, had₁⟩ := addPlace_added hb.tree hb.allocated .root .cabinetGroup gid
  have hg := (had₁.iff _ g).mpr (.inr ⟨rfl, rfl⟩)
  obtain ⟨c, h₂, hadd₂, had₂⟩ := addPlace_added had₁.tree had₁.allocated hg .chasis chasis
  have hc := (had₂.iff _ c).mpr (.inr ⟨rfl, rfl⟩)
  obtain ⟨b, h₃, hadd₃, had₃⟩ := addPlace_added had₂.tree had₂.allocated hc .blade x.blade
  have hblade := (had₃.iff _ b).mpr (.inr ⟨rfl, rfl⟩)
  obtain ⟨hW₁, hn₁⟩ := had₁.workers_of hb.workers hnone
  obtain ⟨hW₂, hn₂⟩ := had₂.workers_of hW₁ hn₁
  have htypes₁ := had₁.types_of hadd₁ hb.allocated hb.types rfl
  have htypes₂ := had₂.types_of hadd₂ had₁.allocated htypes₁ rfl
  have hkept (path : List Int) (b : Nat) (hb : t.heap.At t.root path b) : h₃.At t.root path b :=
    (had₃.iff path b).mpr (.inl ((had₂.iff path b).mpr (.inl ((had₁.iff path b).mpr (.inl hb)))))
  refine ⟨g, c, b, h₁, h₂, h₃, hadd₁, hadd₂, hadd₃, had₃.tree, had₃.allocated, ?_, hkept, ?_,
    (had₃.workers_of hW₂ hn₂).1, had₃.types_of hadd₃ had₂.allocated htypes₂ rfl⟩
  · rw [hpath]
    exact hblade
  · intro path
    have hiff : (∃ b, h₃.At t.root path b) ↔ (∃ b, t.heap.At t.root path b) ∨ path = [] ∨
        path <+: x.path := by
      rw [hpath, prefix_three]
      constructor
      · rintro ⟨b, hb⟩
        rcases (had₃.iff path b).mp hb with hb | ⟨rfl, -⟩
        · rcases (had₂.iff path b).mp hb with hb | ⟨rfl, -⟩
          · rcases (had₁.iff path b).mp hb with hb | ⟨rfl, -⟩
            · exact .inl ⟨b, hb⟩
            · simp
          · simp
        · simp
      · rintro (⟨b, hb⟩ | rfl | rfl | rfl | rfl | rfl)
        · exact ⟨b, hkept path b hb⟩
        · exact ⟨_, .root⟩
        · exact ⟨_, .root⟩
        · exact ⟨g, (had₃.iff _ _).mpr (.inl ((had₂.iff _ _).mpr (.inl hg)))⟩
        · exact ⟨c, (had₃.iff _ _).mpr (.inl hc)⟩
        · exact ⟨b, hblade⟩
    rw [hiff, hb.paths]
    simp only [List.mem_append, List.mem_singleton, or_and_right, exists_or, exists_eq_left]
    rw [or_or_or_comm, or_self]

theorem addRankInBlade_eq {b : Nat} {rank : Int}
    (hroom : (t.heap.place b).workers.length < edisonNodesPerBlade)
    (hmine : rank = myrank → t.myBladePlace = none) : addRankInBlade t b rank myrank =
      some ⟨t.heap.hired b rank, t.root, if rank = myrank then some b else t.myBladePlace⟩ := by
  rw [addRankInBlade, if_neg (not_lt_of_ge hroom)]
  split
  · rename_i h
    rw [if_pos (hmine h)]
  · rfl

/-- One iteration adds the places of the coordinates and the rank in its blade. -/
theorem addCoords_built (hb : Built L myrank t) {gid chasis : Int}
    (hgid : edisonCabinetGroupId x.col x.row = some gid)
    (hchasis : edisonChasisIndexInCabinetGroup x.col x.chasis = some chasis)
    (hfresh : ∀ y ∈ L, y.rank ≠ x.rank)
    (hroom : (L.filter fun y => y.path = x.path).length < edisonNodesPerBlade) :
    ∃ t', addCoords myrank t x = some t' ∧ Built (L ++ [x]) myrank t' := by
  obtain ⟨g, c, b, h₁, h₂, h₃, hadd₁, hadd₂, hadd₃, htree, hallocated, hblade, hkept, hpaths, hworkers,
    htypes⟩ := places_added (path_of hgid hchasis) hb
  have hlinks := links_hired h₃ b x.rank
  have hat (path : List Int) (a : Nat) : (h₃.hired b x.rank).At t.root path a ↔
      h₃.At t.root path a := by
    rw [Heap.At, hlinks]
  have hrank : x.rank = myrank → t.myBladePlace = none := by
    rintro rfl
    rw [Option.eq_none_iff_forall_ne_some]
    intro a ha
    obtain ⟨y, hy, hyx, -⟩ := (hb.mine a).mp ha
    exact hfresh y hy hyx
  refine ⟨⟨h₃.hired b x.rank, t.root, if x.rank = myrank then some b else t.myBladePlace⟩, ?_, ?_⟩
  · rw [addCoords, hchasis, hgid]
    simp only [Option.bind_eq_bind, Option.bind_some, hadd₁, hadd₂, hadd₃]
    refine addRankInBlade_eq ?_ hrank
    rw [hworkers _ _ hblade, List.length_map]
    exact hroom
  · refine ⟨?_, ?_, ?_, ?_, ?_, ?_⟩
    · rw [hlinks]
      exact htree
    · intro path a ha
      exact hallocated path a ((hat path a).mp ha)
    · intro path
      simp only [hat]
      exact hpaths path
    · intro path a ha
      rw [hat] at ha
      rw [List.filter_append, List.map_append, ← hworkers path a ha]
      by_cases hab : a = b
      · subst hab
        obtain rfl := ha.path_unique htree.top hblade
        simp [Heap.modify]
      · have hpath : x.path ≠ path := by
          rintro rfl
          exact hab (ha.unique hblade)
        simp [Heap.modify, hab, hpath]
    · intro path a ha
      rw [← htypes path a ((hat path a).mp ha)]
      exact field_hired PlaceT.type (fun _ _ => rfl) h₃ b x.rank a
    · intro a
      simp only [hat, List.mem_append, List.mem_singleton, or_and_right, exists_or, exists_eq_left]
      have hold : (∃ y ∈ L, y.rank = myrank ∧ h₃.At t.root y.path a) ↔ t.myBladePlace = some a := by
        rw [hb.mine a]
        refine exists_congr fun y => and_congr_right fun hy => and_congr_right fun _ => ?_
        obtain ⟨c, hc⟩ := (hb.paths y.path).mpr (.inr ⟨y, hy, List.prefix_refl _⟩)
        constructor
        · intro ha
          rwa [(hkept _ c hc).unique ha] at hc
        · exact hkept _ a
      rw [hold]
      by_cases hmine : x.rank = myrank
      · rw [if_pos hmine, hrank hmine]
        constructor
        · rintro h
          obtain rfl := Option.some.inj h
          exact .inr ⟨hmine, hblade⟩
        · rintro (h | ⟨-, ha⟩)
          · cases h
          · rw [ha.unique hblade]
      · simp [hmine]

theorem addCoords_accepted (hb : Built L myrank t) (hfresh : ∀ y ∈ L, y.rank ≠ x.rank)
    (haccepted : addCoords myrank t x = some t') : Built (L ++ [x]) myrank t' := by
  have hstep := haccepted
  simp only [addCoords, Option.bind_eq_bind, Option.bind_eq_some_iff] at hstep
  obtain ⟨chasis, hchasis, gid, hgid, ⟨g, h₁⟩, hadd₁, ⟨c, h₂⟩, hadd₂, ⟨b, h₃⟩, hadd₃, hrank⟩ := hstep
  obtain ⟨g', c', b', h₁', h₂', h₃', hadd₁', hadd₂', hadd₃', -, -, hblade, -, -, hworkers, -⟩ :=
    places_added (path_of hgid hchasis) hb
  obtain ⟨rfl, rfl⟩ := Prod.mk.inj (Option.some.inj (hadd₁.symm.trans hadd₁'))
  obtain ⟨rfl, rfl⟩ := Prod.mk.inj (Option.some.inj (hadd₂.symm.trans hadd₂'))
  obtain ⟨rfl, rfl⟩ := Prod.mk.inj (Option.some.inj (hadd₃.symm.trans hadd₃'))
  have hroom : (L.filter fun y => y.path = x.path).length < edisonNodesPerBlade := by
    by_contra hfull
    rw [addRankInBlade, if_pos] at hrank
    · cases hrank
    · rw [hworkers _ _ hblade, List.length_map]
      exact Nat.lt_succ_of_le (not_lt.mp hfull)
  obtain ⟨t'', hstep, hbuilt⟩ := addCoords_built hb hgid hchasis hfresh hroom
  obtain rfl := Option.some.inj (haccepted.symm.trans hstep)
  exact hbuilt

theorem logicalRoot_built (myrank : Int) : Built [] myrank logicalRoot := by
  have hempty : Children logicalRoot.heap.links logicalRoot.root [] := ⟨⟨none, .nil ..⟩, by simp⟩
  have hat (path : List Int) (b : Nat) :
      logicalRoot.heap.At logicalRoot.root path b ↔ path = [] ∧ b = logicalRoot.root := by
    constructor
    · intro h
      induction h with
      | root => exact ⟨rfl, rfl⟩
      | child _ hxs ha ih =>
          obtain ⟨-, rfl⟩ := ih
          rw [hxs.unique hempty] at ha
          cases ha
    · rintro ⟨rfl, rfl⟩
      exact .root
  refine ⟨⟨rfl, fun path p hp => ?_⟩, fun path b hb => ?_, fun path => ?_, fun path b hb => ?_,
    fun path b hb => ?_, fun b => ?_⟩
  · obtain ⟨-, rfl⟩ := (hat path p).mp hp
    exact ⟨[], hempty⟩
  · obtain ⟨-, rfl⟩ := (hat path b).mp hb
    exact Nat.zero_lt_one
  · simp [hat]
  · obtain ⟨-, rfl⟩ := (hat path b).mp hb
    rfl
  · obtain ⟨rfl, rfl⟩ := (hat path b).mp hb
    rfl
  · simp [logicalRoot]

theorem fresh_of_nodup {rest : List Coords} (hranks : ((L ++ x :: rest).map Coords.rank).Nodup)
    (y : Coords) (hy : y ∈ L) : y.rank ≠ x.rank := by
  intro heq
  rw [List.map_append, List.nodup_append'] at hranks
  exact hranks.2.2 (List.mem_map_of_mem hy) (heq ▸ List.mem_map_of_mem List.mem_cons_self)

theorem foldl_built {rest : List Coords} (hb : Built L myrank t) (hvalid : ∀ x ∈ rest, x.Valid)
    (hranks : ((L ++ rest).map Coords.rank).Nodup)
    (hroom : ∀ path, ((L ++ rest).filter fun y => y.path = path).length ≤ edisonNodesPerBlade) :
    ∃ t', rest.foldlM (addCoords myrank) t = some t' ∧ Built (L ++ rest) myrank t' := by
  induction rest generalizing L t with
  | nil => exact ⟨t, rfl, by rwa [List.append_nil]⟩
  | cons x rest ih =>
      have hblade : (L.filter fun y => y.path = x.path).length < edisonNodesPerBlade := by
        have hlen := hroom x.path
        simp only [List.filter_append, List.length_append, List.filter_cons, decide_true, if_true,
          List.length_cons] at hlen
        omega
      have hx := hvalid x List.mem_cons_self
      obtain ⟨t', hstep, hb'⟩ :=
        addCoords_built hb (cabinetGroupId_eq hx) (chasisIndex_eq hx)
          (fresh_of_nodup hranks) hblade
      rw [List.append_cons] at hranks hroom ⊢
      obtain ⟨t'', hrest, hb''⟩ :=
        ih hb' (fun y hy => hvalid y (List.mem_cons_of_mem x hy)) hranks hroom
      refine ⟨t'', ?_, hb''⟩
      rw [List.foldlM_cons, hstep]
      exact hrest

theorem foldl_accepted {rest : List Coords} (hb : Built L myrank t)
    (hranks : ((L ++ rest).map Coords.rank).Nodup)
    (haccepted : rest.foldlM (addCoords myrank) t = some t') : Built (L ++ rest) myrank t' := by
  induction rest generalizing L t with
  | nil =>
      obtain rfl := Option.some.inj haccepted
      rwa [List.append_nil]
  | cons x rest ih =>
      rw [List.foldlM_cons, Option.bind_eq_bind, Option.bind_eq_some_iff] at haccepted
      obtain ⟨t'', hstep, hrest⟩ := haccepted
      have hb' := addCoords_accepted hb (fresh_of_nodup hranks) hstep
      rw [List.append_cons] at hranks ⊢
      exact ih hb' hranks hrest

structure Represents (L : List Coords) (myrank : Int) (t : Hpt) : Prop where
  siblings : ∀ path p, t.heap.At t.root path p → ∃ xs, Children t.heap.links p xs
  leftmost : ∀ path p a, t.heap.At t.root path p → (t.heap.place p).child = some a →
    (t.heap.place a).prev = none
  doubly : ∀ path id a b, t.heap.At t.root (path ++ [id]) a → (t.heap.place a).next = some b →
    (t.heap.place b).prev = some a
  parent : ∀ path id a, t.heap.At t.root (path ++ [id]) a →
    (t.heap.place a).id = id ∧ ∃ p, t.heap.At t.root path p ∧ (t.heap.place a).parent = some p
  paths : ∀ path, (∃ b, t.heap.At t.root path b) ↔ path = [] ∨ ∃ x ∈ L, path <+: x.path
  blade : ∀ x ∈ L, ∃ gid chasis b, edisonCabinetGroupId x.col x.row = some gid ∧
    edisonChasisIndexInCabinetGroup x.col x.chasis = some chasis ∧
    t.heap.At t.root [gid, chasis, x.blade] b ∧
    ∀ path a, t.heap.At t.root path a → (x.rank ∈ (t.heap.place a).workers ↔ a = b)
  workers : ∀ path a, t.heap.At t.root path a → (t.heap.place a).workers.Nodup ∧
    ∀ r ∈ (t.heap.place a).workers, ∃ x ∈ L, x.rank = r ∧ x.path = path
  share : ∀ x ∈ L, ∀ y ∈ L, (∃ path a, t.heap.At t.root path a ∧ x.rank ∈ (t.heap.place a).workers ∧
    y.rank ∈ (t.heap.place a).workers) ↔ x.SameBlade y
  mine : ∀ b, t.myBladePlace = some b ↔
    ∃ path, t.heap.At t.root path b ∧ myrank ∈ (t.heap.place b).workers

/-- The same tree, up to the places in memory and the order of the ranks in a blade. -/
structure SameTree (t t' : Hpt) : Prop where
  paths : ∀ path, (∃ a, t.heap.At t.root path a) ↔ ∃ b, t'.heap.At t'.root path b
  siblings : ∀ path a b xs ys, t.heap.At t.root path a → t'.heap.At t'.root path b →
    Children t.heap.links a xs → Children t'.heap.links b ys →
    xs.map (fun x => (t.heap.place x).id) = ys.map fun y => (t'.heap.place y).id
  types : ∀ path a b, t.heap.At t.root path a → t'.heap.At t'.root path b →
    (t.heap.place a).type = (t'.heap.place b).type
  workers : ∀ path a b, t.heap.At t.root path a → t'.heap.At t'.root path b →
    (t.heap.place a).workers.Perm (t'.heap.place b).workers
  mine : ∀ path a b, t.heap.At t.root path a → t'.heap.At t'.root path b →
    (t.myBladePlace = some a ↔ t'.myBladePlace = some b)

theorem Built.mem_workers (hb : Built L myrank t) (ha : t.heap.At t.root path a) {r : Int} :
    r ∈ (t.heap.place a).workers ↔ ∃ x ∈ L, x.rank = r ∧ x.path = path := by
  rw [hb.workers path a ha]
  simp only [List.mem_map, List.mem_filter, decide_eq_true_eq]
  constructor
  · rintro ⟨x, ⟨hx, hpath⟩, hrank⟩
    exact ⟨x, hx, hrank, hpath⟩
  · rintro ⟨x, hx, hrank, hpath⟩
    exact ⟨x, ⟨hx, hpath⟩, hrank⟩

theorem rank_injective (hranks : (L.map Coords.rank).Nodup) (hx : x ∈ L) (hy : y ∈ L)
    (heq : x.rank = y.rank) : x = y :=
  List.inj_on_of_nodup_map hranks hx hy heq

theorem Built.blade_iff (hb : Built L myrank t) (hnodup : (L.map Coords.rank).Nodup) (hx : x ∈ L)
    (ha : t.heap.At t.root path a) : x.rank ∈ (t.heap.place a).workers ↔ x.path = path := by
  rw [hb.mem_workers ha]
  constructor
  · rintro ⟨y, hy, heq, hpath⟩
    rwa [rank_injective hnodup hy hx heq] at hpath
  · exact fun hpath => ⟨x, hx, rfl, hpath⟩

theorem Built.represents (hb : Built L myrank t) (hvalid : ∀ x ∈ L, x.Valid)
    (hranks : (L.map Coords.rank).Nodup) : Represents L myrank t := by
  have hblade (x : Coords) (hx : x ∈ L) : ∃ b, t.heap.At t.root x.path b :=
    (hb.paths x.path).mpr (.inr ⟨x, hx, List.prefix_refl _⟩)
  have hown {x : Coords} (hx : x ∈ L) {path : List Int} {a : Nat} (ha : t.heap.At t.root path a) :=
    hb.blade_iff hranks hx ha
  constructor
  · exact hb.tree.children
  · intro path p a hp ha
    obtain ⟨xs, hxs⟩ := hb.tree.children path p hp
    exact hxs.prev_child ha
  · intro path id a b ha hnext
    obtain ⟨p, xs, hp, hxs, ha, -⟩ := ha.above
    exact (hxs.prev_next ha hnext).2
  · intro path id a ha
    obtain ⟨p, xs, hp, hxs, ha, hkey⟩ := ha.above
    exact ⟨hkey, p, hp, hxs.parent ha⟩
  · exact hb.paths
  · intro x hx
    obtain ⟨b, hat⟩ := hblade x hx
    refine ⟨_, _, b, cabinetGroupId_eq (hvalid x hx), chasisIndex_eq (hvalid x hx), ?_,
      fun path a ha => ?_⟩
    · rwa [← path_eq (hvalid x hx)]
    · rw [hown hx ha]
      constructor
      · rintro rfl
        exact ha.unique hat
      · rintro rfl
        exact hat.path_unique hb.tree.top ha
  · intro path a ha
    refine ⟨?_, fun r hr => (hb.mem_workers ha).mp hr⟩
    rw [hb.workers path a ha]
    exact hranks.sublist (List.filter_sublist.map _)
  · intro x hx y hy
    rw [← path_injective (hvalid x hx) (hvalid y hy)]
    constructor
    · rintro ⟨path, a, ha, hxa, hya⟩
      rw [(hown hx ha).mp hxa, (hown hy ha).mp hya]
    · intro hpath
      obtain ⟨b, hat⟩ := hblade x hx
      exact ⟨x.path, b, hat, (hown hx hat).mpr rfl, (hown hy hat).mpr hpath.symm⟩
  · intro b
    rw [hb.mine b]
    constructor
    · rintro ⟨x, hx, rfl, hat⟩
      exact ⟨x.path, hat, (hown hx hat).mpr rfl⟩
    · rintro ⟨path, hat, hmem⟩
      obtain ⟨x, hx, hrank, rfl⟩ := (hb.mem_workers hat).mp hmem
      exact ⟨x, hx, hrank, hat⟩

theorem Built.same {L' : List Coords} (hb : Built L myrank t) (hb' : Built L' myrank t')
    (hperm : L'.Perm L) : SameTree t t' := by
  have hpaths (path : List Int) : (∃ a, t.heap.At t.root path a) ↔
      ∃ b, t'.heap.At t'.root path b := by
    simp only [hb.paths, hb'.paths, hperm.mem_iff]
  have hmine {L : List Coords} {t : Hpt} (hb : Built L myrank t) {path : List Int} {a : Nat}
      (ha : t.heap.At t.root path a) :
      t.myBladePlace = some a ↔ ∃ x ∈ L, x.rank = myrank ∧ x.path = path := by
    rw [hb.mine a]
    refine exists_congr fun x => and_congr_right fun hx => and_congr_right fun _ => ?_
    constructor
    · exact fun hat => hat.path_unique hb.tree.top ha
    · rintro rfl
      exact ha
  constructor
  · exact hpaths
  · intro path a b xs ys ha hb hxs hys
    apply hxs.same_keys hys
    intro k
    rw [ha.key_iff hxs, hb.key_iff hys, hpaths]
  · intro path a b ha hat
    rw [hb.types path a ha, hb'.types path b hat]
  · intro path a b ha hat
    rw [hb.workers path a ha, hb'.workers path b hat]
    exact ((hperm.symm.filter _).map _)
  · intro path a b ha hat
    rw [hmine hb ha, hmine hb' hat]
    simp only [hperm.mem_iff]

structure Fits (L : List Coords) : Prop where
  valid : ∀ x ∈ L, x.Valid
  ranks : (L.map Coords.rank).Nodup
  room : ∀ x ∈ L, (L.filter fun y => y.SameBlade x).length ≤ edisonNodesPerBlade

theorem create_built (hL : Fits L) (myrank : Int) :
    ∃ t, createEdisonTopology L myrank = some t ∧ Built L myrank t := by
  apply foldl_built (L := []) (logicalRoot_built myrank) hL.valid hL.ranks
  intro path
  rw [List.nil_append]
  cases hfilter : L.filter fun y => y.path = path with
  | nil => exact Nat.zero_le _
  | cons x xs =>
      have hx : x ∈ L ∧ x.path = path := by
        simpa using (hfilter ▸ List.mem_cons_self : x ∈ L.filter fun y => y.path = path)
      obtain ⟨hx, rfl⟩ := hx
      rw [← hfilter]
      refine le_of_eq_of_le (congrArg List.length (List.filter_congr fun y hy => ?_)) (hL.room x hx)
      rw [decide_eq_decide]
      exact path_injective (hL.valid y hy) (hL.valid x hx)

/-- Whatever coordinates fail no assertion. -/
theorem create_accepted (hcreate : createEdisonTopology L myrank = some t)
    (hranks : (L.map Coords.rank).Nodup) : Built L myrank t :=
  foldl_accepted (L := []) (logicalRoot_built myrank) hranks hcreate

theorem Fits.perm {L' : List Coords} (hL : Fits L) (hperm : L'.Perm L) : Fits L' := by
  refine ⟨fun x hx => hL.valid x (hperm.mem_iff.mp hx), ?_, fun x hx => ?_⟩
  · exact (hperm.map _).nodup_iff.mpr hL.ranks
  · rw [(hperm.filter _).length_eq]
    exact hL.room x (hperm.mem_iff.mp hx)

/-- The topology tree stands for the coordinates, whatever their order. -/
theorem createEdisonTopology_represents (hL : Fits L) (myrank : Int) :
    ∃ t, createEdisonTopology L myrank = some t ∧ Represents L myrank t ∧
      ∀ L' : List Coords, L'.Perm L →
        ∃ t', createEdisonTopology L' myrank = some t' ∧ SameTree t t' := by
  obtain ⟨t, hcreate, hb⟩ := create_built hL myrank
  refine ⟨t, hcreate, hb.represents hL.valid hL.ranks, fun L' hperm => ?_⟩
  obtain ⟨t', hcreate', hb'⟩ := create_built (hL.perm hperm) myrank
  exact ⟨t', hcreate', hb.same hb' hperm⟩

theorem createEdisonTopology_cabinets : ∃ L : List Coords,
    L = [⟨4, 2, 2, 7, 0⟩, ⟨5, 2, 2, 3, 1⟩, ⟨4, 2, 2, 7, 2⟩] ∧ Fits L ∧
      ∃ t, createEdisonTopology L 1 = some t ∧ Represents L 1 t ∧ ∀ L' : List Coords, L'.Perm L →
        ∃ t', createEdisonTopology L' 1 = some t' ∧ SameTree t t' := by
  refine ⟨_, rfl, ?_⟩
  have hL : Fits [⟨4, 2, 2, 7, 0⟩, ⟨5, 2, 2, 3, 1⟩, ⟨4, 2, 2, 7, 2⟩] := by
    refine ⟨?_, by decide, by decide⟩
    simp only [List.forall_mem_cons, List.not_mem_nil, false_implies, implies_true, and_true]
    refine ⟨⟨?_, ?_, ?_, ?_⟩, ⟨?_, ?_, ?_, ?_⟩, ⟨?_, ?_, ?_, ?_⟩⟩ <;> decide
  exact ⟨hL, createEdisonTopology_represents hL 1⟩

end HabaneroUpc.Topology
