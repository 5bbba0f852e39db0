import Mathlib.Data.List.Sort
import Mathlib.Logic.Function.Basic
import Mathlib.Data.List.Nodup

namespace HabaneroUpc.Siblings

structure Links (A K : Type*) where
  parent : A → Option A
  child : A → Option A
  next : A → Option A
  prev : A → Option A
  key : A → K

variable {A K : Type*}

/-- Children of p in a row: the first of them is linked from `first` and linked
back to `before`, the last of them is `last` and linked to `rest`. -/
inductive Segment (l : Links A K) (p : A) : Option A → Option A → List A → Option A → Option A →
    Prop
  | nil (before first : Option A) : Segment l p before first [] before first
  | cons {before last rest : Option A} {a : A} {as : List A} (hprev : l.prev a = before)
      (hparent : l.parent a = some p) (h : Segment l p (some a) (l.next a) as last rest) :
      Segment l p before (some a) (a :: as) last rest

variable {l l' : Links A K} {p a b root : A} {before first last rest : Option A} {as bs xs ys : List A}

theorem segment_append : Segment l p before first (as ++ bs) last rest ↔
    ∃ m r, Segment l p before first as m r ∧ Segment l p m r bs last rest := by
  induction as generalizing before first with
  | nil =>
      constructor
      · exact fun h => ⟨before, first, .nil before first, h⟩
      · rintro ⟨m, r, h, h'⟩
        cases h
        exact h'
  | cons a as ih =>
      constructor
      · intro h
        cases h with
        | cons hprev hparent h =>
            obtain ⟨m, r, has, hbs⟩ := ih.mp h
            exact ⟨m, r, .cons hprev hparent has, hbs⟩
      · rintro ⟨m, r, h, hbs⟩
        cases h with
        | cons hprev hparent has => exact .cons hprev hparent (ih.mpr ⟨m, r, has, hbs⟩)

theorem Segment.parent (h : Segment l p before first as last rest) (ha : a ∈ as) :
    l.parent a = some p := by
  induction h with
  | nil => cases ha
  | cons _ hparent _ ih =>
      rcases List.mem_cons.mp ha with rfl | ha
      · exact hparent
      · exact ih ha

theorem Segment.first_eq (h : Segment l p before first as last rest) :
    first = as.head?.or rest := by
  cases h <;> rfl

theorem Segment.last_eq (h : Segment l p before first as last rest) :
    last = as.getLast?.or before := by
  induction h with
  | nil => rfl
  | @cons before last rest a as _ _ _ ih =>
      rw [ih, List.getLast?_cons]
      cases as.getLast? <;> rfl

theorem Segment.next_eq (h : Segment l p before first (as ++ a :: bs) last none) :
    l.next a = bs.head? := by
  obtain ⟨_, _, -, h⟩ := segment_append.mp h
  cases h with
  | cons _ _ h => rw [h.first_eq, Option.or_none]

theorem Segment.congr (h : Segment l p before first as last rest)
    (hsame : ∀ a ∈ as, l'.prev a = l.prev a ∧ l'.parent a = l.parent a ∧ l'.next a = l.next a) :
    Segment l' p before first as last rest := by
  induction h with
  | nil => exact .nil ..
  | cons hprev hparent _ ih =>
      obtain ⟨hp, hq, hn⟩ := hsame _ List.mem_cons_self
      refine .cons (hp.trans hprev) (hq.trans hparent) ?_
      rw [hn]
      exact ih fun a ha => hsame a (List.mem_cons_of_mem _ ha)

/-- The end of a row is linked to another node. -/
theorem Segment.relinked (h : Segment l p before first as last rest) (hnodup : as.Nodup) (x : A)
    (hsame : ∀ a ∈ as, l'.prev a = l.prev a ∧ l'.parent a = l.parent a ∧
      (as.getLast? ≠ some a → l'.next a = l.next a))
    (hlast : ∀ a, as.getLast? = some a → l'.next a = some x) :
    Segment l' p before (as.head?.or (some x)) as last (some x) := by
  induction h with
  | nil => exact .nil ..
  | @cons before last rest a as hprev hparent h ih =>
      obtain ⟨hp, hq, hn⟩ := hsame a List.mem_cons_self
      obtain ⟨ha, hnodup⟩ := List.nodup_cons.mp hnodup
      refine .cons (hp.trans hprev) (hq.trans hparent) ?_
      have hlast' (b : A) (hb : as.getLast? = some b) : (a :: as).getLast? = some b := by
        rw [List.getLast?_cons, hb]
        rfl
      have hrest := ih hnodup (fun b hb => ?_) fun b hb => hlast b (hlast' b hb)
      · cases as with
        | nil =>
            rw [hlast a rfl, h.last_eq]
            exact .nil ..
        | cons b bs =>
            have hne : (a :: b :: bs).getLast? ≠ some a := by
              intro heq
              rw [List.getLast?_cons_cons] at heq
              exact ha (List.mem_of_getLast? heq)
            rw [hn hne, h.first_eq]
            exact hrest
      · obtain ⟨hp, hq, hn⟩ := hsame b (List.mem_cons_of_mem _ hb)
        refine ⟨hp, hq, fun hne => hn fun heq => ?_⟩
        cases as with
        | nil => cases hb
        | cons c cs =>
            rw [List.getLast?_cons_cons] at heq
            exact hne heq

theorem Segment.unique {last' : Option A} (h : Segment l p before first xs last none)
    (h' : Segment l p before first ys last' none) : xs = ys := by
  generalize hrest : (none : Option A) = rest at h
  induction h generalizing ys with
  | nil =>
      subst hrest
      cases h'
      rfl
  | cons _ _ _ ih =>
      subst hrest
      cases h' with
      | cons _ _ h' => rw [ih h' rfl]

section Ordered

variable [LinearOrder K]

structure Children (l : Links A K) (p : A) (xs : List A) : Prop where
  chain : ∃ last, Segment l p none (l.child p) xs last none
  sorted : (xs.map l.key).Pairwise (· < ·)

theorem Children.first_eq (h : Children l p xs) : l.child p = xs.head? := by
  obtain ⟨_, hchain⟩ := h.chain
  rw [hchain.first_eq, Option.or_none]

theorem Children.parent (h : Children l p xs) (ha : a ∈ xs) : l.parent a = some p :=
  h.chain.choose_spec.parent ha

theorem Children.nodup_keys (h : Children l p xs) : (xs.map l.key).Nodup := h.sorted.imp ne_of_lt

theorem Children.nodup (h : Children l p xs) : xs.Nodup := h.nodup_keys.of_map

theorem Children.unique (h : Children l p xs) (h' : Children l p ys) : xs = ys := by
  obtain ⟨_, h⟩ := h.chain
  obtain ⟨_, h'⟩ := h'.chain
  exact h.unique h'

theorem Children.of_key (h : Children l p xs) (ha : a ∈ xs) (hb : b ∈ xs)
    (hkey : l.key a = l.key b) :
    a = b :=
  List.inj_on_of_nodup_map h.nodup_keys ha hb hkey

theorem Children.same_keys (h : Children l p xs) {q : A} (h' : Children l' q ys)
    (hkeys : ∀ k, k ∈ xs.map l.key ↔ k ∈ ys.map l'.key) : xs.map l.key = ys.map l'.key :=
  ((List.perm_ext_iff_of_nodup h.nodup_keys h'.nodup_keys).mpr hkeys).eq_of_pairwise
    (fun _ _ _ _ hlt hgt => absurd hgt hlt.asymm) h.sorted h'.sorted

theorem Children.prev_child (h : Children l p xs) (ha : l.child p = some a) : l.prev a = none := by
  obtain ⟨last, hchain⟩ := h.chain
  rw [ha] at hchain
  cases hchain with
  | cons hprev => exact hprev

theorem Children.prev_next (h : Children l p xs) (ha : a ∈ xs) (hb : l.next a = some b) :
    b ∈ xs ∧ l.prev b = some a := by
  obtain ⟨last, hchain⟩ := h.chain
  obtain ⟨as, bs, rfl⟩ := List.append_of_mem ha
  obtain ⟨_, _, -, hchain⟩ := segment_append.mp hchain
  cases hchain with
  | cons _ _ hchain =>
      rw [hb] at hchain
      cases hchain with
      | cons hprev => exact ⟨by simp, hprev⟩

theorem Children.congr (h : Children l p xs) (hchild : l'.child p = l.child p)
    (hsame : ∀ a ∈ xs, l'.prev a = l.prev a ∧ l'.parent a = l.parent a ∧ l'.next a = l.next a ∧
      l'.key a = l.key a) : Children l' p xs := by
  obtain ⟨last, hchain⟩ := h.chain
  refine ⟨⟨last, hchild ▸ hchain.congr fun a ha => ?_⟩, ?_⟩
  · obtain ⟨hp, hq, hn, -⟩ := hsame a ha
    exact ⟨hp, hq, hn⟩
  · rw [List.map_congr_left fun a ha => (hsame a ha).2.2.2]
    exact h.sorted

structure Spliced (l l' : Links A K) (p a : A) (as bs : List A) : Prop where
  parent : l'.parent a = some p
  prev : l'.prev a = as.getLast?
  next : l'.next a = bs.head?
  leaf : l'.child a = none
  child : l'.child p = as.head?.or (some a)
  next_last : ∀ x, as.getLast? = some x → l'.next x = some a
  prev_head : ∀ x, bs.head? = some x → l'.prev x = some a
  parent_other : ∀ x, x ≠ a → l'.parent x = l.parent x
  next_other : ∀ x, x ≠ a → as.getLast? ≠ some x → l'.next x = l.next x
  prev_other : ∀ x, x ≠ a → bs.head? ≠ some x → l'.prev x = l.prev x
  child_other : ∀ x, x ≠ a → x ≠ p → l'.child x = l.child x
  key_other : ∀ x, x ≠ a → l'.key x = l.key x

theorem Children.spliced (h : Children l p (as ++ bs)) (hs : Spliced l l' p a as bs)
    (ha : a ∉ as ++ bs) (hlt : ∀ x ∈ as, l.key x < l'.key a) (hgt : ∀ x ∈ bs, l'.key a < l.key x) :
    Children l' p (as ++ a :: bs) := by
  obtain ⟨last, hchain⟩ := h.chain
  obtain ⟨m, r, has, hbs⟩ := segment_append.mp hchain
  have hnodup := h.nodup
  obtain ⟨hnodupas, hnodupbs, hdisjoint⟩ := List.nodup_append'.mp hnodup
  have hne {x : A} (hx : x ∈ as ++ bs) : x ≠ a := fun heq => ha (heq ▸ hx)
  have hkeys {zs : List A} (hzs : ∀ x ∈ zs, x ∈ as ++ bs) : zs.map l'.key = zs.map l.key :=
    List.map_congr_left fun x hx => hs.key_other x (hne (hzs x hx))
  refine ⟨?_, ?_⟩
  · have hfront : Segment l' p none (l'.child p) as m (some a) := by
      rw [hs.child]
      refine has.relinked hnodupas a (fun x hx => ?_) hs.next_last
      have hxa := hne (List.mem_append_left bs hx)
      refine ⟨hs.prev_other x hxa fun heq => ?_, hs.parent_other x hxa, hs.next_other x hxa⟩
      exact hdisjoint hx (List.mem_of_head? heq)
    have hback : ∃ last, Segment l' p (some a) (l'.next a) bs last none := by
      rw [hs.next]
      cases bs with
      | nil => exact ⟨_, .nil ..⟩
      | cons b bs =>
          cases hbs with
          | cons hprev hparent hbs =>
              have hba := hne (List.mem_append_right as List.mem_cons_self)
              have hnext (x : A) (hx : x ∈ b :: bs) : as.getLast? ≠ some x :=
                fun heq => hdisjoint (List.mem_of_getLast? heq) hx
              refine ⟨last, .cons (hs.prev_head b rfl) ((hs.parent_other b hba).trans hparent) ?_⟩
              rw [hs.next_other b hba (hnext b List.mem_cons_self)]
              apply hbs.congr
              intro x hx
              have hx' := List.mem_cons_of_mem b hx
              have hxa := hne (List.mem_append_right as hx')
              refine ⟨hs.prev_other x hxa ?_, hs.parent_other x hxa,
                hs.next_other x hxa (hnext x hx')⟩
              rintro heq
              cases heq
              exact (List.nodup_cons.mp hnodupbs).1 hx
    obtain ⟨last', hback⟩ := hback
    refine ⟨last', segment_append.mpr ⟨m, some a, hfront, .cons ?_ hs.parent hback⟩⟩
    rw [hs.prev, has.last_eq]
    cases as.getLast? <;> rfl
  · have hsorted := h.sorted
    rw [List.map_append, List.pairwise_append] at hsorted
    obtain ⟨hsas, hsbs, hcross⟩ := hsorted
    rw [List.map_append, List.map_cons, hkeys fun x hx => List.mem_append_left bs hx,
      hkeys fun x hx => List.mem_append_right as hx, List.pairwise_append, List.pairwise_cons]
    refine ⟨hsas, ⟨?_, hsbs⟩, ?_⟩
    · intro k hk
      obtain ⟨x, hx, rfl⟩ := List.mem_map.mp hk
      exact hgt x hx
    · intro k hk k' hk'
      obtain ⟨x, hx, rfl⟩ := List.mem_map.mp hk
      rcases List.mem_cons.mp hk' with rfl | hk'
      · exact hlt x hx
      · exact hcross _ hk k' hk'

inductive At (l : Links A K) (root : A) : List K → A → Prop
  | root : At l root [] root
  | child {path : List K} {p a : A} {xs : List A} (hp : At l root path p) (hxs : Children l p xs)
      (ha : a ∈ xs) : At l root (path ++ [l.key a]) a

variable {path path' : List K} {k : K}

structure Tree (l : Links A K) (root : A) : Prop where
  top : l.parent root = none
  children : ∀ path p, At l root path p → ∃ xs, Children l p xs

theorem At.unique (h : At l root path a) (h' : At l root path b) : a = b := by
  induction h generalizing b with
  | root =>
      generalize hpath : ([] : List K) = path at h'
      cases h' with
      | root => rfl
      | child => simp at hpath
  | @child path p a xs hp hxs ha ih =>
      generalize hpath : path ++ [l.key a] = path' at h'
      cases h' with
      | root => simp at hpath
      | child hq hys hb =>
          obtain ⟨rfl, hkey⟩ := List.append_inj' hpath rfl
          obtain rfl := ih hq
          obtain rfl := hxs.unique hys
          exact hxs.of_key ha hb (List.singleton_inj.mp hkey)

theorem At.above (h : At l root (path ++ [k]) a) : ∃ p xs, At l root path p ∧ Children l p xs ∧
    a ∈ xs ∧ l.key a = k := by
  generalize hpath : path ++ [k] = path' at h
  cases h with
  | root => simp at hpath
  | child hp hxs ha =>
      obtain ⟨rfl, hkey⟩ := List.append_inj' hpath rfl
      exact ⟨_, _, hp, hxs, ha, (List.singleton_inj.mp hkey).symm⟩

/-- The keys of the children are the ways down. -/
theorem At.key_iff (hp : At l root path p) (hxs : Children l p xs) :
    k ∈ xs.map l.key ↔ ∃ a, At l root (path ++ [k]) a := by
  constructor
  · intro hk
    obtain ⟨a, ha, rfl⟩ := List.mem_map.mp hk
    exact ⟨a, .child hp hxs ha⟩
  · rintro ⟨a, ha⟩
    obtain ⟨q, ys, hq, hys, hay, rfl⟩ := ha.above
    obtain rfl := hp.unique hq
    obtain rfl := hxs.unique hys
    exact List.mem_map_of_mem hay

/-- A node of a tree has one path. -/
theorem At.path_unique (htop : l.parent root = none) (h : At l root path a)
    (h' : At l root path' a) :
    path = path' := by
  induction h generalizing path' with
  | root =>
      cases h' with
      | root => rfl
      | child _ hxs ha =>
          rw [hxs.parent ha] at htop
          cases htop
  | child hp hxs ha ih =>
      cases h' with
      | root =>
          rw [hxs.parent ha] at htop
          cases htop
      | child hq hys hb =>
          obtain rfl : _ = _ := Option.some.inj ((hxs.parent ha).symm.trans (hys.parent hb))
          rw [ih hq]

theorem Tree.same (ht : Tree l root) (hsame : ∀ path a, At l root path a → l'.child a = l.child a ∧
      l'.prev a = l.prev a ∧ l'.parent a = l.parent a ∧ l'.next a = l.next a ∧ l'.key a = l.key a) :
    Tree l' root ∧ ∀ path a, At l' root path a ↔ At l root path a := by
  have hchildren {path : List K} {p : A} {xs : List A} (hp : At l root path p)
    (hxs : Children l p xs) :
      Children l' p xs :=
    hxs.congr (hsame path p hp).1 fun a ha => (hsame _ a (.child hp hxs ha)).2
  have hkey {path : List K} {a : A} (ha : At l root path a) : l'.key a = l.key a :=
    (hsame path a ha).2.2.2.2
  have hat (path : List K) (a : A) : At l' root path a ↔ At l root path a := by
    constructor
    · intro h
      induction h with
      | root => exact .root
      | child _ hxs ha ih =>
          obtain ⟨ys, hys⟩ := ht.children _ _ ih
          obtain rfl := hxs.unique (hchildren ih hys)
          rw [hkey (.child ih hys ha)]
          exact .child ih hys ha
    · intro h
      induction h with
      | root => exact .root
      | child hp hxs ha ih =>
          rw [← hkey (.child hp hxs ha)]
          exact .child ih (hchildren hp hxs) ha
  refine ⟨⟨(hsame [] root .root).2.2.1.trans ht.top, fun path p hp => ?_⟩, hat⟩
  obtain ⟨xs, hxs⟩ := ht.children path p ((hat path p).mp hp)
  exact ⟨xs, hchildren ((hat path p).mp hp) hxs⟩

/-- The children of the other nodes of the tree stay as they are. -/
theorem Spliced.other (hs : Spliced l l' p a as bs) (hxs : Children l p (as ++ bs))
    (hfresh : ∀ path, ¬At l root path a) {q : A} (hq : At l root path q) (hqp : q ≠ p)
    (hys : Children l q ys) : Children l' q ys := by
  have hqa : q ≠ a := fun heq => hfresh path (heq ▸ hq)
  apply hys.congr (hs.child_other q hqa hqp)
  intro y hy
  have hya : y ≠ a := by
    rintro rfl
    exact hfresh _ (.child hq hys hy)
  have hout (hy' : y ∈ as ++ bs) : False :=
    hqp (Option.some.inj ((hys.parent hy).symm.trans (hxs.parent hy')))
  refine ⟨hs.prev_other y hya fun heq => ?_, hs.parent_other y hya,
    hs.next_other y hya fun heq => ?_, hs.key_other y hya⟩
  · exact hout (List.mem_append_right as (List.mem_of_head? heq))
  · exact hout (List.mem_append_left bs (List.mem_of_getLast? heq))

/-- A new node among the children of p adds one path to the tree. -/
theorem Tree.spliced (ht : Tree l root) (hp : At l root path p) (hxs : Children l p (as ++ bs))
    (hs : Spliced l l' p a as bs) (hfresh : ∀ path, ¬At l root path a)
    (hlt : ∀ x ∈ as, l.key x < l'.key a) (hgt : ∀ x ∈ bs, l'.key a < l.key x) :
    Tree l' root ∧ ∀ path' b, At l' root path' b ↔
      At l root path' b ∨ path' = path ++ [l'.key a] ∧ b = a := by
  have hne {path : List K} {b : A} (hb : At l root path b) : b ≠ a :=
    fun heq => hfresh path (heq ▸ hb)
  have hself : Children l' p (as ++ a :: bs) :=
    hxs.spliced hs (fun ha => hfresh _ (.child hp hxs ha)) hlt hgt
  have hother {path : List K} {q : A} {ys : List A} (hq : At l root path q) (hqp : q ≠ p)
      (hys : Children l q ys) : Children l' q ys :=
    hs.other hxs hfresh hq hqp hys
  have hleaf : Children l' a [] := ⟨⟨none, by rw [hs.leaf]; exact .nil none none⟩, .nil⟩
  have hold {path : List K} {b : A} (h : At l root path b) : At l' root path b := by
    induction h with
    | root => exact .root
    | @child path q b ys hq hys hb ih =>
        rw [← hs.key_other b (hne (.child hq hys hb))]
        by_cases hqp : q = p
        · subst hqp
          obtain rfl := hys.unique hxs
          refine .child ih hself ?_
          rcases List.mem_append.mp hb with hb | hb
          · exact List.mem_append_left _ hb
          · exact List.mem_append_right _ (List.mem_cons_of_mem _ hb)
        · exact .child ih (hother hq hqp hys) hb
  have hat (path' : List K) (b : A) : At l' root path' b ↔
      At l root path' b ∨ path' = path ++ [l'.key a] ∧ b = a := by
    constructor
    · intro h
      induction h with
      | root => exact .inl .root
      | @child path' q b ys _ hys hb ih =>
          rcases ih with hq | ⟨rfl, rfl⟩
          · by_cases hqp : q = p
            · subst hqp
              obtain rfl := hq.path_unique ht.top hp
              obtain rfl := hys.unique hself
              by_cases hba : b = a
              · exact .inr ⟨by rw [hba], hba⟩
              · have hb' : b ∈ as ++ bs := by
                  rcases List.mem_append.mp hb with hb | hb
                  · exact List.mem_append_left bs hb
                  · exact List.mem_append_right as ((List.mem_cons.mp hb).resolve_left hba)
                rw [hs.key_other b hba]
                exact .inl (.child hq hxs hb')
            · obtain ⟨zs, hzs⟩ := ht.children _ _ hq
              obtain rfl := hys.unique (hother hq hqp hzs)
              rw [hs.key_other b (hne (.child hq hzs hb))]
              exact .inl (.child hq hzs hb)
          · obtain rfl := hys.unique hleaf
            cases hb
    · rintro (h | ⟨rfl, rfl⟩)
      · exact hold h
      · exact .child (hold hp) hself (List.mem_append_right _ List.mem_cons_self)
  refine ⟨⟨(hs.parent_other root (hne .root)).trans ht.top, fun path' q hq => ?_⟩, hat⟩
  rcases (hat path' q).mp hq with hq | ⟨-, rfl⟩
  · by_cases hqp : q = p
    · subst hqp
      exact ⟨_, hself⟩
    · obtain ⟨ys, hys⟩ := ht.children _ _ hq
      exact ⟨ys, hother hq hqp hys⟩
  · exact ⟨[], hleaf⟩

end Ordered

end HabaneroUpc.Siblings

namespace HabaneroUpc.LinkedCells

variable {α : Type*} [DecidableEq α]

abbrev Memory (α : Type*) := α → Option (Option α)

def Cells (m : Memory α) : Option α → List α → Prop
  | p, [] => p = none
  | p, a :: l => p = some a ∧ ∃ next, m a = some next ∧ Cells m next l

variable {m m' : Memory α} {p : Option α} {a b : α} {l : List α}

omit [DecidableEq α] in
theorem Cells.mem (h : Cells m p l) (ha : a ∈ l) : m a ≠ none := by
  induction l generalizing p with
  | nil => cases ha
  | cons b l ih =>
      obtain ⟨-, next, hb, hl⟩ := h
      rcases List.mem_cons.mp ha with rfl | ha
      · simp [hb]
      · exact ih hl ha

omit [DecidableEq α] in
theorem Cells.congr (h : Cells m p l) (hm : ∀ a ∈ l, m' a = m a) : Cells m' p l := by
  induction l generalizing p with
  | nil => exact h
  | cons b l ih =>
      obtain ⟨hp, next, hb, hl⟩ := h
      refine ⟨hp, next, (hm b List.mem_cons_self).trans hb, ih hl fun a ha => ?_⟩
      exact hm a (List.mem_cons_of_mem b ha)

theorem Cells.update (h : Cells m p l) (ha : a ∉ l) (v : Option (Option α)) :
    Cells (Function.update m a v) p l := by
  refine h.congr fun b hb => Function.update_of_ne ?_ ..
  rintro rfl
  exact ha hb

theorem Cells.append (h : Cells m p (l ++ [a])) (hnodup : (l ++ [a, b]).Nodup) (hb : m b = some none) :
    Cells (Function.update m a (some (some b))) p (l ++ [a, b]) := by
  induction l generalizing p with
  | nil =>
      have hne : b ≠ a := fun heq => by simp [heq] at hnodup
      exact ⟨h.1, some b, Function.update_self .., rfl, none, by rwa [Function.update_of_ne hne], rfl⟩
  | cons c l ih =>
      obtain ⟨hp, next, hc, hl⟩ := h
      rw [List.cons_append, List.nodup_cons] at hnodup
      have hne : c ≠ a := fun heq => hnodup.1 (by simp [heq])
      exact ⟨hp, next, by rwa [Function.update_of_ne hne], ih hl hnodup.2⟩

omit [DecidableEq α] in
theorem Cells.nil_iff (h : Cells m p l) : p = none ↔ l = [] := by
  cases l with
  | nil => exact ⟨fun _ => rfl, fun _ => h⟩
  | cons b l => simp [h.1]

end HabaneroUpc.LinkedCells
