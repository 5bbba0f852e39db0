import HabaneroUpc.Lib.Siblings
import Mathlib

namespace HabaneroUpc.Siblings

section Loops

variable {A S : Type*} {next prev : A → Option A} {body : A → S → Option S} {start left right : Option A}
  {as bs : List A} {bound : Nat}

def walk (next : A → Option A) (body : A → S → Option S) : Nat → Option A → S → Option S
  | 0, _, _ => none
  | _ + 1, none, s => some s
  | bound + 1, some a, s => (body a s).bind (walk next body bound (next a))

def visit (body : A → S → Option S) : Option A → S → Option S
  | none, s => some s
  | some a, s => body a s

/-- The loop that goes on while there is a node on the left or on the right,
and visits the one on the left before the one on the right. -/
def walkBoth (prev next : A → Option A) (body : A → S → Option S) :
    Nat → Option A → Option A → S → Option S
  | 0, _, _, _ => none
  | bound + 1, left, right, s =>
      if left.isSome ∨ right.isSome then
        (visit body left s).bind fun s => (visit body right s).bind
          (walkBoth prev next body bound (left.bind prev) (right.bind next))
      else some s

inductive Visits (next : A → Option A) : Option A → List A → Prop
  | nil : Visits next none []
  | cons {a : A} {as : List A} (h : Visits next (next a) as) : Visits next (some a) (a :: as)

theorem walk_eq (h : Visits next start as) (hbound : as.length < bound) (s : S) :
    walk next body bound start s = as.foldlM (fun s a => body a s) s := by
  induction h generalizing bound s with
  | nil =>
      cases bound with
      | zero => cases hbound
      | succ bound => rfl
  | @cons a as _ ih =>
      cases bound with
      | zero => cases hbound
      | succ bound =>
          have hrest (s : S) := ih (Nat.lt_of_succ_lt_succ hbound) s
          rw [walk, List.foldlM_cons, funext hrest]
          rfl

theorem walkBoth_eq (hleft : Visits prev left as) (hright : Visits next right bs)
    (has : as.length < bound) (hbs : bs.length < bound) (s : S) :
    walkBoth prev next body bound left right s =
      (as.interleave bs).foldlM (fun s a => body a s) s := by
  induction bound generalizing left right as bs s with
  | zero => cases has
  | succ bound ih =>
      rw [walkBoth]
      cases hleft with
      | nil =>
          cases hright with
          | nil => simp
          | @cons b bs hright =>
              have hrest (s : S) := ih .nil hright (Nat.zero_lt_of_lt (Nat.lt_of_succ_lt_succ hbs))
                (Nat.lt_of_succ_lt_succ hbs) s
              simp only [List.nil_interleave] at hrest ⊢
              rw [List.foldlM_cons, ← funext hrest]
              rfl
      | @cons a as hleft =>
          have has' := Nat.lt_of_succ_lt_succ has
          cases hright with
          | nil =>
              have hrest (s : S) := ih hleft .nil has' (Nat.zero_lt_of_lt has') s
              simp only [List.interleave_nil] at hrest ⊢
              rw [List.foldlM_cons, ← funext hrest]
              rfl
          | @cons b bs hright =>
              have hrest (s : S) := ih hleft hright has' (Nat.lt_of_succ_lt_succ hbs) s
              rw [List.cons_interleave, List.cons_interleave, List.foldlM_cons]
              simp only [List.foldlM_cons, ← hrest]
              rfl

end Loops

section Rising

variable {A : Type*} {xs ys : List A} {f : A → Nat → Prop} {k m : Nat}

theorem mem_interleave_rising (hxs : ∀ i x, xs[i]? = some x → f x (k + i))
    (hys : ∀ i y, ys[i]? = some y → f y (m + i)) (hkm : k ≤ m) {z : A} (hz : z ∈ xs.interleave ys) :
    ∃ n, k ≤ n ∧ f z n := by
  rcases List.mem_append.mp (List.interleave_perm_append.mem_iff.mp hz) with hz | hz
  · obtain ⟨i, hi⟩ := List.mem_iff_getElem?.mp hz
    exact ⟨k + i, Nat.le_add_right k i, hxs i z hi⟩
  · obtain ⟨i, hi⟩ := List.mem_iff_getElem?.mp hz
    exact ⟨m + i, hkm.trans (Nat.le_add_right m i), hys i z hi⟩

/-- Two rows whose measures rise by one from the same start stay in order when
their elements alternate. -/
theorem interleave_rising (hxs : ∀ i x, xs[i]? = some x → f x (k + i))
    (hys : ∀ i y, ys[i]? = some y → f y (m + i)) (hkm : k ≤ m) (hmk : m ≤ k + 1) :
    (xs.interleave ys).Pairwise fun x y => ∃ n n', n ≤ n' ∧ f x n ∧ f y n' := by
  induction xs, ys using List.interleave.induct generalizing k m with
  | case1 ys =>
      rw [List.nil_interleave, List.pairwise_iff_getElem]
      intro i j hi hj hij
      exact ⟨m + i, m + j, by omega, hys i _ (List.getElem?_eq_getElem hi),
        hys j _ (List.getElem?_eq_getElem hj)⟩
  | case2 x xs ys ih =>
      have hrest (i : Nat) (z : A) (hi : xs[i]? = some z) : f z (k + 1 + i) := by
        rw [Nat.add_assoc, Nat.add_comm 1]
        exact hxs (i + 1) z hi
      rw [List.cons_interleave, List.pairwise_cons]
      refine ⟨fun z hz => ?_, ih hys hrest hmk (Nat.add_le_add_right hkm 1)⟩
      obtain ⟨n, hn, hf⟩ := mem_interleave_rising hys hrest hmk hz
      exact ⟨k, n, hkm.trans hn, hxs 0 x rfl, hf⟩

end Rising

variable {A K : Type*} {l : Links A K} {p q root a b c : A} {before first last rest : Option A}
  {as bs xs ns : List A} {k m n i j : Nat}

theorem Segment.visits (h : Segment l p before first xs last none) : Visits l.next first xs := by
  generalize hrest : (none : Option A) = rest at h
  induction h with
  | nil =>
      subst hrest
      exact .nil
  | cons _ _ _ ih => exact .cons (ih hrest)

theorem Segment.visits_prev (h : Segment l p none first xs last rest) :
    Visits l.prev last xs.reverse := by
  induction xs using List.reverseRecOn generalizing last rest with
  | nil =>
      cases h
      exact .nil
  | append_singleton xs a ih =>
      obtain ⟨_, _, hxs, ha⟩ := segment_append.mp h
      rw [List.reverse_append]
      cases ha with
      | cons hprev _ ha =>
          rw [ha.last_eq]
          subst hprev
          exact .cons (ih hxs)

def follow (link : A → Option A) (a : A) : Nat → Option A
  | 0 => some a
  | n + 1 => (follow link a n).bind link

theorem follow_succ (link : A → Option A) (a : A) (n : Nat) :
    follow link a (n + 1) = (link a).bind fun b => follow link b n := by
  induction n with
  | zero => simp [follow]
  | succ n ih =>
      rw [follow, ih, Option.bind_assoc]
      rfl

def Apart (l : Links A K) (n : Nat) (a b : A) : Prop :=
  follow l.next a n = some b ∨ follow l.next b n = some a

/-- The level of the lowest common ancestor of two nodes of one level, counted
from below, and the number of sibling links between the two nodes below it. -/
inductive Away (l : Links A K) : A → A → Nat → Nat → Prop
  | same (a : A) : Away l a a 0 0
  | siblings {a b p : A} {n : Nat} (hne : a ≠ b) (ha : l.parent a = some p) (hb : l.parent b = some p)
      (hn : Apart l n a b) : Away l a b 1 n
  | up {a b p q : A} {k n : Nat} (ha : l.parent a = some p) (hb : l.parent b = some q) (hne : p ≠ q)
      (h : Away l p q k n) : Away l a b (k + 1) n

def Nearer (l : Links A K) (a b c : A) : Prop :=
  ∃ k n k' n', Away l a b k n ∧ Away l a c k' n' ∧ (k < k' ∨ k = k' ∧ n ≤ n')

theorem Away.descend (h : Away l p q k n) (hne : p ≠ q) (ha : follow l.parent a m = some p)
    (hb : follow l.parent b m = some q) : Away l a b (k + m) n := by
  induction m generalizing a b with
  | zero =>
      obtain rfl := Option.some.inj ha
      obtain rfl := Option.some.inj hb
      exact h
  | succ m ih =>
      rw [follow_succ, Option.bind_eq_some_iff] at ha hb
      obtain ⟨p', hp', ha⟩ := ha
      obtain ⟨q', hq', hb⟩ := hb
      apply Away.up hp' hq' ?_ (ih ha hb)
      rintro rfl
      exact hne (Option.some.inj (ha.symm.trans hb))

section Ordered

variable [LinearOrder K] {path path' : List K}

theorem At.beginning {keys : List K} (h : At l root (path ++ keys) a) : ∃ b, At l root path b := by
  induction keys using List.reverseRecOn generalizing a with
  | nil => exact ⟨a, by rwa [List.append_nil] at h⟩
  | append_singleton keys key ih =>
      rw [← List.append_assoc] at h
      obtain ⟨p, _, hp, -⟩ := h.above
      exact ih hp

theorem Children.visits (h : Children l p xs) : Visits l.next (l.child p) xs :=
  h.chain.choose_spec.visits

/-- The two ways along the siblings of a node. -/
theorem Children.visits_both (h : Children l p (as ++ a :: bs)) :
    Visits l.prev (l.prev a) as.reverse ∧ Visits l.next (l.next a) bs := by
  obtain ⟨_, hchain⟩ := h.chain
  obtain ⟨_, _, has, hbs⟩ := segment_append.mp hchain
  cases hbs with
  | cons hprev _ hbs =>
      subst hprev
      exact ⟨has.visits_prev, hbs.visits⟩

theorem Children.next_getElem? (h : Children l p xs) : xs[i]?.bind l.next = xs[i + 1]? := by
  obtain ⟨_, hchain⟩ := h.chain
  cases hi : xs[i]? with
  | none =>
      rw [List.getElem?_eq_none_iff] at hi
      exact (List.getElem?_eq_none (Nat.le_succ_of_le hi)).symm
  | some a =>
      obtain ⟨hlt, rfl⟩ := List.getElem?_eq_some_iff.mp hi
      have hsplit : xs.take i ++ xs[i] :: xs.drop (i + 1) = xs := by
        rw [List.cons_getElem_drop_succ, List.take_append_drop]
      rw [← hsplit] at hchain
      rw [Option.bind_some, hchain.next_eq, List.head?_drop]

theorem Children.follow_next (h : Children l p xs) (ha : xs[i]? = some a) :
    follow l.next a n = xs[i + n]? := by
  induction n with
  | zero => exact ha.symm
  | succ n ih => rw [follow, ih, h.next_getElem?, Nat.add_assoc]

theorem getElem?_nodup (hxs : xs.Nodup) (ha : xs[i]? = some a) : xs[j]? = some a ↔ j = i := by
  constructor
  · intro hj
    obtain ⟨hlt, -⟩ := List.getElem?_eq_some_iff.mp ha
    exact ((List.getElem?_inj hlt hxs).mp (ha.trans hj.symm)).symm
  · rintro rfl
    exact ha

theorem Children.apart_iff (h : Children l p xs) (ha : xs[i]? = some a) (hb : xs[j]? = some b) :
    Apart l n a b ↔ i + n = j ∨ j + n = i := by
  rw [Apart, h.follow_next ha, h.follow_next hb, getElem?_nodup h.nodup hb, getElem?_nodup h.nodup ha]

theorem Children.apart_unique (h : Children l p xs) (ha : a ∈ xs) (hb : b ∈ xs) (hn : Apart l n a b)
    (hm : Apart l m a b) : n = m := by
  obtain ⟨i, hi⟩ := List.mem_iff_getElem?.mp ha
  obtain ⟨j, hj⟩ := List.mem_iff_getElem?.mp hb
  rw [h.apart_iff hi hj] at hn hm
  omega

/-- Two nodes of a tree have one level and one number of links between them. -/
theorem Away.unique (h : Away l a b k n) (ha : At l root path a) (hb : At l root path' b)
    (htop : l.parent root = none) {k' n' : Nat} (h' : Away l a b k' n') : k = k' ∧ n = n' := by
  have habove {path : List K} {a p : A} (ha : At l root path a) (hp : l.parent a = some p) :
      ∃ path xs, At l root path p ∧ Children l p xs ∧ a ∈ xs := by
    cases ha with
    | root =>
        rw [htop] at hp
        cases hp
    | child hq hxs ha =>
        obtain rfl := Option.some.inj ((hxs.parent ha).symm.trans hp)
        exact ⟨_, _, hq, hxs, ha⟩
  induction h generalizing path path' k' n' with
  | same a =>
      cases h' with
      | same => exact ⟨rfl, rfl⟩
      | siblings hne => exact absurd rfl hne
      | up hp hq hne => exact absurd (Option.some.inj (hp.symm.trans hq)) hne
  | siblings hne hp hq hn =>
      cases h' with
      | same => exact absurd rfl hne
      | siblings _ _ _ hn' =>
          obtain ⟨_, xs, -, hxs, hax⟩ := habove ha hp
          obtain ⟨_, ys, -, hys, hby⟩ := habove hb hq
          obtain rfl := hxs.unique hys
          exact ⟨rfl, hxs.apart_unique hax hby hn hn'⟩
      | up hp' hq' hne' =>
          rw [hp] at hp'
          rw [hq] at hq'
          exact absurd (Option.some.inj (hp'.symm.trans hq')) hne'
  | up hp hq hne _ ih =>
      cases h' with
      | same => exact absurd (Option.some.inj (hp.symm.trans hq)) hne
      | siblings _ hp' hq' =>
          rw [hp] at hp'
          rw [hq] at hq'
          exact absurd (Option.some.inj (hp'.trans hq'.symm)) hne
      | up hp' hq' _ h' =>
          obtain rfl := Option.some.inj (hp.symm.trans hp')
          obtain rfl := Option.some.inj (hq.symm.trans hq')
          obtain ⟨_, _, hpAt, -, -⟩ := habove ha hp
          obtain ⟨_, _, hqAt, -, -⟩ := habove hb hq
          obtain ⟨rfl, rfl⟩ := ih hpAt hqAt h'
          exact ⟨rfl, rfl⟩

/-- The siblings of a node, the left one before the right one, are nearer first. -/
theorem Children.around_rising (h : Children l p (as ++ a :: bs)) :
    (as.reverse.interleave bs).Pairwise fun b c =>
      ∃ n n', n ≤ n' ∧ Apart l n a b ∧ Apart l n' a c := by
  have ha : (as ++ a :: bs)[as.length]? = some a := by simp
  refine (interleave_rising (f := fun b n => Apart l n a b) (k := 1) (m := 1) (fun i b hb => ?_)
    (fun i b hb => ?_) le_rfl (Nat.le_succ 1))
  · have hi := (List.getElem?_eq_some_iff.mp hb).1
    rw [List.length_reverse] at hi
    rw [List.getElem?_reverse hi] at hb
    have hb' : (as ++ a :: bs)[as.length - 1 - i]? = some b := by
      rw [List.getElem?_append_left (by omega), hb]
    apply (h.apart_iff ha hb').mpr
    omega
  · have hb' : (as ++ a :: bs)[as.length + (1 + i)]? = some b := by
      rw [List.getElem?_append_right (Nat.le_add_right _ _), Nat.add_sub_cancel_left, Nat.add_comm 1,
        List.getElem?_cons_succ, hb]
    apply (h.apart_iff ha hb').mpr
    omega

theorem mem_row (hb : b ∈ as ++ bs) : b ∈ as ++ a :: bs :=
  List.perm_middle.mem_iff.mpr (List.mem_cons_of_mem a hb)

theorem mem_around : b ∈ as.reverse.interleave bs ↔ b ∈ as ++ bs := by
  rw [List.interleave_perm_append.mem_iff, List.mem_append, List.mem_reverse, List.mem_append]

theorem Children.apart_around (h : Children l p (as ++ a :: bs)) (hb : b ∈ as.reverse.interleave bs) :
    ∃ n, Apart l n a b := by
  obtain ⟨j, hj⟩ := List.mem_iff_getElem?.mp (mem_row (a := a) (mem_around.mp hb))
  have ha : (as ++ a :: bs)[as.length]? = some a := by simp
  rcases le_total as.length j with hle | hle
  · exact ⟨j - as.length, (h.apart_iff ha hj).mpr (.inl (Nat.add_sub_cancel' hle))⟩
  · exact ⟨as.length - j, (h.apart_iff ha hj).mpr (.inr (Nat.add_sub_cancel' hle))⟩

noncomputable def Links.row (l : Links A K) (p : A) : List A := Classical.epsilon (Children l p)

noncomputable def Links.below (l : Links A K) : Nat → A → List A
  | 0, a => [a]
  | k + 1, a => (l.row a).flatMap (l.below k)

theorem Children.row_eq (h : Children l p xs) : l.row p = xs :=
  (Classical.epsilon_spec (p := Children l p) ⟨xs, h⟩).unique h

theorem Tree.row (ht : Tree l root) (hp : At l root path p) : Children l p (l.row p) :=
  Classical.epsilon_spec (ht.children path p hp)

theorem Tree.mem_below (ht : Tree l root) (hp : At l root path p) :
    a ∈ l.below k p ↔ ∃ keys, keys.length = k ∧ At l root (path ++ keys) a := by
  induction k generalizing p path with
  | zero =>
      rw [Links.below, List.mem_singleton]
      constructor
      · rintro rfl
        exact ⟨[], rfl, by rwa [List.append_nil]⟩
      · rintro ⟨keys, hlen, ha⟩
        obtain rfl := List.eq_nil_of_length_eq_zero hlen
        rw [List.append_nil] at ha
        exact ha.unique hp
  | succ k ih =>
      rw [Links.below, List.mem_flatMap]
      constructor
      · rintro ⟨b, hb, ha⟩
        obtain ⟨keys, hlen, ha⟩ := (ih (.child hp (ht.row hp) hb)).mp ha
        exact ⟨l.key b :: keys, by rw [List.length_cons, hlen], by rwa [List.append_cons]⟩
      · rintro ⟨keys, hlen, ha⟩
        cases keys with
        | nil => cases hlen
        | cons key keys =>
            rw [List.append_cons] at ha
            obtain ⟨b, hb⟩ := ha.beginning
            obtain ⟨q, ys, hq, hys, hby, rfl⟩ := hb.above
            obtain rfl := hq.unique hp
            rw [hys.row_eq]
            exact ⟨b, hby, (ih hb).mpr ⟨keys, Nat.succ.inj hlen, ha⟩⟩

theorem Tree.nodup_below (ht : Tree l root) (hp : At l root path p) : (l.below k p).Nodup := by
  induction k generalizing p path with
  | zero => exact List.nodup_singleton p
  | succ k ih =>
      have hxs := ht.row hp
      rw [Links.below, List.nodup_flatMap]
      refine ⟨fun a ha => ih (.child hp hxs ha), ?_⟩
      apply hxs.nodup.imp_of_mem
      intro a b ha hb hne c hca hcb
      obtain ⟨keys, -, hc⟩ := (ht.mem_below (.child hp hxs ha)).mp hca
      obtain ⟨keys', -, hc'⟩ := (ht.mem_below (.child hp hxs hb)).mp hcb
      have hpath := hc.path_unique ht.top hc'
      rw [← List.append_cons, ← List.append_cons] at hpath
      exact hne (hxs.of_key ha hb (List.cons.inj (List.append_cancel_left hpath)).1)

theorem Tree.follow_parent (ht : Tree l root) (hp : At l root path p) (ha : a ∈ l.below k p) :
    follow l.parent a k = some p := by
  induction k generalizing p path with
  | zero => rw [List.mem_singleton.mp ha, follow]
  | succ k ih =>
      have hxs := ht.row hp
      obtain ⟨b, hb, ha⟩ := List.mem_flatMap.mp ha
      rw [follow, ih (.child hp hxs hb) ha, Option.bind_some, hxs.parent hb]

/-- The nodes below the ancestors of a: first a, and then, level by level, those
below the siblings of its ancestor, the left one before the right one. -/
inductive Outward (l : Links A K) (a : A) : Nat → A → List A → Prop
  | self : Outward l a 0 a [a]
  | up {k : Nat} {q p : A} {ns as bs : List A} (h : Outward l a k q ns)
      (hxs : Children l p (as ++ q :: bs)) :
      Outward l a (k + 1) p (ns ++ (as.reverse.interleave bs).flatMap (l.below k))

/-- All the nodes of the level are there, each of them once. -/
theorem Outward.perm (h : Outward l a k p ns) : ns.Perm (l.below k p) := by
  induction h with
  | self => exact .refl _
  | @up k q p ns as bs h hxs ih =>
      rw [Links.below, hxs.row_eq]
      have hrow : (as ++ q :: bs).Perm (q :: as.reverse.interleave bs) := by
        apply List.perm_middle.trans
        apply List.Perm.cons
        exact (as.reverse_perm.symm.append_right bs).trans List.interleave_perm_append.symm
      calc List.Perm (ns ++ (as.reverse.interleave bs).flatMap (l.below k))
            (l.below k q ++ (as.reverse.interleave bs).flatMap (l.below k)) := ih.append_right _
        _ = (q :: as.reverse.interleave bs).flatMap (l.below k) := List.flatMap_cons.symm
        List.Perm _ ((as ++ q :: bs).flatMap (l.below k)) := hrow.symm.flatMap_right _

theorem Outward.follow_parent (h : Outward l a k p ns) : follow l.parent a k = some p := by
  induction h with
  | self => rfl
  | up _ hxs ih =>
      rw [follow, ih, Option.bind_some]
      exact hxs.parent (List.mem_append_right _ List.mem_cons_self)

theorem Outward.away_sibling (h : Outward l a k q ns) (ht : Tree l root) (hp : At l root path p)
    (hxs : Children l p (as ++ q :: bs)) (hb : b ∈ as.reverse.interleave bs) (hn : Apart l n q b)
    (hc : c ∈ l.below k b) : Away l a c (k + 1) n := by
  have hmem := mem_around.mp hb
  have hb' : b ∈ as ++ q :: bs := mem_row hmem
  have hne : q ≠ b := by
    rintro rfl
    exact (List.nodup_cons.mp (List.perm_middle.nodup_iff.mp hxs.nodup)).1 hmem
  have hq := hxs.parent (List.mem_append_right as List.mem_cons_self)
  rw [Nat.add_comm]
  exact (Away.siblings hne hq (hxs.parent hb') hn).descend hne h.follow_parent
    (ht.follow_parent (.child hp hxs hb') hc)

theorem Outward.away (h : Outward l a k p ns) (ht : Tree l root) (hp : At l root path p)
    (hb : b ∈ ns) : ∃ m n, m ≤ k ∧ Away l a b m n := by
  induction h generalizing path with
  | self =>
      obtain rfl := List.mem_singleton.mp hb
      exact ⟨0, 0, le_rfl, .same b⟩
  | @up k q p ns as bs h hxs ih =>
      have hq : q ∈ as ++ q :: bs := List.mem_append_right as List.mem_cons_self
      rcases List.mem_append.mp hb with hb | hb
      · obtain ⟨m, n, hm, haway⟩ := ih (.child hp hxs hq) hb
        exact ⟨m, n, Nat.le_succ_of_le hm, haway⟩
      · obtain ⟨c, hc, hb⟩ := List.mem_flatMap.mp hb
        obtain ⟨n, hn⟩ := hxs.apart_around hc
        exact ⟨k + 1, n, le_rfl, h.away_sibling ht hp hxs hc hn hb⟩

/-- Nearer nodes come first. -/
theorem Outward.sorted (h : Outward l a k p ns) (ht : Tree l root) (hp : At l root path p) :
    ns.Pairwise (Nearer l a) := by
  induction h generalizing path with
  | self => exact List.pairwise_singleton _ _
  | @up k q p ns as bs h hxs ih =>
      have hq : At l root (path ++ [l.key q]) q :=
        .child hp hxs (List.mem_append_right as List.mem_cons_self)
      rw [List.pairwise_append, List.pairwise_flatMap]
      refine ⟨ih hq, ⟨fun c hc => ?_, ?_⟩, fun b hb d hd => ?_⟩
      · -- below one sibling all are equally far
        obtain ⟨n, hn⟩ := hxs.apart_around hc
        apply List.pairwise_of_forall_mem_list
        intro b hb d hd
        exact ⟨k + 1, n, k + 1, n, h.away_sibling ht hp hxs hc hn hb,
          h.away_sibling ht hp hxs hc hn hd, .inr ⟨rfl, le_rfl⟩⟩
      · apply hxs.around_rising.imp_of_mem
        rintro c c' hc hc' ⟨n, n', hle, hn, hn'⟩ b hb d hd
        exact ⟨k + 1, n, k + 1, n', h.away_sibling ht hp hxs hc hn hb,
          h.away_sibling ht hp hxs hc' hn' hd, .inr ⟨rfl, hle⟩⟩
      · obtain ⟨m, n, hm, hb⟩ := h.away ht hq hb
        obtain ⟨c, hc, hd⟩ := List.mem_flatMap.mp hd
        obtain ⟨n', hn'⟩ := hxs.apart_around hc
        exact ⟨m, n, k + 1, n', hb, h.away_sibling ht hp hxs hc hn' hd, .inl (Nat.lt_succ_of_le hm)⟩

end Ordered

end HabaneroUpc.Siblings
