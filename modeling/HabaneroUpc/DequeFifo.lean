import HabaneroUpc.SemiConcDeque

namespace HabaneroUpc.SemiConcDeque

open Interleaving RingBuffer

variable {ι : Type*} {w : Nat}

def locking : PC w → Bool
  | .push (.index _) | .push (.write _ _ _) | .push (.incTail _) | .push .unlock => true
  | _ => false

def filling : PC w → Bool
  | .push (.index _) | .push (.write _ _ _) | .push (.incTail _) => true
  | _ => false

def popping : PC w → Bool
  | .pop _ => true
  | _ => false

def taking : PC w → Bool
  | .pop .test => false
  | .pop _ => true
  | _ => false

def Written (g : Deque ι w) : PC w → Prop
  | .push (.write entry index copied) =>
      index = cell semiConcurrentDequeSize g.deqTail ∧ ∀ b ∈ copied, g.cells index b = entry b
  | .push (.incTail entry) => g.cells (cell semiConcurrentDequeSize g.deqTail) = entry
  | _ => True

def Read (g : Deque ι w) : PC w → Prop
  | .pop (.read index buff copied) =>
      index = cell semiConcurrentDequeSize g.deqHead ∧ ∀ b ∈ copied, buff b = g.cells index b
  | .pop (.incHead buff) => g.cells (cell semiConcurrentDequeSize g.deqHead) = buff
  | _ => True

def pending : PC w → List (Fifo.Call (Entry w))
  | .push (.size entry) | .push (.full entry _) | .push (.cas entry) | .push (.index entry)
  | .push (.write entry _ _) | .push (.incTail entry) => [.push entry]
  | .pop _ => [.pop]
  | _ => []

/-- What the variables of the deque satisfy. The history is one of the bounded
queue, which now holds the entries from deqHead up to deqTail. -/
structure Common (g : Deque ι w) : Prop where
  free : g.lock = 0 → g.holder = none
  nonneg : 0 ≤ g.deqHead
  order : g.deqHead ≤ g.deqTail
  capacity : g.deqTail - g.deqHead ≤ semiConcurrentDequeSize
  fifo : (Fifo.queue semiConcurrentDequeSize).run [] g.calls = some (g.results, g.content)

variable {g g' : Deque ι w}

theorem locking_of_filling {pc : PC w} (h : filling pc = true) : locking pc = true := by
  unfold filling at h
  split at h <;> first | rfl | cases h

theorem popping_of_taking {pc : PC w} (h : taking pc = true) : popping pc = true := by
  unfold taking at h
  split at h <;> first | rfl | cases h

theorem written_congr {pc : PC w}
    (h : filling pc = true → g'.deqTail = g.deqTail ∧ g'.cells = g.cells)
    (hw : Written g pc) : Written g' pc := by
  cases pc with
  | idle | pop => trivial
  | push l =>
      cases l with
      | write | incTail =>
          obtain ⟨htail, hcells⟩ := h rfl
          rw [Written, htail, hcells]
          exact hw
      | _ => trivial

theorem read_congr {pc : PC w}
    (h : taking pc = true → g'.deqHead = g.deqHead ∧
      g'.cells (cell semiConcurrentDequeSize g.deqHead) =
        g.cells (cell semiConcurrentDequeSize g.deqHead))
    (hr : Read g pc) : Read g' pc := by
  cases pc with
  | idle | push => trivial
  | pop l =>
      cases l with
      | read index buff copied =>
          obtain ⟨hhead, hcells⟩ := h rfl
          obtain ⟨rfl, hr⟩ := hr
          exact ⟨by rw [hhead], fun b hb => by rw [hcells]; exact hr b hb⟩
      | incHead buff =>
          obtain ⟨hhead, hcells⟩ := h rfl
          rw [Read, hhead, hcells]
          exact hr
      | _ => trivial

theorem common_of_eq (hc : Common g) (hfree : g'.lock = 0 → g'.holder = none)
    (hg : g' = { g with lock := g'.lock, full := g'.full, holder := g'.holder }) : Common g' := by
  refine ⟨hfree, ?_, ?_, ?_, ?_⟩ <;> rw [hg]
  · exact hc.nonneg
  · exact hc.order
  · exact hc.capacity
  · exact hc.fifo

theorem content_length (hc : Common g) : (g.content.length : Int) = g.deqTail - g.deqHead := by
  have horder := hc.order
  simp only [Deque.content, window_length]
  omega

/-- A write into the cell at deqTail, below capacity, hides no entry. -/
theorem content_update (hc : Common g) (hroom : g.deqTail - g.deqHead < semiConcurrentDequeSize)
    (entry : Entry w) :
    { g with cells := Function.update g.cells (cell semiConcurrentDequeSize g.deqTail) entry }.content =
      g.content := by
  have horder := hc.order
  exact window_update _ _ _ _ (by dsimp only; omega) (by dsimp only; omega)

theorem fifo_record (hc : Common g) (i : ι) {call : Fifo.Call (Entry w)} {result : Option (Entry w)}
    {xs : List (Entry w)}
    (hcall : (Fifo.queue semiConcurrentDequeSize).call call g.content = some (result, xs)) :
    (Fifo.queue semiConcurrentDequeSize).run [] (g.record i call result).calls =
      some ((g.record i call result).results, xs) := by
  have hrun := Fifo.Object.run_snoc hc.fifo hcall
  simpa [Deque.calls, Deque.results, Deque.record] using hrun

theorem incTail_common (hc : Common g) (i : ι) {entry : Entry w}
    (hroom : g.deqTail - g.deqHead < semiConcurrentDequeSize)
    (hwritten : g.cells (cell semiConcurrentDequeSize g.deqTail) = entry) :
    Common ({ g with deqTail := g.deqTail + 1 }.record i (.push entry) none) := by
  have horder := hc.order
  refine ⟨hc.free, hc.nonneg, ?_, ?_, ?_⟩
  · simp only [Deque.record]
    omega
  · simp only [Deque.record]
    omega
  · have hcontent : { g with deqTail := g.deqTail + 1 }.content = g.content ++ [entry] := by
      have hsize : (g.deqTail + 1 - g.deqHead).toNat = (g.deqTail - g.deqHead).toNat + 1 := by omega
      have hlast : g.deqHead - 1 + ((g.deqTail - g.deqHead).toNat : Int) + 1 = g.deqTail := by omega
      simp only [Deque.content, hsize]
      rw [window_snoc, hlast, hwritten]
    have hlen := content_length hc
    have hcall : (Fifo.queue semiConcurrentDequeSize).call (.push entry) g.content =
        some (none, g.content ++ [entry]) := if_pos (by omega)
    have hrun := fifo_record hc i hcall
    rw [← hcontent] at hrun
    exact hrun

theorem incHead_common (hc : Common g) (i : ι) {buff : Entry w} (htaken : g.deqHead < g.deqTail)
    (hread : g.cells (cell semiConcurrentDequeSize g.deqHead) = buff) :
    Common ({ g with deqHead := g.deqHead + 1 }.record i .pop (some buff)) := by
  have hnonneg := hc.nonneg
  have hcap := hc.capacity
  refine ⟨hc.free, ?_, ?_, ?_, ?_⟩
  · simp only [Deque.record]
    omega
  · simp only [Deque.record]
    omega
  · simp only [Deque.record]
    omega
  · have hcontent : g.content = buff :: { g with deqHead := g.deqHead + 1 }.content := by
      have hsize : (g.deqTail - g.deqHead).toNat = (g.deqTail - (g.deqHead + 1)).toNat + 1 := by
        omega
      have hfirst : g.deqHead - 1 + 1 = g.deqHead := by omega
      have hrest : g.deqHead + 1 - 1 = g.deqHead := by omega
      simp only [Deque.content, hsize, window, hfirst, hrest, hread]
    have hcall : (Fifo.queue semiConcurrentDequeSize).call .pop g.content =
        some (some buff, { g with deqHead := g.deqHead + 1 }.content) := by
      rw [hcontent]
      rfl
    exact fifo_record hc i hcall

theorem pushes_calls (g : Deque ι w) : Fifo.pushed g.calls = g.pushes.map Prod.snd := by
  simp only [Fifo.pushed, Deque.calls, Deque.pushes, List.filterMap_map, List.map_filterMap]
  apply List.filterMap_congr
  rintro ⟨i, call, result⟩ -
  cases call <;> rfl

variable [DecidableEq ι] {comm i j : ι} {P P' : Worker w}

def Deque.callsOf (g : Deque ι w) (i : ι) : List (Fifo.Call (Entry w)) :=
  (g.history.filter fun e => e.1 = i).map fun e => e.2.1

structure Own (comm i : ι) (P : Worker w) (g : Deque ι w) : Prop where
  holds : locking P.pc = true ↔ g.holder = some i
  room : filling P.pc = true → g.deqTail - g.deqHead < semiConcurrentDequeSize
  written : Written g P.pc
  popper : popping P.pc = true → i = comm
  taken : taking P.pc = true → g.deqHead < g.deqTail
  read : Read g P.pc
  begun : P.begun = g.callsOf i ++ pending P.pc

/-- All that a step of one thread can do to what the others rely on: only the
holder of the lock moves deqTail and writes, and only into the cell there. -/
structure Effect (comm i : ι) (g g' : Deque ι w) : Prop where
  holder : ∀ j, j ≠ i → (g'.holder = some j ↔ g.holder = some j)
  tail : g'.deqTail = g.deqTail ∨ g.holder = some i ∧ g'.deqTail = g.deqTail + 1
  head : g'.deqHead = g.deqHead ∨ i = comm ∧ g'.deqHead = g.deqHead + 1
  cells : ∀ k, g'.cells k = g.cells k ∨ g.holder = some i ∧
    k = cell semiConcurrentDequeSize g.deqTail ∧
    g.deqTail - g.deqHead < semiConcurrentDequeSize
  calls : ∀ j, j ≠ i → g'.callsOf j = g.callsOf j

theorem own_other (h : Effect comm i g g') (hj : j ≠ i) (ho : Own comm j P g) :
    Own comm j P g' := by
  have hlocked (hl : locking P.pc = true) : g.holder ≠ some i := by
    rw [ho.holds.mp hl]
    exact fun he => hj (Option.some.inj he)
  have htail (hl : locking P.pc = true) : g'.deqTail = g.deqTail :=
    h.tail.resolve_right fun ht => hlocked hl ht.1
  have hcells (hl : locking P.pc = true) : g'.cells = g.cells := by
    funext k
    exact (h.cells k).resolve_right fun ht => hlocked hl ht.1
  have hhead (hp : popping P.pc = true) : g'.deqHead = g.deqHead :=
    h.head.resolve_right fun ht => hj ((ho.popper hp).trans ht.1.symm)
  refine ⟨?_, ?_, ?_, ho.popper, ?_, ?_, ?_⟩
  · rw [h.holder j hj]
    exact ho.holds
  · intro hf
    have hroom := ho.room hf
    rw [htail (locking_of_filling hf)]
    rcases h.head with he | ⟨-, he⟩ <;> rw [he] <;> omega
  · apply written_congr _ ho.written
    intro hf
    exact ⟨htail (locking_of_filling hf), hcells (locking_of_filling hf)⟩
  · intro ht
    have htaken := ho.taken ht
    rw [hhead (popping_of_taking ht)]
    rcases h.tail with he | ⟨-, he⟩ <;> rw [he] <;> omega
  · apply read_congr _ ho.read
    intro ht
    refine ⟨hhead (popping_of_taking ht), (h.cells _).resolve_right ?_⟩
    rintro ⟨-, hsame, hroom⟩
    exact cell_ne (ho.taken ht) (by omega) hsame
  · rw [h.calls j hj]
    exact ho.begun

theorem effect_of_eq (hholder : ∀ j, j ≠ i → (g'.holder = some j ↔ g.holder = some j))
    (hg : g' = { g with lock := g'.lock, full := g'.full, holder := g'.holder }) :
      Effect comm i g g' := by
  refine ⟨hholder, .inl ?_, .inl ?_, fun k => .inl ?_, fun j _ => ?_⟩ <;> rw [hg]
  rfl

theorem own_push {l l' : PushPc w} (ho : Own comm i P g) (hpc : P.pc = .push l)
    (hlock : locking (.push l') = locking (.push l))
    (hroom : filling (.push l') = filling (.push l))
    (hwritten : Written g (.push l')) (hpending : pending (.push l') = pending (.push l)) :
    Own comm i (P.goto (.push l')) g := by
  refine ⟨?_, ?_, hwritten, (fun h => by cases h), (fun h => by cases h), trivial, ?_⟩
  · have hholds := ho.holds
    rwa [hpc, ← hlock] at hholds
  · have hfill := ho.room
    rwa [hpc, ← hroom] at hfill
  · have hbegun := ho.begun
    rwa [hpc, ← hpending] at hbegun

theorem own_pop {l l' : PopPc w} (ho : Own comm i P g) (hpc : P.pc = .pop l)
    (htaken : g.deqHead < g.deqTail) (hread : Read g (.pop l')) :
      Own comm i (P.goto (.pop l')) g := by
  refine ⟨?_, (fun h => by cases h), trivial, (fun _ => ho.popper (by rw [hpc]; rfl)),
    fun _ => htaken, hread, ?_⟩
  · have hholds := ho.holds
    rwa [hpc] at hholds
  · have hbegun := ho.begun
    rwa [hpc] at hbegun

theorem callsOf_record (g : Deque ι w) (i j : ι) (call : Fifo.Call (Entry w))
    (result : Option (Entry w)) :
    (g.record i call result).callsOf j = g.callsOf j ++ if i = j then [call] else [] := by
  simp only [Deque.callsOf, Deque.record, List.filter_append, List.map_append,
    List.filter_singleton]
  split <;> simp_all

/-- The threads' view of the deque is that of Common and Effect. -/
theorem push_step (ho : Own comm i P g) (hc : Common g) {l : PushPc w} {a : Act w}
    (hpc : P.pc = .push l)
    (hok : ∀ entry, l = .cas entry → g.lock = 0 → g.deqTail - g.deqHead < semiConcurrentDequeSize)
    (h : commTaskPush i P g l a = some (P', g')) :
    Own comm i P' g' ∧ Common g' ∧ Effect comm i g g' := by
  have hrefl : Effect comm i g g := effect_of_eq (fun _ _ => Iff.rfl) rfl
  cases l with
  | size entry =>
      cases a <;> cases h
      exact ⟨own_push ho hpc rfl rfl trivial rfl, hc, hrefl⟩
  | full entry tail =>
      cases a <;> simp only [commTaskPush] at h <;> try cases h
      split at h <;> cases h
      · refine ⟨⟨ho.holds, ho.room, ?_, ho.popper, ho.taken, ?_, ho.begun⟩,
          common_of_eq hc hc.free rfl, effect_of_eq (fun _ _ => Iff.rfl) rfl⟩
        · rw [hpc]
          trivial
        · rw [hpc]
          trivial
      · exact ⟨own_push ho hpc rfl rfl trivial rfl, hc, hrefl⟩
  | cas entry =>
      cases a <;> try cases h
      have hbegun := ho.begun
      rw [hpc] at hbegun
      by_cases hlock : g.lock = 0
      · simp only [commTaskPush, hcCas_won hlock, if_true] at h
        cases h
        have hfree := hc.free hlock
        refine ⟨⟨?_, ?_, trivial, (fun h => by cases h), (fun h => by cases h), trivial, hbegun⟩,
          common_of_eq hc (fun h => by cases h) rfl, effect_of_eq ?_ rfl⟩
        · exact iff_of_true rfl rfl
        · exact fun _ => hok entry rfl hlock
        · intro j hj
          simp [hfree, hj.symm]
      · simp only [commTaskPush, hcCas_lost hlock, Bool.false_eq_true, if_false] at h
        cases h
        exact ⟨own_push ho hpc rfl rfl trivial rfl, hc, hrefl⟩
  | index entry =>
      cases a <;> cases h
      have htail := hc.nonneg.trans hc.order
      exact ⟨own_push ho hpc rfl rfl ⟨slot_of_nonneg htail, by simp⟩ rfl, hc, hrefl⟩
  | write entry index copied =>
      have hheld := ho.holds
      have hroom := ho.room
      have hwritten := ho.written
      rw [hpc] at hheld hroom hwritten
      obtain ⟨rfl, hcopied⟩ := hwritten
      cases a with
      | copy bytes =>
          cases h
          have hbegun := ho.begun
          rw [hpc] at hbegun
          refine ⟨⟨hheld, hroom, ⟨rfl, ?_⟩, (fun h => by cases h), (fun h => by cases h), trivial,
            hbegun⟩, ⟨hc.free, hc.nonneg, hc.order, hc.capacity, ?_⟩, ?_⟩
          · dsimp only
            rw [Function.update_self]
            exact copyBytes_eq hcopied
          · have hfifo := hc.fifo
            rw [← content_update hc (hroom rfl)] at hfifo
            exact hfifo
          · refine ⟨fun _ _ => Iff.rfl, .inl rfl, .inl rfl, fun k => ?_, fun _ _ => rfl⟩
            by_cases hk : k = cell semiConcurrentDequeSize g.deqTail
            · exact .inr ⟨hheld.mp rfl, hk, hroom rfl⟩
            · exact .inl (Function.update_of_ne hk ..)
      | step =>
          simp only [commTaskPush] at h
          split at h <;> cases h
          refine ⟨own_push ho hpc rfl rfl ?_ rfl, hc, hrefl⟩
          funext b
          exact hcopied b (by simp [*])
      | push | pop => cases h
  | incTail entry =>
      cases a <;> cases h
      have hheld := ho.holds
      have hroom := ho.room
      have hwritten := ho.written
      have hbegun := ho.begun
      rw [hpc] at hheld hroom hwritten hbegun
      refine ⟨⟨hheld, (fun h => by cases h), trivial, (fun h => by cases h), (fun h => by cases h),
        trivial, ?_⟩, incTail_common hc i (hroom rfl) hwritten, ?_⟩
      · rw [callsOf_record, if_pos rfl]
        exact hbegun.trans (List.append_nil _).symm
      · refine ⟨fun _ _ => Iff.rfl, .inr ⟨hheld.mp rfl, rfl⟩, .inl rfl, fun _ => .inl rfl, ?_⟩
        intro j hj
        rw [callsOf_record, if_neg hj.symm, List.append_nil]
        rfl
  | unlock =>
      cases a <;> cases h
      have hheld := ho.holds
      have hbegun := ho.begun
      rw [hpc] at hheld hbegun
      refine ⟨⟨?_, (fun h => by cases h), trivial, (fun h => by cases h), (fun h => by cases h),
        trivial, hbegun⟩, common_of_eq hc (fun _ => rfl) rfl, effect_of_eq ?_ rfl⟩
      · exact iff_of_false (fun h => by cases h) (fun h => by cases h)
      · intro j hj
        simp [hheld.mp rfl, hj.symm]

theorem own_return (ho : Own comm i P g) {l : PopPc w} (hpc : P.pc = .pop l)
    {result : Option (Entry w)}
    {head : Int} : Own comm i (P.goto .idle) ({ g with deqHead := head }.record i .pop result) := by
  have hheld := ho.holds
  have hbegun := ho.begun
  rw [hpc] at hheld hbegun
  refine ⟨hheld, (fun h => by cases h), trivial, (fun h => by cases h), (fun h => by cases h),
    trivial, ?_⟩
  rw [callsOf_record, if_pos rfl]
  exact hbegun.trans (List.append_nil _).symm

theorem effect_return (hhead : i = comm) (g : Deque ι w) {result : Option (Entry w)} {head : Int}
    (hnext : head = g.deqHead ∨ head = g.deqHead + 1) :
    Effect comm i g ({ g with deqHead := head }.record i .pop result) := by
  refine ⟨fun _ _ => Iff.rfl, .inl rfl, hnext.imp_right fun h => ⟨hhead, h⟩, fun _ => .inl rfl, ?_⟩
  intro j hj
  rw [callsOf_record, if_neg hj.symm, List.append_nil]
  rfl

theorem pop_step (ho : Own comm i P g) (hc : Common g) {l : PopPc w} {a : Act w}
    (hpc : P.pc = .pop l) (h : commTaskPop i P g l a = some (P', g')) :
    Own comm i P' g' ∧ Common g' ∧ Effect comm i g g' := by
  have hrefl : Effect comm i g g := effect_of_eq (fun _ _ => Iff.rfl) rfl
  have hcomm : i = comm := ho.popper (by rw [hpc]; rfl)
  cases l with
  | test =>
      cases a <;> simp only [commTaskPop] at h <;> try cases h
      split at h <;> cases h
      · exact ⟨own_pop ho hpc (by omega) trivial, hc, hrefl⟩
      · have hnil : g.content = [] := by
          have hlen := content_length hc
          apply List.eq_nil_of_length_eq_zero
          omega
        refine ⟨own_return ho hpc, ⟨hc.free, hc.nonneg, hc.order, hc.capacity, ?_⟩,
          effect_return hcomm g (.inl rfl)⟩
        apply fifo_record hc i
        rw [hnil]
        exact congrArg some (Prod.ext rfl hnil.symm)
  | index =>
      cases a <;> cases h
      exact ⟨own_pop ho hpc (ho.taken (by rw [hpc]; rfl)) ⟨slot_of_nonneg hc.nonneg, by simp⟩, hc,
        hrefl⟩
  | read index buff copied =>
      have htaken := ho.taken (by rw [hpc]; rfl)
      have hread := ho.read
      rw [hpc] at hread
      obtain ⟨rfl, hcopied⟩ := hread
      cases a with
      | copy bytes =>
          cases h
          exact ⟨own_pop ho hpc htaken ⟨rfl, copyBytes_eq hcopied⟩, hc, hrefl⟩
      | step =>
          simp only [commTaskPop] at h
          split at h <;> cases h
          refine ⟨own_pop ho hpc htaken ?_, hc, hrefl⟩
          funext b
          exact (hcopied b (by simp [*])).symm
      | push | pop => cases h
  | incHead buff =>
      cases a <;> cases h
      have htaken := ho.taken (by rw [hpc]; rfl)
      have hread := ho.read
      rw [hpc] at hread
      exact ⟨own_return ho hpc, incHead_common hc i htaken hread, effect_return hcomm g (.inr rfl)⟩

theorem own_begin (ho : Own comm i P g) (hpc : P.pc = .idle) {pc : PC w}
    {call : Fifo.Call (Entry w)}
    (hlock : locking pc = false) (htake : taking pc = false) (hwritten : Written g pc)
    (hread : Read g pc) (hpop : popping pc = true → i = comm) (hpending : pending pc = [call]) :
    Own comm i { P with pc := pc, begun := P.begun ++ [call] } g := by
  have hheld := ho.holds
  have hbegun := ho.begun
  rw [hpc] at hheld hbegun
  refine ⟨?_, fun hf => ?_, hwritten, hpop, fun ht => ?_, hread, ?_⟩
  · dsimp only
    rw [hlock]
    exact hheld
  · exact absurd (locking_of_filling hf) (by simp [hlock])
  · dsimp only at ht
    rw [htake] at ht
    cases ht
  · dsimp only
    rw [hpending, hbegun]
    exact congrArg (· ++ [call]) (List.append_nil _)

/-- The condition on a run: no push enters its critical section when the deque
is full. -/
def entersBelowCapacity (s : Global ι (Worker w) (Deque ι w)) (i : ι) (_ : Act w) : Bool :=
  match (s.proc i).pc with
  | .push (.cas _) => s.shared.lock ≠ 0 ∨
      s.shared.deqTail - s.shared.deqHead < semiConcurrentDequeSize
  | _ => true

theorem deque_step (ho : Own comm i P g) (hc : Common g) {a : Act w}
    (hok : ∀ entry, P.pc = .push (.cas entry) → g.lock = 0 →
      g.deqTail - g.deqHead < semiConcurrentDequeSize)
    (h : act comm i a P g = some (P', g')) : Own comm i P' g' ∧ Common g' ∧ Effect comm i g g' := by
  simp only [act] at h
  split at h
  · cases h
  · cases hpc : P.pc with
    | idle =>
        have hrefl : Effect comm i g g := effect_of_eq (fun _ _ => Iff.rfl) rfl
        simp only [hpc] at h
        cases a with
        | push entry =>
            cases h
            exact ⟨own_begin ho hpc rfl rfl trivial trivial (fun h => by cases h) rfl, hc, hrefl⟩
        | pop =>
            simp only at h
            split at h <;> cases h
            exact ⟨own_begin ho hpc rfl rfl trivial trivial (fun _ => ‹i = comm›) rfl, hc, hrefl⟩
        | step | copy => cases h
    | push l =>
        simp only [hpc] at h
        exact push_step ho hc hpc (fun entry hl => hok entry (by rw [hpc, hl])) h
    | pop l =>
        simp only [hpc] at h
        exact pop_step ho hc hpc h

structure DequeInv (comm : ι) (s : Global ι (Worker w) (Deque ι w)) : Prop where
  common : Common s.shared
  own : ∀ i, Own comm i (s.proc i) s.shared

theorem dequeInv_reachable {s : Global ι (Worker w) (Deque ι w)}
    (hs : ReachableWhen (semiConcDeque comm w) (fun s i a => entersBelowCapacity s i a = true) s) :
    DequeInv comm s := by
  apply hs.invariant
  · refine ⟨⟨fun _ => rfl, le_rfl, le_rfl, Int.natCast_nonneg _, rfl⟩, fun i => ?_⟩
    exact ⟨by simp [semiConcDeque, locking, Deque.init], (fun h => by cases h), trivial,
      (fun h => by cases h), (fun h => by cases h), trivial, rfl⟩
  · intro s i a P g _ hok hI ha
    have hroom (entry : Entry w) (hpc : (s.proc i).pc = .push (.cas entry))
      (hlock : s.shared.lock = 0) :
        s.shared.deqTail - s.shared.deqHead < semiConcurrentDequeSize := by
      simpa [entersBelowCapacity, hpc, hlock] using hok
    obtain ⟨hown, hcommon, heffect⟩ := deque_step (hI.own i) hI.common hroom ha
    exact ⟨hcommon, forall_set (Q := fun j P => Own comm j P g) hown
      fun j hj => own_other heffect hj (hI.own j)⟩

theorem pushes_callsOf (g : Deque ι w) (i : ι) :
    Fifo.pushed (g.callsOf i) = (g.pushes.filter fun e => e.1 = i).map Prod.snd := by
  simp only [Fifo.pushed, Deque.callsOf, Deque.pushes]
  induction g.history with
  | nil => rfl
  | cons e history ih =>
      obtain ⟨j, call, result⟩ := e
      by_cases hj : j = i <;> cases call <;> simp_all

/-- The deque as a concurrent queue: the calls in the order of the history are
calls of the bounded queue with the results they had, and each thread's calls
stand in the history in the order in which it made them. -/
structure LinearizableFifo (comm : ι) (s : Global ι (Worker w) (Deque ι w)) : Prop where
  exclusive : ∀ i j, locking (s.proc i).pc = true → locking (s.proc j).pc = true → i = j
  linear : (Fifo.queue semiConcurrentDequeSize).run [] s.shared.calls =
    some (s.shared.results, s.shared.content)
  popped : s.shared.pushes.map Prod.snd = s.shared.popped ++ s.shared.content
  calls : ∀ i, (s.proc i).begun = s.shared.callsOf i ++ pending (s.proc i).pc
  inOrder : ∀ i, Fifo.pushed (s.proc i).begun =
    (s.shared.pushes.filter fun e => e.1 = i).map Prod.snd ++ Fifo.pushed (pending (s.proc i).pc)
  empty : ∀ i a s', (semiConcDeque comm w).next s i a = some s' → (s.proc i).pc = .pop .test →
    (s'.proc i).pc = .idle → s.shared.deqTail = s.shared.deqHead

theorem linearizable_of_inv {s : Global ι (Worker w) (Deque ι w)} (h : DequeInv comm s) :
    LinearizableFifo comm s where
  exclusive i j hi hj := by
    have hheld := (h.own i).holds.mp hi
    rw [(h.own j).holds.mp hj] at hheld
    exact (Option.some.inj hheld).symm
  linear := h.common.fifo
  popped := by
    have hall := Fifo.queue_conserves h.common.fifo
    rwa [pushes_calls] at hall
  calls i := (h.own i).begun
  inOrder i := by
    rw [(h.own i).begun, Fifo.pushed_append, pushes_callsOf]
  empty i a s' hnext hpc hpc' := by
    obtain ⟨P', g', ha, rfl⟩ := next_eq_some.mp hnext
    rw [set_proc_self] at hpc'
    have horder := h.common.order
    simp only [semiConcDeque, act, hpc] at ha
    split at ha
    · cases ha
    · cases a <;> simp only [commTaskPop] at ha <;> try cases ha
      split at ha <;> cases ha
      · cases hpc'
      · omega

/-- In every interleaving in which no push enters its critical section with a
full deque, the deque is a linearizable FIFO queue. -/
theorem linearizable_fifo {s : Global ι (Worker w) (Deque ι w)}
    (hs : ReachableWhen (semiConcDeque comm w) (fun s i a => entersBelowCapacity s i a = true) s) :
    LinearizableFifo comm s :=
  linearizable_of_inv (dequeInv_reachable hs)

def pushRun (i : Bool) (entry : Entry 1) : List (Bool × Act 1) :=
  (i, .push entry) :: List.replicate 4 (i, .step) ++ [(i, .copy Finset.univ)] ++
    List.replicate 3 (i, .step)

def popRun (i : Bool) : List (Bool × Act 1) :=
  (i, .pop) :: List.replicate 2 (i, .step) ++ [(i, .copy Finset.univ)] ++
    List.replicate 2 (i, .step)

def pushedTwice : List (Bool × Act 1) :=
  pushRun true (fun _ => 5) ++ pushRun true (fun _ => 7) ++ popRun false

theorem linearizable_fifo_two :
    ((semiConcDeque false 1).after pushedTwice).shared.popped = [fun _ => 5] ∧
      LinearizableFifo false ((semiConcDeque false 1).after pushedTwice) :=
  ⟨by decide, linearizable_fifo (after_reachableWhen _ entersBelowCapacity _ (by decide))⟩

end HabaneroUpc.SemiConcDeque
