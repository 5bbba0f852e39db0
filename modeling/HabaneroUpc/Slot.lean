import HabaneroUpc.Modes

namespace HabaneroUpc.Slot

open Interleaving

variable {n : Nat}

def locks (me : Fin n) : PC n → Option (Fin n)
  | .idle .read | .idle (.write _) | .idle (.unlock _) => some me
  | .steal (.test _ v) | .steal (.flag _ v) | .steal (.register _ v) | .steal (.unlock _ v _) => some v
  | _ => none

def Marking : PC n → Prop
  | .idle .lock | .idle .read | .idle (.write _) => True
  | _ => False

def Awaiting : PC n → Prop
  | .steal (.register _ _) | .steal (.unlock _ _ true) | .steal (.wait _) => True
  | _ => False

/-- The value of the own slot that a statement relies on. -/
def expects (c : Config n) : PC n → Option (Req n)
  | .serve .renewWrite => some .unavailable
  | .ship (.steal (some t) _) | .ship (.inc (some t) _) | .ship (.ship (some t) _)
  | .ship (.reopen t) => some (.thief t)
  | .idle (.write r) => some r
  | .idle (.unlock _) | .idle (.invalidate _) | .steal _ => some .unavailable
  | .lifeline _ => if c.synchronous then some .unavailable else none
  | _ => none

def claims : PC n → Option (Fin n)
  | .steal (.flag _ v) | .steal (.register _ v) => some v
  | _ => none

def partner : PC n → Option (Fin n)
  | .idle (.unlock (.thief t)) | .idle (.invalidate t) => some t
  | .steal (.probe _ v) | .steal (.lock _ v) | .steal (.test _ v) | .steal (.flag _ v)
  | .steal (.register _ v) | .steal (.unlock _ v _) | .steal (.wait v) => some v
  | _ => none

structure SlotInv (c : Config n) (me : Fin n) (P : Place n) (g : Shared n) : Prop where
  own : ∀ r, expects c P.pc = some r → g.reqThread me = r
  claimed : ∀ v, claims P.pc = some v → g.reqThread v = .available
  distinct : ∀ v, partner P.pc = some v → v ≠ me
  lock : ∀ v, g.reqLock v = some me ↔ locks me P.pc = some v
  idle : c.synchronous = true → P.outOfWork = true → ¬Marking P.pc → g.reqThread me = .unavailable
  waiting : g.waitForTaskFromVictim me = true → Awaiting P.pc
  remote : ∀ t, g.reqThread me = .thief t → t ≠ me

/-- All that the steps of one place can do to what the others rely on: it writes
another slot only as a thief, over REQ_AVAILABLE and under its lock; it writes
its own slot over REQ_AVAILABLE only under its lock; it takes free locks and
releases its own; and it ends the wait of others but never begins it. -/
structure Interference (me : Fin n) (g g' : Shared n) : Prop where
  others : ∀ v, v ≠ me → g'.reqThread v = g.reqThread v ∨
    g.reqThread v = .available ∧ g.reqLock v = some me ∧ g'.reqThread v = .thief me
  own : g.reqThread me = .available → g'.reqThread me = .available ∨ g.reqLock me = some me
  lock : ∀ v p, p ≠ me → (g'.reqLock v = some p ↔ g.reqLock v = some p)
  waiting : ∀ t, t ≠ me → g'.waitForTaskFromVictim t = true → g.waitForTaskFromVictim t = true

variable {c : Config n} {me p : Fin n} {ch : Choice n} {P P' : Place n} {g g' : Shared n}

theorem interference_refl (hreq : g'.reqThread = g.reqThread) (hlock : g'.reqLock = g.reqLock)
    (hwait : ∀ t, t ≠ me → g'.waitForTaskFromVictim t = true → g.waitForTaskFromVictim t = true) :
    Interference me g g' :=
  ⟨fun v _ => .inl (congrFun hreq v), fun h => .inl (congrFun hreq me ▸ h),
    fun v p _ => by rw [hlock], hwait⟩

/-- A slot that is not available is changed by its owner only. -/
theorem Interference.kept (h : Interference me g g') (hp : p ≠ me)
    (hreq : g.reqThread p ≠ .available ∨ g.reqLock p ≠ some me) : g'.reqThread p = g.reqThread p := by
  apply (h.others p hp).resolve_right
  rintro ⟨hav, hlock, -⟩
  exact hreq.elim (absurd hav) (absurd hlock)

/-- While its lock is held by another place, a slot that is available stays so. -/
theorem Interference.available (h : Interference me g g') {v : Fin n} (hlock : g.reqLock v ≠ some me)
    (hreq : g.reqThread v = .available) : g'.reqThread v = .available := by
  by_cases hv : v = me
  · subst hv
    exact (h.own hreq).resolve_right hlock
  · rw [h.kept hv (.inr hlock), hreq]

theorem locks_of_expects {pc : PC n} (h : expects c pc = some .available) : locks p pc = some p := by
  unfold expects at h
  split at h
  case h_10 => split at h <;> cases h
  all_goals first | rfl | cases h

theorem locks_of_claims {pc : PC n} {v : Fin n} (h : claims pc = some v) : locks p pc = some v := by
  unfold claims at h
  split at h <;> cases h <;> rfl

theorem slotInv_other (h : Interference me g g') (hp : p ≠ me) (hs : SlotInv c p P g) :
    SlotInv c p P g' := by
  have hlocked {v : Fin n} (hv : locks p P.pc = some v) : g.reqLock v ≠ some me := by
    rw [(hs.lock v).mpr hv]
    exact fun heq => hp (Option.some.inj heq)
  refine ⟨?_, ?_, hs.distinct, ?_, ?_, ?_, ?_⟩
  · intro r hr
    have hreq := hs.own r hr
    by_cases hav : r = .available
    · subst hav
      rw [h.kept hp (.inr (hlocked (locks_of_expects hr))), hreq]
    · rw [h.kept hp (.inl (hreq ▸ hav)), hreq]
  · intro v hv
    exact h.available (hlocked (locks_of_claims hv)) (hs.claimed v hv)
  · intro v
    rw [h.lock v p hp]
    exact hs.lock v
  · intro hsync hout hmark
    have hreq := hs.idle hsync hout hmark
    rw [h.kept hp (.inl (by simp [hreq])), hreq]
  · intro hwait
    exact hs.waiting (h.waiting p hp hwait)
  · intro t ht
    rcases h.others p hp with heq | ⟨-, -, heq⟩
    · exact hs.remote t (heq ▸ ht)
    · rw [heq] at ht
      cases ht
      exact hp.symm

theorem SlotInv.frame (hs : SlotInv c me P g) (hreq : g'.reqThread = g.reqThread)
    (hlock : g'.reqLock = g.reqLock)
    (hwait : ∀ t, g'.waitForTaskFromVictim t = true → g.waitForTaskFromVictim t = true)
    (hown : ∀ r, expects c P'.pc = some r → g.reqThread me = r)
    (hclaims : ∀ v, claims P'.pc = some v → g.reqThread v = .available)
    (hpartner : ∀ v, partner P'.pc = some v → v ≠ me) (hlocks : locks me P'.pc = locks me P.pc)
    (hidle : c.synchronous = true → P'.outOfWork = true → ¬Marking P'.pc →
      g.reqThread me = .unavailable)
    (hawait : g'.waitForTaskFromVictim me = true → Awaiting P.pc → Awaiting P'.pc) :
    SlotInv c me P' g' ∧ Interference me g g' := by
  refine ⟨⟨?_, ?_, hpartner, ?_, ?_, ?_, ?_⟩, interference_refl hreq hlock fun t _ => hwait t⟩
  · rwa [hreq]
  · rwa [hreq]
  · intro v
    rw [hlock, hlocks]
    exact hs.lock v
  · rwa [hreq]
  · exact fun h => hawait h (hs.waiting (hwait me h))
  · rw [hreq]
    exact hs.remote

theorem SlotInv.quiet (hs : SlotInv c me P g) (hreq : g'.reqThread = g.reqThread)
    (hlock : g'.reqLock = g.reqLock)
    (hwait : ∀ t, g'.waitForTaskFromVictim t = true → g.waitForTaskFromVictim t = true)
    (hawait : ¬Awaiting P.pc) (hown : ∀ r, expects c P'.pc = some r → g.reqThread me = r)
    (hclaims : claims P'.pc = none) (hpartner : partner P'.pc = none)
    (hlocks : locks me P'.pc = locks me P.pc)
    (hidle : c.synchronous = true → P'.outOfWork = true → ¬Marking P'.pc →
      g.reqThread me = .unavailable) : SlotInv c me P' g' ∧ Interference me g g' := by
  refine hs.frame hreq hlock hwait hown ?_ ?_ hlocks hidle fun _ h => absurd h hawait
  · intro v hv
    rw [hclaims] at hv
    cases hv
  · intro v hv
    rw [hpartner] at hv
    cases hv

/-- The owner opens its slot again, which only ever replaces another value. -/
theorem SlotInv.reopen (hs : SlotInv c me P g) (hreq : g.reqThread me ≠ .available)
    (hown : expects c P'.pc = none) (hclaims : claims P'.pc = none)
    (hpartner : partner P'.pc = none) (hlocks' : locks me P'.pc = none)
    (hlocks : locks me P.pc = none) (hawait : ¬Awaiting P.pc) (hout : P'.outOfWork = false) :
    SlotInv c me P' (g.setReq me .available) ∧ Interference me g (g.setReq me .available) := by
  refine ⟨⟨?_, ?_, ?_, ?_, ?_, ?_, ?_⟩, ⟨?_, fun h => absurd h hreq, fun _ _ _ => Iff.rfl, fun _ _ => id⟩⟩
  · intro r hr
    rw [hown] at hr
    cases hr
  · intro v hv
    rw [hclaims] at hv
    cases hv
  · intro v hv
    rw [hpartner] at hv
    cases hv
  · intro v
    rw [hlocks', ← hlocks]
    exact hs.lock v
  · intro _ h
    rw [hout] at h
    cases h
  · exact fun h => absurd (hs.waiting h) hawait
  · intro t ht
    simp [Shared.setReq] at ht
  · intro v hv
    exact .inl (Function.update_of_ne hv ..)

theorem SlotInv.relock (hs : SlotInv c me P g) {v : Fin n} {x : Option (Fin n)}
    (hlock' : ∀ w, Function.update g.reqLock v x w = some me ↔ locks me P'.pc = some w)
    (hothers : ∀ q, q ≠ me → x ≠ some q ∧ g.reqLock v ≠ some q)
    (hown : ∀ r, expects c P'.pc = some r → g.reqThread me = r)
    (hclaims : claims P'.pc = none) (hpartner : ∀ w, partner P'.pc = some w → w ≠ me)
    (hidle : c.synchronous = true → P'.outOfWork = true → ¬Marking P'.pc → g.reqThread me = .unavailable)
    (hawait : Awaiting P.pc → Awaiting P'.pc) :
    SlotInv c me P' (g.setReqLock v x) ∧ Interference me g (g.setReqLock v x) := by
  refine ⟨⟨hown, ?_, hpartner, hlock', hidle, fun h => hawait (hs.waiting h), hs.remote⟩,
    ⟨fun _ _ => .inl rfl, .inl, ?_, fun _ _ => id⟩⟩
  · intro w hw
    rw [hclaims] at hw
    cases hw
  · intro w q hq
    by_cases hwv : w = v
    · subst hwv
      rw [Shared.setReqLock]
      simp [(hothers q hq).1, (hothers q hq).2]
    · simp [Shared.setReqLock, hwv]

theorem SlotInv.acquired (hs : SlotInv c me P g) {v : Fin n} (hlocks : locks me P.pc = none)
    (hlocks' : locks me P'.pc = some v) (w : Fin n) :
    Function.update g.reqLock v (some me) w = some me ↔ locks me P'.pc = some w := by
  by_cases hwv : w = v
  · subst hwv
    simp [hlocks']
  · rw [Function.update_of_ne hwv, hs.lock w, hlocks, hlocks']
    simp [Ne.symm hwv]

theorem SlotInv.released (hs : SlotInv c me P g) {v : Fin n} (hlocks : locks me P.pc = some v)
    (hlocks' : locks me P'.pc = none) (w : Fin n) :
    Function.update g.reqLock v none w = some me ↔ locks me P'.pc = some w := by
  by_cases hwv : w = v
  · subst hwv
    simp [hlocks']
  · rw [Function.update_of_ne hwv, hs.lock w, hlocks, hlocks']
    simp [Ne.symm hwv]

theorem SlotInv.held (hs : SlotInv c me P g) {v : Fin n} (hlocks : locks me P.pc = some v) (q : Fin n)
    (hq : q ≠ me) : (none : Option (Fin n)) ≠ some q ∧ g.reqLock v ≠ some q := by
  rw [(hs.lock v).mpr hlocks]
  exact ⟨by simp, fun h => hq (Option.some.inj h).symm⟩

theorem SlotInv.close (hs : SlotInv c me P g)
    (hreq : g'.reqThread = Function.update g.reqThread me .unavailable) (hlock : g'.reqLock = g.reqLock)
    (hwait : g'.waitForTaskFromVictim = g.waitForTaskFromVictim)
    (hown : ∀ r, expects c P'.pc = some r → r = .unavailable) (hclaims : claims P'.pc = none)
    (hpartner : ∀ v, partner P'.pc = some v → v ≠ me) (hlocks : locks me P.pc = some me)
    (hlocks' : locks me P'.pc = some me) (hawait : ¬Awaiting P.pc) :
    SlotInv c me P' g' ∧ Interference me g g' := by
  have hself : g'.reqThread me = .unavailable := by rw [hreq, Function.update_self]
  refine ⟨⟨?_, ?_, hpartner, ?_, fun _ _ _ => hself, ?_, ?_⟩, ⟨?_, ?_, ?_, ?_⟩⟩
  · intro r hr
    rw [hself, hown r hr]
  · intro v hv
    rw [hclaims] at hv
    cases hv
  · intro v
    rw [hlock, hs.lock v, hlocks, hlocks']
  · intro h
    rw [hwait] at h
    exact absurd (hs.waiting h) hawait
  · intro t ht
    rw [hself] at ht
    cases ht
  · intro v hv
    rw [hreq, Function.update_of_ne hv]
    exact .inl rfl
  · exact fun _ => .inr ((hs.lock me).mpr hlocks)
  · intro v q _
    rw [hlock]
  · intro t _ h
    rwa [hwait] at h

theorem SlotInv.raise (hs : SlotInv c me P g) (hexpects : expects c P'.pc = expects c P.pc)
    (hclaims : claims P'.pc = claims P.pc) (hpartner : partner P'.pc = partner P.pc)
    (hlocks : locks me P'.pc = locks me P.pc) (hawait : Awaiting P'.pc)
    (hreq : g.reqThread me = .unavailable) :
    SlotInv c me P' (g.setWaitForTask me true) ∧ Interference me g (g.setWaitForTask me true) := by
  refine ⟨⟨?_, ?_, ?_, ?_, fun _ _ _ => hreq, fun _ => hawait, hs.remote⟩,
    ⟨fun _ _ => .inl rfl, .inl, fun _ _ _ => Iff.rfl, ?_⟩⟩
  · rw [hexpects]
    exact hs.own
  · rw [hclaims]
    exact hs.claimed
  · rw [hpartner]
    exact hs.distinct
  · rw [hlocks]
    exact hs.lock
  · intro t ht h
    simpa [Shared.setWaitForTask, ht] using h

theorem SlotInv.register (hs : SlotInv c me P g) {v : Fin n} (hclaimed : claims P.pc = some v)
    (hpartner : partner P'.pc = partner P.pc) (hv : partner P.pc = some v)
    (hown : ∀ r, expects c P'.pc = some r → r = .unavailable) (hclaims : claims P'.pc = none)
    (hlocks : locks me P'.pc = locks me P.pc) (hawait : Awaiting P'.pc)
    (hreq : g.reqThread me = .unavailable) (e : SlotEvent n) :
    SlotInv c me P' ((g.setReq v (.thief me)).record e) ∧
      Interference me g ((g.setReq v (.thief me)).record e) := by
  have hav := hs.claimed v hclaimed
  have hlock := (hs.lock v).mpr (locks_of_claims hclaimed)
  have hself : Function.update g.reqThread v (.thief me) me = g.reqThread me :=
    Function.update_of_ne (hs.distinct v hv).symm ..
  refine ⟨⟨?_, ?_, ?_, ?_, fun _ _ _ => hself.trans hreq, fun _ => hawait, ?_⟩,
    ⟨?_, fun h => .inl (hself.trans h), fun _ _ _ => Iff.rfl, fun _ _ => id⟩⟩
  · intro r hr
    rw [hown r hr]
    exact hself.trans hreq
  · intro w hw
    rw [hclaims] at hw
    cases hw
  · rw [hpartner]
    exact hs.distinct
  · rw [hlocks]
    exact hs.lock
  · intro t ht
    exact hs.remote t (hself.symm.trans ht)
  · intro w _
    by_cases hw : w = v
    · subst hw
      exact .inr ⟨hav, hlock, Function.update_self ..⟩
    · exact .inl (Function.update_of_ne hw ..)

theorem serve_slot {l : ServePc} (hpc : P.pc = .serve l) (hs : SlotInv c me P g)
    (h : serve c me P g l = some (P', g')) : SlotInv c me P' g' ∧ Interference me g g' := by
  have hmark : ¬Marking P.pc := by simp [hpc, Marking]
  have hawait : ¬Awaiting P.pc := by simp [hpc, Awaiting]
  have hlocks : locks me P.pc = none := by rw [hpc]; rfl
  cases l with
  | successonly | renew | synchronous | glb =>
      simp only [serve] at h
      repeat' split at h
      all_goals cases h
      all_goals
        refine hs.quiet rfl rfl (fun _ => id) hawait ?_ rfl rfl hlocks.symm ?_
        · intro r hr
          first | cases hr; assumption | cases hr
        · first | exact fun hsync h _ => hs.idle hsync h hmark | exact fun _ h => by cases h
  | renewWrite =>
      have hreq := hs.own .unavailable (by rw [hpc]; rfl)
      simp only [serve] at h
      split at h <;> cases h <;> exact hs.reopen (by simp [hreq]) rfl rfl rfl rfl hlocks hawait rfl

theorem afterShipment_slot (c : Config n) (me : Fin n) : expects c (afterShipment c) = none ∧
    claims (afterShipment c) = none ∧ partner (afterShipment c) = none ∧
    locks me (afterShipment c) = none := by
  rcases afterShipment_cases c with h | h | h <;> rw [h] <;> exact ⟨rfl, rfl, rfl, rfl⟩

theorem ship_slot {l : ShipPc n} (hpc : P.pc = .ship l) (hallowed : allowed c.mode P.pc = true)
    (hs : SlotInv c me P g) (h : shipAsyncAny c me ch P g l = some (P', g')) :
    SlotInv c me P' g' ∧ Interference me g g' := by
  have hmark : ¬Marking P.pc := by simp [hpc, Marking]
  have hawait : ¬Awaiting P.pc := by simp [hpc, Awaiting]
  have hlocks : locks me P.pc = none := by rw [hpc]; rfl
  have hframe {P' : Place n} {g' : Shared n} (hreq : g'.reqThread = g.reqThread)
      (hlock : g'.reqLock = g.reqLock) (hwait : g'.waitForTaskFromVictim = g.waitForTaskFromVictim)
      (hout : P'.outOfWork = P.outOfWork) (hown : ∀ r, expects c P'.pc = some r → g.reqThread me = r)
      (hrest : claims P'.pc = none ∧ partner P'.pc = none ∧ locks me P'.pc = none) :
      SlotInv c me P' g' ∧ Interference me g g' :=
    hs.quiet hreq hlock (fun t ht => hwait ▸ ht) hawait hown hrest.1 hrest.2.1
      (hrest.2.2.trans hlocks.symm) fun hsync h _ => hs.idle hsync (hout ▸ h) hmark
  cases l with
  | steal requestor tasks | inc requestor tasks =>
      simp only [shipAsyncAny] at h
      repeat' split at h
      all_goals cases h
      all_goals
        refine hframe rfl rfl rfl rfl ?_ ⟨rfl, rfl, rfl⟩
        intro r hr
        cases requestor with
        | none => cases hr
        | some t => first | cases hr; exact hs.own _ (by rw [hpc]; rfl) | cases hr
  | ship requestor tasks =>
      cases requestor with
      | none =>
          obtain ⟨thief, q, hq⟩ : ∃ thief q, ThiefQueue.popThief P.thiefQueue = (thief, q) := ⟨_, _, rfl⟩
          simp only [shipAsyncAny, hq] at h
          split at h <;> cases h <;> rw [check_check_eq, check_eq] <;>
            exact hframe rfl rfl rfl rfl (fun r hr => by cases hr) ⟨rfl, rfl, rfl⟩
      | some thief =>
          cases h
          rw [check_eq]
          refine hframe rfl rfl rfl rfl ?_ ⟨rfl, rfl, rfl⟩
          intro r hr
          cases hr
          exact hs.own _ (by rw [hpc]; rfl)
  | reopen thief =>
      have hreq := hs.own (.thief thief) (by rw [hpc]; rfl)
      have hsync : c.synchronous = true := by
        rw [hpc] at hallowed
        exact hallowed
      have hout : P.outOfWork = false := by
        by_contra hne
        have hidle := hs.idle hsync (eq_true_of_ne_false hne) hmark
        rw [hreq] at hidle
        cases hidle
      cases h
      exact hs.reopen (by simp [hreq]) rfl rfl rfl rfl hlocks hawait hout
  | advance =>
      cases h
      obtain ⟨hown, hrest⟩ := afterShipment_slot c me
      exact hframe rfl rfl rfl rfl (fun r hr => by simp [Place.goto, hown] at hr) hrest

theorem search_slot (c : Config n) (me : Fin n) (P : Place n) :
    (∀ r, expects c (searchTasksGlobally c me P) = some r → r = .unavailable ∧ c.synchronous = true) ∧
      claims (searchTasksGlobally c me P) = none ∧ partner (searchTasksGlobally c me P) = none ∧
      locks me (searchTasksGlobally c me P) = none := by
  rcases searchTasksGlobally_cases c me P with ⟨h, hsync⟩ | ⟨h, -⟩ <;> rw [h]
  · refine ⟨?_, rfl, rfl, rfl⟩
    intro r hr
    cases hr
    exact ⟨rfl, hsync⟩
  · refine ⟨?_, rfl, rfl, rfl⟩
    intro r hr
    simp only [expects] at hr
    split at hr
    · cases hr
      exact ⟨rfl, ‹c.synchronous = true›⟩
    · cases hr

theorem idle_slot {l : IdlePc n} (hpc : P.pc = .idle l) (hs : SlotInv c me P g)
    (h : markMyPlaceAsIdle c me P g l = some (P', g')) :
    SlotInv c me P' g' ∧ Interference me g g' := by
  have hawait : ¬Awaiting P.pc := by simp [hpc, Awaiting]
  obtain ⟨sown, sclaims, spartner, slocks⟩ := search_slot c me P
  have sown' (hreq : g.reqThread me = .unavailable) (r : Req n)
      (hr : expects c (searchTasksGlobally c me P) = some r) : g.reqThread me = r :=
    hreq.trans (sown r hr).1.symm
  have spartner' (v : Fin n) (hv : partner (searchTasksGlobally c me P) = some v) : v ≠ me := by
    rw [spartner] at hv
    cases hv
  cases l with
  | mark =>
      have hlocks : locks me P.pc = none := by rw [hpc]; rfl
      have hmark : ¬Marking P.pc := by simp [hpc, Marking]
      simp only [markMyPlaceAsIdle] at h
      split at h <;> cases h
      · have hout := ‹P.outOfWork = true›
        refine hs.quiet rfl rfl (fun _ => id) hawait ?_ sclaims spartner (slocks.trans hlocks.symm)
          (fun hsync h _ => hs.idle hsync h hmark)
        intro r hr
        exact sown' (hs.idle (sown r hr).2 hout hmark) r hr
      · cases hsync : c.synchronous with
        | true =>
            exact hs.quiet rfl rfl (fun _ => id) hawait (fun r hr => by cases hr) rfl rfl hlocks.symm
              (fun _ _ hm => absurd trivial hm)
        | false =>
            refine hs.quiet rfl rfl (fun _ => id) hawait ?_ sclaims spartner (slocks.trans hlocks.symm)
              (fun h => by simp [hsync] at h)
            intro r hr
            have hsync' := (sown r hr).2
            rw [hsync] at hsync'
            cases hsync'
  | lock =>
      have hlocks : locks me P.pc = none := by rw [hpc]; rfl
      simp only [markMyPlaceAsIdle] at h
      split at h <;> cases h
      have hfree := ‹g.reqLock me = none›
      exact hs.relock (hs.acquired hlocks rfl) (fun q hq => ⟨by simp [hq.symm], by simp [hfree]⟩)
        (fun r hr => by cases hr) rfl (fun v hv => by cases hv) (fun _ _ hm => absurd trivial hm)
        (fun h => absurd h hawait)
  | read =>
      cases h
      refine hs.quiet rfl rfl (fun _ => id) hawait ?_ rfl rfl (by rw [hpc]; rfl)
        (fun _ _ hm => absurd trivial hm)
      intro r hr
      cases hr
      rfl
  | write r =>
      have hreq := hs.own r (by rw [hpc]; rfl)
      have hlocks : locks me P.pc = some me := by rw [hpc]; rfl
      obtain ⟨hreq', hlock, hwait⟩ : g'.reqThread = Function.update g.reqThread me .unavailable ∧
          g'.reqLock = g.reqLock ∧ g'.waitForTaskFromVictim = g.waitForTaskFromVictim := by
        cases r <;> cases h <;> exact ⟨rfl, rfl, rfl⟩
      obtain rfl : P' = P.goto (.idle (.unlock r)) := by cases r <;> cases h <;> rfl
      refine hs.close hreq' hlock hwait (fun r' hr => by cases hr; rfl) rfl ?_ hlocks rfl hawait
      intro t ht
      cases r with
      | thief u =>
          cases ht
          exact hs.remote t hreq
      | available | unavailable => cases ht
  | unlock r =>
      have hreq := hs.own .unavailable (by rw [hpc]; rfl)
      have hlocks : locks me P.pc = some me := by rw [hpc]; rfl
      have hrelock {P' : Place n} (hlocks' : locks me P'.pc = none)
          (hown : ∀ r, expects c P'.pc = some r → g.reqThread me = r) (hclaims : claims P'.pc = none)
          (hpartner : ∀ w, partner P'.pc = some w → w ≠ me) :
          SlotInv c me P' (g.setReqLock me none) ∧ Interference me g (g.setReqLock me none) :=
        hs.relock (hs.released hlocks hlocks') (hs.held hlocks) hown hclaims hpartner
          (fun _ _ _ => hreq) (fun h => absurd h hawait)
      cases r with
      | available | unavailable =>
          cases h
          exact hrelock slocks (sown' hreq) sclaims spartner'
      | thief t =>
          cases h
          refine hrelock rfl ?_ rfl ?_
          · intro r hr
            cases hr
            exact hreq
          · intro v hv
            exact hs.distinct v (by rw [hpc]; exact hv)
  | invalidate t =>
      have hreq := hs.own .unavailable (by rw [hpc]; rfl)
      cases h
      refine hs.quiet rfl rfl ?_ hawait (sown' hreq) sclaims spartner (slocks.trans (by rw [hpc]; rfl))
        (fun _ _ _ => hreq)
      intro u hu
      simp only [Shared.record, Shared.setWaitForTask] at hu
      by_cases hut : u = t
      · simp [hut] at hu
      · rwa [Function.update_of_ne hut] at hu

theorem failed_slot (c : Config n) (me : Fin n) (attempts : Nat) :
    (∀ r, expects c (searchFailed c me attempts) = some r → r = .unavailable) ∧
      claims (searchFailed c me attempts) = none ∧ partner (searchFailed c me attempts) = none ∧
      locks me (searchFailed c me attempts) = none := by
  rcases searchFailed_cases c me attempts with h | ⟨h, -⟩ <;> rw [h]
  · exact ⟨fun r hr => (by cases hr), rfl, rfl, rfl⟩
  · refine ⟨?_, rfl, rfl, rfl⟩
    intro r hr
    simp only [expects] at hr
    split at hr <;> cases hr
    rfl

theorem nextVictim_slot (c : Config n) (me : Fin n) (attempts i : Nat) :
    (∀ r, expects c (nextVictim c me attempts i) = some r → r = .unavailable) ∧
      claims (nextVictim c me attempts i) = none ∧ partner (nextVictim c me attempts i) = none ∧
      locks me (nextVictim c me attempts i) = none := by
  rcases nextVictim_cases c me attempts i with h | h <;> rw [h]
  · exact failed_slot c me attempts
  · exact ⟨fun r hr => by cases hr; rfl, rfl, rfl, rfl⟩

theorem steal_slot {l : StealPc n} (hpc : P.pc = .steal l) (hs : SlotInv c me P g)
    (h : searchTasksGloballySynchronous c me ch P g l = some (P', g')) :
    SlotInv c me P' g' ∧ Interference me g g' := by
  have hreq := hs.own .unavailable (by rw [hpc]; rfl)
  have hown {pc : PC n} (h : expects c pc = some .unavailable) (r : Req n)
      (hr : expects c pc = some r) : g.reqThread me = r := by
    rw [h] at hr
    cases hr
    exact hreq
  have hidle {P' : Place n} : c.synchronous = true → P'.outOfWork = true → ¬Marking P'.pc →
      g.reqThread me = .unavailable := fun _ _ _ => hreq
  have hpartner {pc : PC n} (h : partner pc = partner P.pc) (v : Fin n) (hv : partner pc = some v) :
      v ≠ me := hs.distinct v (h ▸ hv)
  cases l with
  | loop i =>
      have hlocks : locks me P.pc = none := by rw [hpc]; rfl
      have hawait : ¬Awaiting P.pc := by simp [hpc, Awaiting]
      obtain ⟨fown, fclaims, fpartner, flocks⟩ := failed_slot c me P.currentGlbMaxRandAttempts
      simp only [searchTasksGloballySynchronous] at h
      split at h
      · split at h <;> cases h
        refine hs.frame rfl rfl (fun _ => id) (hown rfl) (fun v hv => by cases hv) ?_ hlocks.symm hidle
          (fun _ h => absurd h hawait)
        intro v hv
        cases hv
        assumption
      · cases h
        exact hs.quiet rfl rfl (fun _ => id) hawait (fun r hr => hreq.trans (fown r hr).symm)
          fclaims fpartner (flocks.trans hlocks.symm) hidle
  | probe i v =>
      have hlocks : locks me P.pc = none := by rw [hpc]; rfl
      have hawait : ¬Awaiting P.pc := by simp [hpc, Awaiting]
      obtain ⟨nown, nclaims, npartner, nlocks⟩ :=
        nextVictim_slot c me P.currentGlbMaxRandAttempts i
      simp only [searchTasksGloballySynchronous] at h
      split at h <;> cases h
      · exact hs.frame rfl rfl (fun _ => id) (hown rfl) (fun v hv => by cases hv)
          (hpartner (by rw [hpc]; rfl)) hlocks.symm hidle (fun _ h => absurd h hawait)
      · exact hs.quiet rfl rfl (fun _ => id) hawait (fun r hr => hreq.trans (nown r hr).symm)
          nclaims npartner (nlocks.trans hlocks.symm) hidle
  | lock i v =>
      have hlocks : locks me P.pc = none := by rw [hpc]; rfl
      have hawait : ¬Awaiting P.pc := by simp [hpc, Awaiting]
      simp only [searchTasksGloballySynchronous] at h
      split at h <;> cases h
      have hfree := ‹g.reqLock v = none›
      exact hs.relock (hs.acquired hlocks rfl) (fun q hq => ⟨by simp [hq.symm], by simp [hfree]⟩)
        (hown rfl) rfl (hpartner (by rw [hpc]; rfl)) hidle (fun h => absurd h hawait)
  | test i v =>
      have hlocks : locks me P.pc = some v := by rw [hpc]; rfl
      have hawait : ¬Awaiting P.pc := by simp [hpc, Awaiting]
      simp only [searchTasksGloballySynchronous] at h
      split at h <;> cases h
      · have hav := ‹g.reqThread v = .available›
        refine hs.frame rfl rfl (fun _ => id) (hown rfl) ?_ (hpartner (by rw [hpc]; rfl)) hlocks.symm
          hidle (fun _ h => absurd h hawait)
        intro w hw
        cases hw
        exact hav
      · exact hs.frame rfl rfl (fun _ => id) (hown rfl) (fun v hv => by cases hv)
          (hpartner (by rw [hpc]; rfl)) hlocks.symm hidle (fun _ h => absurd h hawait)
  | flag i v =>
      cases h
      apply hs.raise <;> first | exact hreq | trivial | (rw [hpc]; rfl)
  | register i v =>
      cases h
      exact hs.register (by rw [hpc]; rfl) (by rw [hpc]; rfl) (by rw [hpc]; rfl)
        (fun r hr => by cases hr; rfl) rfl (by rw [hpc]; rfl) (by trivial) hreq _
  | unlock i v success =>
      have hlocks : locks me P.pc = some v := by rw [hpc]; rfl
      cases success with
      | true =>
          cases h
          exact hs.relock (hs.released hlocks rfl) (hs.held hlocks) (hown rfl) rfl
            (hpartner (by rw [hpc]; rfl)) hidle (fun _ => trivial)
      | false =>
          have hawait : ¬Awaiting P.pc := by simp [hpc, Awaiting]
          simp only [searchTasksGloballySynchronous] at h
          generalize P.currentGlbMaxRandAttempts + (if c.mode = .glb then 1 else 0) = attempts at h
          obtain ⟨nown, nclaims, npartner, nlocks⟩ := nextVictim_slot c me attempts i
          cases h
          refine hs.relock (hs.released hlocks nlocks) (hs.held hlocks)
            (fun r hr => hreq.trans (nown r hr).symm) nclaims ?_ hidle (fun h => absurd h hawait)
          intro w hw
          rw [npartner] at hw
          cases hw
  | wait v =>
      simp only [searchTasksGloballySynchronous] at h
      split at h <;> cases h
      exact hs.frame rfl rfl (fun _ => id) (hown rfl) (fun v hv => by cases hv)
        (fun v hv => by cases hv) (by rw [hpc]; rfl) hidle (fun h => absurd h ‹_›)
  | received =>
      have hawait : ¬Awaiting P.pc := by simp [hpc, Awaiting]
      cases h
      exact hs.quiet rfl rfl (fun _ => id) hawait (hown rfl) rfl rfl (by rw [hpc]; rfl) hidle
  | reopen =>
      have hawait : ¬Awaiting P.pc := by simp [hpc, Awaiting]
      have hlocks : locks me P.pc = none := by rw [hpc]; rfl
      cases h
      exact hs.reopen (by simp [hreq]) rfl rfl rfl rfl hlocks hawait rfl

def boundFor (t : Fin n) : Msg n → Bool
  | .shipment _ dest _ true => dest = t
  | _ => false

structure Uninvolved (c : Config n) (me : Fin n) (pc : PC n) : Prop where
  expects : expects c pc = none
  claims : claims pc = none
  partner : partner pc = none
  locks : locks me pc = none
  marking : ¬Marking pc

theorem Uninvolved.awaiting {pc : PC n} (h : Uninvolved c me pc) : ¬Awaiting pc := by
  intro hawait
  unfold Awaiting at hawait
  split at hawait
  · cases h.claims
  · cases h.partner
  · cases h.partner
  · exact hawait

structure Apart (c : Config n) (me : Fin n) (P P' : Place n) (g g' : Shared n) : Prop where
  pc : Uninvolved c me P.pc
  pc' : Uninvolved c me P'.pc
  out : P'.outOfWork = true → P.outOfWork = true
  frames : P'.frames = P.frames
  req : g'.reqThread = g.reqThread
  lock : g'.reqLock = g.reqLock
  wait : g'.waitForTaskFromVictim = g.waitForTaskFromVictim
  events : g'.slotEvents = g.slotEvents
  net : ∀ t, g'.net.countP (boundFor t) = g.net.countP (boundFor t)

theorem SlotInv.apart (hs : SlotInv c me P g) (h : Apart c me P P' g g') :
    SlotInv c me P' g' ∧ Interference me g g' := by
  refine hs.quiet h.req h.lock (fun t ht => h.wait ▸ ht) h.pc.awaiting ?_ h.pc'.claims h.pc'.partner
    (h.pc'.locks.trans h.pc.locks.symm) (fun hsync hout _ => hs.idle hsync (h.out hout) h.pc.marking)
  intro r hr
  rw [h.pc'.expects] at hr
  cases hr

theorem other_apart (h : commStep c me ch P g = some (P', g'))
    (hserve : ∀ l, P.pc ≠ .serve l) (hship : ∀ l, P.pc ≠ .ship l) (hidle : ∀ l, P.pc ≠ .idle l)
    (hsteal : ∀ l, P.pc ≠ .steal l) (hlifeline : ∀ l, P.pc ≠ .lifeline l) :
    Apart c me P P' g g' := by
  have hself : Uninvolved c me P.pc := by
    cases hl : P.pc with
    | serve l => exact absurd hl (hserve l)
    | ship l => exact absurd hl (hship l)
    | idle l => exact absurd hl (hidle l)
    | steal l => exact absurd hl (hsteal l)
    | lifeline l => exact absurd hl (hlifeline l)
    | spmd | exec | publish | loop | drain | cbarrier => exact ⟨rfl, rfl, rfl, rfl, id⟩
  cases hl : P.pc with
  | spmd l =>
      simp only [commStep, hl] at h
      cases l <;> simp only [finishSpmd, leaveBarrier] at h <;> (repeat' split at h) <;> cases h
      case endBarrier.refl =>
          rw [check_eq]
          exact ⟨hself, ⟨rfl, rfl, rfl, rfl, id⟩, id, rfl, rfl, rfl, rfl, rfl, fun _ => rfl⟩
      all_goals exact ⟨hself, ⟨rfl, rfl, rfl, rfl, id⟩, id, rfl, rfl, rfl, rfl, rfl, fun _ => rfl⟩
  | exec l =>
      simp only [commStep, hl] at h
      cases l with
      | exec task =>
          cases h
          refine ⟨hself, ⟨rfl, rfl, rfl, rfl, id⟩, id, rfl, ?_, ?_, ?_, ?_, ?_⟩ <;> cases task <;>
            first | rfl | exact fun t => by simp [executeCommTask, Shared.send, boundFor]
      | pop | inc | dec =>
          simp only [popExecuteCommTask] at h
          repeat' split at h
          all_goals cases h
          all_goals
            refine ⟨hself, ?_, id, rfl, rfl, rfl, rfl, rfl, fun _ => rfl⟩
            exact ⟨rfl, rfl, rfl, rfl, id⟩
  | publish l =>
      simp only [commStep, hl] at h
      cases l <;> simp only [publishLocalLoadInfo] at h <;> (repeat' split at h) <;> cases h <;>
        exact ⟨hself, ⟨rfl, rfl, rfl, rfl, id⟩, id, rfl, rfl, rfl, rfl, rfl, fun _ => rfl⟩
  | loop l =>
      simp only [commStep, hl] at h
      cases l <;> simp only [finishLoop, feedRemoteThieves] at h <;> (repeat' split at h) <;> cases h
      all_goals
        refine ⟨hself, ⟨rfl, rfl, rfl, rfl, id⟩, ?_, rfl, rfl, rfl, rfl, rfl, fun _ => rfl⟩
        first | exact id | exact fun h => by cases h
  | drain l =>
      simp only [commStep, hl] at h
      cases l <;> simp only [decrementTasksInFlightCount] at h <;> (repeat' split at h) <;> cases h <;>
        exact ⟨hself, ⟨rfl, rfl, rfl, rfl, id⟩, id, rfl, rfl, rfl, rfl, rfl, fun _ => rfl⟩
  | cbarrier l =>
      simp only [commStep, hl] at h
      cases l <;> simp only [cbarrier] at h <;> (repeat' split at h) <;> cases h <;>
        exact ⟨hself, ⟨rfl, rfl, rfl, rfl, id⟩, id, rfl, rfl, rfl, rfl, rfl, fun _ => rfl⟩
  | serve l => exact absurd hl (hserve l)
  | ship l => exact absurd hl (hship l)
  | idle l => exact absurd hl (hidle l)
  | steal l => exact absurd hl (hsteal l)
  | lifeline l => exact absurd hl (hlifeline l)

theorem lifeline_slot {l : LifelinePc n} (hpc : P.pc = .lifeline l) (hs : SlotInv c me P g)
    (h : searchForLifelines c me ch P g l = some (P', g')) :
    SlotInv c me P' g' ∧ Interference me g g' := by
  have hlocks : locks me P.pc = none := by rw [hpc]; rfl
  have hmark : ¬Marking P.pc := by simp [hpc, Marking]
  have hawait : ¬Awaiting P.pc := by simp [hpc, Awaiting]
  have hstay {P' : Place n} {l' : LifelinePc n} (hpc' : P'.pc = .lifeline l') (r : Req n)
      (hr : expects c P'.pc = some r) : g.reqThread me = r := by
    apply hs.own r
    rw [hpc'] at hr
    rw [hpc]
    exact hr
  cases l with
  | send i k v =>
      simp only [searchForLifelines] at h
      rw [markVictimContacted_eq] at h
      cases h
      exact hs.quiet rfl rfl (fun _ => id) hawait (hstay rfl) rfl rfl hlocks.symm
        (fun hsync h _ => hs.idle hsync h hmark)
  | loop | probe | wait =>
      simp only [searchForLifelines] at h
      repeat' split at h
      all_goals cases h
      all_goals first
        | exact hs.quiet rfl rfl (fun _ => id) hawait (fun r hr => by cases hr) rfl rfl hlocks.symm
            (fun hsync h _ => hs.idle hsync h hmark)
        | exact hs.quiet rfl rfl (fun _ => id) hawait (hstay rfl) rfl rfl hlocks.symm
            (fun hsync h _ => hs.idle hsync h hmark)

/-- Steps outside the communication worker leave the protocol where it is. -/
theorem SlotInv.still (hs : SlotInv c me P g) (hpc : P'.pc = P.pc)
    (hout : P'.outOfWork = true → P.outOfWork = true) (hreq : g'.reqThread = g.reqThread)
    (hlock : g'.reqLock = g.reqLock)
    (hwait : ∀ t, g'.waitForTaskFromVictim t = true → g.waitForTaskFromVictim t = true) :
    SlotInv c me P' g' ∧ Interference me g g' := by
  refine hs.frame hreq hlock hwait ?_ ?_ ?_ (by rw [hpc]) ?_ (by rw [hpc]; exact fun _ => id)
  · rw [hpc]
    exact hs.own
  · rw [hpc]
    exact hs.claimed
  · rw [hpc]
    exact hs.distinct
  · rw [hpc]
    exact fun hsync h => hs.idle hsync (hout h)

theorem comm_slot (hs : SlotInv c me P g) (hallowed : allowed c.mode P.pc = true)
    (h : commStep c me ch P g = some (P', g')) : SlotInv c me P' g' ∧ Interference me g g' := by
  cases hpc : P.pc with
  | serve l =>
      simp only [commStep, hpc] at h
      exact serve_slot hpc hs h
  | ship l =>
      simp only [commStep, hpc] at h
      exact ship_slot hpc hallowed hs h
  | idle l =>
      simp only [commStep, hpc] at h
      exact idle_slot hpc hs h
  | steal l =>
      simp only [commStep, hpc] at h
      exact steal_slot hpc hs h
  | lifeline l =>
      simp only [commStep, hpc] at h
      exact lifeline_slot hpc hs h
  | spmd | exec | publish | loop | drain | cbarrier =>
      refine hs.apart (other_apart h ?_ ?_ ?_ ?_ ?_) <;> intro l hl <;> rw [hpc] at hl <;> cases hl

theorem slot_step {a : Act n} (h : act c me a P g = some (P', g'))
    (hallowed : allowed c.mode P.pc = true) (hs : SlotInv c me P g) : SlotInv c me P' g' ∧ Interference me g g' := by
  have hreset : false = true → P.outOfWork = true := fun h => by cases h
  have hstep := act_step h
  cases a with
  | comm ch =>
      exact comm_slot hs hallowed (act_comm h).2
  | idle | work =>
      cases hstep <;> exact hs.still rfl id rfl rfl fun _ => id
  | deliver =>
      cases hstep with
      | asyncAt | asyncCopy | shipmentQueued => exact hs.still rfl hreset rfl rfl fun _ => id
      | shipmentSlot | stealRequest | receipt => exact hs.still rfl id rfl rfl fun _ => id
  | resume =>
      cases hstep with
      | decrement => exact hs.still rfl id rfl rfl fun _ => id
      | clearWait =>
          refine hs.still rfl id rfl rfl ?_
          intro t ht
          simp only [Shared.record, Shared.setWaitForTask] at ht
          by_cases htme : t = me
          · simp [htme] at ht
          · rwa [Function.update_of_ne htme] at ht

theorem slotInv_init (me : Fin n) : SlotInv c me (Place.init me) (Shared.init n) := by
  refine ⟨?_, ?_, ?_, ?_, ?_, ?_, ?_⟩
  · exact fun r hr => by cases hr
  · exact fun v hv => by cases hv
  · exact fun v hv => by cases hv
  · exact fun v => ⟨fun h => (by cases h), fun h => by cases h⟩
  · exact fun _ h => by cases h
  · exact fun h => by cases h
  · exact fun t ht => by cases ht

theorem slotInv_reachable {ok} {s : State n} (hs : ReachableWhen (job c) ok s) (me : Fin n) :
    SlotInv c me (s.proc me) s.shared := by
  refine hs.local_invariant (I := SlotInv c) slotInv_init ?_ ?_ me
  · intro s me a P g hs _ hI ha
    exact (slot_step ha (allowed_reachable hs me) (hI me)).1
  · intro s me a P g hs _ hI ha p hp
    exact slotInv_other (slot_step ha (allowed_reachable hs me) (hI me)).2 hp (hI p)

end HabaneroUpc.Slot
