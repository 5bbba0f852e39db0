import HabaneroUpc.Steps

namespace HabaneroUpc

open Interleaving ThiefQueue

variable {n : Nat}

def ToQueued : PC n → Prop
  | .ship (.steal none _) | .ship (.inc none _) | .ship (.ship none _) => True
  | _ => False

def contacting : PC n → Option (Fin n)
  | .lifeline (.probe _ _ v) | .lifeline (.send _ _ v) => some v
  | _ => none

/-- The queue is well formed and holds other places only; a batch meant for it
is taken while it is not empty; no place sends a request to itself. -/
structure Queueing (me : Fin n) (P : Place n) : Prop where
  sound : Sound (· ≠ me) P.thiefQueue
  waiting : ToQueued P.pc → P.thiefQueue.thievesWaiting = true
  remote : ∀ v, contacting P.pc = some v → v ≠ me

def Msg.Remote : Msg n → Prop
  | .stealRequest me victim => me ≠ victim
  | _ => True

def RemoteNet (g : Shared n) : Prop := ∀ m ∈ g.net, m.Remote

variable {c : Config n} {me : Fin n} {ch : Choice n} {P P' : Place n} {g g' : Shared n}

theorem control_toQueued (h : commStep c me ch P g = some (P', g')) (hc : ControlStep P P' g g')
    (hpc' : ToQueued P'.pc) : P.thiefQueue.thievesWaiting = true := by
  obtain ⟨l', hl'⟩ : ∃ l, P'.pc = .ship l := by
    unfold ToQueued at hpc'
    split at hpc'
    all_goals first | exact ⟨_, ‹_›⟩ | exact hpc'.elim
  rcases enters_ship h hl' with ⟨l, hl⟩ | ⟨l, hl⟩
  · have hpc := hc.pc
    have hpc'' := hc.pc'
    simp only [commStep, hl] at h
    rw [hl] at hpc
    cases l with
    | steal requestor tasks =>
        -- a batch that has been started is not empty-handed
        simp only [shipAsyncAny] at h
        repeat' split at h
        all_goals cases h
        all_goals first | exact hpc'.elim | exact hpc''.elim | simp_all [EmptyHanded]
    | inc | ship => exact hpc.elim
    | reopen =>
        cases h
        exact hpc'.elim
    | advance =>
        cases h
        simp only [Place.goto, afterShipment] at hl'
        split at hl' <;> cases hl'
  · simp only [commStep, hl] at h
    cases l <;> simp only [serve] at h <;> (repeat' split at h) <;> cases h
    all_goals first | exact hpc'.elim | exact And.right ‹_›

theorem contacting_search (c : Config n) (me : Fin n) (P : Place n) :
    contacting (searchTasksGlobally c me P) = none := by
  rcases searchTasksGlobally_cases c me P with ⟨h, -⟩ | ⟨h, -⟩ <;> rw [h] <;> rfl

theorem contacting_searchFailed (c : Config n) (me : Fin n) (attempts : Nat) :
    contacting (searchFailed c me attempts) = none := by
  rcases searchFailed_cases c me attempts with h | ⟨h, -⟩ <;> rw [h] <;> rfl

theorem contacting_nextVictim (c : Config n) (me : Fin n) (attempts i : Nat) :
    contacting (nextVictim c me attempts i) = none := by
  rcases nextVictim_cases c me attempts i with h | h <;> rw [h]
  · exact contacting_searchFailed c me attempts
  · rfl

theorem control_contacting (h : commStep c me ch P g = some (P', g')) {v : Fin n}
    (hpc' : contacting P'.pc = some v) :
    v ≠ me ∧ P.contactedVictims v = .popped ∨ contacting P.pc = some v := by
  obtain ⟨l', hl'⟩ : ∃ l, P'.pc = .lifeline l := by
    unfold contacting at hpc'
    split at hpc'
    all_goals first | exact ⟨_, ‹_›⟩ | cases hpc'
  rcases enters_lifeline h hl' with ⟨l, hl⟩ | ⟨l, hl⟩ | ⟨l, hl⟩
  · simp only [commStep, hl] at h
    cases l with
    | loop i k =>
        simp only [searchForLifelines] at h
        generalize (if c.lifelines then c.logRanks else n) = upperBound at h
        split at h
        · split at h
          · cases h
          split at h <;> cases h
          · cases hpc'
          · cases hpc'
            obtain ⟨hv, hcontacted⟩ := not_or.mp ‹_›
            refine .inl ⟨hv, ?_⟩
            cases hc : P.contactedVictims (lifelineVictim c me ch i) with
            | popped => rfl
            | queued => exact absurd (decide_eq_true hc) hcontacted
        · split at h <;> cases h <;> cases hpc'
    | probe i k w =>
        simp only [searchForLifelines] at h
        split at h <;> cases h <;> cases hpc'
        exact .inr (by rw [hl]; rfl)
    | send | wait =>
        simp only [searchForLifelines] at h
        repeat' split at h
        all_goals cases h
        all_goals cases hpc'
  · simp only [commStep, hl] at h
    cases l <;> simp only [markMyPlaceAsIdle] at h <;> (repeat' split at h) <;> cases h
    all_goals first | cases hpc' | (simp only [Place.goto, contacting_search] at hpc'; cases hpc')
  · simp only [commStep, hl] at h
    cases l <;> simp only [searchTasksGloballySynchronous] at h <;> (repeat' split at h) <;> cases h
    all_goals first
      | cases hpc'
      | (simp only [Place.goto, contacting_searchFailed, contacting_nextVictim] at hpc'; cases hpc')

theorem Queueing.frame (h : Queueing me P) (hq : P'.thiefQueue = P.thiefQueue)
    (hw : ToQueued P'.pc → ToQueued P.pc) (hc : contacting P'.pc = none ∨ P'.pc = P.pc) :
    Queueing me P' := by
  refine ⟨hq ▸ h.sound, fun hp => hq ▸ h.waiting (hw hp), ?_⟩
  intro v hv
  rcases hc with hc | hc
  · rw [hc] at hv
    cases hv
  · exact h.remote v (hc ▸ hv)

theorem remoteNet_mono (h : RemoteNet g) (hnet : ∀ m ∈ g'.net, m ∈ g.net ∨ m.Remote) :
    RemoteNet g' :=
  fun m hm => (hnet m hm).elim (h m) id

theorem remoteNet_cons {m : Msg n} (h : RemoteNet g) (hnet : g'.net = m :: g.net) (hm : m.Remote) :
    RemoteNet g' := by
  rw [RemoteNet, hnet]
  exact List.forall_mem_cons.mpr ⟨hm, h⟩

theorem queueing_step {a : Act n} {r : Place n × Shared n} (h : Step c me P g a r) (hq : Queueing me P)
    (hr : RemoteNet g) : Queueing me r.1 ∧ RemoteNet r.2 := by
  have hkeep {net fs started} (hnet : ∀ m ∈ net, m ∈ g.net) :
      RemoteNet { g with net := net, failures := fs, started := started } :=
    remoteNet_mono hr fun m hm => .inl (hnet m hm)
  cases h with
  | control h hc =>
      refine ⟨⟨hc.thiefQueue ▸ hq.sound, ?_, ?_⟩, remoteNet_mono hr fun m hm => .inl (hc.net ▸ hm)⟩
      · intro hp
        rw [hc.thiefQueue]
        exact control_toQueued h hc hp
      · intro v hv
        rcases control_contacting h hv with ⟨hne, -⟩ | hv
        · exact hne
        · exact hq.remote v hv
  | idle | decrement | clearWait => exact ⟨hq.frame rfl id (.inr rfl), hr⟩
  | async | asyncAny | send | push | finish | runAny => exact ⟨hq.frame rfl id (.inr rfl), hr⟩
  | asyncAt | asyncCopy | shipmentSlot | shipmentQueued | receipt =>
      exact ⟨hq.frame rfl id (.inr rfl), hkeep fun m hm => List.mem_of_mem_erase hm⟩
  | pop hpc hdeque =>
      refine ⟨hq.frame rfl ?_ (.inl ?_), hr⟩ <;> split
      · exact False.elim
      · exact False.elim
      · rfl
      · rfl
  | popOrigin hpc hreceived =>
      refine ⟨hq.frame rfl ?_ (.inl ?_), hr⟩ <;> dsimp only <;> split
      · exact False.elim
      · exact False.elim
      · rfl
      · rfl
  | inc | ended | returnOrigin => exact ⟨hq.frame rfl False.elim (.inl rfl), hr⟩
  | @exec ch task hpc =>
      refine ⟨hq.frame rfl False.elim (.inl rfl), ?_⟩
      cases task with
      | intraPlace => exact hr
      | asyncAt | asyncAfter | asyncCopy => exact remoteNet_cons hr rfl trivial
  | @steal ch requestor tasks t hpc =>
      refine ⟨hq.frame rfl ?_ (.inl rfl), hr⟩
      rw [hpc]
      cases requestor <;> exact id
  | @stolen ch requestor tasks hpc =>
      refine ⟨hq.frame rfl ?_ (.inl rfl), hr⟩
      rw [hpc]
      cases requestor <;> exact id
  | @shipInc ch requestor tasks hpc =>
      refine ⟨hq.frame rfl ?_ (.inl rfl), hr⟩
      rw [hpc]
      cases requestor <;> exact id
  | @shipQueued ch tasks thief q fs hpc hpop hfs =>
      refine ⟨⟨?_, False.elim, ?_⟩, remoteNet_cons hr rfl trivial⟩
      · have hs := popThief_sound hq.sound
        rwa [hpop] at hs
      · intro v hv
        cases hv
  | @shipNowhere ch tasks q fs hpc hpop =>
      refine ⟨⟨?_, False.elim, ?_⟩, hr⟩
      · have hs := popThief_sound hq.sound
        rwa [hpop] at hs
      · intro v hv
        cases hv
  | shipSlot hpc =>
      exact ⟨hq.frame rfl False.elim (.inl rfl), remoteNet_cons hr rfl trivial⟩
  | @request ch i k v fs hpc hfs =>
      have hv : v ≠ me := hq.remote v (by rw [hpc]; rfl)
      refine ⟨⟨?_, False.elim, ?_⟩, remoteNet_cons hr rfl hv.symm⟩
      · dsimp only
        split
        · exact cancelThief_sound hq.sound v
        · exact hq.sound
      · intro w hw
        cases hw
  | @stealRequest thief fs hm hpolls hfs =>
      refine ⟨⟨pushThief_sound hq.sound (hr _ hm), fun _ => rfl, hq.remote⟩, remoteNet_mono hr ?_⟩
      intro m hm
      rcases List.mem_cons.mp hm with rfl | hm
      · exact .inr trivial
      · exact .inl (List.mem_of_mem_erase hm)

theorem queueing_init (me : Fin n) : Queueing me (Place.init me) := by
  refine ⟨init_sound _, False.elim, ?_⟩
  intro v hv
  cases hv

theorem queueing_reachable {ok} {s : State n} (hs : ReachableWhen (job c) ok s) :
    (∀ me, Queueing me (s.proc me)) ∧ RemoteNet s.shared := by
  refine hs.split_invariant queueing_init (fun m hm => by cases hm) ?_
  intro s me a P g _ _ hI hJ ha
  exact queueing_step (act_step ha) (hI me) hJ

end HabaneroUpc
