import AdaptiveRate.Proofs.Network

namespace AdaptiveRate

open AdaptiveRate.History
open Function

namespace History.Store

def AtMost (s : Store) (key : DeviceKey) (n : Nat) : Prop :=
  ∀ frames, s.get key = .ok frames → frames.length ≤ n

variable {s s' : Store} {key k : DeviceKey} {n : Nat}

theorem AtMost.mono {m : Nat} (h : s.AtMost key n) (hm : n ≤ m) : s.AtMost key m :=
  fun frames hget ↦ (h frames hget).trans hm

theorem AtMost.congr (h : s.AtMost key n) (hget : s'.get key = s.get key) : s'.AtMost key n :=
  fun frames hframes ↦ h frames (hget ▸ hframes)

theorem atMost_of_get_nil (h : s.get key = .ok []) : s.AtMost key 0 := by
  intro frames hget
  rw [h] at hget
  cases hget
  exact Nat.le_refl 0

theorem atMost_of_lost (h : s.rings = none) : s.AtMost key n := by
  intro frames hget
  simp only [get, h] at hget
  cases hget

theorem atMost_empty (capacity : Nat) : (empty capacity).AtMost key 0 := atMost_of_get_nil rfl

theorem AtMost.push {frame : Frame} (h : s.AtMost key n) (hpush : s.push k frame = (.ok (), s')) :
    s'.AtMost key (n + if k = key then 1 else 0) := by
  obtain ⟨⟨frames, kept, hget, hsuffix, hget'⟩, hother⟩ := push_ok hpush
  split
  · next hk =>
    subst hk
    intro frames' hframes'
    rw [hget'] at hframes'
    cases hframes'
    have hlen := hsuffix.length_le.trans (h frames hget)
    simpa using hlen
  · next hk => exact h.congr (hother key (Ne.symm hk))

end History.Store

namespace Engine

variable {e : Engine} {medium : Medium} {key k : DeviceKey} {store : Store} {n : Nat}

theorem atMost_push {frame : Frame} {pushed : Except Stop Unit} (h : e.store.AtMost key n)
    (hpush : e.push medium k frame = (pushed, store)) :
    store.AtMost key (n + if k = key ∧ pushed.isOk then 1 else 0) := by
  cases pushed with
  | ok => simpa [Except.isOk, Except.toBool] using h.push (push_ok hpush)
  | error stop =>
    rcases push_error hpush with rfl | hlost
    · exact h.mono (Nat.le_add_right _ _)
    · exact Store.atMost_of_lost hlost

theorem atMost_clear {result : Except Stop Unit} (h : e.store.AtMost key n)
    (hclear : e.clear medium k = (result, store)) : store.AtMost key n := by
  cases result with
  | ok =>
    obtain ⟨hown, hother⟩ := clear_ok hclear
    by_cases hk : k = key
    · subst hk
      exact (Store.atMost_of_get_nil hown).mono (Nat.zero_le n)
    · exact h.congr (hother key (Ne.symm hk))
  | error stop =>
    obtain ⟨rfl, -⟩ := clear_error hclear
    exact h

end Engine

namespace Moment

variable {ι : Type} [DecidableEq ι] (x : Moment ι)

/-- A command stands for frames in the store, which it uses up, and for a request, which it
settles. -/
structure Emission (x : Moment ι) : Prop where
  owed : x.record.adr.requestOwed = true
  settled : (x.next.devices x.event.device).adr.requestOwed = false
  heard : ∃ frames, x.network.engine.store.get x.key = .ok frames ∧
    max 1 x.network.engine.config.minHistory.toNat ≤ frames.length
  cleared : x.next.engine.store.AtMost x.key 0

theorem emission_of_due {m : Downlink} {frames : List Frame} {dataRate band : String} {b : Band}
    {o : Order} {store : Store}
    (hdue : x.network.engine.Due x.event.medium m x.record frames dataRate band b o)
    (hclear : x.network.engine.clear x.event.medium x.key = (.ok (), store))
    (hrecord : x.next.devices x.event.device = x.record.follow o)
    (hstore : x.next.engine.store = store) : x.Emission := by
  have hget := Engine.get_of_frames hdue.read
  obtain ⟨hne, hlen⟩ := not_or.1 hdue.many
  obtain ⟨hown, -⟩ := Engine.clear_ok hclear
  constructor
  · exact hdue.owed
  · rw [hrecord]
    rfl
  · exact ⟨frames, hget, max_le (List.length_pos_iff.2 hne) (not_lt.1 hlen)⟩
  · rw [hstore]
    exact Store.atMost_of_get_nil hown

theorem options_acknowledge (m : Uplink) :
    Message.options (.uplink m.acknowledge) = Message.options (.uplink m) := by
  obtain ⟨mac, metadata, receptions, _ | ⟨_ | a⟩⟩ := m <;> rfl

/-- A message keeps the commands that it came with, and one more at most is added to them. -/
theorem options_answer : x.answer.message.options = x.event.message.options ∨
    (∃ c, x.answer.message.options = x.event.message.options ++ [c]) ∧ x.Emission := by
  have heffect := x.effect
  generalize hn : x.next = n, x.answer = a at heffect
  cases heffect with
  | @heard m r _ hm hr =>
    rw [hm]
    cases hr with
    | refused | switchedOff | crashed => exact .inl rfl
    | @recorded mac =>
      refine .inl ?_
      change Message.options (.uplink (if mac.adrAckReq then m.acknowledge else m)) = _
      split
      · exact options_acknowledge m
      · rfl
  | @answered m r service hm hr hengine =>
    rw [hm]
    cases hr with
    | kept | settled => exact .inl rfl
    | @emitted frames dataRate band b o store log hdue hclear =>
      obtain ⟨mac, hmac⟩ := hdue.mac
      refine .inr ⟨⟨o.request.toCommand, ?_⟩, x.emission_of_due hdue hclear ?_ ?_⟩
      · simp [Reply.answer, Message.options, Downlink.append, Downlink.options, hmac]
      · rw [hn]
        exact update_self _ _ _
      · rw [hn, Network.engine, hengine]

theorem options_prefix : x.event.message.options <+: x.answer.message.options := by
  rcases x.options_answer with hsame | ⟨⟨c, hmore⟩, -⟩
  · rw [hsame]
  · rw [hmore]
    exact List.prefix_append _ _

theorem sent_le_one : x.sent ≤ 1 := by
  unfold sent Message.added
  rcases x.options_answer with hsame | ⟨⟨c, hmore⟩, -⟩
  · simp [hsame]
  · simp [hmore]

variable {x}

theorem emission (h : x.emits = true) : x.Emission := by
  rcases x.options_answer with hsame | ⟨-, hemission⟩
  · simp [emits, sent, Message.added, hsame] at h
  · exact hemission

theorem options_eq_of_not_emits (h : ¬ x.emits = true) :
    x.answer.message.options = x.event.message.options := by
  rcases x.options_answer with hsame | ⟨⟨c, hmore⟩, -⟩
  · exact hsame
  · simp [emits, sent, Message.added, hmore] at h

variable (x)

theorem owed_next {i : ι} (h : (x.next.devices i).adr.requestOwed = true) :
    (x.network.devices i).adr.requestOwed = true ∨ x.asksFor i = true := by
  rcases x.becomes_or_same i with ⟨rfl, hbecomes⟩ | hsame
  · generalize x.next.devices x.event.device = d at hbecomes h
    cases hbecomes with
    | same => exact .inl h
    | @heard m mac metadata hm hmac hadr hok =>
      have hcases : x.record.adr.requestOwed = true ∨ mac.adrAckReq = true :=
        Bool.or_eq_true_iff.1 h
      refine hcases.imp_right fun hask ↦ ?_
      simp [asksFor, asks, hm, hmac, hadr, hask, hok, Except.isOk, Except.toBool]
    | settled => cases h
    | told => cases h
  · rw [hsame] at h
    exact .inl h

theorem sent_add_owed (i : ι) :
    (if x.event.device = i then x.sent else 0) + (x.next.devices i).adr.requestOwed.toNat ≤
      (if x.asksFor i then 1 else 0) + (x.network.devices i).adr.requestOwed.toNat := by
  by_cases hemits : x.emitsTo i = true
  · obtain ⟨rfl, hsends⟩ := emitsTo_iff.1 hemits
    have hemission := emission hsends
    have howed : (x.network.devices x.event.device).adr.requestOwed = true := hemission.owed
    -- The request that is sent is the one that was owed, and nothing is owed afterwards.
    have hsent := x.sent_le_one
    simp only [hemission.settled, howed, Bool.toNat_false, Bool.toNat_true, if_true]
    omega
  · have hnone : (if x.event.device = i then x.sent else 0) = 0 := by
      simpa [emitsTo, emits] using hemits
    rw [hnone, Nat.zero_add]
    cases howed : (x.next.devices i).adr.requestOwed with
    | false => exact Nat.zero_le _
    | true =>
      rcases x.owed_next howed with h | h
      · simp [h]
      · simp [h]

theorem atMost_next {key : DeviceKey} {n : Nat} (h : x.network.engine.store.AtMost key n) :
    x.next.engine.store.AtMost key (n + if x.storesUnder key then 1 else 0) := by
  have heffect := x.effect
  generalize x.next = n', x.answer = a at heffect
  cases heffect with
  | @heard m r service hm hr hengine =>
    rw [Network.engine, hengine]
    cases hr with
    | refused => exact h.mono (Nat.le_add_right _ _)
    | switchedOff _ _ hclear => exact (Engine.atMost_clear h hclear).mono (Nat.le_add_right _ _)
    | @crashed mac metadata c store hmac hadr haccept hpush =>
      refine (Engine.atMost_push h hpush).mono ?_
      simp [Except.isOk, Except.toBool]
    | @recorded mac metadata pushed store log hmac hadr haccept hpush =>
      change x.network.engine.push x.event.medium x.key (m.frame mac) = (pushed, store) at hpush
      have hstores : x.stores = pushed.isOk := by
        simp [stores, hm, hmac, hadr, haccept, hpush, Except.isOk, Except.toBool]
      simpa [storesUnder, hstores] using Engine.atMost_push h hpush
  | @answered m r service hm hr hengine =>
    rw [Network.engine, hengine]
    refine Store.AtMost.mono ?_ (Nat.le_add_right n _)
    cases hr with
    | kept | settled => exact h
    | emitted _ hclear => exact Engine.atMost_clear h hclear

end Moment

namespace Network

variable {ι : Type} [DecidableEq ι] (n : Network ι) (events : List (Event ι))

theorem sentTo_add_owed (i : ι) :
    Moment.sentTo i (n.moments events) + ((n.after events).devices i).adr.requestOwed.toNat ≤
      (n.moments events).countP (·.asksFor i) + (n.devices i).adr.requestOwed.toNat := by
  induction events generalizing n with
  | nil => simp [moments, Moment.sentTo]
  | cons e events ih =>
    have hstep : (if e.device = i then (⟨n, e⟩ : Moment ι).sent else 0) +
        ((n.step e).1.devices i).adr.requestOwed.toNat ≤
          (if (⟨n, e⟩ : Moment ι).asksFor i then 1 else 0) +
            (n.devices i).adr.requestOwed.toNat := Moment.sent_add_owed ⟨n, e⟩ i
    have hrest := ih (n.step e).1
    simp only [moments, Moment.sentTo, List.countP_cons, after_cons]
    omega

variable {n} in
theorem atMost_after {key : DeviceKey} {c : Nat} (h : n.engine.store.AtMost key c) :
    (n.after events).engine.store.AtMost key
      (c + (n.moments events).countP (·.storesUnder key)) := by
  induction events generalizing n c with
  | nil => exact h
  | cons e events ih =>
    have hrest := ih (Moment.atMost_next ⟨n, e⟩ h)
    rw [moments, List.countP_cons, Nat.add_comm (List.countP _ _), ← Nat.add_assoc]
    exact hrest

end Network

structure Limited {ι : Type} [DecidableEq ι] (needed : Nat) (moments : List (Moment ι)) :
    Prop where
  kept : ∀ x ∈ moments, x.event.message.options <+: x.answer.message.options
  asked : ∀ i, Moment.sentTo i moments ≤ moments.countP (·.asksFor i)
  asked_between : ∀ i past x between y rest, moments = past ++ x :: (between ++ y :: rest) →
    x.emitsTo i → y.emitsTo i → ∃ z ∈ between, z.asksFor i
  stored_before : ∀ key past y rest, moments = past ++ y :: rest → y.emitsUnder key →
    needed ≤ past.countP (·.storesUnder key)
  stored_between : ∀ key past x between y rest,
    moments = past ++ x :: (between ++ y :: rest) → x.emitsUnder key → y.emitsUnder key →
    needed ≤ between.countP (·.storesUnder key)

namespace Network

variable {ι : Type} [DecidableEq ι]

theorem needed_le {n : Network ι} {events : List (Event ι)} {key : DeviceKey} {y : Moment ι}
    (h : n.engine.store.AtMost key 0) (hy : y.network = n.after events)
    (hemits : y.emitsUnder key = true) :
    max 1 n.engine.config.minHistory.toNat ≤
      (n.moments events).countP (·.storesUnder key) := by
  obtain ⟨rfl, hsends⟩ := Moment.emitsUnder_iff.1 hemits
  obtain ⟨frames, hget, hneeded⟩ := (Moment.emission hsends).heard
  rw [hy, config_after] at hneeded
  rw [hy] at hget
  have hlen := atMost_after events h frames hget
  rw [Nat.zero_add] at hlen
  exact hneeded.trans hlen

theorem exists_asksFor {n : Network ι} {events : List (Event ι)} {i : ι} {y : Moment ι}
    (h : (n.devices i).adr.requestOwed = false) (hy : y.network = n.after events)
    (hemits : y.emitsTo i = true) : ∃ z ∈ n.moments events, z.asksFor i = true := by
  obtain ⟨rfl, hsends⟩ := Moment.emitsTo_iff.1 hemits
  have howed : (y.network.devices y.event.device).adr.requestOwed = true :=
    (Moment.emission hsends).owed
  have hcount := n.sentTo_add_owed events y.event.device
  rw [← hy, howed, h, Bool.toNat_true, Bool.toNat_false] at hcount
  have hpos : 0 < (n.moments events).countP (·.asksFor y.event.device) := by omega
  exact List.countP_pos_iff.1 hpos

/-- Each request answers one that was asked for, and rests on frames that no earlier one rests
on. -/
theorem start_limited (capacity : Nat) (config : Config) (keys : ι → DeviceKey)
    (events : List (Event ι)) :
    Limited (max 1 config.minHistory.toNat) ((start capacity config keys).moments events) where
  kept x _ := x.options_prefix
  asked i := by
    have hcount := (start capacity config keys).sentTo_add_owed events i
    exact (Nat.le_add_right _ _).trans hcount
  asked_between i past x between y rest hrun hx hy := by
    obtain ⟨before, middle, -, rfl, hnetwork⟩ := exists_between hrun
    obtain ⟨rfl, hsends⟩ := Moment.emitsTo_iff.1 hx
    exact exists_asksFor (Moment.emission hsends).settled hnetwork hy
  stored_before key past y rest hrun hy := by
    obtain ⟨before, -, rfl, hnetwork, -⟩ := moments_eq_append_cons hrun
    have hempty : (start capacity config keys).engine.store.AtMost key 0 :=
      Store.atMost_empty capacity
    exact needed_le hempty hnetwork hy
  stored_between key past x between y rest hrun hx hy := by
    obtain ⟨before, middle, hbefore, rfl, hnetwork⟩ := exists_between hrun
    obtain ⟨rfl, hsends⟩ := Moment.emitsUnder_iff.1 hx
    have hneeded := needed_le (Moment.emission hsends).cleared hnetwork hy
    rw [x.config_next, hbefore, config_after] at hneeded
    exact hneeded

/-- The second downlink finds nothing left to send. -/
theorem start_limited_lone :
    (lone.moments [⟨(), {}, .uplink (slowUplink true)⟩, ⟨(), {}, .downlink {}⟩,
      ⟨(), {}, .downlink {}⟩]).map Moment.sent = [0, 1, 0] ∧
    1 ≤ (lone.moments [⟨(), {}, .uplink (slowUplink true)⟩]).countP
      (·.storesUnder ⟨"app", "dev"⟩) := by
  refine ⟨by decide +kernel, ?_⟩
  have h := start_limited 4 { minHistory := 1 } (fun () ↦ ⟨"app", "dev"⟩)
    [⟨(), {}, .uplink (slowUplink true)⟩, ⟨(), {}, .downlink {}⟩, ⟨(), {}, .downlink {}⟩]
  refine h.stored_before _ _ _ _ rfl ?_
  decide +kernel

end Network

end AdaptiveRate
