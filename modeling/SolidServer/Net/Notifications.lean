import SolidServer.Store.Cache

/-!
# The notification hub

Each topic has a broadcast channel, made by its first subscriber and removed by the first frame
that finds no receiver.  `subscribe` and `fan_out` each hold the lock of the topic map throughout,
so a run is a sequence of them; `notify` is one `fan_out` on the resource and, when membership
changed, one on its container.

The channel is `tokio`'s: a receiver gets what is sent after it subscribed, and one that is more
than the buffer behind is told how many frames it lost.
-/

namespace SolidServer.Net

open SolidServer.Store

/-- `TOPIC_BUFFER`: the frames a channel keeps. -/
def topicBuffer : Nat := 64

/-! ## §1 The hub -/

/-- A receiver: its channel and the position of the next frame there. -/
structure Receiver where
  channel : Nat
  next : Nat

/-- The topic map, with the channels ever made (by what was sent on each) and the receivers. -/
structure Hub (φ : Type) where
  topics : Dict Text Nat
  sent : Nat → List φ
  channelCount : Nat
  receivers : Nat → Option Receiver
  receiverCount : Nat

/-- What a receive gives. -/
inductive RecvResult (φ : Type) where
  | frame (body : φ)
  | lagged (missed : Nat)
  | empty
  | closed

namespace Hub

variable {φ : Type}

def new : Hub φ where
  topics := ∅
  sent := fun _ => []
  channelCount := 0
  receivers := fun _ => none
  receiverCount := 0

/-- A new receiver, at the end of what was sent on its channel. -/
def join (hub : Hub φ) (channel : Nat) : Hub φ :=
  { hub with
    receivers := Function.update hub.receivers hub.receiverCount
      (some ⟨channel, (hub.sent channel).length⟩)
    receiverCount := hub.receiverCount + 1 }

/-- `broadcast::channel`, entered in the map. -/
def openTopic (hub : Hub φ) (topic : Text) : Hub φ :=
  { hub with
    topics := hub.topics.insert topic hub.channelCount
    sent := Function.update hub.sent hub.channelCount []
    channelCount := hub.channelCount + 1 }

/-- `subscribe`. -/
def subscribe (hub : Hub φ) (topic : Text) : Hub φ :=
  match hub.topics.lookup topic with
  | some channel => hub.join channel
  | none => (hub.openTopic topic).join hub.channelCount

/-- A channel has a receiver. -/
def live (hub : Hub φ) (channel : Nat) : Bool :=
  (List.range hub.receiverCount).any fun k => (hub.receivers k).any fun x => x.channel == channel

/-- `fan_out`: a `send` fails without a receiver, and then the entry goes. -/
def fanOut (hub : Hub φ) (topic : Text) (body : φ) : Hub φ :=
  match hub.topics.lookup topic with
  | none => hub
  | some channel =>
    if hub.live channel then
      { hub with sent := Function.update hub.sent channel (hub.sent channel ++ [body]) }
    else { hub with topics := hub.topics.erase topic }

/-- The drop of a receiver. -/
def drop (hub : Hub φ) (k : Nat) : Hub φ :=
  { hub with receivers := Function.update hub.receivers k none }

/-- A receiver at a new position. -/
def moveTo (hub : Hub φ) (k : Nat) (x : Receiver) (next : Nat) : Hub φ :=
  { hub with receivers := Function.update hub.receivers k (some ⟨x.channel, next⟩) }

/-- A receive by a receiver: past the buffer it skips to the oldest frame kept; the channel is
closed once its sender is gone from the map. -/
def recvAs (hub : Hub φ) (k : Nat) (x : Receiver) : RecvResult φ × Hub φ :=
  if topicBuffer < ((hub.sent x.channel).drop x.next).length then
    (.lagged (((hub.sent x.channel).drop x.next).length - topicBuffer),
      hub.moveTo k x (x.next + (((hub.sent x.channel).drop x.next).length - topicBuffer)))
  else match (hub.sent x.channel).drop x.next with
    | body :: _ => (.frame body, hub.moveTo k x (x.next + 1))
    | [] => (if hub.topics.entries.any fun e => e.2 == x.channel then .empty else .closed, hub)

/-- A receive; a receiver that was dropped gets nothing. -/
def recv (hub : Hub φ) (k : Nat) : Option (RecvResult φ) × Hub φ :=
  match hub.receivers k with
  | none => (none, hub)
  | some x => (some (hub.recvAs k x).1, (hub.recvAs k x).2)

end Hub

/-! ## §2 Runs -/

inductive HubEvent (φ : Type) where
  | subscribe (topic : Text)
  | drop (k : Nat)
  | fanOut (topic : Text) (body : φ)
  | recv (k : Nat)

section
variable {φ : Type}

def HubEvent.step (hub : Hub φ) : HubEvent φ → Hub φ
  | .subscribe topic => hub.subscribe topic
  | .drop k => hub.drop k
  | .fanOut topic body => hub.fanOut topic body
  | .recv k => (hub.recv k).2

/-- The hub after some events. -/
def afterHub (hub : Hub φ) (events : List (HubEvent φ)) : Hub φ := events.foldl HubEvent.step hub

/-- What a receiver gets in a run. -/
def gets (r : Nat) : Hub φ → List (HubEvent φ) → List (RecvResult φ)
  | _, [] => []
  | hub, event :: events =>
    (match event with
      | .recv k => if k = r then (hub.recv k).1.toList else []
      | _ => []) ++ gets r (event.step hub) events

/-- A receive from a queue of frames: the first one, or how many are dropped from a queue longer
than the buffer. -/
def receive (queue : List φ) : RecvResult φ × List φ :=
  if topicBuffer < queue.length then
    (.lagged (queue.length - topicBuffer), queue.drop (queue.length - topicBuffer))
  else match queue with
    | body :: queue => (.frame body, queue)
    | [] => (.empty, [])

/-- **What it should get**: the frames of its topic wait in a queue. -/
def queued (r : Nat) (topic : Text) : List φ → List (HubEvent φ) → List (RecvResult φ)
  | _, [] => []
  | queue, .fanOut t body :: events =>
    queued r topic (if t = topic then queue ++ [body] else queue) events
  | queue, .recv k :: events =>
    if k = r then (receive queue).1 :: queued r topic (receive queue).2 events
    else queued r topic queue events
  | queue, .subscribe _ :: events => queued r topic queue events
  | queue, .drop _ :: events => queued r topic queue events

end

/-! ## §3 Receivers stay attached -/

section
variable {φ : Type} {hub : Hub φ} {topic t : Text} {r k : Nat} {queue : List φ} {body : φ}

/-- Channels in the map exist, and each is there once. -/
structure Hub.WellFormed (hub : Hub φ) : Prop where
  made : ∀ {t c}, hub.topics.lookup t = some c → c < hub.channelCount
  once : ∀ {t t' c}, hub.topics.lookup t = some c → hub.topics.lookup t' = some c → t = t'

/-- A receiver is on the channel its topic has in the map, with a queue of frames before it. -/
structure Attached (hub : Hub φ) (topic : Text) (r : Nat) (queue : List φ) (x : Receiver) :
    Prop where
  joined : r < hub.receiverCount
  alive : hub.receivers r = some x
  entry : hub.topics.lookup topic = some x.channel
  within : x.next ≤ (hub.sent x.channel).length
  waiting : (hub.sent x.channel).drop x.next = queue

/-- A receive changes at most the receiver's position. -/
theorem recv_snd (hub : Hub φ) (k : Nat) :
    (hub.recv k).2 = hub ∨ ∃ x next, (hub.recv k).2 = hub.moveTo k x next := by
  unfold Hub.recv
  cases hub.receivers k with
  | none => exact .inl rfl
  | some x =>
    dsimp only [Hub.recvAs]
    by_cases hlag : topicBuffer < ((hub.sent x.channel).drop x.next).length
    · rw [if_pos hlag]
      exact .inr ⟨_, _, rfl⟩
    · rw [if_neg hlag]
      cases (hub.sent x.channel).drop x.next with
      | cons body queue => exact .inr ⟨_, _, rfl⟩
      | nil => exact .inl rfl

theorem Hub.WellFormed.step (h : hub.WellFormed) (event : HubEvent φ) :
    (event.step hub).WellFormed := by
  cases event with
  | subscribe t =>
    show (hub.subscribe t).WellFormed
    unfold Hub.subscribe
    split
    · exact ⟨h.made, h.once⟩
    · refine ⟨fun {t' c} hc => ?_, fun {t₁ t₂ c} h₁ h₂ => ?_⟩
      · rcases lookup_insert_cases hc with ⟨-, rfl⟩ | hold
        · exact Nat.lt_succ_self _
        · exact Nat.lt_succ_of_lt (h.made hold)
      · -- the new channel is above all that are in the map
        rcases lookup_insert_cases h₁ with ⟨rfl, rfl⟩ | hold₁ <;>
          rcases lookup_insert_cases h₂ with ⟨rfl, hc⟩ | hold₂
        · rfl
        · exact absurd (h.made hold₂) (Nat.lt_irrefl _)
        · exact absurd (h.made hold₁) (hc ▸ Nat.lt_irrefl _)
        · exact h.once hold₁ hold₂
  | drop k => exact ⟨h.made, h.once⟩
  | fanOut t body =>
    show (hub.fanOut t body).WellFormed
    unfold Hub.fanOut
    split
    · exact h
    · split_ifs
      · exact ⟨h.made, h.once⟩
      · exact ⟨fun hc => h.made (lookup_of_lookup_erase hc), fun h₁ h₂ =>
          h.once (lookup_of_lookup_erase h₁) (lookup_of_lookup_erase h₂)⟩
  | recv k =>
    show (hub.recv k).2.WellFormed
    rcases recv_snd hub k with hsame | ⟨x, next, hmoved⟩
    · rwa [hsame]
    · rw [hmoved]
      exact ⟨h.made, h.once⟩

variable {x : Receiver}

theorem Attached.join (h : Attached hub topic r queue x) (channel : Nat) :
    Attached (hub.join channel) topic r queue x :=
  { h with
    joined := Nat.lt_succ_of_lt h.joined
    alive := by
      show Function.update hub.receivers hub.receiverCount _ r = some x
      rw [Function.update_of_ne (Nat.ne_of_lt h.joined)]
      exact h.alive }

theorem Attached.subscribe (h : Attached hub topic r queue x) (hub_ok : hub.WellFormed) :
    Attached (hub.subscribe t) topic r queue x := by
  unfold Hub.subscribe
  split
  · exact h.join _
  · next hnone =>
    have hne : topic ≠ t := by
      rintro rfl
      rw [h.entry] at hnone
      cases hnone
    have hsent : Function.update hub.sent hub.channelCount [] x.channel = hub.sent x.channel :=
      Function.update_of_ne (Nat.ne_of_lt (hub_ok.made h.entry)) _ _
    have hopen : Attached (hub.openTopic t) topic r queue x :=
      { h with
        entry := (AList.lookup_insert_ne hne).trans h.entry
        within := by
          show x.next ≤ (Function.update hub.sent hub.channelCount [] x.channel).length
          rw [hsent]
          exact h.within
        waiting := by
          show (Function.update hub.sent hub.channelCount [] x.channel).drop x.next = queue
          rw [hsent]
          exact h.waiting }
    exact hopen.join _

theorem Attached.drop (h : Attached hub topic r queue x) (hne : r ≠ k) :
    Attached (hub.drop k) topic r queue x :=
  { h with alive := (Function.update_of_ne hne _ _).trans h.alive }

/-- A channel with a receiver attached is live: its entry is not removed. -/
theorem Attached.live (h : Attached hub topic r queue x) : hub.live x.channel = true := by
  unfold Hub.live
  rw [List.any_eq_true]
  refine ⟨r, List.mem_range.mpr h.joined, ?_⟩
  rw [h.alive]
  simp

/-- **A frame** goes to the queues of its topic only. -/
theorem Attached.fanOut (h : Attached hub topic r queue x) (hub_ok : hub.WellFormed) :
    Attached (hub.fanOut t body) topic r (if t = topic then queue ++ [body] else queue) x := by
  unfold Hub.fanOut
  by_cases ht : t = topic
  · subst ht
    rw [h.entry, if_pos rfl]
    dsimp only
    rw [if_pos h.live]
    refine { h with within := ?_, waiting := ?_ }
    · show x.next ≤ (Function.update hub.sent x.channel _ x.channel).length
      rw [Function.update_self, List.length_append]
      exact Nat.le_add_right_of_le h.within
    · show (Function.update hub.sent x.channel _ x.channel).drop x.next = _
      rw [Function.update_self, List.drop_append_of_le_length h.within, h.waiting]
  · rw [if_neg ht]
    split
    · exact h
    · next channel hchannel =>
      have hne : x.channel ≠ channel := fun heq => ht (hub_ok.once hchannel (heq ▸ h.entry))
      split_ifs
      · have hsent : Function.update hub.sent channel (hub.sent channel ++ [body]) x.channel =
            hub.sent x.channel := Function.update_of_ne hne _ _
        refine { h with within := ?_, waiting := ?_ }
        · show x.next ≤ (Function.update hub.sent channel _ x.channel).length
          rw [hsent]
          exact h.within
        · show (Function.update hub.sent channel _ x.channel).drop x.next = queue
          rw [hsent]
          exact h.waiting
      · exact { h with entry := (AList.lookup_erase_ne (Ne.symm ht)).trans h.entry }

theorem Attached.moveTo (h : Attached hub topic r queue x) {n : Nat} (hn : n ≤ queue.length) :
    Attached (hub.moveTo r x (x.next + n)) topic r (queue.drop n) ⟨x.channel, x.next + n⟩ where
  joined := h.joined
  alive := Function.update_self _ _ _
  entry := h.entry
  within := by
    have hlength := congrArg List.length h.waiting
    rw [List.length_drop] at hlength
    have hwithin := h.within
    show x.next + n ≤ (hub.sent x.channel).length
    omega
  waiting := by
    show (hub.sent x.channel).drop (x.next + n) = queue.drop n
    rw [← h.waiting, List.drop_drop]

/-- A receive by another receiver. -/
theorem Attached.recv_other (h : Attached hub topic r queue x) (hne : r ≠ k) :
    Attached (hub.recv k).2 topic r queue x := by
  rcases recv_snd hub k with hsame | ⟨y, next, hmoved⟩
  · rwa [hsame]
  · rw [hmoved]
    exact { h with alive := (Function.update_of_ne hne _ _).trans h.alive }

/-- The channel of an attached receiver has its sender. -/
theorem Attached.sender (h : Attached hub topic r queue x) :
    (hub.topics.entries.any fun e => e.2 == x.channel) = true := by
  rw [List.any_eq_true]
  exact ⟨⟨topic, x.channel⟩, AList.mem_lookup_iff.mp h.entry, beq_self_eq_true _⟩

/-- A receive of its own takes from the queue. -/
theorem Attached.recv_self (h : Attached hub topic r queue x) :
    (hub.recv r).1 = some (receive queue).1 ∧
      ∃ y, Attached (hub.recv r).2 topic r (receive queue).2 y := by
  unfold Hub.recv receive
  rw [h.alive]
  dsimp only [Hub.recvAs]
  rw [h.waiting, if_pos h.sender]
  split_ifs with hlag
  · exact ⟨rfl, _, h.moveTo (Nat.sub_le _ _)⟩
  · cases queue with
    | cons body queue => exact ⟨rfl, _, h.moveTo (Nat.succ_le_succ (Nat.zero_le queue.length))⟩
    | nil => exact ⟨rfl, x, h⟩

/-- **Run.**  An attached receiver that is not dropped stays attached, and gets what its queue
says. -/
theorem Attached.run (h : Attached hub topic r queue x) (hub_ok : hub.WellFormed)
    {events : List (HubEvent φ)} (hkept : .drop r ∉ events) :
    gets r hub events = queued r topic queue events ∧
      ∃ x queue, Attached (afterHub hub events) topic r queue x := by
  induction events generalizing hub queue x with
  | nil => exact ⟨rfl, x, queue, h⟩
  | cons event events ih =>
    have hrest : .drop r ∉ events := fun hin => hkept (List.mem_cons_of_mem _ hin)
    have hnext := hub_ok.step event
    cases event with
    | subscribe t => exact ih (h.subscribe hub_ok) hnext hrest
    | drop k =>
      have hne : r ≠ k := by
        rintro rfl
        exact hkept List.mem_cons_self
      exact ih (h.drop hne) hnext hrest
    | fanOut t body => exact ih (h.fanOut hub_ok) hnext hrest
    | recv k =>
      unfold gets queued
      dsimp only
      by_cases hk : k = r
      · subst hk
        obtain ⟨hresult, y, hy⟩ := h.recv_self
        obtain ⟨hgets, hstays⟩ := ih hy hnext hrest
        refine ⟨?_, hstays⟩
        rw [if_pos rfl, if_pos rfl, hresult]
        exact congrArg _ hgets
      · rw [if_neg hk, if_neg hk]
        exact ih (h.recv_other (Ne.symm hk)) hnext hrest

theorem wellFormed_after (h : hub.WellFormed) (events : List (HubEvent φ)) :
    (afterHub hub events).WellFormed := by
  induction events generalizing hub with
  | nil => exact h
  | cons event events ih => exact ih (h.step event)

/-- A new receiver starts with an empty queue. -/
theorem attached_subscribe (topic : Text) (hub : Hub φ) :
    ∃ x, Attached (hub.subscribe topic) topic hub.receiverCount [] x := by
  have hjoin : ∀ (hub : Hub φ) (channel : Nat), hub.topics.lookup topic = some channel →
      Attached (hub.join channel) topic hub.receiverCount []
        ⟨channel, (hub.sent channel).length⟩ := fun hub channel hentry =>
    { joined := Nat.lt_succ_self _
      alive := Function.update_self _ _ _
      entry := hentry
      within := le_rfl
      waiting := List.drop_length }
  unfold Hub.subscribe
  split
  · next channel hchannel => exact ⟨_, hjoin hub channel hchannel⟩
  · exact ⟨_, hjoin (hub.openTopic topic) hub.channelCount (AList.lookup_insert _)⟩

end

/-- **Delivery.**  After any run, a subscriber that stays gets what a queue of its topic's frames
since then gives it, and its channel stays the one in the map. -/
theorem notifications_delivered {φ : Type} (past rest : List (HubEvent φ)) (topic : Text)
    (hkept : .drop (afterHub .new past).receiverCount ∉ rest) :
    gets (afterHub .new past).receiverCount ((afterHub .new past).subscribe topic) rest =
        queued (afterHub .new past).receiverCount topic [] rest ∧
      ∃ x, (afterHub .new (past ++ .subscribe topic :: rest)).receivers
          (afterHub .new past).receiverCount = some x ∧
        (afterHub .new (past ++ .subscribe topic :: rest)).topics.lookup topic =
          some x.channel := by
  have hok : (afterHub (.new : Hub φ) past).WellFormed :=
    wellFormed_after ⟨fun hc => absurd hc (by simp [Hub.new]), fun hc => absurd hc (by simp [Hub.new])⟩
      past
  obtain ⟨x, hx⟩ := attached_subscribe topic (afterHub (.new : Hub φ) past)
  obtain ⟨hgets, y, queue, hy⟩ := hx.run (hok.step (.subscribe topic)) hkept
  refine ⟨hgets, y, ?_⟩
  have hrun : afterHub .new (past ++ .subscribe topic :: rest) =
      afterHub ((afterHub .new past).subscribe topic) rest := by
    unfold afterHub
    rw [List.foldl_append]
    rfl
  rw [hrun]
  exact ⟨hy.alive, hy.entry⟩

/-- A subscriber to a topic whose entry was pruned before gets the frame sent after. -/
theorem notifications_delivered_after_prune :
    gets 1 ((afterHub (.new : Hub Nat)
        [.subscribe [], .drop 0, .fanOut [] 1]).subscribe []) [.fanOut [] 2, .recv 1] =
      [.frame 2] := by
  have hkept : HubEvent.drop (φ := Nat) 1 ∉ [.fanOut [] 2, .recv 1] := by simp
  exact (notifications_delivered [.subscribe [], .drop 0, .fanOut [] 1] [.fanOut [] 2, .recv 1] []
    hkept).1

end SolidServer.Net
