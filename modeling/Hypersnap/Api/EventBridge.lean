import Hypersnap.Store.Store

/-!
# `Api.EventBridge` — the block height in an event id

The id of an event is its height, **14** bits to the left, and a sequence number. The bridge to the indexers
takes the height to be **24** bits to the left. So the index events of messages and of events on chain carry
the height without its last ten bits (`convertEvent_height_iff`); that of a confirmed block carries the number
in its body.
-/

namespace Hypersnap

inductive IndexEvent where
  | messageCommitted (message : Message) (shardId : UInt32) (blockHeight : UInt64)
  | onChainEventProcessed (event : OnChainEvent) (shardId : UInt32) (blockHeight : UInt64)
  | hubEventEmitted (event : HubEvent) (shardId : UInt32)
  | blockCommitted (shardId : UInt32) (blockHeight : UInt64) (messageCount : UInt64)
deriving DecidableEq, Repr

def IndexEvent.blockHeight : IndexEvent → Option UInt64
  | messageCommitted _ _ blockHeight | onChainEventProcessed _ _ blockHeight
  | blockCommitted _ blockHeight _ =>
    some blockHeight
  | hubEventEmitted .. => none

def extractBlockHeight (hubEvent : HubEvent) : UInt64 := hubEvent.id >>> 24

/-- `HubEventBridge::convert_event`. The source returns nothing for an event whose body is not of its type. -/
def convertEvent (shardId : UInt32) (hubEvent : HubEvent) : IndexEvent :=
  match hubEvent.body with
  | .mergeMessageBody message _ | .pruneMessageBody message | .revokeMessageBody message =>
    .messageCommitted message shardId (extractBlockHeight hubEvent)
  | .mergeOnChainEventBody event => .onChainEventProcessed event shardId (extractBlockHeight hubEvent)
  | .blockConfirmedBody blockNumber shardIndex _ _ totalEvents _ _ =>
    .blockCommitted shardIndex blockNumber totalEvents
  | .mergeUsernameProofBody .. | .mergeFailure .. => .hubEventEmitted hubEvent shardId

/-- An event whose index event has the height from the id. -/
def HubEventBody.takesHeight : HubEventBody → Bool
  | mergeMessageBody .. | pruneMessageBody _ | revokeMessageBody _ | mergeOnChainEventBody _ => true
  | mergeUsernameProofBody .. | mergeFailure .. | blockConfirmedBody .. => false

def HubEventBody.confirmedNumber : HubEventBody → Option UInt64
  | blockConfirmedBody blockNumber .. => some blockNumber
  | _ => none

theorem blockHeight_convertEvent (shardId : UInt32) (event : HubEvent) :
    (convertEvent shardId event).blockHeight =
    if event.body.takesHeight then some (extractBlockHeight event) else event.body.confirmedNumber := by
  obtain ⟨id, body, timestamp⟩ := event
  cases body <;> rfl

namespace HubEventIdGenerator

variable {g g' : HubEventIdGenerator} {event : HubEvent} {events numbered : List HubEvent} {id : UInt64}

/-- The events with the ids that are generated for them, one after the other. -/
def numberEvents (g : HubEventIdGenerator) : List HubEvent → Except Failure (List HubEvent)
  | [] => .ok []
  | event :: events => do
    let (id, g) ← g.generateId event
    let numbered ← numberEvents g events
    .ok ({ event with id } :: numbered)

theorem makeEventId_shiftRight {height : UInt64} (hheight : height < 1 <<< heightBits) (seq : UInt64) :
    makeEventId height seq >>> 24 = height >>> 10 := by
  have hlt : height.toNat < 2 ^ 50 := UInt64.lt_iff_toNat_lt.1 hheight
  have hle : (seq &&& ((1 <<< sequenceBits) - 1)).toNat ≤ 2 ^ 14 - 1 := Nat.and_le_right
  have hshift : (height <<< sequenceBits).toNat = height.toNat <<< 14 := by
    rw [UInt64.toNat_shiftLeft, Nat.shiftLeft_eq, Nat.shiftLeft_eq]
    exact Nat.mod_eq_of_lt (by change height.toNat * 2 ^ 14 < 2 ^ 64; omega)
  apply UInt64.toNat_inj.1
  change (makeEventId height seq).toNat >>> 24 = height.toNat >>> 10
  -- the two parts do not overlap, so the id is their sum
  rw [makeEventId, UInt64.toNat_or, hshift, ← Nat.shiftLeft_add_eq_or_of_lt (by omega), Nat.shiftLeft_eq,
    Nat.shiftRight_eq_div_pow, Nat.shiftRight_eq_div_pow]
  omega

theorem generateId_height (h : g.generateId event = .ok (id, g')) :
    id >>> 24 = g.currentHeight >>> 10 ∧ g'.currentHeight = g.currentHeight := by
  unfold generateId at h
  split at h
  · cases h
  next hheight =>
    split at h
    · cases h
    have hid := makeEventId_shiftRight (UInt64.not_le.1 hheight)
    split at h <;> cases h <;> exact ⟨hid _, rfl⟩

theorem numberEvents_height (h : numberEvents g events = .ok numbered) :
    numbered.map (·.body) = events.map (·.body) ∧
    ∀ event ∈ numbered, extractBlockHeight event = g.currentHeight >>> 10 := by
  induction events generalizing g numbered with
  | nil =>
    cases h
    exact ⟨rfl, fun _ hmem => nomatch hmem⟩
  | cons event events ih =>
    obtain ⟨⟨id, g'⟩, hid, h⟩ := EState.except_bind_eq_ok.1 h
    obtain ⟨rest, hrest, h⟩ := EState.except_bind_eq_ok.1 h
    cases h
    obtain ⟨hheight, hkeeps⟩ := generateId_height hid
    obtain ⟨hbodies, hall⟩ := ih hrest
    rw [hkeeps] at hall
    refine ⟨?_, List.forall_mem_cons.2 ⟨hheight, hall⟩⟩
    rw [List.map_cons, List.map_cons, hbodies]

end HubEventIdGenerator

theorem shiftRight_ten_eq_self {height : UInt64} (h : height >>> 10 = height) : height = 0 := by
  have hdiv : height.toNat >>> 10 = height.toNat := congrArg UInt64.toNat h
  rw [Nat.shiftRight_eq_div_pow] at hdiv
  exact UInt64.toNat_inj.1 (by change height.toNat = 0; omega)

/-- **Index events carry the height at which their events were numbered** exactly if the height is 0 or no
    event takes it from its id, and the blocks that are confirmed have this number. -/
theorem convertEvent_height_iff (shardId : UInt32) (height : UInt64) (events numbered : List HubEvent)
    (h : HubEventIdGenerator.numberEvents ⟨height, 0⟩ events = .ok numbered) :
    (∀ event ∈ numbered, ∀ carried ∈ (convertEvent shardId event).blockHeight, carried = height) ↔
      (height = 0 ∨ ∀ event ∈ events, event.body.takesHeight = false) ∧
        ∀ event ∈ events, ∀ number ∈ event.body.confirmedNumber, number = height := by
  obtain ⟨hbodies, hall⟩ := HubEventIdGenerator.numberEvents_height h
  have hbody (P : HubEventBody → Prop) :
      (∀ event ∈ events, P event.body) ↔ ∀ event ∈ numbered, P event.body := by
    calc
      (∀ event ∈ events, P event.body) ↔ ∀ body ∈ events.map (·.body), P body := List.forall_mem_map.symm
      _ ↔ ∀ body ∈ numbered.map (·.body), P body := by rw [hbodies]
      _ ↔ ∀ event ∈ numbered, P event.body := List.forall_mem_map
  rw [hbody (fun body => body.takesHeight = false), hbody fun body =>
    ∀ number ∈ body.confirmedNumber, number = height]
  constructor
  · intro hcarried
    refine ⟨?_, fun event hevent number hnumber => hcarried event hevent number ?_⟩
    · by_contra hne
      rw [not_or] at hne
      refine hne.2 fun event hevent => Bool.eq_false_iff.2 fun htakes => hne.1 ?_
      have hheight := hcarried event hevent (extractBlockHeight event) (by
        rw [blockHeight_convertEvent, if_pos htakes]
        rfl)
      exact shiftRight_ten_eq_self ((hall event hevent).symm.trans hheight)
    · rw [blockHeight_convertEvent]
      obtain ⟨id, body, timestamp⟩ := event
      cases body with
      | blockConfirmedBody => exact hnumber
      | _ => cases hnumber
  · rintro ⟨hzero, hconfirmed⟩ event hevent carried hcarried
    rw [blockHeight_convertEvent] at hcarried
    split at hcarried
    next htakes =>
      cases hcarried
      rcases hzero with rfl | hnone
      · exact hall event hevent
      · exact absurd htakes (by rw [hnone event hevent]; decide)
    next => exact hconfirmed event hevent carried hcarried

def sampleConfirmed (blockNumber : UInt64) : HubEvent :=
  HubEvent.new (.blockConfirmedBody blockNumber 1 0 [] 1 [] 0)

def sampleMerged : HubEvent := HubEvent.new (.mergeMessageBody ⟨none, [1], 0, [], 0, [], none⟩ [])

/-- Block 3 with no event but its own, and block 0 with a message. -/
theorem convertEvent_height_confirmed :
    (∃ event, HubEventIdGenerator.numberEvents ⟨3, 0⟩ [sampleConfirmed 3] = .ok [event] ∧
      ∀ carried ∈ (convertEvent 1 event).blockHeight, carried = 3) ∧
    ∃ event, HubEventIdGenerator.numberEvents ⟨0, 0⟩ [sampleMerged] = .ok [event] ∧
      ∀ carried ∈ (convertEvent 1 event).blockHeight, carried = 0 := by
  refine ⟨⟨_, rfl, ?_⟩, ⟨_, rfl, ?_⟩⟩
  · refine (convertEvent_height_iff 1 3 [sampleConfirmed 3] _ rfl).2 ⟨.inr (by decide), ?_⟩ _ (.head _)
    simp [sampleConfirmed, HubEvent.new, HubEventBody.confirmedNumber]
  · refine (convertEvent_height_iff 1 0 [sampleMerged] _ rfl).2 ⟨.inl rfl, ?_⟩ _ (.head _)
    simp [sampleMerged, HubEvent.new, HubEventBody.confirmedNumber]

/-- A message that is merged in block 1 is reported as one of block 0. -/
theorem convertEvent_height_merged :
    ∃ event, HubEventIdGenerator.numberEvents ⟨1, 0⟩ [sampleMerged] = .ok [event] ∧
    event.id = 16385 ∧ (convertEvent 1 event).blockHeight = some 0 :=
  ⟨_, rfl, rfl, rfl⟩

end Hypersnap
