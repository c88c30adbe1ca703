import Msgbus.Logs.Invariant

/-!
# The queues and peer records a store holds

What a store keeps besides logs, without its tables: the messages waiting in
each FIFO queue, the last sequence each queue has given out, and one sync state
for each peer and log.  `Queues.Step` says what each store call may do to them.
-/

namespace Msgbus

/-- Where a sync state is kept: a peer, and the topic and origin key it is
about. -/
structure PeerKey where
  peer : String
  topic : Option Topic
  origin : Option String
  deriving DecidableEq

namespace PeerSyncState

def address (state : PeerSyncState) : PeerKey :=
  ⟨state.peer, state.topic, state.origin.map NodeId.key⟩

/-- Topic and origin are both given or both missing. -/
def Paired (state : PeerSyncState) : Prop := state.topic.isSome = state.origin.isSome

instance instDecidablePaired (state : PeerSyncState) : Decidable state.Paired :=
  inferInstanceAs (Decidable (state.topic.isSome = state.origin.isSome))

theorem countFailures_names (state : PeerSyncState) (previous : Option PeerSyncState) :
    (countFailures state previous).peer = state.peer ∧
      (countFailures state previous).topic = state.topic ∧
      (countFailures state previous).origin = state.origin := by
  unfold countFailures
  cases state.lastError with
  | none => exact ⟨rfl, rfl, rfl⟩
  | some error =>
      cases previous with
      | none => exact ⟨rfl, rfl, rfl⟩
      | some previous => exact ⟨rfl, rfl, rfl⟩

theorem countFailures_address (state : PeerSyncState) (previous : Option PeerSyncState) :
    (countFailures state previous).address = state.address := by
  obtain ⟨hpeer, htopic, horigin⟩ := countFailures_names state previous
  rw [address, hpeer, htopic, horigin, address]

theorem countFailures_paired {state : PeerSyncState} (h : state.Paired)
    (previous : Option PeerSyncState) : (countFailures state previous).Paired := by
  obtain ⟨-, htopic, horigin⟩ := countFailures_names state previous
  rw [Paired, htopic, horigin]
  exact h

/-- Paired states are at one address when their names agree, with any text
without a `/` standing for a missing name: every key of an origin has one. -/
theorem address_eq_of_names {state state' : PeerSyncState} {missing : String}
    (hmissing : '/' ∉ missing.toList) (h : state.Paired) (h' : state'.Paired)
    (hpeer : state.peer = state'.peer)
    (htopic : state.topic.elim missing Topic.value = state'.topic.elim missing Topic.value)
    (horigin : state.origin.elim missing NodeId.key = state'.origin.elim missing NodeId.key) :
    state.address = state'.address := by
  have hkey : ∀ node : NodeId, node.key ≠ missing :=
    fun node heq => hmissing (heq ▸ node.slash_mem_key)
  unfold Paired at h h'
  unfold address
  rw [hpeer]
  cases ho : state.origin with
  | none =>
      cases ho' : state'.origin with
      | none =>
          rw [ho, Option.isSome_none, Option.isSome_eq_false_iff, Option.isNone_iff_eq_none] at h
          rw [ho', Option.isSome_none, Option.isSome_eq_false_iff, Option.isNone_iff_eq_none] at h'
          rw [h, h']
      | some node' =>
          rw [ho, ho'] at horigin
          exact absurd horigin.symm (hkey node')
  | some node =>
      cases ho' : state'.origin with
      | none =>
          rw [ho, ho'] at horigin
          exact absurd horigin (hkey node)
      | some node' =>
          rw [ho, Option.isSome_some, Option.isSome_iff_exists] at h
          rw [ho', Option.isSome_some, Option.isSome_iff_exists] at h'
          obtain ⟨topic, ht⟩ := h
          obtain ⟨topic', ht'⟩ := h'
          rw [ht, ht'] at htopic
          rw [ho, ho'] at horigin
          have hsame : topic = topic' := Topic.value_injective htopic
          have hsameKey : node.key = node'.key := horigin
          rw [ht, ht', hsame, Option.map_some, Option.map_some, hsameKey]

end PeerSyncState

def StoreOp.Paired : StoreOp → Prop
  | .recordPeerSyncState state => state.Paired
  | _ => True

def FifoFrontAction.leaves : FifoFrontAction → StoredFifoMessage → Option StoredFifoMessage
  | .ack, _ => none
  | .reject, message => some { message with attempts := message.attempts.saturatingAdd 1 }

@[ext] structure Queues where
  last : QueueName → UInt64
  waiting : QueueName × UInt64 → Option StoredFifoMessage
  peers : PeerKey → Option PeerSyncState

namespace Queues

def empty : Queues := ⟨fun _ => 0, fun _ => none, fun _ => none⟩

def enqueued (q : Queues) (m : NewFifoMessage) (now : UInt64) : StoredFifoMessage :=
  { id := m.id
    queue := m.queue
    topic := m.topic
    source := m.source
    target := m.target
    payload := m.payload
    headers := m.headers
    createdAtMs := now
    sequence := (q.last m.queue).saturatingAdd 1
    attempts := 0 }

def enqueue (q : Queues) (m : NewFifoMessage) (now : UInt64) : Queues :=
  { q with
    last := Function.update q.last m.queue (q.enqueued m now).sequence
    waiting := Function.update q.waiting (m.queue, (q.enqueued m now).sequence)
      (some (q.enqueued m now)) }

/-- The front of a queue: the waiting message with the least sequence. -/
def IsFront (q : Queues) (queue : QueueName) : Option StoredFifoMessage → Prop
  | none => ∀ n, q.waiting (queue, n) = none
  | some m => q.waiting (queue, m.sequence) = some m ∧
      ∀ n, n < m.sequence → q.waiting (queue, n) = none

/-- What `ack_fifo` and `reject_fifo` may do: only the front is acted on, and
only if it has the id that the caller names. -/
def FrontStep (queue : QueueName) (messageId : MessageId) (action : FifoFrontAction) (r : Bool)
    (q q' : Queues) : Prop :=
  ∃ front, q.IsFront queue front ∧
    ((∃ m, front = some m ∧ m.id = messageId ∧ r = true ∧
        q' = { q with
          waiting := Function.update q.waiting (queue, m.sequence) (action.leaves m) }) ∨
      ((∀ m, front = some m → m.id ≠ messageId) ∧ r = false ∧ q' = q))

def record (q : Queues) (state : PeerSyncState) : Queues :=
  { q with
    peers := Function.update q.peers state.address
      (some (countFailures state (q.peers state.address))) }

def Paired (q : Queues) : Prop := ∀ a state, q.peers a = some state → state.Paired

def PairedFor (q : Queues) (op : StoreOp) : Prop :=
  ∀ state, op = .recordPeerSyncState state → q.Paired ∧ state.Paired

theorem Paired.pairedFor {q : Queues} (hq : q.Paired) {op : StoreOp} (hop : op.Paired) :
    q.PairedFor op := by
  rintro state rfl
  exact ⟨hq, hop⟩

def Step (env : CallEnv) : (op : StoreOp) → op.Result → Queues → Queues → Prop
  | .enqueueFifo m, r, q, q' => r = q.enqueued m env.now ∧ q' = q.enqueue m env.now
  | .peekFifo queue, r, q, q' => q.IsFront queue r ∧ q' = q
  | .ackFifo queue messageId, r, q, q' => FrontStep queue messageId .ack r q q'
  | .rejectFifo queue messageId, r, q, q' => FrontStep queue messageId .reject r q q'
  | .recordPeerSyncState state, _, q, q' => q' = q.record state
  | .listPeerSyncStates, (r : List PeerSyncState), q, q' =>
      r.Nodup ∧ (∀ state, state ∈ r ↔ q.peers state.address = some state) ∧ q' = q
  | _, _, q, q' => q' = q

theorem step_of_onLogs {env : CallEnv} {op : StoreOp} {r : op.Result} {q : Queues}
    (hop : op.onLogs = true) : Step env op r q q := by
  cases op <;> first | exact rfl | cases hop

theorem eq_of_step_of_onLogs {env : CallEnv} {op : StoreOp} {r : op.Result} {q q' : Queues}
    (hop : op.onLogs = true) (h : Step env op r q q') : q' = q := by
  cases op <;> first | exact h | cases hop

theorem IsFront.unique {q : Queues} {queue : QueueName} {front front' : Option StoredFifoMessage}
    (h : q.IsFront queue front) (h' : q.IsFront queue front') : front = front' := by
  cases front with
  | none =>
      cases front' with
      | none => rfl
      | some m' =>
          have hnone := h m'.sequence
          rw [h'.1] at hnone
          cases hnone
  | some m =>
      cases front' with
      | none =>
          have hnone := h' m.sequence
          rw [h.1] at hnone
          cases hnone
      | some m' =>
          -- neither sequence is below the other, since something waits at both
          have hle : m'.sequence.toNat ≤ m.sequence.toNat := by
            by_contra hlt
            have hnone := h'.2 m.sequence (UInt64.lt_iff_toNat_lt.mpr (by omega))
            rw [h.1] at hnone
            cases hnone
          have hge : m.sequence.toNat ≤ m'.sequence.toNat := by
            by_contra hlt
            have hnone := h.2 m'.sequence (UInt64.lt_iff_toNat_lt.mpr (by omega))
            rw [h'.1] at hnone
            cases hnone
          have hsame : m.sequence = m'.sequence := UInt64.toNat_inj.mp (by omega)
          rw [← h.1, hsame, h'.1]

theorem FrontStep.unique {queue : QueueName} {messageId : MessageId} {action : FifoFrontAction}
    {r r' : Bool} {q q₁ q₂ : Queues} (h : FrontStep queue messageId action r q q₁)
    (h' : FrontStep queue messageId action r' q q₂) : r = r' ∧ q₁ = q₂ := by
  obtain ⟨front, hfront, hcase⟩ := h
  obtain ⟨front', hfront', hcase'⟩ := h'
  obtain rfl := hfront.unique hfront'
  rcases hcase with ⟨m, rfl, hid, rfl, rfl⟩ | ⟨hother, rfl, rfl⟩
  · rcases hcase' with ⟨m', hm', -, rfl, rfl⟩ | ⟨hother', -, -⟩
    · cases hm'
      exact ⟨rfl, rfl⟩
    · exact absurd hid (hother' m rfl)
  · rcases hcase' with ⟨m', hm', hid', -, -⟩ | ⟨-, rfl, rfl⟩
    · exact absurd hid' (hother m' hm')
    · exact ⟨rfl, rfl⟩

structure SameFifo (q q' : Queues) : Prop where
  last : q'.last = q.last
  waiting : q'.waiting = q.waiting

/-- Every waiting message is at its own place, at most the last sequence of its
queue. -/
structure WellFormed (q : Queues) : Prop where
  positioned : ∀ queue n m, q.waiting (queue, n) = some m → m.queue = queue ∧ m.sequence = n
  bounded : ∀ queue n m, q.waiting (queue, n) = some m → n.toNat ≤ (q.last queue).toNat
  positive : ∀ queue n m, q.waiting (queue, n) = some m → 0 < n.toNat

theorem wellFormed_empty : empty.WellFormed where
  positioned := fun _ _ _ h => by cases h
  bounded := fun _ _ _ h => by cases h
  positive := fun _ _ _ h => by cases h

theorem wellFormed_enqueue {q : Queues} (hq : q.WellFormed) (m : NewFifoMessage) (now : UInt64) :
    (q.enqueue m now).WellFormed := by
  have hsequence : (q.enqueued m now).sequence.toNat =
      min ((q.last m.queue).toNat + 1) (2 ^ 64 - 1) := UInt64.toNat_saturatingAdd_one _
  have hlt := (q.last m.queue).toNat_lt
  -- a message waiting afterwards is the new one or was there before
  have hcases : ∀ queue n m', (q.enqueue m now).waiting (queue, n) = some m' →
      (queue = m.queue ∧ n = (q.enqueued m now).sequence ∧ m' = q.enqueued m now) ∨
        q.waiting (queue, n) = some m' := by
    intro queue n m' h
    change Function.update q.waiting (m.queue, (q.enqueued m now).sequence) _ (queue, n) = _ at h
    rw [Function.update_apply] at h
    split_ifs at h with hplace
    · obtain ⟨rfl, rfl⟩ := Prod.mk.inj hplace
      exact Or.inl ⟨rfl, rfl, (Option.some.inj h).symm⟩
    · exact Or.inr h
  have hlast : ∀ queue, (q.last queue).toNat ≤ ((q.enqueue m now).last queue).toNat := by
    intro queue
    change _ ≤ (Function.update q.last m.queue _ queue).toNat
    rw [Function.update_apply]
    split_ifs with hqueue
    · rw [hqueue]
      omega
    · exact le_rfl
  constructor
  · intro queue n m' h
    rcases hcases queue n m' h with ⟨rfl, rfl, rfl⟩ | hold
    · exact ⟨rfl, rfl⟩
    · exact hq.positioned queue n m' hold
  · intro queue n m' h
    rcases hcases queue n m' h with ⟨rfl, rfl, rfl⟩ | hold
    · change _ ≤ (Function.update q.last m.queue _ m.queue).toNat
      rw [Function.update_self]
    · exact (hq.bounded queue n m' hold).trans (hlast queue)
  · intro queue n m' h
    rcases hcases queue n m' h with ⟨rfl, rfl, rfl⟩ | hold
    · omega
    · exact hq.positive queue n m' hold

theorem leaves_place {action : FifoFrontAction} {m m' : StoredFifoMessage}
    (h : action.leaves m = some m') :
    m'.queue = m.queue ∧ m'.sequence = m.sequence ∧ m'.id = m.id ∧ m'.topic = m.topic ∧
      m'.source = m.source ∧ m'.target = m.target := by
  cases action with
  | ack => cases h
  | reject =>
      cases h
      exact ⟨rfl, rfl, rfl, rfl, rfl, rfl⟩

theorem FrontStep.waiting {queue : QueueName} {messageId : MessageId} {action : FifoFrontAction}
    {r : Bool} {q q' : Queues} (h : FrontStep queue messageId action r q q') :
    ∀ a m', q'.waiting a = some m' → ∃ m, q.waiting a = some m ∧ m'.queue = m.queue ∧
      m'.sequence = m.sequence ∧ m'.id = m.id ∧ m'.topic = m.topic ∧
      m'.source = m.source ∧ m'.target = m.target := by
  intro a m' hm'
  obtain ⟨front, hfront, ⟨m, rfl, -, -, rfl⟩ | ⟨-, -, rfl⟩⟩ := h
  · change Function.update q.waiting (queue, m.sequence) (action.leaves m) a = some m' at hm'
    rw [Function.update_apply] at hm'
    split_ifs at hm' with ha
    · exact ⟨m, ha ▸ hfront.1, leaves_place hm'⟩
    · exact ⟨m', hm', rfl, rfl, rfl, rfl, rfl, rfl⟩
  · exact ⟨m', hm', rfl, rfl, rfl, rfl, rfl, rfl⟩

theorem FrontStep.last_eq {queue : QueueName} {messageId : MessageId} {action : FifoFrontAction}
    {r : Bool} {q q' : Queues} (h : FrontStep queue messageId action r q q') :
    q'.last = q.last ∧ q'.peers = q.peers := by
  obtain ⟨front, -, ⟨m, -, -, -, rfl⟩ | ⟨-, -, rfl⟩⟩ := h
  · exact ⟨rfl, rfl⟩
  · exact ⟨rfl, rfl⟩

theorem FrontStep.wellFormed {queue : QueueName} {messageId : MessageId}
    {action : FifoFrontAction} {r : Bool} {q q' : Queues}
    (h : FrontStep queue messageId action r q q') (hq : q.WellFormed) : q'.WellFormed where
  positioned := by
    intro queue' n m' hm'
    obtain ⟨m, hm, hqueue, hsequence, -⟩ := h.waiting _ m' hm'
    rw [hqueue, hsequence]
    exact hq.positioned queue' n m hm
  bounded := by
    intro queue' n m' hm'
    obtain ⟨m, hm, -⟩ := h.waiting _ m' hm'
    rw [h.last_eq.1]
    exact hq.bounded queue' n m hm
  positive := by
    intro queue' n m' hm'
    obtain ⟨m, hm, -⟩ := h.waiting _ m' hm'
    exact hq.positive queue' n m hm

theorem step_cases {env : CallEnv} {op : StoreOp} {r : op.Result} {q q' : Queues}
    (h : Step env op r q q') :
    (∃ m, op = .enqueueFifo m ∧ q' = q.enqueue m env.now) ∨
      (∃ queue messageId action done, FrontStep queue messageId action done q q') ∨
      (∃ state, op = .recordPeerSyncState state ∧ q' = q.record state) ∨ q' = q := by
  cases op with
  | enqueueFifo m => exact Or.inl ⟨m, rfl, h.2⟩
  | ackFifo queue messageId => exact Or.inr (Or.inl ⟨queue, messageId, .ack, r, h⟩)
  | rejectFifo queue messageId => exact Or.inr (Or.inl ⟨queue, messageId, .reject, r, h⟩)
  | recordPeerSyncState state => exact Or.inr (Or.inr (Or.inl ⟨state, rfl, h⟩))
  | peekFifo queue => exact Or.inr (Or.inr (Or.inr h.2))
  | listPeerSyncStates => exact Or.inr (Or.inr (Or.inr h.2.2))
  | _ => exact Or.inr (Or.inr (Or.inr h))

theorem step_wellFormed {env : CallEnv} {op : StoreOp} {r : op.Result} {q q' : Queues}
    (hq : q.WellFormed) (h : Step env op r q q') : q'.WellFormed := by
  rcases step_cases h with ⟨m, -, rfl⟩ | ⟨queue, messageId, action, done, hfront⟩ |
    ⟨state, -, rfl⟩ | rfl
  · exact wellFormed_enqueue hq m env.now
  · exact hfront.wellFormed hq
  · exact ⟨hq.positioned, hq.bounded, hq.positive⟩
  · exact hq

/-- A message that waits after a call is the one just enqueued or waited before,
from and for the same nodes. -/
theorem step_waiting {env : CallEnv} {op : StoreOp} {r : op.Result} {q q' : Queues}
    (h : Step env op r q q') {a : QueueName × UInt64} {m' : StoredFifoMessage}
    (hm' : q'.waiting a = some m') :
    (∃ m, q.waiting a = some m ∧ m'.source = m.source ∧ m'.target = m.target) ∨
      ∃ msg, op = .enqueueFifo msg ∧ m'.source = msg.source ∧ m'.target = msg.target := by
  rcases step_cases h with ⟨msg, hop, rfl⟩ | ⟨queue, messageId, action, done, hfront⟩ |
    ⟨state, -, rfl⟩ | rfl
  · change Function.update q.waiting _ _ a = some m' at hm'
    rw [Function.update_apply] at hm'
    split_ifs at hm' with ha
    · cases hm'
      exact Or.inr ⟨msg, hop, rfl, rfl⟩
    · exact Or.inl ⟨m', hm', rfl, rfl⟩
  · obtain ⟨m, hm, -, -, -, -, hsource, htarget⟩ := hfront.waiting a m' hm'
    exact Or.inl ⟨m, hm, hsource, htarget⟩
  · exact Or.inl ⟨m', hm', rfl, rfl⟩
  · exact Or.inl ⟨m', hm', rfl, rfl⟩

theorem step_last_le {env : CallEnv} {op : StoreOp} {r : op.Result} {q q' : Queues}
    (h : Step env op r q q') (queue : QueueName) :
    (q'.last queue).toNat ≤ (q.last queue).toNat + 1 := by
  rcases step_cases h with ⟨m, -, rfl⟩ | ⟨queue', messageId, action, done, hfront⟩ |
    ⟨state, -, rfl⟩ | rfl
  · change (Function.update q.last m.queue ((q.last m.queue).saturatingAdd 1) queue).toNat ≤ _
    rw [Function.update_apply]
    split_ifs with hqueue
    · rw [hqueue, UInt64.toNat_saturatingAdd_one]
      exact Nat.min_le_left _ _
    · exact Nat.le_succ _
  · rw [hfront.last_eq.1]
    exact Nat.le_succ _
  · exact Nat.le_succ _
  · exact Nat.le_succ _

theorem paired_of_step {env : CallEnv} {op : StoreOp} {r : op.Result} {q q' : Queues}
    (hq : q.Paired) (hop : op.Paired) (h : Step env op r q q') : q'.Paired := by
  rcases step_cases h with ⟨m, -, rfl⟩ | ⟨queue, messageId, action, done, hfront⟩ |
    ⟨state, rfl, rfl⟩ | rfl
  · exact hq
  · intro a other hother
    rw [hfront.last_eq.2] at hother
    exact hq a other hother
  · intro a other hother
    change Function.update q.peers state.address _ a = some other at hother
    rw [Function.update_apply] at hother
    split_ifs at hother
    · cases hother
      exact PeerSyncState.countFailures_paired hop _
    · exact hq a other hother
  · exact hq

end Queues

end Msgbus
