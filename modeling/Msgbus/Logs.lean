import Msgbus.Formats
import Msgbus.Store
import Mathlib.Logic.Function.Basic

/-!
# The logs a store holds

What a store is for, without its tables: a partial map from positions of logs
to messages, the head of each log and the tombstone ranges recorded for it.
`Logs.Step` says what each store call may do to them, and `Logs.WellFormed` is
what every call preserves.  Both backends are shown to refine this model, so
everything proved here holds of either.
-/

namespace Msgbus

@[ext] structure Logs where
  head : LogKey → Option UInt64
  message : LogKey → UInt64 → Option StoredMessage
  tombstone : LogKey → UInt64 → UInt64 → Prop

namespace Logs

def empty : Logs := ⟨fun _ => none, fun _ _ => none, fun _ _ _ => False⟩

def current (b : Logs) (k : LogKey) : UInt64 := (b.head k).getD 0

def Covers (b : Logs) (k : LogKey) (n : UInt64) : Prop :=
  ∃ first last, b.tombstone k first last ∧ first ≤ n ∧ n ≤ last

def write (b : Logs) (k : LogKey) (n : UInt64) (m : StoredMessage) : Logs where
  head := Function.update b.head k (some (max (b.current k) n))
  message := Function.update b.message k (Function.update (b.message k) n (some m))
  tombstone := b.tombstone

def markRange (first last : UInt64) (entries : UInt64 → Option StoredMessage) (n : UInt64) :
    Option StoredMessage :=
  if first ≤ n ∧ n ≤ last then (entries n).map (·.withDeleted true) else entries n

def mark (b : Logs) (k : LogKey) (first last : UInt64) : Logs where
  head := b.head
  message := Function.update b.message k (markRange first last (b.message k))
  tombstone := fun k' f l => b.tombstone k' f l ∨ (k' = k ∧ f = first ∧ l = last)

def log (b : Logs) (k : LogKey) : List StoredMessage :=
  (List.range (b.current k).toNat).filterMap fun i => b.message k (UInt64.ofNat (i + 1))

def window (b : Logs) (k : LogKey) (first : UInt64) (limit : Nat) : List StoredMessage :=
  ((b.log k).drop (first.toNat - 1)).take limit

def unmarked (b : Logs) (k : LogKey) (first last : UInt64) : List StoredMessage :=
  (b.log k).filter fun m => first ≤ m.headId ∧ m.headId ≤ last ∧ m.deleted = false

open scoped Classical in
/-- A message as a store keeps it: flagged if a recorded range covers it. -/
noncomputable def stamp (b : Logs) (m : StoredMessage) : StoredMessage :=
  m.withDeleted (m.deleted || decide (b.Covers m.log m.headId))

noncomputable def appended (b : Logs) (m : NewMessage) (now : UInt64) : StoredMessage :=
  b.stamp
    { id := m.id
      topic := m.topic
      origin := m.origin
      headId := (b.current (LogKey.of m.topic m.origin)).saturatingAdd 1
      payload := m.payload
      headers := m.headers
      createdAtMs := now
      deleted := false }

noncomputable def append (b : Logs) (m : NewMessage) (now : UInt64) : Logs :=
  b.write (LogKey.of m.topic m.origin) (b.appended m now).headId (b.appended m now)

def marker [Formats] (topic : Topic) (origin : NodeId) (first last : HeadId)
    (markerTopic : Topic) (markerOrigin : NodeId) (env : CallEnv) : NewMessage :=
  ⟨env.id, markerTopic, markerOrigin,
    Formats.tombstoneRange.encode ⟨topic, origin, first, last, env.now⟩, .empty⟩

/-- A head as `list_heads` reports it: the topic and origin of the message at
the head of a log. -/
def IsHead (b : Logs) (h : TopicHead) : Prop :=
  ∃ k m, b.head k = some h.headId ∧ b.message k h.headId = some m ∧
    h.topic = m.topic ∧ h.origin = m.origin

def PutStep (m : StoredMessage) (r : ReplicateResult) (b b' : Logs) : Prop :=
  match r with
  | .alreadyPresent => b.message m.log m.headId = some (b.stamp m) ∧ b' = b
  | .inserted =>
      b' = b.write m.log m.headId (b.stamp m) ∧
        ((b.message m.log m.headId = none ∧
            m.headId.toNat ≤ ((b.current m.log).saturatingAdd 1).toNat) ∨
          ∃ old, b.message m.log m.headId = some old ∧ old ≠ b.stamp m ∧
            b.stamp m = old.withDeleted true)

def Step [Formats] (env : CallEnv) : (op : StoreOp) → op.Result → Logs → Logs → Prop
  | .appendMessage m, r, b, b' => r = b.appended m env.now ∧ b' = b.append m env.now
  | .fetchMessages q, r, b, b' =>
      r = b.window (LogKey.of q.topic q.origin) q.fromHeadId (effectiveLimit q.limit) ∧ b' = b
  | .getHead topic origin, r, b, b' => r = b.head (LogKey.of topic origin) ∧ b' = b
  | .listHeads, (r : List TopicHead), b, b' => r.Nodup ∧ (∀ h, h ∈ r ↔ b.IsHead h) ∧ b' = b
  | .putReplicatedMessage m, r, b, b' => m.headId ≠ 0 ∧ PutStep m r b b'
  | .tombstoneRange topic origin first last, (r : UInt64), b, b' =>
      first ≤ last ∧ r.toNat = (b.unmarked (LogKey.of topic origin) first last).length ∧
        b' = b.mark (LogKey.of topic origin) first last
  | .tombstoneRangeWithMarker topic origin first last markerTopic markerOrigin,
      (r : UInt64 × StoredMessage), b, b' =>
      let marked := b.mark (LogKey.of topic origin) first last
      let message := marker topic origin first last markerTopic markerOrigin env
      first ≤ last ∧ r.1.toNat = (b.unmarked (LogKey.of topic origin) first last).length ∧
        r.2 = marked.appended message env.later ∧ b' = marked.append message env.later
  | .enqueueFifo _, _, b, b' => b' = b
  | .peekFifo _, _, b, b' => b' = b
  | .ackFifo _ _, _, b, b' => b' = b
  | .rejectFifo _ _, _, b, b' => b' = b
  | .recordPeerSyncState _, _, b, b' => b' = b
  | .listPeerSyncStates, _, b, b' => b' = b

open scoped Classical in
/-- The kind of error with which a call is refused because of its arguments and
the logs, `none` when they give no reason to. -/
noncomputable def refuses (b : Logs) : StoreOp → Option ErrorKind
  | .putReplicatedMessage m =>
      if m.headId = 0 then some .invalidArgument
      else
        match b.message m.log m.headId with
        | some old =>
            if old = b.stamp m ∨ b.stamp m = old.withDeleted true then none
            else some .conflict
        | none =>
            if (b.current m.log).saturatingAdd 1 < m.headId then some .invalidArgument else none
  | .tombstoneRange _ _ first last => if last < first then some .invalidArgument else none
  | .tombstoneRangeWithMarker _ _ first last _ _ =>
      if last < first then some .invalidArgument else none
  | _ => none

/-- The positions that hold a message are exactly `1` to the head, each message
carries its own address, and a covered message is flagged. -/
structure WellFormed (b : Logs) : Prop where
  head_pos : ∀ k h, b.head k = some h → 0 < h.toNat
  contiguous : ∀ k n, (b.message k n).isSome ↔ 0 < n.toNat ∧ n.toNat ≤ (b.current k).toNat
  positioned : ∀ k n m, b.message k n = some m → m.headId = n ∧ m.log = k
  covered : ∀ k n m, b.message k n = some m → b.Covers k n → m.deleted = true

end Logs

end Msgbus
