import Msgbus.Lib.Saturating
import Msgbus.Server.Service

/-!
# Subscriptions

`subscribe` takes a receiver of the broadcast channel first, fetches the stored
messages then, and leaves a task that forwards both: the replay as it is, and
from the channel what is of the log and beyond what was sent.  The channel is the
list of all broadcasts so far; a receiver is a position in it.
-/

namespace Msgbus

def defaultReplayLimit : UInt32 := 100

/-- The capacity of the broadcast channel: a receiver that is further behind has
lost messages. -/
def channelCapacity : Nat := 1024

def subscribeQuery (node : NodeId) (request : Pb.SubscribeRequest) : Except Status FetchQuery := do
  let topic ← (Topic.new request.topic).mapError statusFromError
  let origin ← requestOrigin node request.origin
  return ⟨topic, origin, max request.fromHeadId 1,
    if request.replayLimit = 0 then defaultReplayLimit else request.replayLimit⟩

/-- Where a subscription is: it waits for the replay, forwards what is left of it
and after that the channel, or has ended, with a status unless the client or the
daemon closed the stream. -/
inductive SubscribePhase where
  | fetching
  | forwarding (replay : List StoredMessage)
  | ended (status : Option Status)
  deriving DecidableEq

/-- One stream: its request, the position of its receiver, `last_sent` and what
it has sent to its client. -/
structure SubscribeStream where
  query : FetchQuery
  cursor : Nat
  phase : SubscribePhase
  lastSent : UInt64
  delivered : List StoredMessage

namespace SubscribeStream

/-- `published.subscribe()`: a receiver starts at the end of the channel. -/
def subscribe (query : FetchQuery) (channel : List StoredMessage) : SubscribeStream where
  query := query
  cursor := channel.length
  phase := .fetching
  lastSent := query.fromHeadId.saturatingSub 1
  delivered := []

variable (t : SubscribeStream)

def replayed (m : StoredMessage) (rest : List StoredMessage) : SubscribeStream :=
  { t with
    phase := .forwarding rest
    lastSent := max t.lastSent m.headId
    delivered := t.delivered ++ [m] }

def Concerns (m : StoredMessage) : Prop := m.topic = t.query.topic ∧ m.origin = t.query.origin

instance instDecidableConcerns (m : StoredMessage) : Decidable (t.Concerns m) :=
  inferInstanceAs (Decidable (_ ∧ _))

/-- Take one message of the channel and send it if it is of the log and beyond
what was sent. -/
def received (m : StoredMessage) : SubscribeStream :=
  if t.Concerns m ∧ t.lastSent < m.headId then
    { t with cursor := t.cursor + 1, lastSent := m.headId, delivered := t.delivered ++ [m] }
  else
    { t with cursor := t.cursor + 1 }

theorem received_of_wanted {m : StoredMessage} (h : t.Concerns m ∧ t.lastSent < m.headId) :
    t.received m = { t with
      cursor := t.cursor + 1
      lastSent := m.headId
      delivered := t.delivered ++ [m] } :=
  if_pos h

theorem received_of_not_wanted {m : StoredMessage} (h : ¬ (t.Concerns m ∧ t.lastSent < m.headId)) :
    t.received m = { t with cursor := t.cursor + 1 } :=
  if_neg h

def ended (status : Option Status) : SubscribeStream := { t with phase := .ended status }

def log : LogKey := LogKey.of t.query.topic t.query.origin

inductive Step (fetched : FetchQuery → Except MsgbusError (List StoredMessage) → Prop)
    (channel : List StoredMessage) : SubscribeStream → SubscribeStream → Prop where
  | fetched {t : SubscribeStream} {messages : List StoredMessage} (hphase : t.phase = .fetching)
      (h : fetched t.query (.ok messages)) :
      Step fetched channel t { t with phase := .forwarding messages }
  | refused {t : SubscribeStream} {e : MsgbusError} (hphase : t.phase = .fetching)
      (h : fetched t.query (.error e)) :
      Step fetched channel t (t.ended (some (statusFromError e)))
  | replay {t : SubscribeStream} {m : StoredMessage} {rest : List StoredMessage}
      (hphase : t.phase = .forwarding (m :: rest)) : Step fetched channel t (t.replayed m rest)
  | live {t : SubscribeStream} {m : StoredMessage} (hphase : t.phase = .forwarding [])
      (hkept : channel.length ≤ t.cursor + channelCapacity) (h : channel[t.cursor]? = some m) :
      Step fetched channel t (t.received m)
  | lagged {t : SubscribeStream} (text : String) (hphase : t.phase = .forwarding [])
      (hlost : t.cursor + channelCapacity < channel.length) :
      Step fetched channel t (t.ended (some (.unavailable ("subscription lagged: " ++ text))))
  | closed (t : SubscribeStream) : Step fetched channel t (t.ended none)

end SubscribeStream

end Msgbus
