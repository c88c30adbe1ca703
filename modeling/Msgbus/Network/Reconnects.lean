import Msgbus.Network.Publishers
import Msgbus.Sdk

/-!
# Reconnecting subscriptions

A client of either SDK consumes a log while the daemons publish.  Its stream may
end, lag or fail at any point, with responses on their way, and is opened again
from the position after the last message returned.  A replay that is cut by its
limit loses nothing by itself: the rest is fetched when the stream is opened again.
It is lost when the stream goes on to the channel.
-/

namespace Msgbus

namespace Network

open System Program

variable {ι : Type} [DecidableEq ι] [Formats] {N : Network ι}

/-! ## A client among the daemons -/

/-- A stream of a client: how many of its responses were taken, and the head of its
log when it was opened. -/
structure Link where
  stream : SubscribeStream
  taken : Nat
  opened : Nat

structure Consumer (N : Network ι) where
  daemons : State ι (N.Stores × List (Event ι Command Command.Answer)) Command Command.Answer
  client : ResilientSubscription
  link : Option Link
  returned : List Pb.MessageEnvelope

/-- One step of the daemons, of the stream at daemon `i`, or of the client.  An open
that fails is a stream that is lost before its first response. -/
inductive Consumes (N : Network ι)
    (sys : System ι (N.Stores × List (Event ι Command Command.Answer)) Command Command.Answer)
    (sdk : Sdk) (defaultOrigin : Option Pb.NodeId) (i : ι) : N.Consumer → N.Consumer → Prop where
  | daemons {x : N.Consumer}
      {b : State ι (N.Stores × List (Event ι Command Command.Answer)) Command Command.Answer}
      (h : sys.Step x.daemons b) : Consumes N sys sdk defaultOrigin i x { x with daemons := b }
  | opened {x : N.Consumer} {query : FetchQuery} (hclosed : x.client.connected = false)
      (h : subscribeQuery (N.node i) (sdk.request defaultOrigin x.client) = .ok query) :
      Consumes N sys sdk defaultOrigin i x { x with
        client := { x.client with connected := true }
        link := some ⟨.subscribe query (broadcasts i x.daemons.shared.2), 0,
          N.headAt x.daemons.shared.1 i (LogKey.of query.topic query.origin)⟩ }
  | stream {x : N.Consumer} {l : Link} {u : SubscribeStream} (hlink : x.link = some l)
      (h : l.stream.Step (N.Fetches i x.daemons.shared.1) (broadcasts i x.daemons.shared.2) u) :
      Consumes N sys sdk defaultOrigin i x { x with link := some { l with stream := u } }
  | returns {x : N.Consumer} {l : Link} {m : StoredMessage} {client : ResilientSubscription}
      {message : Pb.MessageEnvelope} (hopen : x.client.connected = true) (hlink : x.link = some l)
      (hnext : l.stream.delivered[l.taken]? = some m)
      (h : sdk.receive x.client (.response (some (protoMessage m))) = (client, some (.ok message))) :
      Consumes N sys sdk defaultOrigin i x { x with
        client := client
        link := some { l with taken := l.taken + 1 }
        returned := x.returned ++ [message] }
  | lost {x : N.Consumer} {item : StreamItem} {client : ResilientSubscription}
      (hopen : x.client.connected = true) (h : sdk.receive x.client item = (client, none)) :
      Consumes N sys sdk defaultOrigin i x { x with client := client, link := none }

/-- Daemons that publish, of which daemon `i` broadcasts what it commits in order. -/
def broadcastingInOrder (N : Network ι) (i : ι) :
    System ι (N.Stores × List (Event ι Command Command.Answer)) Command Command.Answer :=
  N.publishing.traced.restrict fun j s c answer => ∀ k, N.InCommitOrder i k 0 j s c answer

/-- No stream is opened once the last position of all was returned. -/
def OpensBelowLast (x y : N.Consumer) : Prop :=
  x.client.connected = false → y.client.connected = true →
    ∀ message ∈ x.returned, message.headId ≠ UInt64.maxValue

/-- No message of the channel is sent past one that was stored when the stream was
opened and that its replay left out. -/
def ForwardsWithoutPassing (x y : N.Consumer) : Prop :=
  ∀ l l' m, x.link = some l → y.link = some l' → l.stream.phase = .forwarding [] →
    l'.stream.delivered = l.stream.delivered ++ [m] → ¬ l.stream.Passes l.opened m

def Resumes (N : Network ι) (sdk : Sdk) (defaultOrigin : Option Pb.NodeId) (i : ι)
    (x y : N.Consumer) : Prop :=
  N.Consumes (N.broadcastingInOrder i) sdk defaultOrigin i x y ∧ OpensBelowLast x y ∧
    ForwardsWithoutPassing x y

/-! ## What a client has returned -/

omit [DecidableEq ι] in
theorem Fetches.heads {i : ι} {s : N.Stores} {query : FetchQuery} {messages : List StoredMessage}
    (hs : N.Inv s) (hfirst : 1 ≤ query.fromHeadId.toNat) (h : N.Fetches i s query (.ok messages)) :
    messages.map (·.headId.toNat) = List.range' query.fromHeadId.toNat messages.length := by
  have hheads := Logs.map_headId_window (k := LogKey.of query.topic query.origin)
    (wellFormed_view hs i) hfirst (effectiveLimit query.limit)
  rw [← h.eq_window hs] at hheads
  have hlength := congrArg List.length hheads
  rw [List.length_map, List.length_range'] at hlength
  rw [hheads, hlength]

structure Linked (N : Network ι) (s₀ : N.Stores) (i : ι) (next : Nat)
    (s : N.Stores × List (Event ι Command Command.Answer)) (l : Link) : Prop where
  started : N.headAt s₀ i l.stream.log ≤ l.opened
  follows : N.Follows l.opened i s l.stream
  position : l.stream.query.fromHeadId.toNat + l.taken = next

/-- What was returned are the positions from the first one on, and the client resumes
after them unless they reach the end of the log. -/
structure Consecutive (N : Network ι) (s₀ : N.Stores) (i : ι) (first : Nat) (x : N.Consumer) :
    Prop where
  recorded : N.Recorded s₀ x.daemons
  inOrder : ∀ topic origin,
    N.InOrder i topic origin (N.headAt s₀ i (LogKey.of topic origin)) x.daemons.shared
  positive : 1 ≤ first
  heads : x.returned.map (·.headId.toNat) = List.range' first x.returned.length
  resume : first + x.returned.length < 2 ^ 64 →
    x.client.nextHeadId.toNat = first + x.returned.length
  linked : ∀ l, x.link = some l → N.Linked s₀ i (first + x.returned.length) x.daemons.shared l

section Steps

variable {s₀ : N.Stores} {i : ι} {first : Nat} {x : N.Consumer}

theorem Consecutive.daemons (h : N.Consecutive s₀ i first x)
    {b : State ι (N.Stores × List (Event ι Command Command.Answer)) Command Command.Answer}
    (hstep : (N.broadcastingInOrder i).Step x.daemons b) :
    N.Consecutive s₀ i first { x with daemons := b } where
  recorded := recorded_step h.recorded hstep.of_restrict
  inOrder := by
    intro topic origin
    refine (h.inOrder topic origin).step h.recorded (Nat.le_refl _) ?_
    refine hstep.weaken (fun _ _ hstart => hstart) ?_
    rintro j s c answer s' ⟨horder, hanswer⟩
    exact ⟨(horder _).raise (Nat.zero_le _), hanswer⟩
  positive := h.positive
  heads := h.heads
  resume := h.resume
  linked := by
    intro l hlink
    have hlinked := h.linked l hlink
    exact ⟨hlinked.started, hlinked.follows.daemons h.recorded.1.inv hstep.of_restrict,
      hlinked.position⟩

omit [DecidableEq ι] [Formats] in
theorem lt_of_returned {returned : List Pb.MessageEnvelope} (hfirst : first < 2 ^ 64)
    (hheads : returned.map (·.headId.toNat) = List.range' first returned.length)
    (hbelow : ∀ message ∈ returned, message.headId ≠ UInt64.maxValue) :
    first + returned.length < 2 ^ 64 := by
  rcases List.eq_nil_or_concat returned with rfl | ⟨front, last, rfl⟩
  · exact hfirst
  · rw [List.concat_eq_append] at hheads hbelow ⊢
    rw [List.map_append, List.length_append, List.length_singleton, List.range'_1_concat] at hheads
    have hlast := List.append_inj_right' hheads rfl
    have hposition : last.headId.toNat = first + front.length := (List.cons.inj hlast).1
    have hne := hbelow last (List.mem_append_right _ (List.mem_singleton_self last))
    have hlt := UInt64.toNat_lt last.headId
    have hmax : last.headId.toNat ≠ 2 ^ 64 - 1 := fun h => hne (UInt64.toNat_inj.mp h)
    rw [List.length_append, List.length_singleton]
    omega

theorem Consecutive.opened (h : N.Consecutive s₀ i first x) (hfirst : first < 2 ^ 64)
    (hbelow : ∀ message ∈ x.returned, message.headId ≠ UInt64.maxValue) {sdk : Sdk}
    {defaultOrigin : Option Pb.NodeId} {query : FetchQuery}
    (hquery : subscribeQuery (N.node i) (sdk.request defaultOrigin x.client) = .ok query) :
    N.Consecutive s₀ i first { x with
      client := { x.client with connected := true }
      link := some ⟨.subscribe query (broadcasts i x.daemons.shared.2), 0,
        N.headAt x.daemons.shared.1 i (LogKey.of query.topic query.origin)⟩ } where
  recorded := h.recorded
  inOrder := h.inOrder
  positive := h.positive
  heads := h.heads
  resume := h.resume
  linked := by
    rintro l ⟨⟩
    have hresume := h.resume (lt_of_returned hfirst h.heads hbelow)
    have hfrom : query.fromHeadId.toNat = first + x.returned.length := by
      have hpos := h.positive
      have hrequest := sdk.request_fromHeadId defaultOrigin x.client
      rw [subscribeQuery_fromHeadId hquery, UInt64.toNat_max, UInt64.toNat_one, hrequest, hresume]
      omega
    have hquery_pos : 1 ≤ query.fromHeadId.toNat := by
      rw [hfrom]
      exact Nat.le_trans h.positive (Nat.le_add_right _ _)
    exact ⟨h.recorded.1.grown i _, follows_subscribe hquery_pos h.recorded.1, hfrom⟩

theorem Consecutive.stream (h : N.Consecutive s₀ i first x) {l : Link} {u : SubscribeStream}
    (hlink : x.link = some l)
    (hstep : l.stream.Step (N.Fetches i x.daemons.shared.1) (broadcasts i x.daemons.shared.2) u)
    (hpasses : ∀ m, l.stream.phase = .forwarding [] → u.delivered = l.stream.delivered ++ [m] →
      ¬ l.stream.Passes l.opened m) :
    N.Consecutive s₀ i first { x with link := some { l with stream := u } } where
  recorded := h.recorded
  inOrder := h.inOrder
  positive := h.positive
  heads := h.heads
  resume := h.resume
  linked := by
    rintro l' ⟨⟩
    obtain ⟨hstarted, hfollows, hposition⟩ := h.linked l hlink
    refine ⟨?_, ?_, ?_⟩
    · rw [hstep.log_eq]
      exact hstarted
    · unfold Follows
      rw [hstep.log_eq]
      have hinOrder := Orderly.raise (h.inOrder l.stream.query.topic l.stream.query.origin) hstarted
        hfollows.base_le
      refine SubscribeStream.Gapless.step hinOrder ?_ ?_ hfollows hstep
      · exact fun messages hpage => hpage.heads h.recorded.1.inv hfollows.positive
      · exact fun m hphase _ _ hdelivered => hpasses m hphase hdelivered
    · rw [hstep.query_eq]
      exact hposition

theorem Consecutive.returns (h : N.Consecutive s₀ i first x) {sdk : Sdk} {l : Link}
    {m : StoredMessage} {client : ResilientSubscription} {message : Pb.MessageEnvelope}
    (hlink : x.link = some l) (hnext : l.stream.delivered[l.taken]? = some m)
    (hreceive : sdk.receive x.client (.response (some (protoMessage m))) =
      (client, some (.ok message))) :
    N.Consecutive s₀ i first { x with
      client := client
      link := some { l with taken := l.taken + 1 }
      returned := x.returned ++ [message] } := by
  obtain ⟨hstarted, hfollows, hposition⟩ := h.linked l hlink
  have htaken := (List.getElem?_eq_some_iff.mp hnext).1
  have hhead : m.headId.toNat = first + x.returned.length := by
    have hget := congrArg (fun heads => heads[l.taken]?) hfollows.delivered_heads
    rw [List.getElem?_map, hnext, List.getElem?_range' htaken] at hget
    simpa [hposition] using hget
  obtain ⟨resumed, hreturned, hresumed⟩ := sdk.receive_response (c := x.client) (protoMessage m)
  rw [hreturned] at hreceive
  cases hreceive
  have hlength : (x.returned ++ [protoMessage m]).length = x.returned.length + 1 :=
    List.length_append
  refine ⟨h.recorded, h.inOrder, h.positive, ?_, ?_, ?_⟩
  · change (x.returned ++ [protoMessage m]).map _ = List.range' first (_ ++ [_]).length
    rw [hlength, List.map_append, h.heads, List.range'_1_concat, ← hhead]
    rfl
  · change first + (x.returned ++ [protoMessage m]).length < _ → resumed.toNat = first + _
    rw [hlength]
    intro hlt
    have hresume : resumed.toNat = m.headId.toNat + 1 := hresumed (by
      change m.headId.toNat + 1 < _
      omega)
    omega
  · rintro l' ⟨⟩
    refine ⟨hstarted, hfollows, ?_⟩
    change l.stream.query.fromHeadId.toNat + (l.taken + 1) =
      first + (x.returned ++ [protoMessage m]).length
    rw [hlength]
    omega

theorem Consecutive.lost (h : N.Consecutive s₀ i first x) {sdk : Sdk} {item : StreamItem}
    {client : ResilientSubscription} (hreceive : sdk.receive x.client item = (client, none)) :
    N.Consecutive s₀ i first { x with client := client, link := none } := by
  rw [sdk.receive_none hreceive]
  refine ⟨h.recorded, h.inOrder, h.positive, h.heads, h.resume, ?_⟩
  intro l hlink
  cases hlink

theorem Consecutive.step (h : N.Consecutive s₀ i first x) (hfirst : first < 2 ^ 64) {sdk : Sdk}
    {defaultOrigin : Option Pb.NodeId} {y : N.Consumer}
    (hstep : N.Resumes sdk defaultOrigin i x y) : N.Consecutive s₀ i first y := by
  obtain ⟨hstep, hopens, hforwards⟩ := hstep
  cases hstep with
  | daemons hdaemons => exact h.daemons hdaemons
  | opened hclosed hquery => exact h.opened hfirst (hopens hclosed rfl) hquery
  | stream hlink hstream =>
      exact h.stream hlink hstream fun m hphase hdelivered =>
        hforwards _ _ m hlink rfl hphase hdelivered
  | returns hopen hlink hnext hreceive => exact h.returns hlink hnext hreceive
  | lost hopen hreceive => exact h.lost hreceive

end Steps

/-- In every run in which publishes broadcast in commit order, no stream passes the
backlog that its replay left out and none is opened after the last position of all,
the client returns the positions from the first one asked for on. -/
theorem returned_consecutive {s₀ : N.Stores} (hs : ∀ j, Reachable (s₀ j)) {i : ι} {sdk : Sdk}
    {defaultOrigin : Option Pb.NodeId} {topic : String} {options : SubscribeOptions}
    {x : N.Consumer}
    (hrun : Relation.ReflTransGen (N.Resumes sdk defaultOrigin i)
      ⟨.init (s₀, []), sdk.subscription defaultOrigin topic options, none, []⟩ x) :
    x.returned.map (·.headId.toNat) =
      List.range' (max options.fromHeadId 1).toNat x.returned.length := by
  have hinvariant : N.Consecutive s₀ i (max options.fromHeadId 1).toNat x := by
    induction hrun with
    | refl =>
        constructor
        · exact recorded_init hs
        · exact fun _ _ => .of_le fun m hm => by cases hm
        · rw [UInt64.toNat_max]
          exact Nat.le_max_right _ _
        · rfl
        · intro _
          exact congrArg UInt64.toNat (sdk.subscription_nextHeadId defaultOrigin topic options)
        · intro l hlink
          cases hlink
    | tail _ hstep ih => exact ih.step (UInt64.toNat_lt _) hstep
  exact hinvariant.heads

/-! ## A backlog beyond the limit -/

section Resuming

variable {sdk : Sdk} {i : ι} {defaultOrigin : Option Pb.NodeId}
variable {a b : State ι (N.Stores × List (Event ι Command Command.Answer)) Command Command.Answer}

variable (sdk defaultOrigin) in
theorem resumes_of_reaches (h : (N.broadcastingInOrder i).Reaches a b)
    (client : ResilientSubscription) (link : Option Link) (returned : List Pb.MessageEnvelope) :
    Relation.ReflTransGen (N.Resumes sdk defaultOrigin i) ⟨a, client, link, returned⟩
      ⟨b, client, link, returned⟩ := by
  induction h with
  | refl => exact .refl
  | tail _ hstep ih =>
      refine ih.tail ⟨.daemons hstep, ?_, ?_⟩
      · intro hclosed hopen
        cases hclosed.symm.trans hopen
      · rintro l l' m hl hl' - hdelivered
        cases hl.symm.trans hl'
        exact absurd hdelivered (by simp)

variable {x : N.Consumer} {l : Link}

theorem resumes_opened {query : FetchQuery} (hclosed : x.client.connected = false)
    (hnone : x.link = none) (hbelow : ∀ message ∈ x.returned, message.headId ≠ UInt64.maxValue)
    (h : subscribeQuery (N.node i) (sdk.request defaultOrigin x.client) = .ok query) :
    N.Resumes sdk defaultOrigin i x { x with
      client := { x.client with connected := true }
      link := some ⟨.subscribe query (broadcasts i x.daemons.shared.2), 0,
        N.headAt x.daemons.shared.1 i (LogKey.of query.topic query.origin)⟩ } := by
  refine ⟨.opened hclosed h, fun _ _ => hbelow, ?_⟩
  intro l l' m hl
  cases hnone.symm.trans hl

theorem resumes_stream {u : SubscribeStream} (hlink : x.link = some l)
    (hstep : l.stream.Step (N.Fetches i x.daemons.shared.1) (broadcasts i x.daemons.shared.2) u)
    (hpasses : ∀ m, l.stream.phase = .forwarding [] → u.delivered = l.stream.delivered ++ [m] →
      ¬ l.stream.Passes l.opened m) :
    N.Resumes sdk defaultOrigin i x { x with link := some { l with stream := u } } := by
  refine ⟨.stream hlink hstep, ?_, ?_⟩
  · intro hclosed hopen
    cases hclosed.symm.trans hopen
  · rintro l₁ l₂ m hl₁ ⟨⟩ hphase hdelivered
    cases hlink.symm.trans hl₁
    exact hpasses m hphase hdelivered

theorem resumes_returns {m : StoredMessage} {client : ResilientSubscription}
    {message : Pb.MessageEnvelope} (hopen : x.client.connected = true) (hlink : x.link = some l)
    (hnext : l.stream.delivered[l.taken]? = some m)
    (h : sdk.receive x.client (.response (some (protoMessage m))) = (client, some (.ok message))) :
    N.Resumes sdk defaultOrigin i x { x with
      client := client
      link := some { l with taken := l.taken + 1 }
      returned := x.returned ++ [message] } := by
  refine ⟨.returns hopen hlink hnext h, ?_, ?_⟩
  · intro hclosed
    cases hclosed.symm.trans hopen
  · rintro l₁ l₂ m' hl₁ ⟨⟩ - hdelivered
    cases hlink.symm.trans hl₁
    exact absurd hdelivered (by simp)

theorem resumes_lost {item : StreamItem} {client : ResilientSubscription}
    (hopen : x.client.connected = true) (h : sdk.receive x.client item = (client, none)) :
    N.Resumes sdk defaultOrigin i x { x with client := client, link := none } := by
  refine ⟨.lost hopen h, ?_, ?_⟩
  · intro hclosed
    cases hclosed.symm.trans hopen
  · rintro l₁ l₂ m' - ⟨⟩

theorem consumes_of_resumes {x y : N.Consumer}
    (h : Relation.ReflTransGen (N.Resumes sdk defaultOrigin i) x y) :
    Relation.ReflTransGen (N.Consumes (N.broadcastingInOrder i) sdk defaultOrigin i) x y :=
  Relation.ReflTransGen.mono (fun _ _ hstep => hstep.1) _ _ h

end Resuming

def oneByOne (next : UInt64) (connected : Bool) : ResilientSubscription :=
  ⟨"t", none, next, 1, connected⟩

def oneSent (m : StoredMessage) (cursor : Nat) : SubscribeStream where
  query := ⟨⟨"t"⟩, solo.node (), m.headId, 1⟩
  cursor := cursor
  phase := .forwarding []
  lastSent := max (m.headId.saturatingSub 1) m.headId
  delivered := [m]

omit [Formats] in
theorem lastSent_oneSent (m : StoredMessage) (cursor : Nat) :
    (oneSent m cursor).lastSent.toNat = m.headId.toNat := by
  change (max (m.headId.saturatingSub 1) m.headId).toNat = _
  rw [UInt64.toNat_max, UInt64.toNat_saturatingSub]
  omega

omit [Formats] in
theorem subscription_oneByOne (sdk : Sdk) :
    sdk.subscription none "t" ⟨none, 1, 1⟩ = oneByOne 1 false := by
  cases sdk with
  | rust => rfl
  | go => rfl

omit [Formats] in
theorem request_oneByOne (sdk : Sdk) {next : UInt64} (hpos : 1 ≤ next.toNat) :
    sdk.request none (oneByOne next false) = ⟨"t", none, next, 1⟩ := by
  cases sdk with
  | rust => rfl
  | go =>
      have hne : next ≠ 0 := by
        rintro rfl
        cases hpos
      change (⟨"t", none, if next = 0 then 1 else next, 1⟩ : Pb.SubscribeRequest) = _
      rw [if_neg hne]

omit [Formats] in
theorem receive_finished_oneByOne (sdk : Sdk) (next : UInt64) :
    sdk.receive (oneByOne next true) .finished = (oneByOne next false, none) := by
  cases sdk with
  | rust => rfl
  | go => rfl

theorem exists_returned {sdk : Sdk} {s : solo.Stores} {m : StoredMessage}
    {returned : List Pb.MessageEnvelope} (hpos : 1 ≤ m.headId.toNat)
    (hroom : m.headId.toNat + 1 < 2 ^ 64)
    (hbelow : ∀ message ∈ returned, message.headId ≠ UInt64.maxValue)
    (hpage : solo.Fetches () s ⟨⟨"t"⟩, solo.node (), m.headId, 1⟩ (.ok [m])) :
    ∃ next : UInt64, next.toNat = m.headId.toNat + 1 ∧
      Relation.ReflTransGen (solo.Resumes sdk none ())
        ⟨.init (s, []), oneByOne m.headId false, none, returned⟩
        ⟨.init (s, []), oneByOne next true,
          some ⟨oneSent m 0, 1, solo.headAt s () (LogKey.of ⟨"t"⟩ (solo.node ()))⟩,
          returned ++ [protoMessage m]⟩ := by
  have hfirst : max m.headId 1 = m.headId := by
    rw [← UInt64.toNat_inj, UInt64.toNat_max, UInt64.toNat_one]
    omega
  have hquery : subscribeQuery (solo.node ()) (sdk.request none (oneByOne m.headId false)) =
      .ok ⟨⟨"t"⟩, solo.node (), m.headId, 1⟩ := by
    rw [request_oneByOne sdk hpos, subscribeQuery_self (solo.node ()) (by decide), hfirst]
    rfl
  let opened := solo.headAt s () (LogKey.of ⟨"t"⟩ (solo.node ()))
  let t : SubscribeStream := .subscribe ⟨⟨"t"⟩, solo.node (), m.headId, 1⟩ []
  let u : SubscribeStream := { t with phase := .forwarding [m] }
  have hfetch : t.Step (solo.Fetches () s) [] u := .fetched rfl hpage
  have hreplay : u.Step (solo.Fetches () s) [] (oneSent m 0) := .replay rfl
  have hopened : solo.Resumes sdk none ()
      ⟨.init (s, []), oneByOne m.headId false, none, returned⟩
      ⟨.init (s, []), oneByOne m.headId true, some ⟨t, 0, opened⟩, returned⟩ :=
    resumes_opened rfl rfl hbelow hquery
  have hfetched : solo.Resumes sdk none ()
      ⟨.init (s, []), oneByOne m.headId true, some ⟨t, 0, opened⟩, returned⟩
      ⟨.init (s, []), oneByOne m.headId true, some ⟨u, 0, opened⟩, returned⟩ :=
    resumes_stream (l := ⟨t, 0, opened⟩) rfl hfetch fun _ hphase => by cases hphase
  have hreplayed : solo.Resumes sdk none ()
      ⟨.init (s, []), oneByOne m.headId true, some ⟨u, 0, opened⟩, returned⟩
      ⟨.init (s, []), oneByOne m.headId true, some ⟨oneSent m 0, 0, opened⟩, returned⟩ :=
    resumes_stream (l := ⟨u, 0, opened⟩) rfl hreplay fun _ hphase => by simp [u] at hphase
  obtain ⟨next, hreceive, hnext⟩ := sdk.receive_response (c := oneByOne m.headId true)
    (protoMessage m)
  have hreturned : solo.Resumes sdk none ()
      ⟨.init (s, []), oneByOne m.headId true, some ⟨oneSent m 0, 0, opened⟩, returned⟩
      ⟨.init (s, []), oneByOne next true, some ⟨oneSent m 0, 1, opened⟩,
        returned ++ [protoMessage m]⟩ :=
    resumes_returns (l := ⟨oneSent m 0, 0, opened⟩) rfl rfl rfl hreceive
  exact ⟨next, hnext hroom,
    (((Relation.ReflTransGen.single hopened).tail hfetched).tail hreplayed).tail hreturned⟩

theorem exists_published_next {s : solo.Stores} (hs : ∀ j, Reachable (s j)) {n : Nat}
    (hlogs : solo.view s () = filled n) :
    ∃ (s' : solo.Stores) (events : List (Event Unit Command Command.Answer)),
      (solo.broadcastingInOrder ()).Reaches (.init (s, [])) ⟨(s', events), [((), .ret ())]⟩ ∧
        broadcasts () events = [nextEntry n] := by
  obtain ⟨s', -, -, happend⟩ := exists_append_filled hs hlogs
  have hcommitted : ∀ m, Committed solo.node
      [((), ⟨.store (.appendMessage entry), Except.ok (nextEntry n)⟩),
        ((), ⟨.newMessageId, (⟨"m"⟩ : MessageId)⟩)] () m → m = nextEntry n := by
    rintro m ⟨msg, -, hmem⟩
    rcases List.mem_pair.mp hmem with hevent | hevent
    · cases hevent
      rfl
    · cases hevent
  let sys := solo.broadcastingInOrder ()
  let drawn : Event Unit Command Command.Answer := ((), ⟨.newMessageId, (⟨"m"⟩ : MessageId)⟩)
  let appended : Event Unit Command Command.Answer :=
    ((), ⟨.store (.appendMessage entry), Except.ok (nextEntry n)⟩)
  let events : List (Event Unit Command Command.Answer) :=
    [((), ⟨.send (nextEntry n), ()⟩), appended, drawn]
  have hdrawn : sys.Answers () (s, []) .newMessageId (⟨"m"⟩ : MessageId) (s, [drawn]) :=
    ⟨fun _ => trivial, ⟨by decide, rfl⟩, rfl⟩
  have happended : sys.Answers () (s, [drawn]) (.store (.appendMessage entry))
      (Except.ok (nextEntry n)) (s', [appended, drawn]) := ⟨fun _ => trivial, happend, rfl⟩
  have hsent : sys.Answers () (s', [appended, drawn]) (.send (nextEntry n)) () (s', events) := by
    refine ⟨?_, rfl, rfl⟩
    intro _ _ _ m hm _ _ hlt
    rw [hcommitted m hm] at hlt
    exact absurd hlt (UInt64.lt_irrefl _)
  have htarget : writeTarget (solo.node ()) "t" none = .ok (⟨"t"⟩, solo.node ()) :=
    writeTarget_self (solo.node ()) (by decide) (by decide)
  have hruns := @runs_publish _ _ _ _ _ _ _ ⟨"t", none, .empty, .empty⟩ _ _ _ htarget hdrawn
    happended hsent
  have hstarts : sys.Starts () (publish (solo.node ()) ⟨"t", none, .empty, .empty⟩).discard :=
    ⟨_, rfl⟩
  exact ⟨s', events, reaches_task hstarts hruns.discard [], rfl⟩

theorem exists_two_pages :
    ∃ (s : solo.Stores) (m m' : StoredMessage), (∀ j, Reachable (s j)) ∧
      solo.view s () = filled 2 ∧ m.headId = 1 ∧ m'.headId = 2 ∧
      solo.Fetches () s ⟨⟨"t"⟩, solo.node (), m.headId, 1⟩ (.ok [m]) ∧
      solo.Fetches () s ⟨⟨"t"⟩, solo.node (), m'.headId, 1⟩ (.ok [m']) := by
  have hfresh : ∀ j, Reachable (solo.fresh j) := fun _ => .empty
  have hempty : solo.view solo.fresh () = filled 0 := congrFun view_fresh ()
  obtain ⟨s₁, hs₁, hlogs₁, -⟩ := exists_append_filled hfresh hempty
  obtain ⟨s₂, hs₂, hlogs₂, -⟩ := exists_append_filled hs₁ hlogs₁
  have hwf : (solo.view s₂ ()).WellFormed := Backend.wellFormed (Backend.inv_of_reachable (hs₂ ()))
  have hpage : ∀ head : UInt64, 1 ≤ head.toNat → head.toNat ≤ 2 → ∃ m : StoredMessage,
      m.headId = head ∧ solo.Fetches () s₂ ⟨⟨"t"⟩, solo.node (), m.headId, 1⟩ (.ok [m]) := by
    intro head hpos hle
    have hfetch := fetches_solo hs₂ ⟨⟨"t"⟩, solo.node (), head, 1⟩
    have hheads : ((solo.view s₂ ()).window entryLog head (effectiveLimit 1)).map
        (·.headId.toNat) = [head.toNat] := by
      rw [Logs.map_headId_window hwf hpos, hlogs₂, current_filled 2 (by omega),
        show effectiveLimit 1 = 1 from rfl, show min 2 (head.toNat + 1 - 1) + 1 - head.toNat = 1 by
          omega]
      rfl
    obtain ⟨m, hwindow, hm⟩ := List.map_eq_singleton_iff.mp hheads
    have hhead : m.headId = head := UInt64.toNat_inj.mp hm
    refine ⟨m, hhead, ?_⟩
    rw [hhead]
    exact hwindow ▸ hfetch
  obtain ⟨m, hm, hfirst⟩ := hpage 1 (by decide) (by decide)
  obtain ⟨m', hm', hsecond⟩ := hpage 2 (by decide) (by decide)
  exact ⟨s₂, m, m', hs₂, hlogs₂, hm, hm', hfirst, hsecond⟩

def twoSent (m m' : StoredMessage) : SubscribeStream :=
  { oneSent m 1 with lastSent := m'.headId, delivered := [m, m'] }

omit [Formats] in
theorem step_oneSent {fetched : FetchQuery → Except MsgbusError (List StoredMessage) → Prop}
    {m m' : StoredMessage} (hconcerns : m'.topic = ⟨"t"⟩ ∧ m'.origin = solo.node ())
    (hlt : m.headId.toNat < m'.headId.toNat) :
    (oneSent m 0).Step fetched [m'] (twoSent m m') := by
  have hread : (oneSent m 0).received m' = twoSent m m' := by
    refine (oneSent m 0).received_of_wanted ⟨hconcerns, ?_⟩
    rw [UInt64.lt_iff_toNat_lt, lastSent_oneSent]
    exact hlt
  have hstep : (oneSent m 0).Step fetched ([] ++ [m']) ((oneSent m 0).received m') :=
    SubscribeStream.step_last rfl rfl
  rw [hread] at hstep
  exact hstep

theorem exists_returned_second {sdk : Sdk} {next : UInt64}
    (a : State Unit (solo.Stores × List (Event Unit Command Command.Answer)) Command Command.Answer)
    (m m' : StoredMessage) (opened : Nat) (returned : List Pb.MessageEnvelope) :
    ∃ y : solo.Consumer, solo.Resumes sdk none ()
      ⟨a, oneByOne next true, some ⟨twoSent m m', 1, opened⟩, returned⟩ y ∧
        y.returned = returned ++ [protoMessage m'] := by
  obtain ⟨next', hreceive, -⟩ := sdk.receive_response (c := oneByOne next true) (protoMessage m')
  exact ⟨_, resumes_returns (l := ⟨twoSent m m', 1, opened⟩) rfl rfl rfl hreceive, rfl⟩

theorem exists_two_returned (sdk : Sdk) {s : solo.Stores} {m m' : StoredMessage}
    (hone : m.headId = 1) (htwo : m'.headId = 2)
    (hfirst : solo.Fetches () s ⟨⟨"t"⟩, solo.node (), m.headId, 1⟩ (.ok [m]))
    (hsecond : solo.Fetches () s ⟨⟨"t"⟩, solo.node (), m'.headId, 1⟩ (.ok [m'])) :
    ∃ next, Relation.ReflTransGen (solo.Resumes sdk none ())
      ⟨.init (s, []), sdk.subscription none "t" ⟨none, 1, 1⟩, none, []⟩
      ⟨.init (s, []), oneByOne next true,
        some ⟨oneSent m' 0, 1, solo.headAt s () (LogKey.of ⟨"t"⟩ (solo.node ()))⟩,
        [protoMessage m, protoMessage m']⟩ := by
  obtain ⟨next, hnext, hreturned₁⟩ := @exists_returned _ sdk s m [] (by rw [hone]; decide)
    (by rw [hone]; decide) (fun _ h => by cases h) hfirst
  have hresume : next = m'.headId := by
    rw [← UInt64.toNat_inj, hnext, hone, htwo]
    rfl
  rw [hone, ← subscription_oneByOne sdk, hresume] at hreturned₁
  have hlost := hreturned₁.tail (resumes_lost rfl (receive_finished_oneByOne sdk m'.headId))
  have hbelow : ∀ message ∈ [protoMessage m], message.headId ≠ UInt64.maxValue := by
    intro message hmem
    rw [List.mem_singleton.mp hmem]
    change m.headId ≠ _
    rw [hone]
    decide
  obtain ⟨next', -, hreturned₂⟩ := @exists_returned _ sdk s m' [protoMessage m]
    (by rw [htwo]; decide) (by rw [htwo]; decide) hbelow hsecond
  exact ⟨next', hlost.trans hreturned₂⟩

omit [DecidableEq ι] [Formats] in
/-- A client of either SDK with a replay of one message on a log of two: the first
replay is cut, the stream is lost and opened again, and a third message is published
after that. -/
theorem returned_consecutive_three : letI := Serde.formats
    ∃ s₀ : solo.Stores, (∀ j, Reachable (s₀ j)) ∧ ∀ sdk : Sdk, ∃ x : solo.Consumer,
      Relation.ReflTransGen (solo.Resumes sdk none ())
        ⟨.init (s₀, []), sdk.subscription none "t" ⟨none, 1, 1⟩, none, []⟩ x ∧
      x.returned.length = 3 ∧ x.returned.map (·.headId.toNat) = [1, 2, 3] := by
  let := Serde.formats
  obtain ⟨s, m, m', hs, hlogs, hone, htwo, hfirst, hsecond⟩ := exists_two_pages
  obtain ⟨s', events, hpublished, hchannel⟩ := exists_published_next hs hlogs
  have hthree : (nextEntry 2).headId.toNat = 3 := nextEntry_headId (by omega)
  have htwo' : m'.headId.toNat = 2 := congrArg UInt64.toNat htwo
  let opened := solo.headAt s () (LogKey.of ⟨"t"⟩ (solo.node ()))
  have hopened : opened = 2 := by
    change ((solo.view s ()).current entryLog).toNat = 2
    rw [hlogs]
    exact current_filled 2 (by omega)
  refine ⟨s, hs, fun sdk => ?_⟩
  obtain ⟨next, hreturned₂⟩ := exists_two_returned sdk hone htwo hfirst hsecond
  -- the second replay reaches the head that the log had when the stream was opened
  have hlive : solo.Resumes sdk none ()
      ⟨⟨(s', events), [((), .ret ())]⟩, oneByOne next true, some ⟨oneSent m' 0, 1, opened⟩,
        [protoMessage m, protoMessage m']⟩
      ⟨⟨(s', events), [((), .ret ())]⟩, oneByOne next true,
        some ⟨twoSent m' (nextEntry 2), 1, opened⟩, [protoMessage m, protoMessage m']⟩ := by
    refine resumes_stream (l := ⟨oneSent m' 0, 1, opened⟩) rfl ?_ ?_
    · change SubscribeStream.Step _ (broadcasts () events) _ _
      rw [hchannel]
      exact step_oneSent ⟨rfl, rfl⟩ (by omega)
    · rintro m₁ - - ⟨n, hbeyond, -, hle⟩
      change (oneSent m' 0).lastSent.toNat < n at hbeyond
      change n ≤ opened at hle
      rw [lastSent_oneSent] at hbeyond
      omega
  obtain ⟨x, hreturned₃, hreturned⟩ := @exists_returned_second _ sdk next
    ⟨(s', events), [((), .ret ())]⟩ m' (nextEntry 2) opened [protoMessage m, protoMessage m']
  have hwaited := resumes_of_reaches sdk none hpublished
    (oneByOne next true) (some ⟨oneSent m' 0, 1, opened⟩) [protoMessage m, protoMessage m']
  have hrun := ((hreturned₂.trans hwaited).tail hlive).tail hreturned₃
  refine ⟨x, hrun, ?_, ?_⟩
  · rw [hreturned]
    rfl
  · rw [returned_consecutive hs hrun, hreturned]
    rfl

omit [DecidableEq ι] [Formats] in
/-- The replay of one message leaves the second one out, and the third is beyond what
was sent: a client of either SDK returns the first and the third. -/
theorem backlog_beyond_limit_skipped : letI := Serde.formats
    ∃ s₀ : solo.Stores, (∀ j, Reachable (s₀ j)) ∧ ∀ sdk : Sdk, ∃ x : solo.Consumer,
      Relation.ReflTransGen (solo.Consumes (solo.broadcastingInOrder ()) sdk none ())
        ⟨.init (s₀, []), sdk.subscription none "t" ⟨none, 1, 1⟩, none, []⟩ x ∧
      x.returned.map (·.headId.toNat) = [1, 3] := by
  let := Serde.formats
  obtain ⟨s, m, -, hs, hlogs, hone, -, hfirst, -⟩ := exists_two_pages
  obtain ⟨s', events, hpublished, hchannel⟩ := exists_published_next hs hlogs
  have hthree : (nextEntry 2).headId.toNat = 3 := nextEntry_headId (by omega)
  have hone' : m.headId.toNat = 1 := congrArg UInt64.toNat hone
  let opened := solo.headAt s () (LogKey.of ⟨"t"⟩ (solo.node ()))
  refine ⟨s, hs, fun sdk => ?_⟩
  obtain ⟨next, -, hreturned₁⟩ := @exists_returned _ sdk s m [] (by rw [hone]; decide)
    (by rw [hone]; decide) (fun _ h => by cases h) hfirst
  have hlive : solo.Consumes (solo.broadcastingInOrder ()) sdk none ()
      ⟨⟨(s', events), [((), .ret ())]⟩, oneByOne next true, some ⟨oneSent m 0, 1, opened⟩,
        [protoMessage m]⟩
      ⟨⟨(s', events), [((), .ret ())]⟩, oneByOne next true,
        some ⟨twoSent m (nextEntry 2), 1, opened⟩, [protoMessage m]⟩ := by
    have hstep : (oneSent m 0).Step (solo.Fetches () s') (broadcasts () events)
        (twoSent m (nextEntry 2)) := by
      rw [hchannel]
      exact step_oneSent ⟨rfl, rfl⟩ (by omega)
    exact .stream (l := ⟨oneSent m 0, 1, opened⟩) rfl hstep
  obtain ⟨x, hreturned₂, hreturned⟩ := @exists_returned_second _ sdk next
    ⟨(s', events), [((), .ret ())]⟩ m (nextEntry 2) opened [protoMessage m]
  have hwaited := resumes_of_reaches sdk none hpublished
    (oneByOne next true) (some ⟨oneSent m 0, 1, opened⟩) [protoMessage m]
  have hrun := ((consumes_of_resumes (hreturned₁.trans hwaited)).tail hlive).tail hreturned₂.1
  rw [hone, ← subscription_oneByOne sdk] at hrun
  refine ⟨x, hrun, ?_⟩
  rw [hreturned]
  change [m.headId.toNat, (nextEntry 2).headId.toNat] = [1, 3]
  rw [hone', hthree]

end Network

end Msgbus
