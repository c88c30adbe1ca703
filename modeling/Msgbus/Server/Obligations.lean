import Msgbus.Server.Sync

/-!
# What the tasks of a daemon owe

A contract for the tasks that write: `publish`, `delete_range` and passes of
`sync_once`.  It is stated over any notion of what is known of a network: which
messages a peer may hand out, which heads it may list, and of which logs a
daemon still wants messages.  Everything proved of networks starts from the
theorems here and never looks inside the programs again.
-/

namespace Msgbus

open Program Contract

variable [Formats]

/-- The message is a live delete marker of the range. -/
def StoredMessage.Marks (m : StoredMessage) (range : TombstoneRange) : Prop :=
  controlRange m = .ok (some range)

theorem controlRange_eq_none_iff {m : StoredMessage} :
    controlRange m = .ok none ↔ m.topic ≠ deleteTopic ∨ m.deleted = true := by
  unfold controlRange
  by_cases hskip : m.topic ≠ deleteTopic ∨ m.deleted = true
  · rw [if_pos hskip]
    exact ⟨fun _ => hskip, fun _ => rfl⟩
  · rw [if_neg hskip]
    refine ⟨fun h => ?_, fun h => absurd h hskip⟩
    cases hslice : Formats.tombstoneRange.fromSlice m.payload with
    | error e =>
        rw [hslice] at h
        cases h
    | ok range =>
        rw [hslice] at h
        dsimp only at h
        split_ifs at h
        cases h

theorem StoredMessage.marks_iff {m : StoredMessage} {range : TombstoneRange} :
    m.Marks range ↔ m.topic = deleteTopic ∧ m.deleted = false ∧
      Formats.tombstoneRange.fromSlice m.payload = .ok range ∧ m.origin = range.origin := by
  unfold Marks controlRange
  by_cases hskip : m.topic ≠ deleteTopic ∨ m.deleted = true
  · rw [if_pos hskip]
    constructor
    · intro h
      cases h
    · rintro ⟨htopic, hdeleted, -⟩
      rcases hskip with hne | htrue
      · exact absurd htopic hne
      · rw [hdeleted] at htrue
        cases htrue
  · rw [if_neg hskip]
    obtain ⟨htopic, hdeleted⟩ := not_or.mp hskip
    rw [not_not] at htopic
    rw [Bool.not_eq_true] at hdeleted
    cases Formats.tombstoneRange.fromSlice m.payload with
    | error e => simp
    | ok r =>
        by_cases horigin : m.origin = r.origin
        · simp only [horigin, ne_eq, not_true_eq_false, if_false, htopic, hdeleted, true_and,
            Except.ok.injEq, Option.some.injEq]
          constructor
          · rintro rfl
            exact ⟨rfl, rfl⟩
          · exact And.left
        · simp only [ne_eq, horigin, not_false_eq_true, if_true]
          constructor
          · intro h
            cases h
          · rintro ⟨-, -, h, hrange⟩
            cases h
            exact absurd hrange horigin

/-- If the call stores a delete marker, the call that follows its success applies
the marker. -/
def AppliedNext (c : Command) (following : c.Answer → Option Command) : Prop :=
  ∀ m range (answer : c.Answer), c = .store (.putReplicatedMessage m) → m.Marks range →
    c.Succeeds answer → following answer = some (.store range.op)

theorem appliedNext_of_ne {c : Command} {following : c.Answer → Option Command}
    (h : ∀ m, c ≠ .store (.putReplicatedMessage m)) : AppliedNext c following :=
  fun m _ _ hc _ _ => absurd hc (h m)

/-- What is known of a network, as far as the tasks of its daemons rely on it. -/
structure Knowledge (ι W : Type) where
  node : ι → NodeId
  Later : W → W → Prop
  refl : ∀ w, Later w w
  trans : ∀ {w₁ w₂ w₃}, Later w₁ w₂ → Later w₂ w₃ → Later w₁ w₃
  /-- A peer may hand out the message. -/
  Known : W → StoredMessage → Prop
  known_later : ∀ {w w' m}, Later w w' → Known w m → Known w' m
  /-- A peer may list the head. -/
  Listed : W → TopicHead → Prop
  listed_later : ∀ {w w' h}, Later w w' → Listed w h → Listed w' h
  /-- The daemon may lack messages of the log. -/
  Wanted : ι → Topic → NodeId → Prop
  /-- The daemon may find the message in its store. -/
  Held : ι → W → StoredMessage → Prop
  held_later : ∀ {i w w' m}, Later w w' → Held i w m → Held i w' m
  held_of_known : ∀ {i w m}, Known w m → Wanted i m.topic m.origin → Held i w m
  /-- The daemon may broadcast the message. -/
  Sent : ι → W → StoredMessage → Prop
  sent_later : ∀ {i w w' m}, Later w w' → Sent i w m → Sent i w' m

namespace Knowledge

variable {ι W : Type} (K : Knowledge ι W)

/-- Writes to a daemon's own logs and queues carry its identity, only known
messages of wanted logs are stored, only ranges of held markers are applied and
only what has been stored is broadcast. -/
def Allows (i : ι) (w : W) : Command → Prop
  | .store (.appendMessage m) =>
      m.origin = K.node i ∧ m.topic ≠ deleteTopic ∧ ValidPart m.topic.value ∧ ValidPart m.id.value
  | .store (.tombstoneRangeWithMarker topic origin _ _ markerTopic markerOrigin) =>
      origin = K.node i ∧ topic ≠ deleteTopic ∧ markerTopic = deleteTopic ∧
        markerOrigin = K.node i
  | .store (.putReplicatedMessage m) => K.Known w m ∧ K.Wanted i m.topic m.origin
  | .store (.tombstoneRange topic origin first last) =>
      ∃ m range, K.Held i w m ∧ m.Marks range ∧
        range.op = .tombstoneRange topic origin first last
  | .store (.enqueueFifo m) =>
      m.source = K.node i ∧ (m.target.Valid ∨ m.target.isEmpty = true)
  | .send m => K.Sent i w m
  | _ => True

def Ensures (i : ι) (w : W) : (c : Command) → c.Answer → Prop
  | .newMessageId, (id : MessageId) => ValidPart id.value
  | .store (.getHead topic origin), (answer : Except MsgbusError (Option HeadId)) =>
      ∀ stored head, answer = .ok stored → K.Listed w head → head.topic = topic →
        head.origin = origin → stored.getD 0 < head.headId → K.Wanted i topic origin
  | .store (.fetchMessages _), (answer : Except MsgbusError (List StoredMessage)) =>
      ∀ messages, answer = .ok messages → ∀ m ∈ messages, K.Held i w m
  | .store (.appendMessage _), (answer : Except MsgbusError StoredMessage) =>
      ∀ m, answer = .ok m → K.Sent i w m
  | .store (.tombstoneRangeWithMarker _ _ _ _ _ _),
      (answer : Except MsgbusError (UInt64 × StoredMessage)) =>
      ∀ result, answer = .ok result → K.Sent i w result.2
  | .store (.putReplicatedMessage m), (answer : Except MsgbusError ReplicateResult) =>
      answer = .ok .inserted → K.Sent i w m
  | .listHeads _, (answer : Except Status (List Pb.TopicHead)) =>
      ∀ heads, answer = .ok heads → ∀ listed ∈ heads, ∀ head,
        coreTopicHead listed = .ok head → K.Listed w head
  | .fetch _ _, (answer : Except Status (List Pb.FetchResponse × Option Status)) =>
      ∀ items last, answer = .ok (items, last) → ∀ item ∈ items, ∀ envelope m,
        item.message = some envelope → coreMessage envelope = .ok m → K.Known w m
  | _, _ => True

/-- The contract of a daemon's tasks: besides what is allowed, a marker that has
been stored is applied by the very next call. -/
def contract : Contract ι W Command Command.Answer where
  Later := K.Later
  refl := K.refl
  trans := K.trans
  Requires := fun i w c following => K.Allows i w c ∧ AppliedNext c following
  requires_mono := fun hfollow h =>
    ⟨h.1, fun m range answer hc hmarks hok => hfollow _ _ (h.2 m range answer hc hmarks hok)⟩
  Ensures := K.Ensures

variable {K} {i : ι} {w : W}

/-! ## Single calls -/

section Calls

variable {ε α : Type}

theorem keeps_allowed {c : Command} {next : c.Answer → Server ε α}
    (hallows : ∀ w', K.Later w w' → K.Allows i w' c)
    (hput : ∀ m, c ≠ .store (.putReplicatedMessage m))
    (hnext : ∀ answer w', K.Later w w' → K.Ensures i w' c answer →
      K.contract.Keeps i (next answer) w') : K.contract.Keeps i (.call c next) w :=
  keeps_call (fun w' hw' => ⟨hallows w' hw', appliedNext_of_ne hput⟩) hnext

theorem meets_allowed {c : Command} (read : c.Answer → Except ε α) {P : α → W → Prop}
    (hallows : ∀ w', K.Later w w' → K.Allows i w' c)
    (hput : ∀ m, c ≠ .store (.putReplicatedMessage m))
    (hread : ∀ answer w' a, K.Later w w' → K.Ensures i w' c answer → read answer = .ok a → P a w') :
    K.contract.Meets i (.call c fun answer => ofExcept (read answer))
      (fun w' out => K.contract.Later w w' ∧ ∀ a, out = .ok a → P a w') w := by
  intro w' hw'
  refine ⟨⟨hallows w' hw', appliedNext_of_ne hput⟩, ?_⟩
  intro answer w'' hw'' hens
  have hlater := K.trans hw' hw''
  exact meets_ofExcept ⟨hlater, fun a ha => hread answer w'' a hlater hens ha⟩

end Calls

theorem keeps_callStore {op : StoreOp} (h : ∀ w', K.Later w w' → K.Allows i w' (.store op))
    (hput : ∀ m, op ≠ .putReplicatedMessage m) : K.contract.Keeps i (callStore op) w :=
  keeps_allowed h (fun m hc => hput m (Command.store.inj hc)) fun answer _ _ _ =>
    keeps_ofExcept answer

theorem meets_callStore {ε : Type} {f : MsgbusError → ε} {op : StoreOp} {P : op.Result → W → Prop}
    (h : ∀ w', K.Later w w' → K.Allows i w' (.store op))
    (hput : ∀ m, op ≠ .putReplicatedMessage m)
    (hresult : ∀ (result : op.Result) w', K.Later w w' →
      K.Ensures i w' (.store op) (Except.ok result) → P result w') :
    K.contract.Meets i ((callStore op).mapError f)
      (fun w' out => K.contract.Later w w' ∧ ∀ a, out = .ok a → P a w') w := by
  have hcall : K.contract.Meets i (callStore op)
      (fun w' out => K.contract.Later w w' ∧ ∀ a, out = .ok a → P a w') w := by
    apply meets_allowed (c := .store op) (fun answer => answer) h
      (fun m hc => hput m (Command.store.inj hc))
    intro answer w' a hw' hens ha
    exact hresult a w' hw' (ha ▸ hens)
  apply meets_mapError
  apply hcall.consequence
  intro w' out hout
  exact ⟨hout.1, fun a ha => hout.2 a (Except.mapError_eq_ok.mp ha)⟩

theorem keeps_nowMs {ε : Type} : K.contract.Keeps i (nowMs : Server ε UInt64) w :=
  keeps_allowed (fun _ _ => trivial) (fun _ hc => by cases hc) fun answer _ _ _ => keeps_ret answer

theorem keeps_send {ε : Type} {m : StoredMessage} (h : K.Sent i w m) :
    K.contract.Keeps i (send m : Server ε Unit) w :=
  keeps_allowed (fun _ hw' => K.sent_later hw' h) (fun _ hc => by cases hc)
    fun answer _ _ _ => keeps_ret answer

theorem meets_newMessageId {ε : Type} :
    K.contract.Meets i (newMessageId : Server ε MessageId)
      (fun w' out => K.contract.Later w w' ∧ ∀ a, out = .ok a → ValidPart a.value) w := by
  apply meets_allowed (c := .newMessageId) (fun answer => Except.ok answer) (fun _ _ => trivial)
    (fun _ hc => by cases hc)
  intro answer w' a _ hens ha
  cases ha
  exact hens

theorem keeps_recordPeerSyncState (state : PeerSyncState) :
    K.contract.Keeps i (callStoreText (.recordPeerSyncState state)) w :=
  keeps_mapError (keeps_callStore (fun _ _ => trivial) fun _ hop => by cases hop)

theorem keeps_recordPeerSyncSuccess (peer : PeerSpec) (topic : Option Topic)
    (origin : Option NodeId) (localHead remoteHead lastSyncedHead : UInt64) :
    K.contract.Keeps i
      (recordPeerSyncSuccess peer topic origin localHead remoteHead lastSyncedHead) w := by
  refine keeps_bind keeps_nowMs fun attemptAt w' _ => ?_
  refine keeps_bind keeps_nowMs fun successAt w' _ => ?_
  exact keeps_bind (keeps_recordPeerSyncState _) fun _ _ _ => keeps_pure ()

theorem keeps_recordPeerSyncFailure (peer : PeerSpec) (topic : Option Topic)
    (origin : Option NodeId) (localHead remoteHead : UInt64) (error : String) :
    K.contract.Keeps i
      (recordPeerSyncFailure peer topic origin localHead remoteHead error) w := by
  refine keeps_bind keeps_nowMs fun attemptAt w' _ => ?_
  exact keeps_bind (keeps_recordPeerSyncState _) fun _ _ _ => keeps_pure ()

/-! ## Delete markers -/

theorem keeps_applyControlMessage {m : StoredMessage} (hm : K.Held i w m) :
    K.contract.Keeps i (applyControlMessage m) w := by
  unfold applyControlMessage
  cases hrange : controlRange m with
  | error status => exact keeps_fail status
  | ok range =>
      cases range with
      | none => exact keeps_ret ()
      | some range =>
          refine keeps_bind (keeps_mapError (keeps_callStore ?_ fun _ hop => by cases hop))
            fun _ _ _ => keeps_pure ()
          intro w' hw'
          exact ⟨m, range, K.held_later hw' hm, hrange, rfl⟩

theorem first_applyControlMessage {m : StoredMessage} {range : TombstoneRange}
    (h : m.Marks range) : (applyControlMessage m).first = some (.store range.op) := by
  unfold applyControlMessage
  rw [show controlRange m = _ from h]
  rfl

/-! ## A restart -/

theorem keeps_applyBatch {messages : List StoredMessage} (h : ∀ m ∈ messages, K.Held i w m)
    (fromHeadId : UInt64) : K.contract.Keeps i (applyBatch fromHeadId messages) w := by
  induction messages generalizing w fromHeadId with
  | nil => exact keeps_ret _
  | cons m rest ih =>
      refine keeps_bind (keeps_applyControlMessage (h m List.mem_cons_self)) fun _ w' hw' => ?_
      exact ih (fun m' hm' => K.held_later hw' (h m' (List.mem_cons_of_mem _ hm'))) _

theorem keeps_replayLog (head : TopicHead) (fuel : Nat) (fromHeadId : UInt64) :
    K.contract.Keeps i (replayLog head fuel fromHeadId) w := by
  induction fuel generalizing w fromHeadId with
  | zero => exact keeps_ret _
  | succ fuel ih =>
      unfold replayLog
      split_ifs with hmore
      · refine keeps_bind_of (P := fun (messages : List StoredMessage) w' =>
          ∀ m ∈ messages, K.Held i w' m)
          (meets_callStore (fun _ _ => trivial) (fun _ hop => by cases hop)
            fun result w' _ hens => hens result rfl) ?_
        intro messages w' hw' hheld
        split_ifs
        · exact keeps_pure _
        · exact keeps_bind (keeps_applyBatch hheld fromHeadId) fun next w'' hw'' => ih next
      · exact keeps_ret _

theorem keeps_replayLogs (fuel : Nat) (heads : List TopicHead) :
    K.contract.Keeps i (replayLogs fuel heads) w := by
  induction heads generalizing w with
  | nil => exact keeps_ret _
  | cons head rest ih =>
      refine keeps_bind (keeps_replayLog head fuel 1) fun done w' hw' => ?_
      cases done with
      | none => exact keeps_pure _
      | some u => exact ih

theorem keeps_replayControlMessages (fuel : Nat) :
    K.contract.Keeps i (replayControlMessages fuel) w :=
  keeps_bind (keeps_mapError (keeps_callStore (fun _ _ => trivial) fun _ hop => by cases hop))
    fun _ _ _ => keeps_replayLogs fuel _

/-! ## A pass of synchronisation -/

theorem keeps_syncMessage {peer : PeerSpec} {head : TopicHead} {m : StoredMessage}
    (hm : K.Known w m) (hwanted : K.Wanted i head.topic head.origin) :
    K.contract.Keeps i (syncMessage peer head m) w := by
  unfold syncMessage
  split_ifs with hmismatch
  · exact keeps_fail _
  · obtain ⟨htopic, horigin⟩ := not_or.mp hmismatch
    rw [not_not] at htopic horigin
    refine keeps_call ?_ ?_
    · intro w' hw'
      refine ⟨⟨K.known_later hw' hm, ?_⟩, ?_⟩
      · rw [htopic, horigin]
        exact hwanted
      -- Whatever the store answers, the marker is applied before anything else.
      · intro m' range answer hc hmarks hok
        cases hc
        obtain ⟨result, rfl⟩ := hok
        have hfirst : ((applyControlMessage m).mapError Formats.statusText).first =
            some (.store range.op) := by
          rw [first_mapError]
          exact first_applyControlMessage hmarks
        cases result with
        | inserted => exact first_bind (fun _ => send m) hfirst
        | alreadyPresent => exact hfirst
    · intro answer w' hw' hens
      have happly : K.contract.Keeps i ((applyControlMessage m).mapError Formats.statusText) w' := by
        apply keeps_mapError
        apply keeps_applyControlMessage
        apply K.held_of_known (K.known_later hw' hm)
        rw [htopic, horigin]
        exact hwanted
      cases answer with
      | error e => exact keeps_fail _
      | ok result =>
          cases result with
          | inserted =>
              exact keeps_bind (f := fun _ => send m) happly fun _ w'' hw'' =>
                keeps_send (K.sent_later hw'' (hens rfl))
          | alreadyPresent => exact happly

theorem keeps_receive {peer : PeerSpec} {head : TopicHead} {last : Option Status}
    {start : UInt64} {items : List Pb.FetchResponse}
    (hitems : ∀ item ∈ items, ∀ envelope m, item.message = some envelope →
      coreMessage envelope = .ok m → K.Known w m)
    (hwanted : K.Wanted i head.topic head.origin)
    (localHead : { localHead : UInt64 // start ≤ localHead }) (fetched : UInt32) :
    K.contract.Keeps i (receive peer head last items localHead fetched) w := by
  induction items generalizing w localHead fetched with
  | nil =>
      unfold receive
      cases last with
      | none => exact keeps_ret _
      | some status => exact keeps_fail _
  | cons item rest ih =>
      have hrest : ∀ w', K.Later w w' → ∀ item ∈ rest, ∀ envelope m,
          item.message = some envelope → coreMessage envelope = .ok m → K.Known w' m := by
        intro w' hw' item' hmem envelope m henvelope hm
        exact K.known_later hw' (hitems item' (List.mem_cons_of_mem _ hmem) envelope m henvelope hm)
      unfold receive
      cases henvelope : item.message with
      | none => exact ih (hrest w (K.refl w)) localHead fetched
      | some envelope =>
          refine keeps_bind_of (P := fun m w' => K.Known w' m) (meets_ofExcept ⟨K.refl w, ?_⟩) ?_
          · intro m hm
            exact hitems item List.mem_cons_self envelope m henvelope
              (Except.mapError_eq_ok.mp hm)
          · intro m w' hw' hm
            refine keeps_bind (keeps_syncMessage hm hwanted) fun _ w'' hw'' => ?_
            exact ih (hrest w'' (K.trans hw' hw'')) _ _

theorem keeps_syncLoop {peer : PeerSpec} {head : TopicHead} {batchLimit : UInt32}
    (localHead : UInt64)
    (hwanted : localHead < head.headId → K.Wanted i head.topic head.origin) :
    K.contract.Keeps i (syncLoop peer head batchLimit localHead) w := by
  induction hn : 2 ^ 64 - localHead.toNat using Nat.strong_induction_on
    generalizing localHead w with
  | _ n ih =>
    rw [syncLoop]
    split_ifs with hbehind
    · have hwanted' := hwanted hbehind
      refine keeps_allowed (fun _ _ => trivial) (fun _ hc => by cases hc) ?_
      intro answer w' hw' hens
      refine keeps_bind_of (P := fun pair w'' => ∀ item ∈ pair.1, ∀ envelope m,
        item.message = some envelope → coreMessage envelope = .ok m → K.Known w'' m)
        (meets_ofExcept ⟨K.refl w', ?_⟩) ?_
      · rintro ⟨items, last⟩ hok
        exact hens items last (Except.mapError_eq_ok.mp hok)
      rintro ⟨items, last⟩ w'' hw'' hitems
      refine keeps_bind (keeps_receive hitems hwanted' _ _) ?_
      rintro ⟨reached, fetched⟩ w₃ hw₃
      refine keeps_bind (keeps_recordPeerSyncSuccess _ _ _ _ _ _) fun _ w₄ hw₄ => ?_
      split_ifs with hstop
      · exact keeps_pure _
      · have hle : localHead.toNat ≤ reached.1.toNat := reached.2
        have hne : reached.1.toNat ≠ localHead.toNat :=
          fun heq => hstop (Or.inr (UInt64.toNat_inj.mp heq))
        have hlt := UInt64.toNat_lt reached.1
        exact ih _ (by omega) reached.1 (fun _ => hwanted') rfl
    · exact keeps_ret _

theorem keeps_syncHead {peer : PeerSpec} {head : TopicHead} {batchLimit : UInt32}
    (hlisted : K.Listed w head) : K.contract.Keeps i (syncHead peer head batchLimit) w := by
  refine keeps_bind_of (P := fun (stored : Option HeadId) _ =>
    stored.getD 0 < head.headId → K.Wanted i head.topic head.origin)
    (meets_callStore (fun _ _ => trivial) (fun _ hop => by cases hop) ?_) ?_
  · intro stored w' hw' hens hbehind
    exact hens stored head rfl (K.listed_later hw' hlisted) rfl rfl hbehind
  · intro stored w' hw' hwanted
    refine keeps_bind (keeps_syncLoop _ hwanted) fun localHead w'' hw'' => ?_
    split_ifs
    · exact keeps_recordPeerSyncSuccess _ _ _ _ _ _
    · exact keeps_pure ()

theorem keeps_syncHeads {peer : PeerSpec} {batchLimit : UInt32} {heads : List Pb.TopicHead}
    (hheads : ∀ listed ∈ heads, ∀ head, coreTopicHead listed = .ok head → K.Listed w head) :
    K.contract.Keeps i (syncHeads peer batchLimit heads) w := by
  induction heads generalizing w with
  | nil => exact keeps_ret ()
  | cons listed rest ih =>
      refine keeps_bind_of (P := fun head w' => K.Listed w' head)
        (meets_ofExcept ⟨K.refl w, ?_⟩) ?_
      · intro head hok
        exact hheads listed List.mem_cons_self head (Except.mapError_eq_ok.mp hok)
      intro head w' hw' hlisted
      refine keeps_bind (keeps_attempt (keeps_syncHead hlisted)) fun outcome w'' hw'' => ?_
      cases outcome with
      | ok u =>
          refine ih fun listed' hmem head' hhead' => ?_
          exact K.listed_later (K.trans hw' hw'')
            (hheads listed' (List.mem_cons_of_mem _ hmem) head' hhead')
      | error err =>
          refine keeps_bind (keeps_mapError (keeps_callStore (fun _ _ => trivial)
            fun _ hop => by cases hop)) fun stored w₃ hw₃ => ?_
          exact keeps_bind (keeps_recordPeerSyncFailure _ _ _ _ _ _) fun _ _ _ => keeps_fail err

theorem keeps_verifyPeerIdentity (localNode : NodeId) (peer : PeerSpec) :
    K.contract.Keeps i (verifyPeerIdentity localNode peer) w := by
  refine keeps_bind (keeps_allowed (fun _ _ => trivial) (fun _ hc => by cases hc)
    fun answer _ _ _ => keeps_ofExcept _) fun response w' hw' => ?_
  cases response.node with
  | none => exact keeps_fail _
  | some remote =>
      refine keeps_bind (keeps_ofExcept _) fun remoteNode w'' hw'' => ?_
      split_ifs
      · exact keeps_fail _
      · cases peer.expectedNode with
        | none => exact keeps_ret ()
        | some expected =>
            dsimp only
            split_ifs
            · exact keeps_fail _
            · exact keeps_ret ()

theorem keeps_syncPeer (localNode : NodeId) (peer : PeerSpec) (batchLimit : UInt32) :
    K.contract.Keeps i (syncPeer localNode peer batchLimit) w := by
  refine keeps_bind (keeps_allowed (fun _ _ => trivial) (fun _ hc => by cases hc)
    fun answer _ _ _ => keeps_ofExcept _) fun _ w₁ hw₁ => ?_
  refine keeps_bind (keeps_verifyPeerIdentity _ _) fun _ w₂ hw₂ => ?_
  refine keeps_bind_of (P := fun heads w' => ∀ listed ∈ heads, ∀ head,
    coreTopicHead listed = .ok head → K.Listed w' head)
    (meets_allowed _ (fun _ _ => trivial) (fun _ hc => by cases hc) ?_) ?_
  · intro answer w' heads _ hens hok
    exact hens heads (Except.mapError_eq_ok.mp hok)
  · intro heads w₃ hw₃ hheads
    refine keeps_bind (keeps_syncHeads hheads) fun _ w₄ hw₄ => ?_
    exact keeps_recordPeerSyncSuccess _ _ _ _ _ _

theorem keeps_syncPeers (config : PeerSyncConfig) (peers : List PeerSpec)
    (firstError : Option String) : K.contract.Keeps i (syncPeers config peers firstError) w := by
  induction peers generalizing w firstError with
  | nil =>
      cases firstError with
      | none => exact keeps_ret ()
      | some error => exact keeps_fail error
  | cons peer rest ih =>
      refine keeps_bind (keeps_attempt (keeps_syncPeer _ _ _)) fun outcome w' hw' => ?_
      cases outcome with
      | ok u => exact ih firstError
      | error error =>
          exact keeps_bind (keeps_attempt (keeps_recordPeerSyncFailure _ _ _ _ _ _))
            fun _ _ _ => ih _

theorem keeps_syncOnce (config : PeerSyncConfig) : K.contract.Keeps i (syncOnce config) w :=
  keeps_syncPeers config _ _

/-! ## Handlers that write -/

omit [Formats] in
theorem writeTarget_eq_ok {node : NodeId} {topic : String} {origin : Option Pb.NodeId}
    {target : Topic × NodeId} (h : writeTarget node topic origin = .ok target) :
    target.2 = node ∧ target.1 ≠ deleteTopic ∧ ValidPart target.1.value := by
  unfold writeTarget at h
  obtain ⟨topic', htopic, h⟩ := Except.bind_eq_ok.mp h
  obtain ⟨_, happ, h⟩ := Except.bind_eq_ok.mp h
  obtain ⟨origin', horigin, h⟩ := Except.bind_eq_ok.mp h
  cases h
  obtain ⟨hvalid, rfl⟩ := Topic.new_eq_ok.mp (Except.mapError_eq_ok.mp htopic)
  refine ⟨?_, ?_, hvalid⟩
  · unfold ownedOrigin at horigin
    obtain ⟨requested, -, horigin⟩ := Except.bind_eq_ok.mp horigin
    split_ifs at horigin with heq
    cases horigin
    exact heq
  · unfold ensureApplicationTopic at happ
    split_ifs at happ with heq
    exact heq

theorem meets_writeTarget {node : NodeId} {topic : String} {origin : Option Pb.NodeId} :
    K.contract.Meets i (ofExcept (writeTarget node topic origin))
      (fun w' out => K.contract.Later w w' ∧ ∀ target, out = .ok target →
        target.2 = node ∧ target.1 ≠ deleteTopic ∧ ValidPart target.1.value) w :=
  meets_ofExcept ⟨K.refl w, fun _ h => writeTarget_eq_ok h⟩

theorem keeps_publish (request : Pb.PublishRequest) :
    K.contract.Keeps i (publish (K.node i) request) w := by
  refine keeps_bind_of meets_writeTarget ?_
  rintro ⟨topic, origin⟩ w₁ hw₁ ⟨horigin, hne, hvalid⟩
  refine keeps_bind_of meets_newMessageId fun id w₂ hw₂ hid => ?_
  refine keeps_bind_of (P := fun (m : StoredMessage) w' => K.Sent i w' m)
    (meets_callStore (fun _ _ => ⟨horigin, hne, hvalid, hid⟩) (fun _ hop => by cases hop)
      fun m w' _ hens => hens m rfl) fun stored w₃ hw₃ hsent => ?_
  exact keeps_bind (keeps_send hsent) fun _ _ _ => keeps_pure _

theorem keeps_deleteRange (request : Pb.DeleteRangeRequest) :
    K.contract.Keeps i (deleteRange (K.node i) request) w := by
  refine keeps_bind_of meets_writeTarget ?_
  rintro ⟨topic, origin⟩ w₁ hw₁ ⟨horigin, hne, hvalid⟩
  refine keeps_bind_of (P := fun controlTopic _ => controlTopic = deleteTopic)
    (meets_ofExcept ⟨K.refl w₁, ?_⟩) ?_
  · intro controlTopic hok
    exact (Topic.new_eq_ok.mp (Except.mapError_eq_ok.mp hok)).2
  · intro controlTopic w₂ hw₂ hcontrol
    refine keeps_bind_of (P := fun (result : UInt64 × StoredMessage) w' => K.Sent i w' result.2)
      (meets_callStore (fun _ _ => ⟨horigin, hne, hcontrol, rfl⟩) (fun _ hop => by cases hop)
        fun result w' _ hens => hens result rfl) fun deleted w₃ hw₃ hsent => ?_
    exact keeps_bind (keeps_send hsent) fun _ _ _ => keeps_pure _

omit [Formats] in
/-- `core_node` lets valid nodes through, and the empty one. -/
theorem requiredNode_eq_ok {origin : Option Pb.NodeId} {absent : Status} {node : NodeId}
    (h : requiredNode origin absent = .ok node) : node.Valid ∨ node.isEmpty = true := by
  unfold requiredNode at h
  cases origin with
  | none => cases h
  | some origin =>
      change coreNode origin = .ok node at h
      unfold coreNode at h
      split_ifs at h with hempty
      · cases h
        exact Or.inr rfl
      · exact Or.inl (NodeId.new_eq_ok.mp (Except.mapError_eq_ok.mp h)).2

theorem keeps_enqueueFifo (request : Pb.EnqueueFifoRequest) :
    K.contract.Keeps i (enqueueFifo (K.node i) request) w := by
  refine keeps_bind (keeps_ofExcept _) fun queue w₁ hw₁ => ?_
  refine keeps_bind_of meets_writeTarget ?_
  rintro ⟨topic, source⟩ w₂ hw₂ ⟨hsource, -, -⟩
  refine keeps_bind_of (P := fun (target : NodeId) _ => target.Valid ∨ target.isEmpty = true)
    (meets_ofExcept ⟨K.refl w₂, fun _ h => requiredNode_eq_ok h⟩) fun target w₃ hw₃ htarget => ?_
  refine keeps_bind_of meets_newMessageId fun id w₄ hw₄ hid => ?_
  refine keeps_bind (keeps_mapError (keeps_callStore (fun _ _ => ⟨hsource, htarget⟩)
    fun _ hop => by cases hop)) fun stored w₅ hw₅ => ?_
  exact keeps_pure _

/-! ## Handlers that read or act on a front -/

theorem keeps_peekFifo (queue : String) : K.contract.Keeps i (peekFifo queue) w := by
  refine keeps_bind (keeps_ofExcept _) fun queue w₁ hw₁ => ?_
  refine keeps_bind (keeps_mapError (keeps_callStore (fun _ _ => trivial)
    fun _ hop => by cases hop)) fun (front : Option StoredFifoMessage) w₂ hw₂ => ?_
  cases front with
  | none => exact keeps_fail _
  | some m => exact keeps_pure _

theorem keeps_ackFifo (request : Pb.FifoFrontRequest) :
    K.contract.Keeps i (ackFifo request) w := by
  refine keeps_bind (keeps_ofExcept _) ?_
  rintro ⟨queue, messageId⟩ w₁ hw₁
  exact keeps_mapError (keeps_callStore (fun _ _ => trivial) fun _ hop => by cases hop)

theorem keeps_rejectFifo (request : Pb.FifoFrontRequest) :
    K.contract.Keeps i (rejectFifo request) w := by
  refine keeps_bind (keeps_ofExcept _) ?_
  rintro ⟨queue, messageId⟩ w₁ hw₁
  exact keeps_mapError (keeps_callStore (fun _ _ => trivial) fun _ hop => by cases hop)

end Knowledge

end Msgbus
