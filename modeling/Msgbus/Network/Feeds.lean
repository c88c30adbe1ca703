import Msgbus.Network.Publishers
import Msgbus.Server.Loop
import Msgbus.Server.Pinning

/-!
# Replicated logs, live

A daemon takes the logs of others in the passes of one task, and broadcasts each
message of an application topic right after it has stored it.  So, unlike those
of concurrent publishes, its broadcasts are in the order of the log, whatever
peers send and whichever calls fail: a subscriber of a replicated log sees no
gap.
-/

namespace Msgbus

open Program System Contract

namespace NodeId

theorem splitOn_key {node : NodeId} (h : node.Free '/') : node.key.toList.splitOn '/' =
    [node.tenantId.toList, node.blName.toList, node.deviceId.toList] :=
  TextKey.splitOn_eq_iff.mpr ⟨by simp, by simpa [Free] using h, toList_key node⟩

theorem eq_of_key_eq {node other : NodeId} (hfree : node.Free '/') (hkey : other.key = node.key) :
    other = node := by
  have hlists := congrArg String.toList hkey
  -- the key of the other has as many `/`, and two are those between its parts
  have hother : other.Free '/' := by
    have hcount := congrArg (List.count '/') hlists
    obtain ⟨htenant, hbl, hdevice⟩ := hfree
    simp only [key, String.toList_append, List.count_append, List.count_eq_zero_of_not_mem htenant,
      List.count_eq_zero_of_not_mem hbl, List.count_eq_zero_of_not_mem hdevice] at hcount
    refine ⟨?_, ?_, ?_⟩
    all_goals
      rw [← List.count_eq_zero]
      omega
  have hparts := (splitOn_key hother).symm.trans ((congrArg _ hlists).trans (splitOn_key hfree))
  obtain ⟨tenantId, blName, deviceId⟩ := node
  obtain ⟨tenantId', blName', deviceId'⟩ := other
  simpa [String.toList_inj] using hparts

end NodeId

variable {ι : Type}

/-! ## The contract of feeds -/

def Reached (w : ι → Logs) (i : ι) (m : StoredMessage) : Prop :=
  m.headId.toNat ≤ ((w i).current m.log).toNat

/-- Writes carry the identity of the daemon, a message of an application topic
that was put in is broadcast by the very next call, and nothing is broadcast that
the log has not reached. -/
def FeedRequires (node : ι → NodeId) (i : ι) (w : ι → Logs) :
    (c : Command) → (c.Answer → Option Command) → Prop
  | .store (.appendMessage msg), _ => msg.origin = node i
  | .store (.tombstoneRangeWithMarker _ _ _ _ _ markerOrigin), _ => markerOrigin = node i
  | .store (.putReplicatedMessage m), following => m.topic ≠ deleteTopic →
      following (Except.ok ReplicateResult.inserted) = some (.send m)
  | .send m, _ => Reached w i m
  | _, _ => True

def FeedEnsures (node : ι → NodeId) (i : ι) (w : ι → Logs) : (c : Command) → c.Answer → Prop
  | .store (.appendMessage _), (answer : Except MsgbusError StoredMessage) =>
      ∀ m, answer = .ok m → m.origin = node i ∧ Reached w i m
  | .store (.tombstoneRangeWithMarker _ _ _ _ _ _),
      (answer : Except MsgbusError (UInt64 × StoredMessage)) =>
      ∀ result, answer = .ok result → result.2.origin = node i ∧ Reached w i result.2
  | .store (.putReplicatedMessage m), (answer : Except MsgbusError ReplicateResult) =>
      answer = .ok .inserted → Reached w i m
  | _, _ => True

theorem FeedRequires.mono {node : ι → NodeId} {i : ι} {w : ι → Logs} {c : Command}
    {following following' : c.Answer → Option Command}
    (hfollow : ∀ answer c', following answer = some c' → following' answer = some c')
    (h : FeedRequires node i w c following) : FeedRequires node i w c following' := by
  cases c with
  | store op =>
      cases op with
      | putReplicatedMessage m => exact fun htopic => hfollow _ _ (h htopic)
      | _ => exact h
  | _ => exact h

def Advanced (w w' : ι → Logs) : Prop :=
  ∀ i k, ((w i).current k).toNat ≤ ((w' i).current k).toNat

def feedContract (node : ι → NodeId) : Contract ι (ι → Logs) Command Command.Answer where
  Later := Advanced
  refl := fun _ _ _ => Nat.le_refl _
  trans := fun h₁ h₂ i k => (h₁ i k).trans (h₂ i k)
  Requires := FeedRequires node
  requires_mono := FeedRequires.mono
  Ensures := FeedEnsures node

def Quiet (node : ι → NodeId) (i : ι) : Command → Prop
  | .store (.putReplicatedMessage _) => False
  | .send m => m.origin = node i
  | _ => True

def quietContract (node : ι → NodeId) : Contract ι (ι → Logs) Command Command.Answer :=
  (feedContract node).also fun i _ c => Quiet node i c

variable {node : ι → NodeId} {i : ι} {w : ι → Logs}

theorem Reached.later {w' : ι → Logs} {m : StoredMessage} (h : Reached w i m)
    (hlater : Advanced w w') : Reached w' i m :=
  h.trans (hlater i m.log)

/-! ### The task that synchronises -/

section Takes

variable [Formats]

theorem afterPut_inserted {m : StoredMessage} (h : m.topic ≠ deleteTopic) :
    afterPut m .inserted = send m := by
  have hnone : controlRange m = .ok none := controlRange_eq_none_iff.mpr (Or.inl h)
  unfold afterPut applyControlMessage
  rw [hnone]
  rfl

/-- A pass may take any message: what it inserts it broadcasts next. -/
theorem takes_feed (head : TopicHead) : Takes (feedContract node) i head where
  message := by
    intro spec m w
    by_cases hmatch : m.topic = head.topic ∧ m.origin = head.origin
    · rw [syncMessage_eq hmatch.1 hmatch.2]
      refine keeps_call ?_ ?_
      · intro w' _ htopic
        change (afterPut m .inserted).first = some (.send m)
        rw [afterPut_inserted htopic]
        rfl
      · intro answer w' _ hens
        have happly : ∀ w, (feedContract node).Keeps i
            ((applyControlMessage m).mapError Formats.statusText) w := fun w =>
          keeps_of_calls (calls_applyControlMessage (A := fun c => ∃ range : TombstoneRange,
            c = .store range.op) (fun range => ⟨range, rfl⟩) m).mapError
            (by rintro w' c following ⟨range, rfl⟩; exact trivial)
        rcases answer with e | (- | -)
        · exact keeps_fail _
        · change (feedContract node).Keeps i (afterPut m .inserted) w'
          refine keeps_bind (happly w') fun _ w'' hw'' => ?_
          refine keeps_call (fun w₃ hw₃ => ?_) fun _ _ _ _ => keeps_ret _
          exact ((hens rfl).later hw'').later hw₃
        · exact happly w'
    · rw [syncMessage, if_pos (not_and_or.mp hmatch)]
      exact keeps_fail _
  log := by
    intro w c following hcall
    cases hcall <;> exact trivial

theorem visits_feed : Visits (feedContract node) i where
  takes := takes_feed
  peer := by
    intro w c following hcall
    cases hcall <;> exact trivial

end Takes

/-! ### The requests of clients -/

inductive FifoCall : Command → Prop where
  | newMessageId : FifoCall .newMessageId
  | enqueue (m : NewFifoMessage) : FifoCall (.store (.enqueueFifo m))
  | peek (queue : QueueName) : FifoCall (.store (.peekFifo queue))
  | ack (queue : QueueName) (id : MessageId) : FifoCall (.store (.ackFifo queue id))
  | reject (queue : QueueName) (id : MessageId) : FifoCall (.store (.rejectFifo queue id))

theorem quiet_of_fifoCalls {ε α : Type} {p : Server ε α} (hp : Calls FifoCall p) :
    (quietContract node).Keeps i p w := by
  refine keeps_of_calls hp ?_
  intro w c following hcall
  cases hcall <;> exact ⟨trivial, trivial⟩

theorem quiet_publish (request : Pb.PublishRequest) :
    (quietContract node).Keeps i (publish (node i) request) w := by
  refine keeps_bind_of (P := fun target _ => target.2 = node i)
    (meets_ofExcept ⟨(quietContract node).refl w, fun _ h => (Knowledge.writeTarget_eq_ok h).1⟩) ?_
  rintro ⟨topic, origin⟩ w₁ - rfl
  refine keeps_call (fun _ _ => ⟨trivial, trivial⟩) fun id w₂ _ _ => ?_
  refine keeps_call (fun _ _ => ⟨rfl, trivial⟩) fun answer w₃ _ hens => ?_
  cases answer with
  | error e => exact keeps_fail _
  | ok stored =>
      obtain ⟨horigin, hreached⟩ := hens stored rfl
      exact keeps_call (fun _ hw' => ⟨hreached.later hw', horigin⟩) fun _ _ _ _ => keeps_ret _

theorem quiet_deleteRange (request : Pb.DeleteRangeRequest) :
    (quietContract node).Keeps i (deleteRange (node i) request) w := by
  refine keeps_bind (keeps_ofExcept _) ?_
  rintro ⟨topic, origin⟩ w₁ -
  refine keeps_bind (keeps_ofExcept _) fun controlTopic w₂ _ => ?_
  refine keeps_call (fun _ _ => ⟨rfl, trivial⟩) fun answer w₃ _ hens => ?_
  cases answer with
  | error e => exact keeps_fail _
  | ok deleted =>
      obtain ⟨horigin, hreached⟩ := hens deleted rfl
      exact keeps_call (fun _ hw' => ⟨hreached.later hw', horigin⟩) fun _ _ _ _ => keeps_ret _

theorem calls_enqueueFifo (local_ : NodeId) (request : Pb.EnqueueFifoRequest) :
    Calls FifoCall (enqueueFifo local_ request) := by
  refine (calls_ofExcept _).bind fun queue => (calls_ofExcept _).bind ?_
  rintro ⟨topic, source⟩
  refine (calls_ofExcept _).bind fun target => ⟨.newMessageId, fun id => ?_⟩
  exact (calls_callStore (.enqueue _)).mapError.bind fun _ => trivial

theorem calls_peekFifo (queue : String) : Calls FifoCall (peekFifo queue) := by
  refine (calls_ofExcept _).bind fun queue => ?_
  refine (calls_callStore (.peek queue)).mapError.bind fun (front : Option StoredFifoMessage) => ?_
  cases front with
  | none => exact trivial
  | some message => exact trivial

theorem calls_ackFifo (request : Pb.FifoFrontRequest) : Calls FifoCall (ackFifo request) := by
  refine (calls_ofExcept _).bind ?_
  rintro ⟨queue, messageId⟩
  exact (calls_callStore (.ack queue messageId)).mapError

theorem calls_rejectFifo (request : Pb.FifoFrontRequest) : Calls FifoCall (rejectFifo request) := by
  refine (calls_ofExcept _).bind ?_
  rintro ⟨queue, messageId⟩
  exact (calls_callStore (.reject queue messageId)).mapError

namespace Network

variable {N : Network ι}

inductive Handles (N : Network ι) (i : ι) : Server Unit Unit → Prop where
  | publish (request : Pb.PublishRequest) : Handles N i (publish (N.node i) request).discard
  | deleteRange (request : Pb.DeleteRangeRequest) :
      Handles N i (deleteRange (N.node i) request).discard
  | enqueueFifo (request : Pb.EnqueueFifoRequest) :
      Handles N i (enqueueFifo (N.node i) request).discard
  | peekFifo (queue : String) : Handles N i (peekFifo queue).discard
  | ackFifo (request : Pb.FifoFrontRequest) : Handles N i (ackFifo request).discard
  | rejectFifo (request : Pb.FifoFrontRequest) : Handles N i (rejectFifo request).discard

theorem Handles.quiet {p : Server Unit Unit} (h : N.Handles i p) (w : ι → Logs) :
    (quietContract N.node).Meets i p (fun _ _ => True) w := by
  cases h with
  | publish request => exact (quiet_publish request).discard
  | deleteRange request => exact (quiet_deleteRange request).discard
  | enqueueFifo request => exact (quiet_of_fifoCalls (calls_enqueueFifo _ request)).discard
  | peekFifo queue => exact (quiet_of_fifoCalls (calls_peekFifo queue)).discard
  | ackFifo request => exact (quiet_of_fifoCalls (calls_ackFifo request)).discard
  | rejectFifo request => exact (quiet_of_fifoCalls (calls_rejectFifo request)).discard

section Serving

variable [DecidableEq ι] [Formats]

/-- Daemons that serve requests, among peers that may return anything. -/
def serving (N : Network ι) : System ι N.Stores Command Command.Answer where
  Starts := N.Handles
  Answers := N.ExposedAnswers

/-- The synchronising tasks that `serve` spawns: one for a daemon at most. -/
structure SyncTasks (N : Network ι) (tasks : List (ι × Server Unit Unit)) : Prop where
  one : (tasks.map Prod.fst).Nodup
  peerSync : ∀ task ∈ tasks, ∃ (config : PeerSyncConfig) (wakes : List Wake),
    config.localNode = N.node task.1 ∧ task.2 = (peerSync config wakes).discard

theorem honours_feed : N.serving.Honours (feedContract N.node) N.view N.Inv := by
  intro i s c following answer s' hs hrequires hanswer
  have hadvanced : Advanced (N.view s) (N.view s') := headAt_le_of_answers hs hanswer
  by_cases hstore : ∃ op, c = .store op
  · obtain ⟨op, rfl⟩ := hstore
    obtain ⟨t, hstored, rfl⟩ := hanswer
    have hself : N.view (Function.update s i t) i = (N.storage i).logs t := by
      rw [view_update, Function.update_self]
    rcases storeAnswers_cases (hs i) hstored with
      ⟨env, result, -, rfl, ht, hstep⟩ | ⟨⟨e, rfl⟩, rfl⟩
    · refine ⟨inv_update hs ht, hadvanced, ?_⟩
      cases op with
      | appendMessage msg =>
          rintro m ⟨⟩
          obtain ⟨rfl, hlogs⟩ := hstep
          refine ⟨hrequires, ?_⟩
          unfold Reached
          rw [hself, show (N.storage i).logs t = _ from hlogs]
          exact Nat.le_of_eq (congrArg UInt64.toNat (Logs.current_append_self msg env.now)).symm
      | putReplicatedMessage m =>
          rintro ⟨⟩
          unfold Reached
          rw [hself]
          exact Logs.headId_le_of_put (wellFormed_view hs i) hstep
      | tombstoneRangeWithMarker topic origin first last markerTopic markerOrigin =>
          obtain ⟨count, marker⟩ := result
          obtain ⟨-, -, hmarker, hlogs⟩ := hstep
          rintro _ ⟨⟩
          change marker.origin = N.node i ∧ Reached _ i marker
          rw [show marker = _ from hmarker]
          refine ⟨hrequires, ?_⟩
          unfold Reached
          rw [hself, show (N.storage i).logs t = _ from hlogs]
          exact Nat.le_of_eq (congrArg UInt64.toNat (Logs.current_append_self _ env.later)).symm
      | _ => trivial
    · refine ⟨by rw [Function.update_eq_self]; exact hs, hadvanced, ?_⟩
      cases op with
      | appendMessage msg => rintro m ⟨⟩
      | putReplicatedMessage m => rintro ⟨⟩
      | tombstoneRangeWithMarker topic origin first last markerTopic markerOrigin =>
          rintro result ⟨⟩
      | _ => trivial
  · have hsame := exposedAnswers_eq_of_ne_store hanswer fun op hop => hstore ⟨op, hop⟩
    refine ⟨hsame ▸ hs, hadvanced, ?_⟩
    cases c with
    | store op => exact absurd ⟨op, rfl⟩ hstore
    | _ => trivial

theorem honours_quiet : N.serving.Honours (quietContract N.node) N.view N.Inv :=
  fun i s c following answer s' hs hrequires hanswer =>
    honours_feed i s c following answer s' hs hrequires.1 hanswer

/-! ## How heads move -/

section Heads

variable {s s' : N.Stores} {j : ι} {k : LogKey}

theorem headAt_of_ne {c : Command} {answer : c.Answer} (h : N.ExposedAnswers j s c answer s')
    (hij : i ≠ j) : N.headAt s' i k = N.headAt s i k := by
  by_cases hstore : ∃ op, c = .store op
  · obtain ⟨op, rfl⟩ := hstore
    obtain ⟨t, -, rfl⟩ := h
    unfold headAt
    rw [view_update, Function.update_of_ne hij]
  · rw [exposedAnswers_eq_of_ne_store h fun op hop => hstore ⟨op, hop⟩]

theorem headAt_of_answers {op : StoreOp} {answer : Command.Answer (.store op)} (hs : N.Inv s)
    (h : N.ExposedAnswers i s (.store op) answer s') (happends : op.appendsTo ≠ some k)
    (hputs : ∀ m, op = .putReplicatedMessage m → m.log ≠ k) :
    N.headAt s' i k = N.headAt s i k := by
  obtain ⟨t, hstore, rfl⟩ := h
  unfold headAt
  rw [view_update, Function.update_self]
  rcases storeAnswers_cases (hs i) hstore with ⟨env, result, -, -, -, hstep⟩ | ⟨-, rfl⟩
  · exact congrArg (fun head => (head.getD 0).toNat) (Logs.step_head_of_ne hstep happends hputs)
  · rfl

theorem headAt_of_put {m : StoredMessage} {answer : Command.Answer (.store (.putReplicatedMessage m))}
    (hs : N.Inv s) (h : N.ExposedAnswers i s (.store (.putReplicatedMessage m)) answer s')
    (hmoved : N.headAt s' i m.log ≠ N.headAt s i m.log) :
    answer = Except.ok ReplicateResult.inserted ∧ N.headAt s' i m.log = N.headAt s i m.log + 1 ∧
      m.headId.toNat = N.headAt s' i m.log := by
  have hle := headAt_le_of_answers hs h i m.log
  obtain ⟨t, hstore, rfl⟩ := h
  have hself : N.view (Function.update s i t) i = (N.storage i).logs t := by
    rw [view_update, Function.update_self]
  unfold headAt at hmoved hle ⊢
  rw [hself] at hmoved hle ⊢
  rcases storeAnswers_cases (hs i) hstore with ⟨env, result, -, rfl, -, hstep⟩ | ⟨-, rfl⟩
  · have hnext : (((N.storage i).logs t).current m.log).toNat ≤
        ((N.view s i).current m.log).toNat + 1 :=
      Logs.step_current_le (wellFormed_view hs i) hstep m.log
    obtain ⟨-, hput⟩ := hstep
    cases result with
    | alreadyPresent => exact absurd (by rw [show (N.storage i).logs t = _ from hput.2]; rfl) hmoved
    | inserted =>
        have hcurrent : (((N.storage i).logs t).current m.log).toNat =
            max ((N.view s i).current m.log).toNat m.headId.toNat := by
          rw [show (N.storage i).logs t = _ from hput.1, Logs.write_current_self, UInt64.toNat_max]
          rfl
        refine ⟨rfl, by omega, by omega⟩
  · exact absurd rfl hmoved

end Heads

omit [Formats] in
theorem broadcasts_of_none {events : List (Event ι Command Command.Answer)}
    {event : Event ι Command Command.Answer} (h : broadcast i event = none) :
    broadcasts i (event :: events) = broadcasts i events := by
  rw [broadcasts_cons, h, Option.toList_none, List.append_nil]

omit [Formats] in
theorem broadcast_eq_none {j : ι} {c : Command} {answer : c.Answer}
    (h : i ≠ j ∨ ∀ m, c ≠ .send m) : broadcast i (j, ⟨c, answer⟩) = none := by
  cases c with
  | send m =>
      rcases h with hij | hsend
      · exact if_neg hij.symm
      · exact absurd rfl (hsend m)
  | _ => rfl

/-! ## A feed -/

/-- The state of a log of another node at daemon `i`: what it gained since the
start has been broadcast in order, but for a last message that some task is about
to broadcast. -/
structure Feeding (N : Network ι) (s₀ : N.Stores) (i : ι) (topic : Topic) (origin : NodeId)
    (a : State ι (N.Stores × List (Event ι Command Command.Answer)) Command Command.Answer) :
    Prop where
  kept : Kept (feedContract N.node) (fun s => N.view s.1) (fun s => N.Inv s.1) a
  exclusive : Exclusive (quietContract N.node) (fun s => N.view s.1) a
  orderly : N.InOrder i topic origin (N.headAt s₀ i (LogKey.of topic origin)) a.shared
  sent : ∀ n, N.headAt s₀ i (LogKey.of topic origin) < n →
    n ≤ N.headAt a.shared.1 i (LogKey.of topic origin) →
      ∃ m, (m.topic = topic ∧ m.origin = origin) ∧ m.headId.toNat = n ∧
        (m ∈ broadcasts i a.shared.2 ∨ (a.AboutTo i (.send m) ∧
          n = N.headAt a.shared.1 i (LogKey.of topic origin)))

section Feeding

variable {s₀ : N.Stores} {topic : Topic} {origin : NodeId}
variable {a b : State ι (N.Stores × List (Event ι Command Command.Answer)) Command Command.Answer}

theorem feeding_start (hs : N.Inv s₀) {tasks : List (ι × Server Unit Unit)}
    (htasks : N.SyncTasks tasks) : N.Feeding s₀ i topic origin ⟨(s₀, []), tasks⟩ where
  kept := by
    refine ⟨hs, ?_⟩
    intro n j p htask
    obtain ⟨config, wakes, -, hp⟩ := htasks.peerSync _ (List.mem_of_getElem? htask)
    rw [show p = _ from hp]
    exact (visits_feed.peerSync config wakes).discard
  exclusive := exclusive_of_nodup htasks.one
  orderly := .of_le fun m hm => by cases hm
  sent := fun n hlt hle => absurd hle (Nat.not_le.mpr hlt)

/-- While a task takes a message, no other is about to broadcast one of another
node. -/
theorem Feeding.not_aboutTo (h : N.Feeding s₀ i topic origin a) (hforeign : origin ≠ N.node i)
    {n : Nat} {m m' : StoredMessage}
    {next : Command.Answer (.store (.putReplicatedMessage m)) → Server Unit Unit}
    (htask : a.tasks[n]? = some (i, .call (.store (.putReplicatedMessage m)) next))
    (horigin : m'.origin = origin) : ¬ a.AboutTo i (.send m') := by
  rintro ⟨l, q, hq, hfirst⟩
  have hnl : n ≠ l := by
    rintro rfl
    rw [htask] at hq
    cases hq
    cases hfirst
  have hquiet := h.exclusive.others htask (fun _ hrequires => hrequires.2) hnl hq
  cases q with
  | ret value => cases hfirst
  | fail error => cases hfirst
  | call c rest =>
      cases hfirst
      exact hforeign (horigin.symm.trans (hquiet _ ((quietContract N.node).refl _)).1.2)

theorem Feeding.idle (h : N.Feeding s₀ i topic origin a)
    (hkept : Kept (feedContract N.node) (fun s => N.view s.1) (fun s => N.Inv s.1) b)
    (hexclusive : Exclusive (quietContract N.node) (fun s => N.view s.1) b)
    (hhead : N.headAt b.shared.1 i (LogKey.of topic origin) =
      N.headAt a.shared.1 i (LogKey.of topic origin))
    (hbroadcasts : broadcasts i b.shared.2 = broadcasts i a.shared.2)
    (haboutTo : ∀ m, a.AboutTo i (.send m) → b.AboutTo i (.send m)) :
    N.Feeding s₀ i topic origin b where
  kept := hkept
  exclusive := hexclusive
  orderly := by
    unfold InOrder
    rw [hhead, hbroadcasts]
    exact h.orderly
  sent := by
    rw [hhead, hbroadcasts]
    intro n hlt hle
    obtain ⟨m, hconcerns, hposition, hsent⟩ := h.sent n hlt hle
    exact ⟨m, hconcerns, hposition, hsent.imp_right fun hpending =>
      ⟨haboutTo m hpending.1, hpending.2⟩⟩

section Answer

variable {s' : N.Stores} {n : Nat}

theorem Feeding.broadcast (h : N.Feeding s₀ i topic origin a) {m : StoredMessage}
    {next : Command.Answer (.send m) → Server Unit Unit} {answer : Command.Answer (.send m)}
    {b : State ι (N.Stores × List (Event ι Command Command.Answer)) Command Command.Answer}
    (hb : b = ⟨(a.shared.1, (i, ⟨.send m, answer⟩) :: a.shared.2), a.tasks.set n (i, next answer)⟩)
    (hkept : Kept (feedContract N.node) (fun s => N.view s.1) (fun s => N.Inv s.1) b)
    (hexclusive : Exclusive (quietContract N.node) (fun s => N.view s.1) b)
    (htask : a.tasks[n]? = some (i, .call (.send m) next)) : N.Feeding s₀ i topic origin b := by
  subst hb
  have hreached : Reached (N.view a.shared.1) i m := h.kept.requires htask
  refine ⟨hkept, hexclusive, ?_, ?_⟩
  · change Orderly _ _ (N.headAt a.shared.1 i _) (broadcasts i (_ :: a.shared.2))
    rw [broadcasts_send]
    refine Orderly.broadcast h.orderly ?_ ?_
    · rintro ⟨rfl, rfl⟩
      exact hreached
    · rintro ⟨rfl, rfl⟩ l hbase hlt
      have hle : l < N.headAt a.shared.1 i m.log := Nat.lt_of_lt_of_le hlt hreached
      obtain ⟨m', hconcerns, hposition, hsent | ⟨-, hlast⟩⟩ := h.sent l hbase (Nat.le_of_lt hle)
      · exact ⟨m', hsent, hconcerns, hposition⟩
      · exact absurd hlast (Nat.ne_of_lt hle)
  · intro l hbase hle
    change ∃ m', _ ∧ _ ∧ (m' ∈ broadcasts i (_ :: a.shared.2) ∨ _)
    rw [broadcasts_send]
    obtain ⟨m', hconcerns, hposition, hsent⟩ := h.sent l hbase hle
    refine ⟨m', hconcerns, hposition, ?_⟩
    by_cases hsame : m' = m
    · exact Or.inl (List.mem_append_right _ (List.mem_singleton.mpr hsame))
    · rcases hsent with hsent | ⟨hpending, hlast⟩
      · exact Or.inl (List.mem_append_left _ hsent)
      · refine Or.inr ⟨hpending.answer htask (Or.inr fun hc => hsame ?_), hlast⟩
        cases hc
        rfl

theorem Feeding.insert (htopic : topic ≠ deleteTopic) (hforeign : origin ≠ N.node i)
    (h : N.Feeding s₀ i topic origin a) {m : StoredMessage}
    {next : Command.Answer (.store (.putReplicatedMessage m)) → Server Unit Unit}
    {b : State ι (N.Stores × List (Event ι Command Command.Answer)) Command Command.Answer}
    (hb : b = ⟨(s', (i, ⟨.store (.putReplicatedMessage m), Except.ok ReplicateResult.inserted⟩) ::
      a.shared.2), a.tasks.set n (i, next (Except.ok ReplicateResult.inserted))⟩)
    (hkept : Kept (feedContract N.node) (fun s => N.view s.1) (fun s => N.Inv s.1) b)
    (hexclusive : Exclusive (quietContract N.node) (fun s => N.view s.1) b)
    (htask : a.tasks[n]? = some (i, .call (.store (.putReplicatedMessage m)) next))
    (hconcerns : m.topic = topic ∧ m.origin = origin)
    (hnext : N.headAt s' i (LogKey.of topic origin) =
      N.headAt a.shared.1 i (LogKey.of topic origin) + 1)
    (hposition : m.headId.toNat = N.headAt s' i (LogKey.of topic origin)) :
    N.Feeding s₀ i topic origin b := by
  subst hb
  have hbroadcasts : broadcasts i ((i, ⟨.store (.putReplicatedMessage m),
      Except.ok ReplicateResult.inserted⟩) :: a.shared.2) = broadcasts i a.shared.2 :=
    broadcasts_store i _ _
  refine ⟨hkept, hexclusive, ?_, ?_⟩
  · change Orderly _ _ (N.headAt s' i _) (broadcasts i (_ :: a.shared.2))
    rw [hbroadcasts, hnext]
    exact Orderly.mono h.orderly (Nat.le_succ _)
  · intro l hbase hle
    change l ≤ N.headAt s' i _ at hle
    change ∃ m', _ ∧ _ ∧ (m' ∈ broadcasts i (_ :: a.shared.2) ∨ (_ ∧ l = N.headAt s' i _))
    rw [hbroadcasts]
    by_cases hnew : l = N.headAt s' i (LogKey.of topic origin)
    · refine ⟨m, hconcerns, hposition.trans hnew.symm, Or.inr ⟨State.aboutTo_next htask ?_, hnew⟩⟩
      exact h.kept.requires htask (hconcerns.1 ▸ htopic)
    · obtain ⟨m', hconcerns', hposition', hsent | ⟨hpending, -⟩⟩ := h.sent l hbase (by omega)
      · exact ⟨m', hconcerns', hposition', Or.inl hsent⟩
      · exact absurd hpending (h.not_aboutTo hforeign htask hconcerns'.2)

end Answer

/-- A store call of the daemon leaves the head of the log, or inserts the next
message into it. -/
theorem put_of_headAt_ne (hforeign : origin ≠ N.node i) (hfree : origin.Free '/')
    (h : N.Feeding s₀ i topic origin a) {n : Nat} {op : StoreOp}
    {next : Command.Answer (.store op) → Server Unit Unit} {answer : Command.Answer (.store op)}
    {s' : N.Stores} (htask : a.tasks[n]? = some (i, .call (.store op) next))
    (hanswer : N.ExposedAnswers i a.shared.1 (.store op) answer s')
    (hmoved : N.headAt s' i (LogKey.of topic origin) ≠
      N.headAt a.shared.1 i (LogKey.of topic origin)) :
    ∃ m, op = .putReplicatedMessage m ∧ m.topic = topic ∧ m.origin = origin := by
  have hrequires := h.kept.requires htask
  have happends : op.appendsTo ≠ some (LogKey.of topic origin) := by
    intro happends
    have hnode : (N.node i).key = origin.key := by
      cases op with
      | appendMessage msg =>
          rw [← show msg.origin = N.node i from hrequires]
          exact congrArg LogKey.origin (Option.some.inj happends)
      | tombstoneRangeWithMarker _ _ _ _ markerTopic markerOrigin =>
          rw [← show markerOrigin = N.node i from hrequires]
          exact congrArg LogKey.origin (Option.some.inj happends)
      | _ => cases happends
    exact hforeign (NodeId.eq_of_key_eq hfree hnode).symm
  by_contra hnone
  refine hmoved (headAt_of_answers h.kept.1 hanswer happends fun m hop hlog => hnone ?_)
  exact ⟨m, hop, congrArg LogKey.topic hlog,
    NodeId.eq_of_key_eq hfree (congrArg LogKey.origin hlog)⟩

theorem Feeding.step (htopic : topic ≠ deleteTopic) (hforeign : origin ≠ N.node i)
    (hfree : origin.Free '/') (h : N.Feeding s₀ i topic origin a)
    (hstep : N.serving.traced.Step a b) : N.Feeding s₀ i topic origin b := by
  have hkept : Kept (feedContract N.node) (fun s => N.view s.1) (fun s => N.Inv s.1) b :=
    kept_step (fun _ _ w hstart => (Handles.quiet hstart w).of_also) honours_feed.traced h.kept hstep
  have hexclusive : Exclusive (quietContract N.node) (fun s => N.view s.1) b :=
    exclusive_step (fun _ _ w hstart => Handles.quiet hstart w) honours_quiet.traced h.kept.1
      (h.kept.later honours_feed.traced hstep) h.exclusive hstep
  cases hstep with
  | start hstart => exact h.idle hkept hexclusive rfl rfl fun m hpending => hpending.start _
  | @answer n j c next answer s' htask hanswer =>
      obtain ⟨s', events⟩ := s'
      obtain ⟨hanswer, rfl⟩ := hanswer
      change N.ExposedAnswers j a.shared.1 c answer s' at hanswer
      by_cases hsend : i = j ∧ ∃ m, c = .send m
      · obtain ⟨rfl, m, rfl⟩ := hsend
        cases hanswer
        exact h.broadcast rfl hkept hexclusive htask
      · have hother : i ≠ j ∨ ∀ m, c ≠ .send m := by
          rw [not_and_or, not_exists] at hsend
          exact hsend
        by_cases hmoved : N.headAt s' i (LogKey.of topic origin) =
            N.headAt a.shared.1 i (LogKey.of topic origin)
        · exact h.idle hkept hexclusive hmoved (broadcasts_of_none (broadcast_eq_none hother))
            fun m hpending => hpending.answer htask (hother.imp_right fun hne => (hne m).symm)
        · -- only a message that is taken moves the head
          have hij : i = j := by
            by_contra hij
            exact hmoved (headAt_of_ne hanswer hij)
          subst hij
          cases c with
          | store op =>
              obtain ⟨m, rfl, rfl, rfl⟩ := put_of_headAt_ne hforeign hfree h htask hanswer hmoved
              obtain ⟨rfl, hnext, hposition⟩ := headAt_of_put h.kept.1 hanswer hmoved
              exact h.insert htopic hforeign rfl hkept hexclusive htask ⟨rfl, rfl⟩ hnext hposition
          | _ =>
              have hsame := exposedAnswers_eq_of_ne_store hanswer fun op hop => by cases hop
              exact absurd (congrArg (N.headAt · i _) hsame) hmoved

theorem feeding_of_reaches (hs : N.Inv s₀) {tasks : List (ι × Server Unit Unit)}
    (htasks : N.SyncTasks tasks) (htopic : topic ≠ deleteTopic) (hforeign : origin ≠ N.node i)
    (hfree : origin.Free '/') (hrun : N.serving.traced.Reaches ⟨(s₀, []), tasks⟩ a) :
    N.Feeding s₀ i topic origin a :=
  hrun.invariant (feeding_start hs htasks) fun _ _ h hstep => h.step htopic hforeign hfree hstep

end Feeding

/-! ## Streams of replicated logs -/

section Streams

variable {s₀ : N.Stores} {base : Nat} {t u : SubscribeStream}
variable {a b : State ι (N.Stores × List (Event ι Command Command.Answer)) Command Command.Answer}

theorem Follows.serve (h : N.Follows base i a.shared t) (hs : N.Inv a.shared.1)
    (hstep : N.serving.traced.Step a b) : N.Follows base i b.shared t := by
  cases hstep with
  | start hstart => exact h
  | answer htask hanswer =>
      unfold Follows
      rw [hanswer.2, broadcasts_cons]
      exact h.mono (headAt_le_of_answers hs hanswer.1 i t.log) _

/-- A stream that has read all broadcasts while none is due has delivered the log
up to its head. -/
theorem Follows.headAt_lt (h : N.Follows base i a.shared t) (hwhole : t.Whole base)
    (hbase : N.headAt s₀ i t.log ≤ base)
    (hfeeding : N.Feeding s₀ i t.query.topic t.query.origin a) (hphase : t.phase = .forwarding [])
    (hcursor : t.cursor = (broadcasts i a.shared.2).length)
    (hnone : ∀ m, t.Concerns m → ¬ a.AboutTo i (.send m)) :
    N.headAt a.shared.1 i t.log < t.query.fromHeadId.toNat + t.delivered.length := by
  have hreach : t.reach = t.query.fromHeadId.toNat + t.delivered.length := by
    unfold SubscribeStream.reach
    rw [SubscribeStream.pending_of_forwarding hphase]
    rfl
  have hbeyond := hwhole [] hphase
  have hread := h.read (by simp [hphase])
  rw [hcursor, List.take_length] at hread
  by_contra hmissing
  have hgained : N.headAt s₀ i t.log < N.headAt a.shared.1 i t.log := by omega
  obtain ⟨m, hconcerns, hposition, hsent | ⟨hpending, -⟩⟩ :=
    hfeeding.sent _ hgained (Nat.le_refl _)
  · have hlt := hread m hsent hconcerns
    rw [hposition] at hlt
    change N.headAt a.shared.1 i t.log ≤ base ∨ N.headAt a.shared.1 i t.log < t.reach at hlt
    omega
  · exact hnone m hconcerns hpending

/-- In every run in which each daemon synchronises in one task, whatever its peers
send, a stream of an application log of another node whose replay is not cut
delivers consecutive positions from the first one asked for on; and when it has
read all broadcasts while none of the log is due, it has delivered all that the
daemon holds. -/
theorem replicated_without_gap (hs : ∀ j, Reachable (s₀ j)) {tasks : List (ι × Server Unit Unit)}
    (htasks : N.SyncTasks tasks) {request : Pb.SubscribeRequest} {query : FetchQuery}
    (hquery : subscribeQuery (N.node i) request = .ok query) (htopic : query.topic ≠ deleteTopic)
    (hforeign : query.origin ≠ N.node i) (hfree : query.origin.Free '/')
    {a₀ a : State ι (N.Stores × List (Event ι Command Command.Answer)) Command Command.Answer}
    (hbefore : N.serving.traced.Reaches ⟨(s₀, []), tasks⟩ a₀)
    (hrun : Relation.ReflTransGen (Watches N.serving.traced i (N.FetchesWhole i))
      (a₀, .subscribe query (broadcasts i a₀.shared.2)) (a, t)) :
    t.delivered.map (·.headId.toNat) =
        List.range' (max request.fromHeadId 1).toNat t.delivered.length ∧
      (t.phase = .forwarding [] → t.cursor = (broadcasts i a.shared.2).length →
        (∀ m, t.Concerns m → ¬ a.AboutTo i (.send m)) →
          N.headAt a.shared.1 i (LogKey.of query.topic query.origin) <
            (max request.fromHeadId 1).toNat + t.delivered.length) := by
  have hfrom := subscribeQuery_fromHeadId hquery
  have hfirst : 1 ≤ query.fromHeadId.toNat := by
    rw [hfrom, UInt64.toNat_max]
    exact Nat.le_max_right _ _
  have hstart : N.Feeding s₀ i query.topic query.origin a₀ := feeding_of_reaches
    (fun j => Backend.inv_of_reachable (hs j)) htasks htopic hforeign hfree hbefore
  let base := N.headAt a₀.shared.1 i (LogKey.of query.topic query.origin)
  have hbase : N.headAt s₀ i (LogKey.of query.topic query.origin) ≤ base := hstart.orderly.base_le
  have hinvariant : N.Feeding s₀ i query.topic query.origin a ∧ t.query = query ∧
      N.Follows base i a.shared t ∧ t.Whole base := by
    refine watches_invariant (P := fun a t => N.Feeding s₀ i query.topic query.origin a ∧
      t.query = query ∧ N.Follows base i a.shared t ∧ t.Whole base) hrun
      ⟨hstart, rfl, SubscribeStream.gapless_subscribe hfirst hstart.orderly.le_head,
        SubscribeStream.whole_subscribe _ _⟩ ?_ ?_
    · rintro a b t ⟨hfeeding, hsame, hfollows, hwhole⟩ hstep
      exact ⟨hfeeding.step htopic hforeign hfree hstep, hsame,
        hfollows.serve hfeeding.kept.1 hstep, hwhole⟩
    · rintro a t u ⟨hfeeding, rfl, hfollows, hwhole⟩ hstep
      have hinOrder := Orderly.raise hfeeding.orderly hbase hfollows.base_le
      exact ⟨hfeeding, hstep.query_eq, hfollows.stream hwhole hfeeding.kept.1 hinOrder hstep⟩
  obtain ⟨hfeeding, rfl, hfollows, hwhole⟩ := hinvariant
  rw [← hfrom]
  exact ⟨hfollows.delivered_heads, hfollows.headAt_lt hwhole hbase hfeeding⟩

omit [Formats] in
theorem keptByCalls_broadcasts (i : ι) (channel : List StoredMessage) :
    KeptByCalls i fun events => broadcasts i events = channel := by
  intro events c answer hc hchannel
  rw [broadcasts_cons, hchannel]
  cases c with
  | send m => exact absurd rfl (hc m)
  | _ => exact List.append_nil _

theorem Settled.exists_recorded_syncMessage {w : ι → Logs}
    {s : N.Stores × List (Event ι Command Command.Answer)} {channel : List StoredMessage}
    (hs : Recording (N.Settled w) (fun events => broadcasts i events = channel) s)
    {m : StoredMessage} (hnext : ((w i).current m.log).toNat + 1 = m.headId.toNat)
    (hcontrol : controlRange m = .ok none)
    (haccepts : @Backend.Accepts _ (N.storage i).Store (instBackendStore _) (w i) ⟨0, 0, ⟨"m"⟩⟩
      (.putReplicatedMessage m)) (peer : PeerSpec) :
    ∃ s', Runs ((N.exposed.restrict fun _ _ _ _ => True).traced.Answers i) s
        (syncMessage peer ⟨m.topic, m.origin, m.headId⟩ m) (.ok ()) s' ∧
      Recording (N.Settled (Function.update w i ((w i).write m.log m.headId ((w i).stamp m))))
        (fun events => broadcasts i events = channel ++ [m]) s' := by
  have hfree : N.Lenient fun _ _ _ _ => True := fun _ _ _ _ _ _ _ _ => trivial
  obtain ⟨s₁, hput, hs₁⟩ := hs.1.put hfree hnext haccepts
  have hsend : (N.exposed.restrict fun _ _ _ _ => True).Answers i s₁ (.send m) () s₁ :=
    exposedAnswers_of_answers (hs₁.send hfree m)
  let stored : Event ι Command Command.Answer :=
    (i, ⟨.store (.putReplicatedMessage m), Except.ok ReplicateResult.inserted⟩)
  let sent : Event ι Command Command.Answer := (i, ⟨.send m, ()⟩)
  have hput' : (N.exposed.restrict fun _ _ _ _ => True).traced.Answers i s
      (.store (.putReplicatedMessage m)) (Except.ok ReplicateResult.inserted)
      (s₁, stored :: s.2) := ⟨exposedAnswers_of_answers hput, rfl⟩
  have hsend' : (N.exposed.restrict fun _ _ _ _ => True).traced.Answers i (s₁, stored :: s.2)
      (.send m) () (s₁, sent :: stored :: s.2) := ⟨hsend, rfl⟩
  refine ⟨_, runs_syncMessage rfl rfl hcontrol hput' hsend', hs₁, ?_⟩
  exact (broadcasts_send m ()).trans
    (congrArg (· ++ [m]) ((broadcasts_store i _ _).trans hs.2))

theorem Settled.exists_recorded_syncOnce {w : ι → Logs} {s : N.Stores} (hs : N.Settled w s)
    (events : List (Event ι Command Command.Answer)) {remote : NodeId} (hvalid : remote.Valid)
    (hne : remote ≠ N.node i) {m : StoredMessage} {listed : Pb.TopicHead}
    (hhead : coreTopicHead listed = .ok ⟨m.topic, m.origin, m.headId⟩)
    {envelope : Pb.MessageEnvelope} (hmessage : coreMessage envelope = .ok m)
    (hnext : ((w i).current m.log).toNat + 1 = m.headId.toNat) (hcontrol : controlRange m = .ok none)
    (haccepts : @Backend.Accepts _ (N.storage i).Store (instBackendStore _) (w i) ⟨0, 0, ⟨"m"⟩⟩
      (.putReplicatedMessage m)) :
    ∃ s', Runs (N.serving.traced.Answers i) (s, events)
        (syncOnce ⟨N.node i, [⟨"peer", none⟩], 1⟩) (.ok ()) s' ∧
      N.Settled (Function.update w i ((w i).write m.log m.headId ((w i).stamp m))) s'.1 ∧
      broadcasts i s'.2 = broadcasts i events ++ [m] := by
  let w' := Function.update w i ((w i).write m.log m.headId ((w i).stamp m))
  have hfree : N.Lenient fun _ _ _ _ => True := fun _ _ _ _ _ _ _ _ => trivial
  have hbehind : (w i).current (LogKey.of m.topic m.origin) < m.headId := by
    rw [UInt64.lt_iff_toNat_lt]
    exact hnext ▸ Nat.lt_succ_self _
  have hone : OneBehind ((N.exposed.restrict fun _ _ _ _ => True).Answers i) (N.Settled w)
      ⟨"peer", none⟩ ⟨m.topic, m.origin, m.headId⟩ 1 _ envelope m :=
    hfree.oneBehind hmessage rfl hbehind 1
  have hfetched := OneBehind.traced hone (keptByCalls_broadcasts i (broadcasts i events))
  have hlists : ListsOne ((N.exposed.restrict fun _ _ _ _ => True).traced.Answers i)
      (Recording (N.Settled w) fun record => broadcasts i record = broadcasts i events)
      (Recording (N.Settled w) fun record => broadcasts i record = broadcasts i events) (N.node i)
      ⟨"peer", none⟩ listed ⟨m.topic, m.origin, m.headId⟩ :=
    ListsOne.traced (hfree.listsOne hvalid hne hhead) (keptByCalls_broadcasts i _)
      fun record => keptByCalls_broadcasts i _ record _ _ fun _ hc => by cases hc
  have hafter := Calm.traced (hfree.exposedCalm i w')
    (keptByCalls_broadcasts i (broadcasts i events ++ [m]))
  have hstart : Recording (N.Settled w) (fun record => broadcasts i record = broadcasts i events)
      (s, events) := ⟨hs, rfl⟩
  obtain ⟨s', hruns, hs'⟩ := hlists.runs_syncOnce hafter (fun s hs => hfetched.runs_syncHead hafter
    (fun s hs => Settled.exists_recorded_syncMessage hs hnext hcontrol haccepts _) hs) hstart
  exact ⟨s', hruns.mono fun _ _ _ _ hanswer => ⟨hanswer.1.2, hanswer.2⟩, hs'⟩

def foreignNext : StoredMessage :=
  ⟨⟨"n"⟩, ⟨"t"⟩, ⟨"x", "y", "z"⟩, 2, .empty, .empty, 0, false⟩

noncomputable def takenLogs : Logs := Logs.empty.write foreign.log 1 (Logs.empty.stamp foreign)

theorem exists_taken :
    ∃ s : solo.Stores × List (Event Unit Command Command.Answer),
      Runs (solo.serving.traced.Answers ()) (solo.fresh, [])
        (syncOnce ⟨solo.node (), [⟨"peer", none⟩], 1⟩) (.ok ()) s ∧
      solo.Settled (fun _ => takenLogs) s.1 ∧ broadcasts () s.2 = [foreign] ∧
      ∃ s', Runs (solo.serving.traced.Answers ()) s
          (syncOnce ⟨solo.node (), [⟨"peer", none⟩], 1⟩) (.ok ()) s' ∧
        broadcasts () s'.2 = [foreign] ++ [foreignNext] := by
  have hhead (n : HeadId) : coreTopicHead (protoTopicHead ⟨⟨"t"⟩, ⟨"x", "y", "z"⟩, n⟩) =
      .ok ⟨⟨"t"⟩, ⟨"x", "y", "z"⟩, n⟩ :=
    coreTopicHead_protoTopicHead (Or.inl (show NodeId.Valid ⟨"x", "y", "z"⟩ by decide))
      (show ValidPart "t" by decide)
  have hne : (⟨"x", "y", "z"⟩ : NodeId) ≠ solo.node () := by decide
  have hfirst : coreMessage (protoMessage foreign) = .ok foreign :=
    coreMessage_protoMessage (by decide) (by decide) (by decide) (by decide)
  have hsecond : coreMessage (protoMessage foreignNext) = .ok foreignNext :=
    coreMessage_protoMessage (by decide) (by decide) (by decide) (by decide)
  obtain ⟨s, hpass, hs, hsent⟩ := (settled_fresh (N := solo)).exists_recorded_syncOnce []
    (show NodeId.Valid ⟨"x", "y", "z"⟩ by decide) hne (hhead 1) hfirst rfl rfl trivial
  have hlogs : Function.update (fun _ => Logs.empty) () takenLogs = fun _ => takenLogs :=
    funext fun _ => rfl
  have hnext : (takenLogs.current foreignNext.log).toNat + 1 = foreignNext.headId.toNat := by
    change ((takenLogs.current foreign.log).toNat + 1) = 2
    rw [takenLogs, Logs.write_current_self]
    rfl
  have hs' : solo.Settled (fun _ => takenLogs) s.1 := hlogs ▸ hs
  obtain ⟨s', hpass', -, hsent'⟩ := hs'.exists_recorded_syncOnce s.2
    (show NodeId.Valid ⟨"x", "y", "z"⟩ by decide) hne (hhead 2) hsecond hnext rfl trivial
  exact ⟨s, hpass, hs', hsent, s', hpass', hsent'.trans (congrArg (· ++ _) hsent)⟩

theorem fetchesWhole_taken {s : solo.Stores} (hs : solo.Settled (fun _ => takenLogs) s) :
    solo.FetchesWhole () s ⟨⟨"t"⟩, ⟨"x", "y", "z"⟩, 1, 1⟩ (.ok [Logs.empty.stamp foreign]) := by
  have hcurrent : (solo.view s ()).current foreign.log = 1 := by
    rw [hs.2, takenLogs, Logs.write_current_self]
    rfl
  have hm : (solo.view s ()).message foreign.log ((solo.view s ()).current foreign.log) =
      some (Logs.empty.stamp foreign) := by
    rw [hcurrent, hs.2]
    exact Logs.write_message_self
  have hfetch := fetches_solo hs.1 ⟨⟨"t"⟩, ⟨"x", "y", "z"⟩, 1, 1⟩
  change solo.Fetches () s _
    (.ok ((solo.view s ()).window foreign.log 1 (effectiveLimit 1))) at hfetch
  rw [← hcurrent, Logs.window_current (hs.2 ▸ hs.wellFormed ()) hm (effectiveLimit_pos 1),
    hcurrent] at hfetch
  refine ⟨hfetch, fun _ _ => ?_⟩
  change ((solo.view s ()).current foreign.log).toNat < 1 + effectiveLimit 1
  rw [hcurrent]
  exact Nat.lt_add_of_pos_right (effectiveLimit_pos 1)

theorem advances_tick {S : Type} {answers : S → (c : Command) → c.Answer → S → Prop} {s s' : S}
    {config : PeerSyncConfig} (h : Runs answers s (syncOnce config) (.ok ()) s')
    (wakes : List Wake) :
    Advances answers s (peerSync config (.tick :: wakes)).discard s'
      (peerSync config wakes).discard :=
  ((Advances.of_runs h).attempt.bind _).discard

omit [DecidableEq ι] [Formats] in
/-- A stream replays the message that one pass has taken and forwards the one that
the next pass takes. -/
theorem replicated_without_gap_two : letI := Serde.formats
    ∃ (tasks : List (Unit × Server Unit Unit))
      (a b : State Unit (solo.Stores × List (Event Unit Command Command.Answer)) Command
        Command.Answer) (t : SubscribeStream) (m m' : StoredMessage), solo.SyncTasks tasks ∧
      solo.serving.traced.Reaches ⟨(solo.fresh, []), tasks⟩ a ∧
      Relation.ReflTransGen (Watches solo.serving.traced () (solo.FetchesWhole ()))
        (a, .subscribe ⟨⟨"t"⟩, ⟨"x", "y", "z"⟩, 1, 1⟩ (broadcasts () a.shared.2)) (b, t) ∧
      t.delivered = [m, m'] ∧ t.delivered.map (·.headId.toNat) = [1, 2] := by
  let := Serde.formats
  obtain ⟨⟨s, events⟩, hpass, hs, hsent, s', hpass', hsent'⟩ := exists_taken
  let config : PeerSyncConfig := ⟨solo.node (), [⟨"peer", none⟩], 1⟩
  have htasks : solo.SyncTasks [((), (peerSync config [.tick, .tick]).discard)] := by
    refine ⟨List.nodup_singleton (), ?_⟩
    intro task hmem
    rw [List.mem_singleton.mp hmem]
    exact ⟨config, [.tick, .tick], rfl, rfl⟩
  have hbefore : solo.serving.traced.Reaches
      ⟨(solo.fresh, []), [((), (peerSync config [.tick, .tick]).discard)]⟩
      ⟨(s, events), [((), (peerSync config [.tick]).discard)]⟩ :=
    reaches_of_advances (n := 0) (advances_tick hpass [.tick]) rfl
  have hafter : solo.serving.traced.Reaches
      ⟨(s, events), [((), (peerSync config [.tick]).discard)]⟩
      ⟨s', [((), (peerSync config []).discard)]⟩ :=
    reaches_of_advances (n := 0) (advances_tick hpass' []) rfl
  let b : State Unit (solo.Stores × List (Event Unit Command Command.Answer)) Command
    Command.Answer := ⟨s', [((), (peerSync config []).discard)]⟩
  obtain ⟨t, hforwarded, hdelivered⟩ := @exists_forwarded Unit _ _ solo.serving.traced ()
    (solo.FetchesWhole ()) b ⟨⟨"t"⟩, ⟨"x", "y", "z"⟩, 1, 1⟩ [foreign] (Logs.empty.stamp foreign)
    foreignNext hsent' rfl rfl (show (1 : UInt64) < 2 by decide)
  have hreplayed := @watches_replayedOne Unit _ _ solo.serving.traced () (solo.FetchesWhole ())
    ⟨(s, events), [((), (peerSync config [.tick]).discard)]⟩ _ _ (fetchesWhole_taken hs)
  have hrun : Relation.ReflTransGen (Watches solo.serving.traced () (solo.FetchesWhole ()))
      (⟨(s, events), [((), (peerSync config [.tick]).discard)]⟩,
        .subscribe ⟨⟨"t"⟩, ⟨"x", "y", "z"⟩, 1, 1⟩ (broadcasts () events)) (b, t) := by
    change Relation.ReflTransGen _ _ (_, replayedOne _ (broadcasts () events) _) at hreplayed
    rw [hsent] at hreplayed ⊢
    exact (hreplayed.trans (watches_of_reaches hafter _)).tail hforwarded
  have hquery : subscribeQuery (solo.node ())
      ⟨"t", some (protoNode ⟨"x", "y", "z"⟩), 1, 1⟩ = .ok ⟨⟨"t"⟩, ⟨"x", "y", "z"⟩, 1, 1⟩ := rfl
  have hconsecutive := (replicated_without_gap (fun _ => .empty) htasks hquery (by decide)
    (by decide) (by decide) hbefore hrun).1
  refine ⟨_, _, b, t, _, _, htasks, hbefore, hrun, hdelivered, ?_⟩
  rw [hconsecutive, hdelivered]
  rfl

end Streams

end Serving

end Network

end Msgbus
