import Msgbus.Network.Completion

/-!
# Logs as histories

What the logs of a network are for: an owner's log is the history of the writes
it has acknowledged, in the order of their transactions, and every other daemon
holds, and serves, a prefix of that history.  Only deleted flags may differ.
-/

namespace Msgbus

open Program System

variable [Formats]

/-! ## What a call adds to a log -/

def StoreOp.appended : (op : StoreOp) → op.Result → Option StoredMessage
  | .appendMessage _, (stored : StoredMessage) => some stored
  | .tombstoneRangeWithMarker _ _ _ _ _ _, (deleted : UInt64 × StoredMessage) => some deleted.2
  | _, _ => none

def StoredMessage.content (m : StoredMessage) : StoredMessage := m.withDeleted false

namespace Logs

variable {b b' : Logs} {k : LogKey} {env : CallEnv} {op : StoreOp} {r : op.Result}

omit [Formats] in
theorem content_log_mark (hb : b.WellFormed) (k' : LogKey) (first last : HeadId) :
    ((b.mark k' first last).log k).map (·.content) = (b.log k).map (·.content) := by
  by_cases hk : k = k'
  · subst hk
    rw [log_mark hb, List.map_map]
    refine List.map_congr_left fun m _ => ?_
    simp only [Function.comp_apply]
    split_ifs
    · rfl
    · rfl
  · rw [log_mark_of_ne hk]

omit [Formats] in
theorem log_append (hb : b.WellFormed) {msg : NewMessage} {now : UInt64}
    (hlimit : b.current (LogKey.of msg.topic msg.origin) ≠ UInt64.maxValue) :
    (b.append msg now).log k =
      b.log k ++ ((some (b.appended msg now)).filter (·.log = k)).toList := by
  by_cases hk : (b.appended msg now).log = k
  · subst hk
    rw [Option.filter_some_pos (by simp)]
    refine log_write_next hb (wellFormed_append hb msg now) ?_
    have hlt := UInt64.toNat_lt (b.current (LogKey.of msg.topic msg.origin))
    have hne : (b.current (LogKey.of msg.topic msg.origin)).toNat ≠ 2 ^ 64 - 1 := by
      intro hmax
      exact hlimit (UInt64.toNat_inj.mp (hmax.trans UInt64.toNat_maxValue.symm))
    change ((b.current (LogKey.of msg.topic msg.origin)).saturatingAdd 1).toNat = _
    rw [UInt64.toNat_saturatingAdd_one]
    omega
  · have hother : (some (b.appended msg now)).filter (·.log = k) = none :=
      Option.filter_some_neg (by simp only [hk, decide_false])
    rw [hother, Option.toList_none, List.append_nil]
    exact log_write_of_ne fun heq => hk heq.symm

/-- Up to deleted flags, a call adds to a log exactly what it appends there,
unless it stores a message of that log for another daemon. -/
theorem content_log_step (hb : b.WellFormed)
    (hlimit : ∀ k ∈ op.appendsTo, b.current k ≠ UInt64.maxValue) (hstep : Step env op r b b')
    (hput : ∀ m, op = .putReplicatedMessage m → m.log ≠ k) :
    (b'.log k).map (·.content) =
      (b.log k ++ ((op.appended r).filter (·.log = k)).toList).map (·.content) := by
  have hsame : op.appended r = none → b' = b → (b'.log k).map (·.content) =
      (b.log k ++ ((op.appended r).filter (·.log = k)).toList).map (·.content) := by
    rintro hnone rfl
    rw [hnone]
    simp
  cases op with
  | appendMessage msg =>
      obtain ⟨rfl, rfl⟩ := hstep
      rw [log_append hb (hlimit _ rfl)]
      rfl
  | tombstoneRangeWithMarker topic origin first last markerTopic markerOrigin =>
      obtain ⟨-, -, hr, rfl⟩ := hstep
      have hmarked := wellFormed_mark hb (k := LogKey.of topic origin) first last
      change _ = (b.log k ++ ((some r.2).filter (·.log = k)).toList).map _
      rw [log_append hmarked (hlimit _ rfl), List.map_append, List.map_append,
        content_log_mark hb, hr]
  | putReplicatedMessage m =>
      have hne := hput m rfl
      cases r with
      | alreadyPresent => exact hsame rfl hstep.2.2
      | inserted =>
          rw [hstep.2.1, log_write_of_ne fun heq => hne heq.symm]
          simp [StoreOp.appended]
  | tombstoneRange topic origin first last =>
      obtain ⟨-, -, rfl⟩ := hstep
      rw [content_log_mark hb]
      simp [StoreOp.appended]
  | fetchMessages query => exact hsame rfl hstep.2
  | getHead topic origin => exact hsame rfl hstep.2
  | listHeads => exact hsame rfl hstep.2.2
  | enqueueFifo message => exact hsame rfl hstep
  | peekFifo queue => exact hsame rfl hstep
  | ackFifo queue messageId => exact hsame rfl hstep
  | rejectFifo queue messageId => exact hsame rfl hstep
  | recordPeerSyncState state => exact hsame rfl hstep
  | listPeerSyncStates => exact hsame rfl hstep

end Logs

/-! ## The acknowledged writes -/

def Command.appended : (c : Command) → c.Answer → Option StoredMessage
  | .store op, (answer : Except MsgbusError op.Result) =>
      match answer with
      | .ok r => op.appended r
      | .error _ => none
  | _, _ => none

namespace Network

variable {ι : Type} [DecidableEq ι] {N : Network ι}

def acknowledges (i : ι) (k : LogKey) (event : Event ι Command Command.Answer) :
    Option StoredMessage :=
  if event.1 = i then (event.2.1.appended event.2.2).filter (·.log = k) else none

/-- The writes to the log that a daemon has acknowledged, the oldest first. -/
def acknowledged (i : ι) (k : LogKey) (events : List (Event ι Command Command.Answer)) :
    List StoredMessage :=
  events.reverse.filterMap (acknowledges i k)

omit [Formats] in
theorem acknowledged_cons (i : ι) (k : LogKey) (event : Event ι Command Command.Answer)
    (events : List (Event ι Command Command.Answer)) :
    acknowledged i k (event :: events) =
      acknowledged i k events ++ (acknowledges i k event).toList := by
  unfold acknowledged
  rw [List.reverse_cons, List.filterMap_append]
  cases h : acknowledges i k event with
  | none => simp [h]
  | some m => simp [h]

theorem content_log_answer (hdistinct : N.Distinct) {i j : ι} {s s' : N.Stores} {c : Command}
    {answer : c.Answer} (hs : N.Agrees s)
    (hallows : (replicaKnowledge N.node).Allows j (N.view s) c) (hlimit : N.BelowLimit j s c answer)
    (hanswer : N.Answers j s c answer s') (topic : Topic) :
    ((N.view s' i).log (LogKey.of topic (N.node i))).map (·.content) =
      ((N.view s i).log (LogKey.of topic (N.node i)) ++
        (acknowledges i (LogKey.of topic (N.node i)) (j, ⟨c, answer⟩)).toList).map (·.content) := by
  by_cases hstore : ∃ op, c = .store op
  · obtain ⟨op, rfl⟩ := hstore
    obtain ⟨t, hstored, rfl⟩ := hanswer
    rw [view_update]
    by_cases hj : j = i
    · subst hj
      rw [Function.update_self, acknowledges, if_pos rfl]
      rcases storeAnswers_cases (hs.1 j) hstored with ⟨env, r, -, rfl, -, hstep⟩ | ⟨⟨e, rfl⟩, rfl⟩
      · refine Logs.content_log_step (wellFormed_view hs.1 j) hlimit hstep ?_
        -- A message that is stored for another daemon is of that daemon's log.
        rintro m rfl hlog
        have hkey : m.log.origin = (N.node j).key := by
          rw [hlog]
          rfl
        exact hallows.2 (hallows.1.at_owner hdistinct hkey).1
      · simp [Command.appended, view]
    · rw [Function.update_of_ne (Ne.symm hj), acknowledges, if_neg hj]
      simp
  · have hnone : acknowledges i (LogKey.of topic (N.node i)) (j, ⟨c, answer⟩) = none := by
      unfold acknowledges
      cases c with
      | store op => exact absurd ⟨op, rfl⟩ hstore
      | _ => simp [Command.appended]
    rw [answers_eq_of_ne_store hanswer fun op hc => hstore ⟨op, hc⟩, hnone]
    simp

def OwnHistories (N : Network ι) (s : N.Stores) (events : List (Event ι Command Command.Answer)) :
    Prop :=
  ∀ i topic, ((N.view s i).log (LogKey.of topic (N.node i))).map (·.content) =
    (acknowledged i (LogKey.of topic (N.node i)) events).map (·.content)

theorem ownHistories_fresh : N.OwnHistories N.fresh [] := by
  intro i topic
  rw [view_fresh]
  rfl

theorem OwnHistories.answer (hdistinct : N.Distinct) {j : ι} {s s' : N.Stores}
    {events : List (Event ι Command Command.Answer)} {c : Command} {answer : c.Answer}
    (h : N.OwnHistories s events) (hs : N.Agrees s)
    (hallows : (replicaKnowledge N.node).Allows j (N.view s) c) (hlimit : N.BelowLimit j s c answer)
    (hanswer : N.Answers j s c answer s') : N.OwnHistories s' ((j, ⟨c, answer⟩) :: events) := by
  intro i topic
  rw [content_log_answer hdistinct hs hallows hlimit hanswer topic, acknowledged_cons,
    List.map_append, List.map_append, h i topic]

omit [DecidableEq ι] in
theorem Agrees.content_log_prefix (hdistinct : N.Distinct) {s : N.Stores} (hs : N.Agrees s)
    (x owner : ι) (topic : Topic) :
    ((N.view s x).log (LogKey.of topic (N.node owner))).map (·.content) <+:
      ((N.view s owner).log (LogKey.of topic (N.node owner))).map (·.content) := by
  have hwf := wellFormed_view hs.1
  refine Logs.map_log_prefix (hwf x) (hwf owner) ?_
  intro n m hm
  obtain ⟨m', hm', hkeep⟩ := hs.message_at_owner hdistinct hm
  exact ⟨m', hm', by rw [hkeep.1]; rfl⟩

/-- While the replicas agree, the log that a daemon holds of an owner is the first
part of the owner's history, and the owner holds all of it. -/
theorem OwnHistories.log_eq (hdistinct : N.Distinct) {s : N.Stores}
    {events : List (Event ι Command Command.Answer)} (h : N.OwnHistories s events)
    (hs : N.Agrees s) (x owner : ι) (topic : Topic) :
    ((N.view s x).log (LogKey.of topic (N.node owner))).map (·.content) =
        ((acknowledged owner (LogKey.of topic (N.node owner)) events).map (·.content)).take
          ((N.view s x).current (LogKey.of topic (N.node owner))).toNat ∧
      ((N.view s owner).current (LogKey.of topic (N.node owner))).toNat =
        (acknowledged owner (LogKey.of topic (N.node owner)) events).length := by
  have hwf := wellFormed_view hs.1
  have hlength := congrArg List.length (h owner topic)
  rw [List.length_map, List.length_map, Logs.length_log (hwf owner)] at hlength
  refine ⟨?_, hlength⟩
  have hprefix := hs.content_log_prefix hdistinct x owner topic
  rw [h owner topic] at hprefix
  have htake := List.prefix_iff_eq_take.mp hprefix
  rw [List.length_map, Logs.length_log (hwf x)] at htake
  exact htake

variable {a b : State ι (N.Stores × List (Event ι Command Command.Answer)) Command Command.Answer}

theorem honours_below (hdistinct : N.Distinct) : (N.system.restrict N.BelowLimit).Honours
    (replicaKnowledge N.node).contract N.view N.Agrees :=
  honours hdistinct fun _ _ _ _ h => h

theorem ownHistories_of_reaches (hdistinct : N.Distinct)
    (hrun : (N.system.restrict N.BelowLimit).traced.Reaches (.init (N.fresh, [])) a) :
    Kept (replicaKnowledge N.node).contract (fun s => N.view s.1) (fun s => N.Agrees s.1) a ∧
      N.OwnHistories a.shared.1 a.shared.2 := by
  have hhonours := (honours_below hdistinct).traced
  induction hrun with
  | refl =>
      refine ⟨⟨agrees_fresh, ?_⟩, ownHistories_fresh⟩
      intro n i p htask
      cases htask
  | tail hreach hstep ih =>
      obtain ⟨hkept, hown⟩ := ih
      refine ⟨kept_step (fun _ _ w hstarts => meets_of_starts rfl hstarts w) hhonours hkept hstep, ?_⟩
      cases hstep with
      | start hstart => exact hown
      | @answer n j c next answer s' htask hanswer =>
          obtain ⟨⟨hlimit, hanswer⟩, hrecorded⟩ := hanswer
          have hnext := hown.answer hdistinct hkept.1 (hkept.requires htask).1 hlimit hanswer
          rw [← hrecorded] at hnext
          exact hnext

/-- In every recorded run below the counter limit: the log that a daemon holds of
an owner is, up to deleted flags, the first part of the writes that the owner has
acknowledged, in the order of their transactions; the owner itself holds all of
them. -/
theorem log_eq_acknowledged (hdistinct : N.Distinct)
    (hrun : (N.system.restrict N.BelowLimit).traced.Reaches (.init (N.fresh, [])) a)
    (x owner : ι) (topic : Topic) :
    ((N.view a.shared.1 x).log (LogKey.of topic (N.node owner))).map (·.content) =
        ((acknowledged owner (LogKey.of topic (N.node owner)) a.shared.2).map (·.content)).take
          ((N.view a.shared.1 x).current (LogKey.of topic (N.node owner))).toNat ∧
      ((N.view a.shared.1 owner).current (LogKey.of topic (N.node owner))).toNat =
        (acknowledged owner (LogKey.of topic (N.node owner)) a.shared.2).length := by
  obtain ⟨hkept, hown⟩ := ownHistories_of_reaches hdistinct hrun
  exact hown.log_eq hdistinct hkept.1 x owner topic

theorem exists_filled_both {n : Nat} (hn : n < 2 ^ 64) :
    ∃ a, ((pair .redb).system.restrict (pair .redb).BelowLimit).Reaches
        (.init (pair .redb).fresh) a ∧ (pair .redb).Rests (fun _ => filled n) a :=
  exists_filled lenient_belowLimit (fun _ hn => permits_belowLimit hn) hn

omit [Formats] in
/-- A daemon holds the first of two writes that the owner has acknowledged. -/
theorem log_eq_acknowledged_two : letI := Serde.formats
    ∃ a : State Bool ((pair .redb).Stores × List (Event Bool Command Command.Answer)) Command
        Command.Answer,
      ((pair .redb).system.restrict (pair .redb).BelowLimit).traced.Reaches
        (.init ((pair .redb).fresh, [])) a ∧
      (acknowledged true entryLog a.shared.2).length = 2 ∧
      (((pair .redb).view a.shared.1 false).log entryLog).length = 1 ∧
      (((pair .redb).view a.shared.1 false).log entryLog).map (·.content) =
        ((acknowledged true entryLog a.shared.2).map (·.content)).take 1 := by
  let := Serde.formats
  obtain ⟨a, hrounds, ha⟩ := exists_filled_both (n := 1) (by decide)
  obtain ⟨b, hpublish, hb⟩ := ha.exists_publish ⟨0, 0, ⟨"m"⟩⟩ "t" .empty .empty (by decide)
    (by decide) (by decide) lenient_belowLimit (permits_belowLimit (by decide)) trivial
  obtain ⟨events, hrun⟩ := Reaches.recorded (hrounds.trans hpublish) []
  obtain ⟨hlog, hall⟩ := log_eq_acknowledged (distinct_pair .redb) hrun false true ⟨"t"⟩
  have hone : (((pair .redb).view b.shared false).current entryLog).toNat = 1 := by
    rw [hb.1.2]
    exact current_filled 1 (by decide)
  have htwo : (((pair .redb).view b.shared true).current entryLog).toNat = 2 := by
    rw [hb.1.2]
    exact current_filled 2 (by decide)
  refine ⟨⟨(b.shared, events), b.tasks⟩, hrun, hall.symm.trans htwo, ?_, ?_⟩
  · have hwf := wellFormed_view (fun i => Backend.inv_of_reachable (hb.1.1 i)) false
    exact (Logs.length_log hwf).trans hone
  · exact hlog.trans (congrArg (List.take · _) hone)

/-! ## A client that reads while the network runs -/

end Network

def Pb.MessageEnvelope.content (envelope : Pb.MessageEnvelope) : Pb.MessageEnvelope :=
  { envelope with deleted := false }

/-- The position a client goes on from: the next one after the last message it has
read, as `sync_head` counts it. -/
def nextPosition (first : UInt64) (read : List Pb.MessageEnvelope) : UInt64 :=
  match read.getLast? with
  | none => first
  | some last => last.headId.saturatingAdd 1

theorem window_of_serves_fetch {σ : Type} [Backend σ] {s : σ} {node origin : NodeId}
    {request : Pb.FetchRequest} {items : List Pb.FetchResponse} (hs : Backend.Inv s)
    (horigin : requestOrigin node request.origin = .ok origin)
    (h : Serves s (fetch node request) items) :
    items = ((Backend.logs s).window (LogKey.of ⟨request.topic⟩ origin) (max request.fromHeadId 1)
      (effectiveLimit request.limit)).map fun m => ⟨some (protoMessage m)⟩ := by
  obtain ⟨s', hruns⟩ := h
  obtain ⟨topic, s₁, hparsed, hafter⟩ := hruns.of_bind
  obtain ⟨htopic, rfl⟩ := hparsed.of_ofExcept
  obtain ⟨-, rfl⟩ := Topic.new_eq_ok.mp (Except.mapError_eq_ok.mp htopic)
  obtain ⟨origin', s₂, hresolved, hread⟩ := hafter.of_bind
  obtain ⟨heq, rfl⟩ := hresolved.of_ofExcept
  rw [horigin] at heq
  cases heq
  obtain ⟨messages, s₃, hcall, hpure⟩ := hread.of_bind
  obtain ⟨rfl, -⟩ := hpure.of_pure
  rcases storeAnswers_cases hs (storeAnswers_of_runs hcall) with
    ⟨env, result, -, hresult, -, hstep⟩ | ⟨⟨e, herror⟩, -⟩
  · cases hresult
    rw [hstep.1]
  · cases herror

namespace Network

variable {ι : Type} [DecidableEq ι] {N : Network ι}
variable {a b : State ι (N.Stores × List (Event ι Command Command.Answer)) Command Command.Answer}

/-- A client has read the messages from daemon `x` by the moment `a`: page after
page, with any limits, while the network runs between any two pages. -/
inductive Reads (N : Network ι) (x : ι) (topic : String) (origin : Option Pb.NodeId)
    (first : UInt64) : List Pb.MessageEnvelope →
      State ι (N.Stores × List (Event ι Command Command.Answer)) Command Command.Answer → Prop where
  | start {a : State ι (N.Stores × List (Event ι Command Command.Answer)) Command Command.Answer}
      (hrun : (N.system.restrict N.BelowLimit).traced.Reaches (.init (N.fresh, [])) a) :
      Reads N x topic origin first [] a
  | waits {read : List Pb.MessageEnvelope}
      {a b : State ι (N.Stores × List (Event ι Command Command.Answer)) Command Command.Answer}
      (h : Reads N x topic origin first read a)
      (hrun : (N.system.restrict N.BelowLimit).traced.Reaches a b) :
      Reads N x topic origin first read b
  | page {read : List Pb.MessageEnvelope}
      {a : State ι (N.Stores × List (Event ι Command Command.Answer)) Command Command.Answer}
      {items : List Pb.FetchResponse} (limit : UInt32) (h : Reads N x topic origin first read a)
      (hserves : Serves (a.shared.1 x)
        (fetch (N.node x) ⟨topic, origin, nextPosition first read, limit⟩) items) :
      Reads N x topic origin first (read ++ items.filterMap (·.message)) a

variable {x owner : ι} {topic : String} {origin : Option Pb.NodeId} {first : UInt64}
variable {read : List Pb.MessageEnvelope}

theorem Reads.reaches (h : N.Reads x topic origin first read a) :
    (N.system.restrict N.BelowLimit).traced.Reaches (.init (N.fresh, [])) a := by
  induction h with
  | start hrun => exact hrun
  | waits _ hrun ih => exact ih.trans hrun
  | page _ _ _ ih => exact ih

theorem grown_of_recorded (hdistinct : N.Distinct)
    (hrun : (N.system.restrict N.BelowLimit).traced.Reaches (.init (N.fresh, [])) a)
    (hlater : (N.system.restrict N.BelowLimit).traced.Reaches a b) :
    Grown (N.view a.shared.1) (N.view b.shared.1) := by
  have hhonours := (honours_below hdistinct).traced
  induction hlater with
  | refl => exact fun _ => .refl _
  | tail hreach hstep ih =>
      have hkept := (ownHistories_of_reaches hdistinct (hrun.trans hreach)).1
      exact fun y => (ih y).trans (hkept.later hhonours hstep y)

def served (N : Network ι) (s : N.Stores) (x : ι) (k : LogKey) : List Pb.MessageEnvelope :=
  ((N.view s x).log k).map fun m => (protoMessage m).content

omit [DecidableEq ι] in
theorem served_grows {s s' : N.Stores} (hs : N.Inv s) (hs' : N.Inv s')
    (hgrown : Grown (N.view s) (N.view s')) (k : LogKey) : N.served s x k <+: N.served s' x k := by
  refine Logs.map_log_prefix (wellFormed_view hs x) (wellFormed_view hs' x) ?_
  intro n m hm
  obtain ⟨m', hm', hkeep⟩ := (hgrown x).message k n m hm
  exact ⟨m', hm', by rw [hkeep.1]; rfl⟩

omit [DecidableEq ι] in
theorem nextPosition_eq {s : N.Stores} (hs : N.Inv s) {k : LogKey}
    (hbelow : ((N.view s x).current k).toNat < 2 ^ 64 - 1)
    (hread : read.map (·.content) <+: (N.served s x k).drop ((max first 1).toNat - 1)) :
    (max (nextPosition first read) 1).toNat - 1 = (max first 1).toNat - 1 + read.length := by
  have hwf := wellFormed_view hs x
  unfold nextPosition
  cases hlast : read.getLast? with
  | none =>
      rw [List.getLast?_eq_none_iff.mp hlast]
      rfl
  | some last =>
      obtain ⟨rest, hrest⟩ := hread
      have hlength : 0 < read.length :=
        List.length_pos_of_mem (List.mem_of_getLast? hlast)
      -- The last message that was read stands in the log at its own position.
      have hentry : ((N.served s x k).drop ((max first 1).toNat - 1))[read.length - 1]? =
          some last.content := by
        rw [← hrest, List.getElem?_append_left (by rw [List.length_map]; omega), List.getElem?_map,
          ← List.getLast?_eq_getElem?, hlast]
        rfl
      rw [List.getElem?_drop, served, List.getElem?_map] at hentry
      obtain ⟨m, hm, hcontent⟩ := Option.map_eq_some_iff.mp hentry
      obtain ⟨hmessage, hposition⟩ := Logs.message_of_log_getElem? hwf hm
      have hbounds := (hwf.contiguous k m.headId).mp (by rw [hmessage]; rfl)
      have hhead : last.headId = m.headId := congrArg Pb.MessageEnvelope.headId hcontent.symm
      change (max (last.headId.saturatingAdd 1) 1).toNat - 1 = _
      rw [hhead, UInt64.toNat_max, UInt64.toNat_saturatingAdd_one, UInt64.toNat_one]
      omega

omit [DecidableEq ι] in
theorem map_content_page {s : N.Stores} (hs : N.Inv s) {limit : UInt32}
    {items : List Pb.FetchResponse} {node : NodeId}
    (horigin : requestOrigin (N.node x) origin = .ok node)
    (hbelow : ((N.view s x).current (LogKey.of ⟨topic⟩ node)).toNat < 2 ^ 64 - 1)
    (hread : read.map (·.content) <+:
      (N.served s x (LogKey.of ⟨topic⟩ node)).drop ((max first 1).toNat - 1))
    (hserves : Serves (s x) (fetch (N.node x) ⟨topic, origin, nextPosition first read, limit⟩)
      items) :
    (items.filterMap (·.message)).map (·.content) =
      (((N.served s x (LogKey.of ⟨topic⟩ node)).drop ((max first 1).toNat - 1)).drop
        read.length).take (effectiveLimit limit) := by
  rw [window_of_serves_fetch (hs x) horigin hserves, List.filterMap_map, Logs.window,
    nextPosition_eq hs hbelow hread, List.drop_drop, served, ← List.map_drop, ← List.map_take]
  change (List.filterMap (fun m => some (protoMessage m)) _).map _ = _
  rw [List.filterMap_eq_map', List.map_map]
  rfl

/-- What a client has read is a part of the log that its daemon holds, from the
first position it has asked for on and without a gap or a repetition. -/
theorem Reads.prefix_served (hdistinct : N.Distinct) {node : NodeId}
    (h : N.Reads x topic origin first read a)
    (horigin : requestOrigin (N.node x) origin = .ok node)
    (hbelow : ((N.view a.shared.1 x).current (LogKey.of ⟨topic⟩ node)).toNat < 2 ^ 64 - 1) :
    read.map (·.content) <+:
      (N.served a.shared.1 x (LogKey.of ⟨topic⟩ node)).drop ((max first 1).toNat - 1) := by
  induction h with
  | start hrun => exact List.nil_prefix
  | waits h hrun ih =>
      have hbefore := (ownHistories_of_reaches hdistinct h.reaches).1.1.1
      have hafter := (ownHistories_of_reaches hdistinct (h.reaches.trans hrun)).1.1.1
      have hgrown := grown_of_recorded hdistinct h.reaches hrun
      have hle := (hgrown x).head (LogKey.of ⟨topic⟩ node)
      have hread := ih (by omega)
      exact hread.trans ((served_grows hbefore hafter hgrown _).drop _)
  | page limit h hserves ih =>
      have hs := (ownHistories_of_reaches hdistinct h.reaches).1.1.1
      have hread := ih hbelow
      rw [List.map_append, map_content_page hs horigin hbelow hread hserves]
      obtain ⟨rest, hrest⟩ := hread
      rw [← hrest, List.drop_left' (by rw [List.length_map])]
      exact (List.prefix_append_right_inj _).mpr (List.take_prefix _ _)

/-- A client reads a log from a daemon in pages of any sizes while the network
runs: what it has been sent is, up to deleted flags, the run of the owner's
acknowledged writes that starts at the first position it has asked for, without a
gap or a repetition; and once a page is empty it has been sent all that its daemon
holds. -/
theorem reads_acknowledged (hdistinct : N.Distinct) (h : N.Reads x topic origin first read a)
    (horigin : requestOrigin (N.node x) origin = .ok (N.node owner))
    (hbelow : ((N.view a.shared.1 x).current (LogKey.of ⟨topic⟩ (N.node owner))).toNat <
      2 ^ 64 - 1) :
    read.map (·.content) <+:
        (((acknowledged owner (LogKey.of ⟨topic⟩ (N.node owner)) a.shared.2).map fun m =>
          (protoMessage m).content).take
            ((N.view a.shared.1 x).current (LogKey.of ⟨topic⟩ (N.node owner))).toNat).drop
              ((max first 1).toNat - 1) ∧
      ∀ limit, Serves (a.shared.1 x)
          (fetch (N.node x) ⟨topic, origin, nextPosition first read, limit⟩) [] →
        read.map (·.content) =
          (((acknowledged owner (LogKey.of ⟨topic⟩ (N.node owner)) a.shared.2).map fun m =>
            (protoMessage m).content).take
              ((N.view a.shared.1 x).current (LogKey.of ⟨topic⟩ (N.node owner))).toNat).drop
                ((max first 1).toNat - 1) := by
  obtain ⟨⟨hagrees, -⟩, hown⟩ := ownHistories_of_reaches hdistinct h.reaches
  have hs := hagrees.1
  have hheld : N.served a.shared.1 x (LogKey.of ⟨topic⟩ (N.node owner)) =
      ((acknowledged owner (LogKey.of ⟨topic⟩ (N.node owner)) a.shared.2).map fun m =>
        (protoMessage m).content).take
          ((N.view a.shared.1 x).current (LogKey.of ⟨topic⟩ (N.node owner))).toNat := by
    have hlog := congrArg (List.map fun m => (protoMessage m).content)
      (hown.log_eq hdistinct hagrees x owner ⟨topic⟩).1
    rw [List.map_take, List.map_map, List.map_map] at hlog
    exact hlog
  have hread := h.prefix_served hdistinct horigin hbelow
  rw [← hheld]
  refine ⟨hread, ?_⟩
  intro limit hempty
  -- An empty page says that nothing is left beyond what was read.
  have hpage := map_content_page hs horigin hbelow hread hempty
  have hlimit := effectiveLimit_pos limit
  rcases List.take_eq_nil_iff.mp hpage.symm with hzero | hnil
  · omega
  · have hshort := List.drop_eq_nil_iff.mp hnil
    exact hread.eq_of_length_le (by rw [List.length_map]; exact hshort)

theorem serves_filled {n : Nat} {s : (pair .redb).Stores}
    (hs : (pair .redb).Settled (fun _ => filled n) s) (x : Bool) (k : Nat) :
    Serves (s x) (fetch ((pair .redb).node x)
        ⟨"t", some (protoNode ⟨"a", "b", "c"⟩), (nextEntry k).headId, 1⟩)
      (((filled n).window entryLog (max (nextEntry k).headId 1) (effectiveLimit 1)).map fun m =>
        ⟨some (protoMessage m)⟩) := by
  let head : TopicHead := ⟨⟨"t"⟩, ⟨"a", "b", "c"⟩, 0⟩
  have hvalid : head.origin.Valid := by decide
  have haccepts : @Backend.Accepts _ ((pair .redb).storage x).Store (instBackendStore _)
      ((pair .redb).view s x) ⟨0, 0, ⟨"m"⟩⟩
      (.fetchMessages (fetchQuery ((pair .redb).node x) head ((filled k).current entryLog) 1)) :=
    accepts_of_redb ((by decide : ∀ x, (pair .redb).storage x = .redb) x) _ _ _
  have hfetch := Backend.fetchMessages_eq (Backend.inv_of_reachable (hs.1 x)) haccepts
  have hserves := serves_fetch (by decide) (Or.inl hvalid) hfetch
  rw [show @Backend.logs _ _ (instBackendStore _) (s x) = filled n from hs.logs_eq x,
    fetchQuery_of_valid _ _ _ hvalid] at hserves
  exact hserves

omit [Formats] in
theorem max_nextEntry_headId {n : Nat} (hn : n + 1 < 2 ^ 64) :
    (max (nextEntry n).headId 1).toNat = n + 1 := by
  rw [UInt64.toNat_max, nextEntry_headId hn, UInt64.toNat_one]
  omega

omit [Formats] in
theorem window_filled_last {n : Nat} (hn : n + 1 < 2 ^ 64) (hwf : (filled (n + 1)).WellFormed) :
    (filled (n + 1)).window entryLog (max (nextEntry n).headId 1) (effectiveLimit 1) =
      [nextEntry n] := by
  have hcurrent : (filled (n + 1)).current entryLog = (nextEntry n).headId :=
    Logs.current_append_self entry 0
  have hlast : max (nextEntry n).headId 1 = (filled (n + 1)).current entryLog := by
    rw [hcurrent, ← UInt64.toNat_inj, max_nextEntry_headId hn, nextEntry_headId hn]
  rw [hlast]
  refine Logs.window_current hwf ?_ (effectiveLimit_pos 1)
  rw [hcurrent]
  exact message_filled_succ n

omit [Formats] in
theorem window_filled_beyond {n : Nat} (hn : n + 1 < 2 ^ 64) (hwf : (filled n).WellFormed) :
    (filled n).window entryLog (max (nextEntry n).headId 1) (effectiveLimit 1) = [] := by
  rw [Logs.window, List.drop_eq_nil_of_le, List.take_nil]
  rw [Logs.length_log hwf, current_filled n (by omega), max_nextEntry_headId hn]
  exact Nat.le_refl _

omit [Formats] in
theorem nextPosition_nextEntry (first : UInt64) (read : List Pb.MessageEnvelope) (n : Nat) :
    nextPosition first (read ++ [protoMessage (nextEntry n)]) = (nextEntry (n + 1)).headId := by
  have hcurrent : (filled (n + 1)).current entryLog = (nextEntry n).headId :=
    Logs.current_append_self entry 0
  unfold nextPosition
  rw [List.getLast?_concat]
  change (nextEntry n).headId.saturatingAdd 1 = ((filled (n + 1)).current entryLog).saturatingAdd 1
  rw [hcurrent]

omit [Formats] in
/-- A client reads a log from a daemon that does not own it: a message, after
another publish and pass the next one, and then an empty page. -/
theorem reads_acknowledged_two : letI := Serde.formats
    ∃ (a b : State Bool ((pair .redb).Stores × List (Event Bool Command Command.Answer)) Command
        Command.Answer) (m m' : Pb.MessageEnvelope),
      (pair .redb).Reads false "t" (some (protoNode ⟨"a", "b", "c"⟩)) 1 [m] a ∧
      (((pair .redb).view a.shared.1 false).current entryLog).toNat = 1 ∧
      ((pair .redb).system.restrict (pair .redb).BelowLimit).traced.Reaches a b ∧
      (((pair .redb).view b.shared.1 false).current entryLog).toNat = 2 ∧
      (pair .redb).Reads false "t" (some (protoNode ⟨"a", "b", "c"⟩)) 1 [m, m'] b ∧
      [m, m'].map (·.content) = ((acknowledged true entryLog b.shared.2).map fun m =>
        (protoMessage m).content).take 2 := by
  let := Serde.formats
  obtain ⟨a, hrounds, ha⟩ := exists_filled_both (n := 1) (by decide)
  obtain ⟨b, hround, hb⟩ := ha.exists_round (by decide) lenient_belowLimit
    (permits_belowLimit (by decide))
  obtain ⟨events, hrun⟩ := Reaches.recorded hrounds []
  obtain ⟨events', hlater⟩ := Reaches.recorded hround events
  have hfirst := serves_filled ha.1 false 0
  rw [window_filled_last (by decide) (ha.1.wellFormed true)] at hfirst
  have hsecond := serves_filled hb.1 false 1
  rw [window_filled_last (by decide) (hb.1.wellFormed true),
    ← nextPosition_nextEntry 1 [] 0] at hsecond
  have hempty := serves_filled hb.1 false 2
  rw [window_filled_beyond (by decide) (hb.1.wellFormed true),
    ← nextPosition_nextEntry 1 [protoMessage (nextEntry 0)] 1] at hempty
  have hone : nextPosition 1 [] = (nextEntry 0).headId :=
    UInt64.toNat_inj.mp (nextEntry_headId (by decide)).symm
  rw [← hone] at hfirst
  have hread : (pair .redb).Reads false "t" (some (protoNode ⟨"a", "b", "c"⟩)) 1
      [protoMessage (nextEntry 0)] ⟨(a.shared, events), a.tasks⟩ := (Reads.start hrun).page 1 hfirst
  have hread' : (pair .redb).Reads false "t" (some (protoNode ⟨"a", "b", "c"⟩)) 1
      [protoMessage (nextEntry 0), protoMessage (nextEntry 1)] ⟨(b.shared, events'), b.tasks⟩ :=
    (hread.waits hlater).page 1 hsecond
  have hcurrent : (((pair .redb).view b.shared false).current entryLog).toNat = 2 := by
    rw [hb.1.2]
    exact current_filled 2 (by decide)
  have horigin : requestOrigin ((pair .redb).node false) (some (protoNode ⟨"a", "b", "c"⟩)) =
      .ok ((pair .redb).node true) := by decide
  have hall := (reads_acknowledged (distinct_pair .redb) hread' horigin
    (lt_of_eq_of_lt hcurrent (by decide))).2 1 hempty
  refine ⟨_, _, _, _, hread, ?_, hlater, hcurrent, hread',
    hall.trans (congrArg (List.take · _) hcurrent)⟩
  rw [ha.1.2]
  exact current_filled 1 (by decide)

end Network

end Msgbus
