import Msgbus.Lib.ExceptRules
import Msgbus.Redb.View

/-!
# Redb refines the logs

Each method of the backend has one lemma that says what it returns and what it
does to the abstract logs; `exec_refines` collects them.
-/

namespace Msgbus.Redb

variable [Formats] {s : Redb} {k : LogKey} {n : HeadId} {m : StoredMessage}

structure Inv (s : Redb) : Prop where
  coded : s.Coded
  wellFormed : s.logs.WellFormed

structure SameQueues (s s' : Redb) : Prop where
  fifoMessages : s'.fifoMessages = s.fifoMessages
  fifoSequences : s'.fifoSequences = s.fifoSequences
  peerSync : s'.peerSync = s.peerSync

omit [Formats] in
theorem SameQueues.trans {s₁ s₂ s₃ : Redb} (h₁ : SameQueues s₁ s₂) (h₂ : SameQueues s₂ s₃) :
    SameQueues s₁ s₃ :=
  ⟨h₂.1.trans h₁.1, h₂.2.trans h₁.2, h₂.3.trans h₁.3⟩

/-! ## Writing one message -/

def withMessage (s : Redb) (m : StoredMessage) (heads : OrderedTable String UInt64) : Redb :=
  { s with
    heads := heads
    messages := s.messages.insert (logMessageKey m.log m.headId) (Formats.storedMessage.encode m) }

theorem coded_withMessage (hs : s.Coded) {heads : OrderedTable String UInt64}
    (hheads : ∀ e ∈ heads.entries, ∃ k, e.1 = logHeadKey k) : (s.withMessage m heads).Coded where
  messages := by
    intro e he
    rcases OrderedTable.mem_entries_insert.mp he with rfl | ⟨he, -⟩
    · exact ⟨m, rfl⟩
    · exact hs.messages e he
  heads := hheads
  tombstones := hs.tombstones

theorem logs_withMessage {heads : OrderedTable String UInt64}
    (hheads : ∀ k, heads.get (logHeadKey k) =
      if k = m.log then some (max (s.logs.current m.log) m.headId) else s.logs.head k) :
    (s.withMessage m heads).logs = s.logs.write m.log m.headId m := by
  ext k : 2
  · simp only [logs, withMessage, Logs.write, Function.update_apply]
    exact hheads k
  · funext n
    simp only [logs, withMessage, Logs.write, Function.update_apply, OrderedTable.get_insert,
      logMessageKey_inj]
    by_cases hk : k = m.log
    · subst hk
      by_cases hn : n = m.headId
      · simp [hn, Except.toOption]
      · simp [hn]
    · simp [hk]
  · rfl

theorem coded_heads_insert (hs : s.Coded) {h : UInt64} :
    ∀ e ∈ (s.heads.insert (logHeadKey k) h).entries, ∃ k, e.1 = logHeadKey k := by
  intro e he
  rcases OrderedTable.mem_entries_insert.mp he with rfl | ⟨he, -⟩
  · exact ⟨k, rfl⟩
  · exact hs.heads e he

theorem get_heads_insert {h : UInt64} (k' : LogKey) :
    (s.heads.insert (logHeadKey k) h).get (logHeadKey k') =
      if k' = k then some h else s.logs.head k' := by
  rw [OrderedTable.get_insert]
  simp only [logHeadKey_injective.eq_iff]
  rfl

theorem appendMessageInTxn_spec (hs : s.Coded) (msg : NewMessage) (now : UInt64) :
    ∃ s', appendMessageInTxn s msg now = .ok (s.logs.appended msg now, s') ∧ s'.Coded ∧
      s'.logs = s.logs.append msg now ∧ SameQueues s s' := by
  let k := LogKey.of msg.topic msg.origin
  let heads := s.heads.insert (logHeadKey k) ((s.logs.current k).saturatingAdd 1)
  have hheads : ∀ e ∈ heads.entries, ∃ k, e.1 = logHeadKey k := coded_heads_insert hs
  have htxn : Coded { s with heads := heads } := ⟨hs.messages, hheads, hs.tombstones⟩
  refine ⟨s.withMessage (s.logs.appended msg now) heads, ?_, coded_withMessage hs hheads, ?_,
    rfl, rfl, rfl⟩
  · have hstamp := applyTombstoneMarkers_eq htxn (m := ⟨msg.id, msg.topic, msg.origin,
      (s.logs.current k).saturatingAdd 1, msg.payload, msg.headers, now, false⟩)
    exact Except.bind_of_ok hstamp _
  · refine logs_withMessage fun k => ?_
    rw [get_heads_insert, Logs.appended_log, Logs.appended_headId, UInt64.max_saturatingAdd_one]

/-! ## Recording a range -/

omit [Formats] in
theorem foldl_updates (updates : List (String × ByteArray)) (count : UInt64)
    (t : OrderedTable String ByteArray) :
    let written := updates.foldl
      (fun acc update => (acc.1.saturatingAdd 1, acc.2.insert update.1 update.2)) (count, t)
    written.1.toNat = min (count.toNat + updates.length) (2 ^ 64 - 1) ∧
      written.2 = t.insertAll updates := by
  induction updates generalizing count t with
  | nil =>
      have hcount := count.toNat_lt
      exact ⟨by simp only [List.foldl_nil, List.length_nil]; omega, rfl⟩
  | cons update updates ih =>
      obtain ⟨hcount, htable⟩ := ih (count.saturatingAdd 1) (t.insert update.1 update.2)
      rw [UInt64.toNat_saturatingAdd_one] at hcount
      refine ⟨?_, htable⟩
      rw [List.foldl_cons, hcount, List.length_cons]
      omega

omit [Formats] in
theorem writeUpdates_spec (t : OrderedTable String ByteArray)
    {updates : List (String × ByteArray)} (hlength : updates.length < 2 ^ 64) :
    (writeUpdates t updates).1.toNat = updates.length ∧
      (writeUpdates t updates).2 = t.insertAll updates := by
  obtain ⟨hcount, htable⟩ := foldl_updates updates 0 t
  rw [show (0 : UInt64).toNat = 0 from rfl] at hcount
  exact ⟨hcount.trans (by omega), htable⟩

def flaggedRows (s : Redb) (k : LogKey) (first last : HeadId) : List (String × ByteArray) :=
  (s.logs.unmarked k first last).map fun m => messageEntry (m.withDeleted true)

theorem flaggedRows_keys (hs : s.Inv) {first last : HeadId} :
    (s.flaggedRows k first last).Pairwise (fun a b => a.1 ≠ b.1) := by
  rw [flaggedRows, List.pairwise_map]
  refine ((Logs.log_pairwise hs.wellFormed).filter _).imp ?_
  intro m m' hlt hkey
  have hhead := (logMessageKey_inj.mp hkey).2
  simp only [Logs.withDeleted_headId] at hhead
  rw [hhead] at hlt
  exact lt_irrefl _ hlt

theorem flagged_message (hs : s.Inv) {first last : HeadId} {s' : Redb}
    (hmessages : s'.messages = s.messages.insertAll (s.flaggedRows k first last)) :
    s'.logs.message = (s.logs.mark k first last).message := by
  funext k' n
  by_cases hrow : k' = k ∧ first ≤ n ∧ n ≤ last ∧
      ∃ old, s.logs.message k n = some old ∧ old.deleted = false
  · obtain ⟨rfl, hfirst, hlast, old, hold, hdeleted⟩ := hrow
    obtain ⟨rfl, hlog⟩ := hs.wellFormed.positioned k' n old hold
    have hmem : (logMessageKey k' old.headId,
        Formats.storedMessage.encode (old.withDeleted true)) ∈ s.flaggedRows k' first last := by
      refine List.mem_map.mpr ⟨old,
        (Logs.mem_unmarked hs.wellFormed).mpr ⟨hold, hfirst, hlast, hdeleted⟩, ?_⟩
      rw [← hlog]
      rfl
    rw [Logs.mark_message_self, Logs.markRange, if_pos ⟨hfirst, hlast⟩, hold]
    simp [logs, hmessages, OrderedTable.get_insertAll_of_mem (flaggedRows_keys hs) hmem,
      Except.toOption]
  · have hne : ∀ row ∈ s.flaggedRows k first last, row.1 ≠ logMessageKey k' n := by
      intro row hmem hkey
      obtain ⟨old, hold, rfl⟩ := List.mem_map.mp hmem
      obtain ⟨hold, hfirst, hlast, hdeleted⟩ := (Logs.mem_unmarked hs.wellFormed).mp hold
      obtain ⟨hlog, rfl⟩ := logMessageKey_inj.mp hkey
      rw [Logs.withDeleted_log, (hs.wellFormed.positioned k _ old hold).2] at hlog
      exact hrow ⟨hlog.symm, hfirst, hlast, old, hold, hdeleted⟩
    have hsame : s'.logs.message k' n = s.logs.message k' n := by
      simp only [logs, hmessages, OrderedTable.get_insertAll_of_forall_ne hne]
    rw [hsame]
    by_cases hk : k' = k
    · subst hk
      rw [Logs.mark_message_self, Logs.markRange]
      split_ifs with hrange
      · cases hold : s.logs.message k' n with
        | none => rfl
        | some old =>
            -- a message of the range that is not rewritten is flagged already
            have hflag : old.deleted = true := by
              by_contra hdeleted
              exact hrow ⟨rfl, hrange.1, hrange.2, old, hold, by simpa using hdeleted⟩
            rw [Option.map_some, StoredMessage.withDeleted_of_eq hflag]
      · rfl
    · rw [Logs.mark_message_of_ne_log hk]

theorem tombstoneRangeInTxn_spec (hs : s.Inv) (topic : Topic) (origin : NodeId)
    (first last : HeadId) (now : UInt64) :
    ∃ changed s', tombstoneRangeInTxn s topic origin first last now = .ok (changed, s') ∧
      changed.toNat = (s.logs.unmarked (LogKey.of topic origin) first last).length ∧
      s'.Coded ∧ s'.logs = s.logs.mark (LogKey.of topic origin) first last ∧
      SameQueues s s' := by
  let k := LogKey.of topic origin
  have hscan : tombstoneScan (messagePrefix topic origin) last
      (s.messages.rangeFrom (messageKey topic origin first)) =
        .ok (s.flaggedRows k first last) := by
    rw [flaggedRows, ← Logs.unmarked_eq hs.wellFormed]
    exact tombstoneScan_eq (scan_messages (k := k) hs.coded hs.wellFormed)
  have hlength : (s.flaggedRows k first last).length = (s.logs.unmarked k first last).length :=
    List.length_map _
  obtain ⟨hcount, htable⟩ := writeUpdates_spec s.messages
    (hlength.trans_lt (Logs.length_unmarked_lt hs.wellFormed))
  refine ⟨_, _, Except.bind_of_ok hscan _, hcount.trans hlength, ⟨?_, hs.coded.heads, ?_⟩, ?_,
    rfl, rfl, rfl⟩
  · intro e he
    simp only [htable] at he
    rcases (OrderedTable.mem_entries_insertAll (flaggedRows_keys hs)).mp he with he | ⟨he, -⟩
    · obtain ⟨m, -, rfl⟩ := List.mem_map.mp he
      exact ⟨_, rfl⟩
    · exact hs.coded.messages e he
  · intro e he
    rcases OrderedTable.mem_entries_insert.mp he with rfl | ⟨he, -⟩
    · exact ⟨⟨topic, origin, first, last, now⟩, rfl⟩
    · exact hs.coded.tombstones e he
  · refine Logs.ext rfl (flagged_message hs htable) ?_
    funext k' f l
    have hkey : tombstoneKey topic origin first last = logTombstoneKey k first last := rfl
    simp only [logs, Logs.mark, hkey, OrderedTable.get_insert, logTombstoneKey_inj]
    split_ifs with heq
    · simp [heq, k]
    · simp only [eq_iff_iff]
      constructor
      · exact Or.inl
      · rintro (h | h)
        · exact h
        · exact absurd h heq

/-! ## The methods -/

def Outcome (s : Redb) (env : CallEnv) (op : StoreOp) :
    Except MsgbusError (op.Result × Redb) → Prop
  | .ok (r, s') =>
      s'.Coded ∧ Logs.Step env op r s.logs s'.logs ∧ (op.onLogs = true → SameQueues s s')
  | .error e => op.onLogs = true → s.logs.refuses op = some e.kind

/-- The head table after a replicated message: raised when the message is past
the head. -/
def raisedHeads (s : Redb) (m : StoredMessage) : OrderedTable String UInt64 :=
  if s.logs.current m.log < m.headId then s.heads.insert (logHeadKey m.log) m.headId
  else s.heads

theorem coded_raisedHeads (hs : s.Coded) :
    ∀ e ∈ (s.raisedHeads m).entries, ∃ k, e.1 = logHeadKey k := by
  unfold raisedHeads
  split_ifs
  · exact coded_heads_insert hs
  · exact hs.heads

theorem get_raisedHeads (hzero : m.headId ≠ 0) (k : LogKey) :
    (s.raisedHeads m).get (logHeadKey k) =
      if k = m.log then some (max (s.logs.current m.log) m.headId) else s.logs.head k := by
  have hpos : 0 < m.headId.toNat := by
    rw [Nat.pos_iff_ne_zero]
    exact fun h0 => hzero (UInt64.toNat_inj.mp h0)
  unfold raisedHeads
  split_ifs with hlt hk hk
  · rw [get_heads_insert, if_pos hk, Option.some.injEq, ← UInt64.toNat_inj, UInt64.toNat_max]
    rw [UInt64.lt_iff_toNat_lt] at hlt
    omega
  · rw [get_heads_insert, if_neg hk]
  · -- the head is at least the position, so the log has one
    rw [UInt64.lt_iff_toNat_lt] at hlt
    change s.logs.head k = _
    cases hhead : s.logs.head k with
    | none =>
        have hcurrent : (s.logs.current m.log).toNat = 0 := by
          rw [← hk, Logs.current, hhead]
          rfl
        omega
    | some h =>
        have hcurrent : s.logs.current m.log = h := by
          rw [← hk, Logs.current, hhead]
          rfl
        rw [hcurrent] at hlt ⊢
        rw [Option.some.injEq, ← UInt64.toNat_inj, UInt64.toNat_max]
        omega
  · rfl

theorem putReplicatedMessage_outcome (hs : s.Inv) (env : CallEnv) (m : StoredMessage) :
    Outcome s env (.putReplicatedMessage m) (putReplicatedMessage s m) := by
  by_cases hzero : m.headId = 0
  · simp [putReplicatedMessage, hzero, Outcome, Logs.refuses, throw, throwThe,
      MonadExceptOf.throw, MsgbusError.kind, bind, Except.bind]
  have hwrite : ((s.withMessage (s.logs.stamp m) (s.raisedHeads m)).Coded ∧
      (s.withMessage (s.logs.stamp m) (s.raisedHeads m)).logs =
        s.logs.write m.log m.headId (s.logs.stamp m)) :=
    ⟨coded_withMessage hs.coded (coded_raisedHeads hs.coded),
      logs_withMessage (m := s.logs.stamp m) (get_raisedHeads hzero)⟩
  have hstamp := applyTombstoneMarkers_eq (m := m) hs.coded
  cases hget : s.messages.get (logMessageKey m.log m.headId) with
  | none =>
      have hnone : s.logs.message m.log m.headId = none := by simp [logs, hget]
      have hrun : putReplicatedMessage s m =
          if (s.logs.current m.log).saturatingAdd 1 < m.headId then
            throw (.invalidArgument ("replicated message would create a gap at topic=" ++
              m.topic.value ++ " origin=" ++ m.origin.key ++ " local_head=" ++
              toString (s.logs.current m.log) ++ " incoming_head=" ++ toString m.headId))
          else
            return (.inserted, s.withMessage (s.logs.stamp m) (s.raisedHeads m)) := by
        unfold putReplicatedMessage
        rw [if_neg hzero]
        refine (Except.bind_of_ok hstamp _).trans ?_
        dsimp only
        rw [show s.messages.get (messageKey (s.logs.stamp m).topic (s.logs.stamp m).origin
          (s.logs.stamp m).headId) = none from hget]
        rfl
      rw [hrun]
      split_ifs with hgap
      · simp [Outcome, Logs.refuses, hzero, hnone, hgap, throw, throwThe, MonadExceptOf.throw,
          MsgbusError.kind]
      · rw [UInt64.lt_iff_toNat_lt, not_lt] at hgap
        exact ⟨hwrite.1, ⟨hzero, hwrite.2, Or.inl ⟨hnone, hgap⟩⟩, fun _ => ⟨rfl, rfl, rfl⟩⟩
  | some value =>
      obtain ⟨old, hentry⟩ := hs.coded.messages _ (OrderedTable.get_eq_some_iff.mp hget)
      obtain ⟨-, rfl⟩ := Prod.mk.inj hentry
      have hold : s.logs.message m.log m.headId = some old := by
        simp [logs, hget, Except.toOption]
      have hrun : putReplicatedMessage s m =
          if old = s.logs.stamp m then
            return (.alreadyPresent, s)
          else if sameMessageExceptDeleted old (s.logs.stamp m) &&
              (s.logs.stamp m).deleted then
            return (.inserted, s.withMessage (s.logs.stamp m) (s.raisedHeads m))
          else
            throw (.conflict ("message conflict at topic=" ++ m.topic.value ++ " origin=" ++
              m.origin.key ++ " head_id=" ++ toString m.headId)) := by
        unfold putReplicatedMessage
        rw [if_neg hzero]
        refine (Except.bind_of_ok hstamp _).trans ?_
        dsimp only
        rw [show s.messages.get (messageKey (s.logs.stamp m).topic (s.logs.stamp m).origin
          (s.logs.stamp m).headId) = some (messageEntry old).2 from hget]
        exact Except.bind_of_ok (JsonFormat.decode_encode _ old) _
      rw [hrun]
      split_ifs with hsame hflag
      · exact ⟨hs.coded, ⟨hzero, hsame ▸ hold, rfl⟩, fun _ => ⟨rfl, rfl, rfl⟩⟩
      · rw [Bool.and_eq_true, sameMessageExceptDeleted_iff] at hflag
        have hupgrade : s.logs.stamp m = old.withDeleted true := by
          rw [hflag.1, hflag.2]
        exact ⟨hwrite.1, ⟨hzero, hwrite.2, Or.inr ⟨old, hold, hsame, hupgrade⟩⟩,
          fun _ => ⟨rfl, rfl, rfl⟩⟩
      · have hconflict : ¬(old = s.logs.stamp m ∨ s.logs.stamp m = old.withDeleted true) := by
          rintro (h | h)
          · exact hsame h
          · refine hflag ?_
            rw [Bool.and_eq_true, sameMessageExceptDeleted_iff, h]
            exact ⟨rfl, rfl⟩
        simp [Outcome, Logs.refuses, hzero, hold, hconflict, throw, throwThe,
          MonadExceptOf.throw, MsgbusError.kind]

theorem fetchMessages_eq (hs : s.Inv) (query : FetchQuery) :
    fetchMessages s query =
      .ok (s.logs.window (LogKey.of query.topic query.origin) query.fromHeadId
        (effectiveLimit query.limit)) := by
  have hscan := scan_messages (k := LogKey.of query.topic query.origin) (n := query.fromHeadId)
    hs.coded hs.wellFormed
  exact fetchScan_eq hscan (effectiveLimit_pos query.limit)

/-- Each row of the head table is reported with the names of the message at the
head. -/
theorem listHead_eq (hs : s.Inv) {key : String} {h : HeadId}
    (he : (key, h) ∈ s.heads.entries) :
    ∃ k m, key = logHeadKey k ∧ s.logs.head k = some h ∧ s.logs.message k h = some m ∧
      listHead s key h = .ok ⟨m.topic, m.origin, h⟩ := by
  obtain ⟨k, rfl⟩ : ∃ k, key = logHeadKey k := hs.coded.heads _ he
  have hhead : s.logs.head k = some h := OrderedTable.get_eq_some_iff.mpr he
  have hcurrent : s.logs.current k = h := by rw [Logs.current, hhead]; rfl
  obtain ⟨m, hm⟩ := Option.isSome_iff_exists.mp
    ((hs.wellFormed.contiguous k h).mpr ⟨hs.wellFormed.head_pos k h hhead, by rw [hcurrent]⟩)
  refine ⟨k, m, rfl, hhead, hm, ?_⟩
  obtain ⟨hmem, rfl, rfl⟩ := (logs_message_eq_some hs.coded).mp hm
  have hget : s.messages.get (rawMessageKey (enc m.log.topic.value) (enc m.log.origin) m.headId) =
      some (Formats.storedMessage.encode m) := OrderedTable.get_eq_some_iff.mpr hmem
  unfold listHead
  rw [headKeyParts_logHeadKey]
  simp only [bind, Except.bind, hget, JsonFormat.decode_encode]
  rfl

omit [Formats] in
theorem rangeFrom_nil {V : Type} (t : OrderedTable String V) : t.rangeFrom "" = t.entries := by
  refine List.filter_eq_self.mpr fun e _ => ?_
  rw [decide_eq_true_eq]
  exact le_of_startsWith (startsWith_iff.mpr List.nil_prefix)

theorem listHeads_spec (hs : s.Inv) :
    ∃ r, listHeads s = .ok r ∧ r.Nodup ∧ ∀ h, h ∈ r ↔ s.logs.IsHead h := by
  obtain ⟨r, hr⟩ := Except.exists_mapM_ok (f := fun e : String × UInt64 => listHead s e.1 e.2)
    (l := s.heads.entries) (by
      rintro ⟨key, h⟩ he
      obtain ⟨k, m, -, -, -, hlist⟩ := listHead_eq hs he
      exact ⟨_, hlist⟩)
  refine ⟨r, by rw [listHeads, rangeFrom_nil]; exact hr, ?_, ?_⟩
  · refine Except.nodup_of_mapM_eq_ok hr (s.heads.sorted.imp_of_mem ?_)
    rintro ⟨key, h⟩ ⟨key', h'⟩ he he' hlt b hb hb'
    obtain ⟨k, m, rfl, -, hm, hlist⟩ := listHead_eq hs he
    obtain ⟨k', m', rfl, -, hm', hlist'⟩ := listHead_eq hs he'
    simp only [hlist, hlist', Except.ok.injEq] at hb hb'
    rw [← hb, TopicHead.mk.injEq] at hb'
    have hlog : m'.log = m.log := by
      rw [StoredMessage.log, StoredMessage.log, hb'.1, hb'.2.1]
    rw [(hs.wellFormed.positioned k _ m hm).2, (hs.wellFormed.positioned k' _ m' hm').2] at hlog
    exact absurd hlt (by rw [hlog]; exact lt_irrefl _)
  · intro h
    rw [Except.mem_of_mapM_eq_ok hr]
    constructor
    · rintro ⟨⟨key, n⟩, he, hlist⟩
      obtain ⟨k, m, rfl, hhead, hm, hlist'⟩ := listHead_eq hs he
      simp only [hlist', Except.ok.injEq] at hlist
      obtain rfl := hlist
      exact ⟨k, m, hhead, hm, rfl, rfl⟩
    · rintro ⟨k, m, hhead, hm, htopic, horigin⟩
      have he : (logHeadKey k, h.headId) ∈ s.heads.entries :=
        OrderedTable.get_eq_some_iff.mp hhead
      refine ⟨_, he, ?_⟩
      obtain ⟨k', m', hk, -, hm', hlist⟩ := listHead_eq hs he
      obtain rfl := logHeadKey_injective hk
      rw [hm, Option.some.injEq] at hm'
      subst hm'
      rw [hlist, ← htopic, ← horigin]

theorem tombstoneRange_outcome (hs : s.Inv) (env : CallEnv) (topic : Topic) (origin : NodeId)
    (first last : HeadId) :
    Outcome s env (.tombstoneRange topic origin first last)
      (tombstoneRange s topic origin first last env.now) := by
  unfold tombstoneRange
  split_ifs with hlt
  · simp [Outcome, Logs.refuses, hlt, MsgbusError.kind]
  · obtain ⟨changed, s', hrun, hcount, hcoded, hlogs, hsame⟩ :=
      tombstoneRangeInTxn_spec hs topic origin first last env.now
    rw [hrun]
    exact ⟨hcoded, ⟨UInt64.not_lt.mp hlt, hcount, hlogs⟩, fun _ => hsame⟩

theorem tombstoneRangeWithMarker_outcome (hs : s.Inv) (env : CallEnv) (topic : Topic)
    (origin : NodeId) (first last : HeadId) (markerTopic : Topic) (markerOrigin : NodeId) :
    Outcome s env (.tombstoneRangeWithMarker topic origin first last markerTopic markerOrigin)
      (tombstoneRangeWithMarker s topic origin first last markerTopic markerOrigin env) := by
  by_cases hlt : last < first
  · simp [tombstoneRangeWithMarker, Outcome, Logs.refuses, hlt, MsgbusError.kind, throw, throwThe,
      MonadExceptOf.throw, bind, Except.bind]
  obtain ⟨changed, s₁, hrun, hcount, hcoded, hlogs, hsame⟩ :=
    tombstoneRangeInTxn_spec hs topic origin first last env.now
  obtain ⟨s₂, hrun₂, hcoded₂, hlogs₂, hsame₂⟩ := appendMessageInTxn_spec hcoded
    (Logs.marker topic origin first last markerTopic markerOrigin env) env.later
  have hresult : tombstoneRangeWithMarker s topic origin first last markerTopic markerOrigin env =
      .ok ((changed, s₁.logs.appended
        (Logs.marker topic origin first last markerTopic markerOrigin env) env.later), s₂) := by
    unfold tombstoneRangeWithMarker
    rw [if_neg hlt]
    exact (Except.bind_of_ok hrun _).trans (Except.bind_of_ok hrun₂ _)
  rw [hresult]
  rw [hlogs] at hlogs₂
  exact ⟨hcoded₂, ⟨UInt64.not_lt.mp hlt, hcount, by rw [hlogs], hlogs₂⟩,
    fun _ => hsame.trans hsame₂⟩

/-! ## Calls on the other tables -/

structure SameLogs (s s' : Redb) : Prop where
  messages : s'.messages = s.messages
  heads : s'.heads = s.heads
  tombstones : s'.tombstones = s.tombstones

theorem SameLogs.coded {s' : Redb} (h : SameLogs s s') (hs : s.Coded) : s'.Coded where
  messages := h.messages ▸ hs.messages
  heads := h.heads ▸ hs.heads
  tombstones := h.tombstones ▸ hs.tombstones

theorem SameLogs.logs_eq {s' : Redb} (h : SameLogs s s') : s'.logs = s.logs := by
  unfold logs
  rw [h.messages, h.heads, h.tombstones]

theorem updateFifoFront_sameLogs {queue : QueueName} {messageId : MessageId}
    {action : FifoFrontAction} {r : Bool} {s' : Redb}
    (h : updateFifoFront s queue messageId action = .ok (r, s')) : SameLogs s s' := by
  unfold updateFifoFront at h
  obtain ⟨front, -, h⟩ := Except.bind_eq_ok.mp h
  rcases front with - | ⟨key, message⟩
  · cases h
    exact ⟨rfl, rfl, rfl⟩
  · simp only at h
    split_ifs at h
    · cases action <;> cases h <;> exact ⟨rfl, rfl, rfl⟩
    · cases h
      exact ⟨rfl, rfl, rfl⟩

theorem recordPeerSyncState_sameLogs {state : PeerSyncState} {r : Unit} {s' : Redb}
    (h : recordPeerSyncState s state = .ok (r, s')) : SameLogs s s' := by
  unfold recordPeerSyncState at h
  obtain ⟨previous, -, h⟩ := Except.bind_eq_ok.mp h
  cases h
  exact ⟨rfl, rfl, rfl⟩

theorem exec_sameLogs {env : CallEnv} {op : StoreOp} {r : op.Result} {s' : Redb}
    (hop : op.onLogs = false) (h : op.exec s env = .ok (r, s')) : SameLogs s s' := by
  cases op with
  | enqueueFifo message =>
      cases h
      exact ⟨rfl, rfl, rfl⟩
  | peekFifo queue =>
      obtain ⟨_, -, heq⟩ := Except.map_eq_ok.mp h
      cases heq
      exact ⟨rfl, rfl, rfl⟩
  | ackFifo queue messageId =>
      have hrun : updateFifoFront s queue messageId .ack = .ok (r, s') := h
      exact updateFifoFront_sameLogs hrun
  | rejectFifo queue messageId =>
      have hrun : updateFifoFront s queue messageId .reject = .ok (r, s') := h
      exact updateFifoFront_sameLogs hrun
  | recordPeerSyncState state => exact recordPeerSyncState_sameLogs h
  | listPeerSyncStates =>
      obtain ⟨_, -, heq⟩ := Except.map_eq_ok.mp h
      cases heq
      exact ⟨rfl, rfl, rfl⟩
  | _ => cases hop

/-! ## Refinement -/

/-- Every call does to the logs what the abstract step says, and is refused
only for the reasons it says. -/
theorem exec_outcome (hs : s.Inv) (env : CallEnv) (op : StoreOp) :
    Outcome s env op (op.exec s env) := by
  by_cases hop : op.onLogs = true
  · cases op with
    | appendMessage message =>
        obtain ⟨s', hrun, hcoded, hlogs, hsame⟩ :=
          appendMessageInTxn_spec hs.coded message env.now
        have hexec : StoreOp.exec s env (.appendMessage message) = .ok (_, s') := hrun
        rw [hexec]
        exact ⟨hcoded, ⟨rfl, hlogs⟩, fun _ => hsame⟩
    | fetchMessages query =>
        have hexec : StoreOp.exec s env (.fetchMessages query) = .ok (_, s) :=
          congrArg (Except.map (·, s)) (fetchMessages_eq hs query)
        rw [hexec]
        exact ⟨hs.coded, ⟨rfl, rfl⟩, fun _ => ⟨rfl, rfl, rfl⟩⟩
    | getHead topic origin => exact ⟨hs.coded, ⟨rfl, rfl⟩, fun _ => ⟨rfl, rfl, rfl⟩⟩
    | listHeads =>
        obtain ⟨r, hrun, hnodup, hmem⟩ := listHeads_spec hs
        have hexec : StoreOp.exec s env .listHeads = .ok (r, s) :=
          congrArg (Except.map (·, s)) hrun
        rw [hexec]
        exact ⟨hs.coded, ⟨hnodup, hmem, rfl⟩, fun _ => ⟨rfl, rfl, rfl⟩⟩
    | putReplicatedMessage message => exact putReplicatedMessage_outcome hs env message
    | tombstoneRange topic origin first last =>
        exact tombstoneRange_outcome hs env topic origin first last
    | tombstoneRangeWithMarker topic origin first last markerTopic markerOrigin =>
        exact tombstoneRangeWithMarker_outcome hs env topic origin first last markerTopic
          markerOrigin
    | _ => cases hop
  · rw [Bool.not_eq_true] at hop
    cases hexec : op.exec s env with
    | error e =>
        intro hop'
        rw [hop] at hop'
        cases hop'
    | ok result =>
        obtain ⟨r, s'⟩ := result
        have hsame := exec_sameLogs hop hexec
        refine ⟨hsame.coded hs.coded, ?_, fun hop' => by rw [hop] at hop'; cases hop'⟩
        rw [hsame.logs_eq]
        exact Logs.step_of_not_onLogs hop

/-- The backend refines the abstract logs. -/
theorem exec_refines {env : CallEnv} {op : StoreOp} {r : op.Result} {s' : Redb} (hs : s.Inv)
    (h : op.exec s env = .ok (r, s')) : s'.Inv ∧ Logs.Step env op r s.logs s'.logs := by
  have hout := exec_outcome hs env op
  rw [h] at hout
  exact ⟨⟨hout.1, Logs.step_wellFormed hs.wellFormed hout.2.1⟩, hout.2.1⟩

theorem exec_refused {env : CallEnv} {op : StoreOp} {e : MsgbusError} (hs : s.Inv)
    (hop : op.onLogs = true) (h : op.exec s env = .error e) :
    s.logs.refuses op = some e.kind := by
  have hout := exec_outcome hs env op
  rw [h] at hout
  exact hout hop

theorem logs_openEmpty : openEmpty.logs = Logs.empty := by
  refine Logs.ext rfl rfl ?_
  funext k first last
  simp [logs, openEmpty, Logs.empty]

theorem inv_openEmpty : openEmpty.Inv where
  coded := ⟨by simp [openEmpty, OrderedTable.empty], by simp [openEmpty, OrderedTable.empty],
    by simp [openEmpty, OrderedTable.empty]⟩
  wellFormed := logs_openEmpty ▸ Logs.wellFormed_empty

end Msgbus.Redb
