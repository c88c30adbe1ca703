import Msgbus.Sqlite.View

/-!
# SQLite refines the logs

Each method has one lemma that says when it succeeds, what it returns and what
it does to the abstract logs.  Unlike redb it may refuse a call that the logs
allow: a number that does not fit `i64`, or an id that is taken.  `Accepts`
rules these reasons out.
-/

namespace Msgbus.Sqlite

variable [Formats] {s : Sqlite} {k : LogKey} {n : HeadId} {m : StoredMessage}

structure Inv (s : Sqlite) : Prop where
  coded : s.Coded
  wellFormed : s.logs.WellFormed

structure SameQueues (s s' : Sqlite) : Prop where
  fifoMessages : s'.fifoMessages = s.fifoMessages
  fifoSequences : s'.fifoSequences = s.fifoSequences
  peerSyncStates : s'.peerSyncStates = s.peerSyncStates

/-! ## Writing one message -/

def withMessage (s : Sqlite) (m : StoredMessage) (heads : OrderedTable HeadPk Int) : Sqlite :=
  { s with
    heads := heads
    messages := s.messages.insert (messageEntry m).1 (messageEntry m).2 }

theorem coded_withMessage (hs : s.Coded) (hfits : Fits m.headId)
    {heads : OrderedTable HeadPk Int}
    (hheads : ∀ e ∈ heads.entries, ∃ h : UInt64, e.2 = h.toNat ∧ Fits h) :
    (s.withMessage m heads).Coded where
  messages := by
    intro e he
    rcases OrderedTable.mem_entries_insert.mp he with rfl | ⟨he, -⟩
    · exact ⟨m, rfl, hfits⟩
    · exact hs.messages e he
  heads := hheads
  tombstones := hs.tombstones

theorem logs_withMessage {heads : OrderedTable HeadPk Int}
    (hheads : ∀ k, (heads.get (headPk k)).map (fun h => UInt64.ofNat h.toNat) =
      if k = m.log then some (max (s.logs.current m.log) m.headId) else s.logs.head k) :
    (s.withMessage m heads).logs = s.logs.write m.log m.headId m := by
  ext k : 2
  · simp only [logs, withMessage, Logs.write, Function.update_apply]
    exact hheads k
  · funext n
    simp only [logs, withMessage, Logs.write, Function.update_apply, OrderedTable.get_insert,
      messageEntry_fst, messagePk_inj]
    by_cases hk : k = m.log
    · subst hk
      by_cases hn : n = m.headId
      · subst hn
        rw [if_pos ⟨rfl, rfl⟩, if_pos rfl, Function.update_self]
        exact readRow_messageEntry m
      · simp [hn]
    · simp [hk]
  · rfl

theorem coded_heads_insert (hs : s.Coded) {h : UInt64} (hfits : Fits h) :
    ∀ e ∈ (s.heads.insert (headPk k) (h.toNat : Int)).entries,
      ∃ h : UInt64, e.2 = h.toNat ∧ Fits h := by
  intro e he
  rcases OrderedTable.mem_entries_insert.mp he with rfl | ⟨he, -⟩
  · exact ⟨h, rfl, hfits⟩
  · exact hs.heads e he

theorem get_heads_insert {h : UInt64} (k' : LogKey) :
    ((s.heads.insert (headPk k) (h.toNat : Int)).get (headPk k')).map
        (fun h => UInt64.ofNat h.toNat) =
      if k' = k then some h else s.logs.head k' := by
  rw [OrderedTable.get_insert]
  simp only [headPk_injective.eq_iff]
  split_ifs
  · simp
  · rfl

theorem idFree_iff (hs : s.Coded) {id : String} :
    s.IdFree id ↔ ∀ k n m, s.logs.message k n = some m → m.id.value ≠ id := by
  constructor
  · intro hfree k n m hm
    exact hfree _ ((logs_message_eq_some hs).mp hm).1
  · intro hall e he
    obtain ⟨m, rfl, -⟩ := hs.messages e he
    exact hall m.log m.headId m ((logs_message_eq_some hs).mpr ⟨he, rfl, rfl⟩)

structure Insertable (s : Sqlite) (m : StoredMessage) : Prop where
  headId : Fits m.headId
  createdAtMs : Fits m.createdAtMs
  fresh : s.logs.message m.log m.headId = none
  idFree : s.IdFree m.id.value

theorem insert_messageRow_eq_ok (hs : s.Coded) {heads : OrderedTable HeadPk Int} {s' : Sqlite} :
    (messageRow m >>= fun e => insertMessage { s with heads := heads } e.1 e.2) = .ok s' ↔
      s.Insertable m ∧ s' = s.withMessage m heads := by
  rw [Except.bind_eq_ok]
  constructor
  · rintro ⟨e, hrow, hinsert⟩
    obtain ⟨⟨hhead, hcreated⟩, rfl⟩ := messageRow_eq_ok.mp hrow
    obtain ⟨⟨hfresh, hid⟩, rfl⟩ := insertMessage_eq_ok.mp hinsert
    exact ⟨⟨hhead, hcreated, (get_message_eq_none hs).mp hfresh, hid⟩, rfl⟩
  · rintro ⟨h, rfl⟩
    exact ⟨_, messageRow_eq_ok.mpr ⟨⟨h.headId, h.createdAtMs⟩, rfl⟩,
      insertMessage_eq_ok.mpr ⟨⟨(get_message_eq_none hs).mpr h.fresh, h.idFree⟩, rfl⟩⟩

def withHead (s : Sqlite) (m : StoredMessage) : Sqlite :=
  s.withMessage m (s.heads.insert (headPk m.log) (m.headId.toNat : Int))

theorem appendMessageInTx_eq_ok (hs : s.Coded) {msg : NewMessage} {now : UInt64}
    {r : StoredMessage} {s' : Sqlite} :
    appendMessageInTx s msg now = .ok (r, s') ↔
      r = s.logs.appended msg now ∧ s.Insertable r ∧ s' = s.withHead r := by
  let k := LogKey.of msg.topic msg.origin
  let next := (s.logs.current k).saturatingAdd 1
  let txn : Sqlite := { s with heads := s.heads.insert (headPk k) (next.toNat : Int) }
  have htxn : Fits next → txn.Coded := fun hnext =>
    ⟨hs.messages, coded_heads_insert hs hnext, hs.tombstones⟩
  unfold appendMessageInTx
  rw [Except.bind_of_ok (selectHead_eq hs _ _)]
  constructor
  · intro h
    obtain ⟨_, hconvert, h⟩ := Except.bind_eq_ok.mp h
    obtain ⟨hnext, rfl⟩ := u64ToI64_eq_ok.mp hconvert
    obtain ⟨stored, hstamp, h⟩ := Except.bind_eq_ok.mp h
    obtain ⟨e, hrow, h⟩ := Except.bind_eq_ok.mp h
    obtain ⟨tx, hinsert, h⟩ := Except.bind_eq_ok.mp h
    cases h
    obtain ⟨-, rfl⟩ := (applyTombstoneMarkers_eq_ok (htxn hnext)).mp hstamp
    exact ⟨rfl, (insert_messageRow_eq_ok hs).mp (Except.bind_eq_ok.mpr ⟨e, hrow, hinsert⟩)⟩
  · rintro ⟨rfl, h, rfl⟩
    refine Except.bind_eq_ok.mpr ⟨_, u64ToI64_eq_ok.mpr ⟨h.headId, rfl⟩, ?_⟩
    refine Except.bind_eq_ok.mpr ⟨s.logs.appended msg now,
      (applyTombstoneMarkers_eq_ok (htxn h.headId)).mpr ⟨Or.inr h.headId, rfl⟩, ?_⟩
    obtain ⟨e, hrow, hinsert⟩ := Except.bind_eq_ok.mp ((insert_messageRow_eq_ok hs).mpr ⟨h, rfl⟩)
    exact Except.bind_eq_ok.mpr ⟨e, hrow, Except.bind_eq_ok.mpr ⟨_, hinsert, rfl⟩⟩

theorem logs_withHead_appended {msg : NewMessage} {now : UInt64} :
    (s.withHead (s.logs.appended msg now)).logs = s.logs.append msg now := by
  refine logs_withMessage fun k => ?_
  rw [get_heads_insert, Logs.appended_log, Logs.appended_headId, UInt64.max_saturatingAdd_one]

theorem coded_withHead (hs : s.Coded) (h : s.Insertable m) : (s.withHead m).Coded :=
  coded_withMessage hs h.headId (coded_heads_insert hs h.headId)

/-! ## Raising flags -/

/-- `UPDATE messages SET deleted = 1 WHERE p`. -/
def flagRows (s : Sqlite) (p : MessagePk → MessageRow → Bool) :
    OrderedTable MessagePk MessageRow :=
  s.messages.mapValues fun pk row => if p pk row then { row with deleted := true } else row

theorem flagRow_messageEntry {p : MessagePk → MessageRow → Bool} :
    ((messageEntry m).1, if p (messageEntry m).1 (messageEntry m).2 then
        { (messageEntry m).2 with deleted := true } else (messageEntry m).2) =
      messageEntry (if p (messageEntry m).1 (messageEntry m).2 then m.withDeleted true else m) := by
  split_ifs <;> rfl

theorem coded_flagRows (hs : s.Coded) (p : MessagePk → MessageRow → Bool) :
    ∀ e ∈ (s.flagRows p).entries, ∃ m, e = messageEntry m ∧ Fits m.headId := by
  rintro ⟨pk, row'⟩ he
  obtain ⟨row, hmem, hrow⟩ := OrderedTable.mem_entries_mapValues.mp he
  obtain ⟨m, hentry, hfits⟩ := hs.messages _ hmem
  obtain rfl : pk = (messageEntry m).1 := congrArg Prod.fst hentry
  obtain rfl : row = (messageEntry m).2 := congrArg Prod.snd hentry
  refine ⟨_, Eq.trans (congrArg (Prod.mk _) hrow) flagRow_messageEntry, ?_⟩
  split_ifs
  · exact hfits
  · exact hfits

theorem logs_flagRows (hs : s.Coded) {p : MessagePk → MessageRow → Bool} {s' : Sqlite}
    (hmessages : s'.messages = s.flagRows p) :
    s'.logs.message k n = (s.logs.message k n).map fun m =>
      if p (messageEntry m).1 (messageEntry m).2 then m.withDeleted true else m := by
  simp only [logs, hmessages, flagRows, OrderedTable.get_mapValues]
  cases hget : s.messages.get (messagePk k n) with
  | none => rfl
  | some row =>
      obtain ⟨m, hentry, -⟩ := hs.messages _ (OrderedTable.get_eq_some_iff.mp hget)
      have hpk : messagePk k n = (messageEntry m).1 := congrArg Prod.fst hentry
      obtain rfl : row = (messageEntry m).2 := congrArg Prod.snd hentry
      simp only [hpk, Option.map_some, Option.bind_some, readRow_messageEntry]
      split_ifs
      · exact readRow_messageEntry (m.withDeleted true)
      · exact readRow_messageEntry m

def marked (s : Sqlite) (topic : Topic) (origin : NodeId) (first last : HeadId)
    (createdAtMs : UInt64) : Sqlite :=
  { s with
    messages := s.flagRows (inTombstoneRange topic origin first.toNat last.toNat)
    tombstones :=
      if (s.tombstones.get (tombstonePk (LogKey.of topic origin) first last)).isSome then
        s.tombstones
      else
        s.tombstones.insert (tombstonePk (LogKey.of topic origin) first last)
          ⟨createdAtMs.toNat,
            Formats.tombstoneRange.toStr ⟨topic, origin, first, last, createdAtMs⟩⟩ }

theorem tombstoneRangeInTx_eq_ok (hs : s.Inv) {topic : Topic} {origin : NodeId}
    {first last : HeadId} {now : UInt64} {r : UInt64} {s' : Sqlite} :
    tombstoneRangeInTx s topic origin first last now = .ok (r, s') ↔
      (Fits first ∧ Fits last ∧ Fits now) ∧
        r = UInt64.ofNat (s.logs.unmarked (LogKey.of topic origin) first last).length ∧
        s' = s.marked topic origin first last now := by
  have hcount : ((s.messages.entries.filter fun entry =>
      inTombstoneRange topic origin first.toNat last.toNat entry.1 entry.2).length) =
        (s.logs.unmarked (LogKey.of topic origin) first last).length := by
    rw [select_unmarked hs.coded hs.wellFormed, List.length_map]
  unfold tombstoneRangeInTx
  simp only [Except.bind_eq_ok, u64ToI64_eq_ok]
  constructor
  · rintro ⟨_, ⟨hfirst, rfl⟩, _, ⟨hlast, rfl⟩, _, ⟨hnow, rfl⟩, h⟩
    cases h
    exact ⟨⟨hfirst, hlast, hnow⟩, by rw [← hcount], rfl⟩
  · rintro ⟨⟨hfirst, hlast, hnow⟩, rfl, rfl⟩
    refine ⟨_, ⟨hfirst, rfl⟩, _, ⟨hlast, rfl⟩, _, ⟨hnow, rfl⟩, ?_⟩
    rw [hcount]
    rfl

theorem tombstoneRange_of_not_fits {topic : Topic} {origin : NodeId} {first last : HeadId}
    {now : UInt64} (hle : first ≤ last) (hfirst : Fits first) (hlast : ¬ Fits last) :
    tombstoneRange s topic origin first last now =
      .error (.invalidArgument (toString last ++ " exceeds i64")) := by
  have hconvert : u64ToI64 last = .error (.invalidArgument (toString last ++ " exceeds i64")) :=
    if_neg hlast
  rw [tombstoneRange, if_neg (UInt64.not_lt.mpr hle), tombstoneRangeInTx,
    Except.bind_of_ok (u64ToI64_eq_ok.mpr ⟨hfirst, rfl⟩), hconvert]
  rfl

theorem toNat_ofNat_unmarked (hs : s.Inv) {first last : HeadId} :
    (UInt64.ofNat (s.logs.unmarked k first last).length).toNat =
      (s.logs.unmarked k first last).length := by
  rw [UInt64.toNat_ofNat']
  exact Nat.mod_eq_of_lt (Logs.length_unmarked_lt hs.wellFormed)

theorem coded_marked (hs : s.Coded) (topic : Topic) (origin : NodeId) (first last : HeadId)
    (now : UInt64) : (s.marked topic origin first last now).Coded where
  messages := coded_flagRows hs _
  heads := hs.heads
  tombstones := by
    intro e he
    simp only [marked] at he
    split_ifs at he
    · exact hs.tombstones e he
    · rcases OrderedTable.mem_entries_insert.mp he with rfl | ⟨he, -⟩
      · exact ⟨_, _, _, rfl⟩
      · exact hs.tombstones e he

theorem logs_marked (hs : s.Coded) (hb : s.logs.WellFormed) (topic : Topic) (origin : NodeId)
    (first last : HeadId) (now : UInt64) :
    (s.marked topic origin first last now).logs =
      s.logs.mark (LogKey.of topic origin) first last := by
  refine Logs.ext rfl ?_ ?_
  · funext k n
    rw [logs_flagRows hs rfl]
    cases hm : s.logs.message k n with
    | none =>
        rw [Option.map_none, eq_comm, ← Option.not_isSome_iff_eq_none,
          (Logs.wellFormed_mark hb first last).contiguous, Logs.mark_current, ← hb.contiguous, hm]
        simp
    | some m =>
        obtain ⟨hhead, hlog⟩ := hb.positioned k n m hm
        have hhit : inTombstoneRange topic origin first.toNat last.toNat (messageEntry m).1
            (messageEntry m).2 = true ↔
            k = LogKey.of topic origin ∧ (first ≤ n ∧ n ≤ last) ∧ m.deleted = false := by
          rw [← hlog, log_eq_iff, ← hhead, UInt64.le_iff_toNat_le, UInt64.le_iff_toNat_le]
          simp only [inTombstoneRange, messageEntry_topic, messageEntry_originKey,
            messageEntry_headId, messageEntry_deleted, LogKey.of, Bool.and_eq_true,
            decide_eq_true_eq, Int.ofNat_le, and_assoc]
          exact and_congr decide_eq_true_iff (and_congr decide_eq_true_iff
            (and_congr Iff.rfl (and_congr Iff.rfl decide_eq_true_iff)))
        rw [Option.map_some]
        by_cases hk : k = LogKey.of topic origin
        · subst hk
          rw [Logs.mark_message_self, Logs.markRange, hm]
          split_ifs with hp hrange hrange
          · rfl
          · exact absurd (hhit.mp hp).2.1 hrange
          · have hflag : m.deleted = true := by
              by_contra hdeleted
              exact hp (hhit.mpr ⟨rfl, hrange, by simpa using hdeleted⟩)
            rw [Option.map_some, StoredMessage.withDeleted_of_eq hflag]
          · rfl
        · rw [Logs.mark_message_of_ne_log hk, hm, if_neg fun hp => hk (hhit.mp hp).1]
  · funext k f l
    simp only [logs, marked, Logs.mark]
    split_ifs with hold
    · simp only [eq_iff_iff]
      constructor
      · exact Or.inl
      · rintro (h | ⟨rfl, rfl, rfl⟩)
        · exact h
        · exact hold
    · rw [OrderedTable.get_insert]
      simp only [tombstonePk_inj]
      split_ifs with heq
      · simp [heq]
      · simp only [eq_iff_iff]
        constructor
        · exact Or.inl
        · rintro (h | h)
          · exact h
          · exact absurd h heq

/-! ## What the backend accepts -/

def Readable (b : Logs) : Prop :=
  ∀ k n m, b.message k n = some m → ValidPart m.id.value ∧ ValidPart m.topic.value

structure AcceptsAppend (b : Logs) (msg : NewMessage) (now : UInt64) : Prop where
  now : Fits now
  head : Fits ((b.current (LogKey.of msg.topic msg.origin)).saturatingAdd 1)
  id : ∀ k n m, b.message k n = some m → m.id ≠ msg.id

/-- What a call asks for beyond the logs: numbers fit, and an id is not taken by
another position. -/
def Accepts (b : Logs) (env : CallEnv) : StoreOp → Prop
  | .appendMessage msg => AcceptsAppend b msg env.now
  | .fetchMessages query => Fits query.fromHeadId
  | .putReplicatedMessage m =>
      Fits m.headId ∧ Fits m.createdAtMs ∧
        ∀ k n old, b.message k n = some old → old.id = m.id → k = m.log ∧ n = m.headId
  | .tombstoneRange _ _ first last => Fits first ∧ Fits last ∧ Fits env.now
  | .tombstoneRangeWithMarker topic origin first last markerTopic markerOrigin =>
      Fits first ∧ Fits last ∧ Fits env.now ∧
        AcceptsAppend b (Logs.marker topic origin first last markerTopic markerOrigin env) env.later
  | _ => True

def Outcome (s : Sqlite) (env : CallEnv) (op : StoreOp) :
    Except MsgbusError (op.Result × Sqlite) → Prop
  | .ok (r, s') =>
      s'.Coded ∧ Logs.Step env op r s.logs s'.logs ∧ (op.onLogs = true → SameQueues s s')
  | .error e =>
      op.onLogs = true → Readable s.logs → Accepts s.logs env op →
        s.logs.refuses op = some e.kind

theorem insertable_appended (hs : s.Inv) {msg : NewMessage} {now : UInt64}
    (h : AcceptsAppend s.logs msg now) : s.Insertable (s.logs.appended msg now) where
  headId := h.head
  createdAtMs := h.now
  fresh := by
    refine Logs.message_next_eq_none hs.wellFormed fun hmax => ?_
    have hfits : ((s.logs.current (LogKey.of msg.topic msg.origin)).saturatingAdd 1).toNat ≤
      i64Max := h.head
    rw [Logs.appended_log] at hmax
    rw [hmax, UInt64.toNat_saturatingAdd_one, UInt64.toNat_maxValue] at hfits
    simp [i64Max] at hfits
  idFree := (idFree_iff hs.coded).mpr fun k n m hm heq =>
    h.id k n m hm (MessageId.value_injective heq)

theorem appendMessage_outcome (hs : s.Inv) (env : CallEnv) (msg : NewMessage) :
    Outcome s env (.appendMessage msg) (appendMessage s msg env.now) := by
  cases hrun : appendMessage s msg env.now with
  | error e =>
      intro _ _ haccepts
      have hok := (appendMessageInTx_eq_ok hs.coded).mpr
        ⟨rfl, insertable_appended hs haccepts, rfl⟩
      rw [appendMessage, hok] at hrun
      cases hrun
  | ok result =>
      obtain ⟨r, s'⟩ := result
      obtain ⟨rfl, hinsert, rfl⟩ := (appendMessageInTx_eq_ok hs.coded).mp hrun
      exact ⟨coded_withHead hs.coded hinsert, ⟨rfl, logs_withHead_appended⟩,
        fun _ => ⟨rfl, rfl, rfl⟩⟩

theorem fetchMessages_eq (hs : s.Inv) (query : FetchQuery) :
    fetchMessages s query = (u64ToI64 query.fromHeadId >>= fun _ =>
      ((s.logs.window (LogKey.of query.topic query.origin) query.fromHeadId
        (effectiveLimit query.limit)).map messageEntry).mapM fun e => rowToMessage e.1 e.2) := by
  unfold fetchMessages
  cases hfirst : u64ToI64 query.fromHeadId with
  | error e => rfl
  | ok first =>
      obtain ⟨-, rfl⟩ := u64ToI64_eq_ok.mp hfirst
      rw [Logs.window, List.map_take, ← select_messages hs.coded hs.wellFormed]
      rfl

theorem fetchMessages_ok_iff (hs : s.Inv) {query : FetchQuery} :
    (∃ r, fetchMessages s query = .ok r) ↔ Fits query.fromHeadId ∧
      ∀ m ∈ s.logs.window (LogKey.of query.topic query.origin) query.fromHeadId
        (effectiveLimit query.limit), ValidPart m.id.value ∧ ValidPart m.topic.value := by
  rw [fetchMessages_eq hs]
  constructor
  · rintro ⟨r, hr⟩
    obtain ⟨first, hfirst, hrows⟩ := Except.bind_eq_ok.mp hr
    refine ⟨(u64ToI64_eq_ok.mp hfirst).1, fun m hm => ?_⟩
    obtain ⟨read, hread⟩ := Except.exists_of_mapM_eq_ok hrows (List.mem_map_of_mem hm)
    exact (rowToMessage_eq_ok.mp hread).1
  · rintro ⟨hfits, hreadable⟩
    rw [Except.bind_of_ok (u64ToI64_eq_ok.mpr ⟨hfits, rfl⟩)]
    apply Except.exists_mapM_ok
    intro e he
    obtain ⟨m, hm, rfl⟩ := List.mem_map.mp he
    exact ⟨m, rowToMessage_eq_ok.mpr ⟨hreadable m hm, rfl⟩⟩

theorem fetchMessages_outcome (hs : s.Inv) (env : CallEnv) (query : FetchQuery) :
    Outcome s env (.fetchMessages query) ((fetchMessages s query).map (·, s)) := by
  let k := LogKey.of query.topic query.origin
  cases hrun : fetchMessages s query with
  | error e =>
      intro _ hreadable hfits
      obtain ⟨r, hr⟩ := (fetchMessages_ok_iff hs).mpr ⟨hfits, fun m hm =>
        hreadable k _ m ((Logs.mem_log hs.wellFormed).mp
          (List.mem_of_mem_drop (List.mem_of_mem_take hm)))⟩
      rw [hr] at hrun
      cases hrun
  | ok r =>
      rw [fetchMessages_eq hs] at hrun
      obtain ⟨_, -, hrows⟩ := Except.bind_eq_ok.mp hrun
      rw [Except.mapM_eq_ok, List.forall₂_map_left_iff] at hrows
      have hsame : List.Forall₂ Eq
          (s.logs.window k query.fromHeadId (effectiveLimit query.limit)) r :=
        hrows.imp fun m m' h => (rowToMessage_eq_ok.mp h).2.symm
      exact ⟨hs.coded, ⟨(List.forall₂_eq_eq_eq ▸ hsame).symm, rfl⟩, fun _ => ⟨rfl, rfl, rfl⟩⟩

theorem logs_upgrade (hs : s.Inv) {old : StoredMessage}
    (hold : s.logs.message k n = some old) {s' : Sqlite}
    (hmessages : s'.messages = s.flagRows fun pk _ => pk = messagePk k n)
    (hheads : s'.heads = s.heads) (htombstones : s'.tombstones = s.tombstones) :
    s'.logs = s.logs.write k n (old.withDeleted true) := by
  refine Logs.ext ?_ ?_ ?_
  · rw [Logs.write_head_of_message hs.wellFormed hold]
    simp only [logs, hheads]
  · funext k' n'
    rw [logs_flagRows hs.coded hmessages]
    have hpk : ∀ m, s.logs.message k' n' = some m →
        ((messageEntry m).1 = messagePk k n ↔ k' = k ∧ n' = n) := by
      intro m hm
      obtain ⟨hhead, hlog⟩ := hs.wellFormed.positioned k' n' m hm
      rw [messageEntry_fst, hlog, hhead, messagePk_inj]
    by_cases hk : k' = k
    · subst hk
      by_cases hn : n' = n
      · subst hn
        rw [Logs.write_message_self, hold, Option.map_some,
          if_pos (decide_eq_true ((hpk old hold).mpr ⟨rfl, rfl⟩))]
      · rw [Logs.write_message_of_ne hn]
        cases hm : s.logs.message k' n' with
        | none => rfl
        | some m =>
            rw [Option.map_some, if_neg fun h => hn ((hpk m hm).mp (of_decide_eq_true h)).2]
    · rw [Logs.write_message_of_ne_log hk]
      cases hm : s.logs.message k' n' with
      | none => rfl
      | some m =>
          rw [Option.map_some, if_neg fun h => hk ((hpk m hm).mp (of_decide_eq_true h)).1]
  · simp only [logs, htombstones, Logs.write]

theorem putExisting_outcome (hs : s.Inv) (env : CallEnv) {m old : StoredMessage}
    (hzero : m.headId ≠ 0) (hold : s.logs.message m.log m.headId = some old) :
    Outcome s env (.putReplicatedMessage m)
      (putExisting s (messagePk m.log m.headId) old (s.logs.stamp m)) := by
  unfold putExisting
  split_ifs with hsame hflag
  · exact ⟨hs.coded, ⟨hzero, hsame ▸ hold, rfl⟩, fun _ => ⟨rfl, rfl, rfl⟩⟩
  · rw [Bool.and_eq_true, sameMessageExceptDeleted_iff] at hflag
    have hupgrade : s.logs.stamp m = old.withDeleted true := by
      rw [hflag.1, hflag.2]
    have hmessages : (s.messages.mapValues fun pk' row =>
        if pk' = messagePk m.log m.headId then { row with deleted := true } else row) =
        s.flagRows fun pk _ => pk = messagePk m.log m.headId := by
      simp only [flagRows, decide_eq_true_eq]
    refine ⟨⟨hmessages ▸ coded_flagRows hs.coded _, hs.coded.heads, hs.coded.tombstones⟩,
      ⟨hzero, ?_, Or.inr ⟨old, hold, hsame, hupgrade⟩⟩, fun _ => ⟨rfl, rfl, rfl⟩⟩
    rw [hupgrade]
    exact logs_upgrade hs hold hmessages rfl rfl
  · intro _ _ _
    have hconflict : ¬(old = s.logs.stamp m ∨ s.logs.stamp m = old.withDeleted true) := by
      rintro (h | h)
      · exact hsame h
      · refine hflag ?_
        rw [Bool.and_eq_true, sameMessageExceptDeleted_iff, h]
        exact ⟨rfl, rfl⟩
    simp [Logs.refuses, hzero, hold, hconflict, MsgbusError.kind]

/-- A position that is free and not past the next one is the next one, so the
message becomes the head. -/
theorem putFresh_eq_ok (hs : s.Inv) (hzero : m.headId ≠ 0)
    (hnone : s.logs.message m.log m.headId = none)
    (hgap : ¬(s.logs.current m.log).saturatingAdd 1 < m.headId) {r : ReplicateResult}
    {s' : Sqlite} :
    putFresh s m m.headId.toNat = .ok (r, s') ↔
      s.Insertable m ∧ r = .inserted ∧ s' = s.withHead m := by
  have hpast := Logs.current_lt_of_free hs.wellFormed hzero hnone
  have hhead : (s.logs.head (LogKey.of m.topic m.origin)).getD 0 = s.logs.current m.log := rfl
  unfold putFresh
  rw [Except.bind_of_ok (selectHead_eq hs.coded _ _)]
  simp only [hhead, if_neg hgap, if_pos hpast]
  constructor
  · intro h
    obtain ⟨e, hrow, h⟩ := Except.bind_eq_ok.mp h
    obtain ⟨tx, hinsert, h⟩ := Except.bind_eq_ok.mp h
    cases h
    obtain ⟨hinsertable, rfl⟩ := (insert_messageRow_eq_ok hs.coded (s := s)).mp
      (Except.bind_eq_ok.mpr ⟨e, hrow, hinsert⟩)
    exact ⟨hinsertable, rfl, rfl⟩
  · rintro ⟨hinsertable, rfl, rfl⟩
    obtain ⟨e, hrow, hinsert⟩ := Except.bind_eq_ok.mp
      ((insert_messageRow_eq_ok hs.coded (s := s)).mpr ⟨hinsertable, rfl⟩)
    exact Except.bind_eq_ok.mpr ⟨e, hrow, Except.bind_eq_ok.mpr ⟨_, hinsert, rfl⟩⟩

theorem logs_withHead (hpast : s.logs.current m.log < m.headId) :
    (s.withHead m).logs = s.logs.write m.log m.headId m := by
  refine logs_withMessage fun k => ?_
  have hmax : max (s.logs.current m.log) m.headId = m.headId := by
    rw [← UInt64.toNat_inj, UInt64.toNat_max]
    rw [UInt64.lt_iff_toNat_lt] at hpast
    omega
  rw [hmax]
  exact get_heads_insert k

theorem putFresh_outcome (hs : s.Inv) (env : CallEnv) {m : StoredMessage}
    (hzero : m.headId ≠ 0) (hnone : s.logs.message m.log m.headId = none) :
    Outcome s env (.putReplicatedMessage m)
      (putFresh s (s.logs.stamp m) (s.logs.stamp m).headId.toNat) := by
  by_cases hgap : (s.logs.current m.log).saturatingAdd 1 < m.headId
  · have hrefuse : ∃ text, putFresh s (s.logs.stamp m) (s.logs.stamp m).headId.toNat =
        .error (.invalidArgument text) := by
      unfold putFresh
      rw [Except.bind_of_ok (selectHead_eq hs.coded _ _)]
      exact ⟨_, if_pos hgap⟩
    obtain ⟨text, hrun⟩ := hrefuse
    rw [hrun]
    intro _ _ _
    simp [Logs.refuses, hzero, hnone, hgap, MsgbusError.kind]
  cases hrun : putFresh s (s.logs.stamp m) (s.logs.stamp m).headId.toNat with
  | error e =>
      rintro _ - ⟨hhead, hcreated, hid⟩
      have hinsertable : s.Insertable (s.logs.stamp m) := by
        refine ⟨hhead, hcreated, hnone, (idFree_iff hs.coded).mpr ?_⟩
        intro k n old hold heq
        obtain ⟨rfl, rfl⟩ := hid k n old hold (MessageId.value_injective heq)
        rw [hnone] at hold
        cases hold
      have hok := (putFresh_eq_ok (m := s.logs.stamp m) hs hzero hnone hgap).mpr
        ⟨hinsertable, rfl, rfl⟩
      rw [hrun] at hok
      cases hok
  | ok result =>
      obtain ⟨r, s'⟩ := result
      obtain ⟨hinsertable, rfl, rfl⟩ :=
        (putFresh_eq_ok (m := s.logs.stamp m) hs hzero hnone hgap).mp hrun
      have hpast := Logs.current_lt_of_free hs.wellFormed hzero hnone
      rw [UInt64.lt_iff_toNat_lt, not_lt] at hgap
      exact ⟨coded_withHead hs.coded hinsertable,
        ⟨hzero, logs_withHead (m := s.logs.stamp m) hpast, Or.inl ⟨hnone, hgap⟩⟩,
        fun _ => ⟨rfl, rfl, rfl⟩⟩

theorem putReplicatedMessage_eq (hs : s.Inv) (hzero : m.headId ≠ 0) (hfits : Fits m.headId) :
    putReplicatedMessage s m = (s.messages.get (messagePk m.log m.headId)).elim
      (putFresh s (s.logs.stamp m) (s.logs.stamp m).headId.toNat)
      (fun row => rowToMessage (messagePk m.log m.headId) row >>= fun existing =>
        putExisting s (messagePk m.log m.headId) existing (s.logs.stamp m)) := by
  have hstamp := (applyTombstoneMarkers_eq_ok (m := m) hs.coded).mpr ⟨Or.inr hfits, rfl⟩
  have hconvert : u64ToI64 (s.logs.stamp m).headId = .ok (m.headId.toNat : Int) :=
    u64ToI64_eq_ok.mpr ⟨hfits, rfl⟩
  unfold putReplicatedMessage
  rw [if_neg hzero]
  refine (Except.bind_of_ok hstamp _).trans ((Except.bind_of_ok hconvert _).trans ?_)
  dsimp only
  rw [show s.messages.get ⟨(s.logs.stamp m).topic.value, (s.logs.stamp m).origin.key,
    m.headId.toNat⟩ = s.messages.get (messagePk m.log m.headId) from rfl]
  cases s.messages.get (messagePk m.log m.headId) with
  | none => rfl
  | some row => rfl

theorem putReplicatedMessage_of_none (hs : s.Inv) (hzero : m.headId ≠ 0) (hfits : Fits m.headId)
    (hnone : s.logs.message m.log m.headId = none) :
    putReplicatedMessage s m = putFresh s (s.logs.stamp m) (s.logs.stamp m).headId.toNat := by
  rw [putReplicatedMessage_eq hs hzero hfits, (get_message_eq_none hs.coded).mpr hnone]
  rfl

theorem putReplicatedMessage_of_some (hs : s.Inv) (hzero : m.headId ≠ 0) (hfits : Fits m.headId)
    {old : StoredMessage} (hold : s.logs.message m.log m.headId = some old) :
    putReplicatedMessage s m =
      rowToMessage (messageEntry old).1 (messageEntry old).2 >>= fun existing =>
        putExisting s (messagePk m.log m.headId) existing (s.logs.stamp m) := by
  obtain ⟨hmem, hlog, hheadId⟩ := (logs_message_eq_some hs.coded).mp hold
  have hpk : (messageEntry old).1 = messagePk m.log m.headId := by
    rw [messageEntry_fst, hlog, hheadId]
  have hget : s.messages.get (messagePk m.log m.headId) = some (messageEntry old).2 := by
    rw [← hpk]
    exact OrderedTable.get_eq_some_iff.mpr hmem
  rw [putReplicatedMessage_eq hs hzero hfits, hget, hpk]
  rfl

theorem fits_of_putReplicatedMessage (hs : s.Inv) (hzero : m.headId ≠ 0)
    {result : ReplicateResult × Sqlite} (h : putReplicatedMessage s m = .ok result) :
    Fits m.headId := by
  unfold putReplicatedMessage at h
  rw [if_neg hzero] at h
  obtain ⟨stored, hstamp, h⟩ := Except.bind_eq_ok.mp h
  obtain ⟨-, rfl⟩ := (applyTombstoneMarkers_eq_ok hs.coded).mp hstamp
  obtain ⟨_, hconvert, -⟩ := Except.bind_eq_ok.mp h
  exact (u64ToI64_eq_ok.mp hconvert).1

theorem putReplicatedMessage_outcome (hs : s.Inv) (env : CallEnv) (m : StoredMessage) :
    Outcome s env (.putReplicatedMessage m) (putReplicatedMessage s m) := by
  by_cases hzero : m.headId = 0
  · simp [putReplicatedMessage, hzero, Outcome, Logs.refuses, throw, throwThe,
      MonadExceptOf.throw, MsgbusError.kind, bind, Except.bind]
  by_cases hfits : Fits m.headId
  · cases hold : s.logs.message m.log m.headId with
    | none =>
        rw [putReplicatedMessage_of_none hs hzero hfits hold]
        exact putFresh_outcome hs env hzero hold
    | some old =>
        rw [putReplicatedMessage_of_some hs hzero hfits hold]
        cases hread : rowToMessage (messageEntry old).1 (messageEntry old).2 with
        | error e =>
            intro _ hreadable _
            have hok := rowToMessage_eq_ok.mpr ⟨hreadable _ _ old hold, rfl⟩
            rw [hread] at hok
            cases hok
        | ok existing =>
            obtain ⟨-, rfl⟩ := rowToMessage_eq_ok.mp hread
            exact putExisting_outcome hs env hzero hold
  · cases hrun : putReplicatedMessage s m with
    | error e =>
        intro _ _ haccepts
        exact absurd haccepts.1 hfits
    | ok result => exact absurd (fits_of_putReplicatedMessage hs hzero hrun) hfits

/-! ## The remaining methods -/

def headRows (s : Sqlite) : List (HeadPk × Int × MessageRow) :=
  s.heads.entries.filterMap fun (pk, head) =>
    (s.messages.get ⟨pk.topic, pk.originKey, head⟩).map fun row => (pk, head, row)

omit [Formats] in
theorem headRows_sorted (s : Sqlite) : s.headRows.Pairwise (fun a b => a.1 < b.1) := by
  rw [headRows, List.pairwise_filterMap]
  refine s.heads.sorted.imp ?_
  rintro ⟨pk, head⟩ ⟨pk', head'⟩ hlt row hrow row' hrow'
  obtain ⟨_, -, rfl⟩ := Option.map_eq_some_iff.mp hrow
  obtain ⟨_, -, rfl⟩ := Option.map_eq_some_iff.mp hrow'
  exact hlt

theorem mem_headRows (hs : s.Inv) {pk : HeadPk} {head : Int} {row : MessageRow} :
    (pk, head, row) ∈ s.headRows ↔
      ∃ k h m, pk = headPk k ∧ head = (h : UInt64).toNat ∧ row = (messageEntry m).2 ∧
        s.logs.head k = some h ∧ s.logs.message k h = some m := by
  simp only [headRows, List.mem_filterMap, Option.map_eq_some_iff, Prod.exists, Prod.mk.injEq]
  constructor
  · rintro ⟨pk, head, hmem, row, hget, rfl, rfl, rfl⟩
    obtain ⟨h, hhead, -⟩ := hs.coded.heads _ hmem
    simp only at hhead
    subst hhead
    have hpk : pk = headPk ⟨⟨pk.topic⟩, pk.originKey⟩ := rfl
    obtain ⟨m, hentry, -⟩ := hs.coded.messages _ (OrderedTable.get_eq_some_iff.mp hget)
    have hkey : messagePk ⟨⟨pk.topic⟩, pk.originKey⟩ h = messagePk m.log m.headId :=
      congrArg Prod.fst hentry
    obtain ⟨hlog, hheadId⟩ := messagePk_inj.mp hkey
    refine ⟨_, h, m, hpk, rfl, congrArg Prod.snd hentry,
      (logs_head_eq_some hs.coded).mpr (OrderedTable.get_eq_some_iff.mpr hmem),
      (logs_message_eq_some hs.coded).mpr
        ⟨hentry ▸ OrderedTable.get_eq_some_iff.mp hget, hlog.symm, hheadId.symm⟩⟩
  · rintro ⟨k, h, m, rfl, rfl, rfl, hhead, hm⟩
    obtain ⟨hmem, rfl, rfl⟩ := (logs_message_eq_some hs.coded).mp hm
    exact ⟨_, _, OrderedTable.get_eq_some_iff.mp ((logs_head_eq_some hs.coded).mp hhead), _,
      OrderedTable.get_eq_some_iff.mpr hmem, rfl, rfl, rfl⟩

theorem rowToHead_eq_ok {h : UInt64} {head : TopicHead} :
    rowToHead (headPk m.log) h.toNat (messageEntry m).2 = .ok head ↔
      ValidPart m.topic.value ∧ head = ⟨m.topic, m.origin, h⟩ := by
  have hmap : ∀ x : Except MsgbusError TopicHead,
      Except.mapError storageErr x = .ok head ↔ x = .ok head := by
    intro x
    cases x <;> simp [Except.mapError]
  unfold rowToHead
  rw [hmap]
  simp only [messageEntry, headPk, Except.bind_eq_ok, i64ToU64_natCast, Topic.new_eq_ok,
    JsonFormat.decodeJson_toStr, Except.ok.injEq, pure, Except.pure]
  constructor
  · rintro ⟨_, rfl, _, ⟨htopic, rfl⟩, _, rfl, rfl⟩
    exact ⟨htopic, rfl⟩
  · rintro ⟨htopic, rfl⟩
    exact ⟨_, rfl, _, ⟨htopic, rfl⟩, _, rfl, rfl⟩

theorem headRows_read (hs : s.Inv) {row : HeadPk × Int × MessageRow} (hrow : row ∈ s.headRows) :
    ∃ k h m, row = (headPk k, ((h : UInt64).toNat : Int), (messageEntry m).2) ∧
      s.logs.head k = some h ∧ s.logs.message k h = some m ∧
      ∀ head, rowToHead row.1 row.2.1 row.2.2 = .ok head ↔
        ValidPart m.topic.value ∧ head = ⟨m.topic, m.origin, h⟩ := by
  obtain ⟨pk, head, row⟩ := row
  obtain ⟨k, h, m, rfl, rfl, rfl, hhead, hm⟩ := (mem_headRows hs).mp hrow
  obtain ⟨-, rfl⟩ := hs.wellFormed.positioned k h m hm
  exact ⟨_, h, m, rfl, hhead, hm, fun head => rowToHead_eq_ok⟩

theorem listHeads_eq (s : Sqlite) :
    listHeads s = s.headRows.mapM fun row => rowToHead row.1 row.2.1 row.2.2 := rfl

theorem listHeads_ok_iff (hs : s.Inv) :
    (∃ r, listHeads s = .ok r) ↔ ∀ head, s.logs.IsHead head → ValidPart head.topic.value := by
  rw [listHeads_eq]
  constructor
  · rintro ⟨r, hr⟩ head ⟨k, m, hhead, hm, htopic, -⟩
    have hrow : (headPk k, (head.headId.toNat : Int), (messageEntry m).2) ∈ s.headRows :=
      (mem_headRows hs).mpr ⟨k, head.headId, m, rfl, rfl, rfl, hhead, hm⟩
    obtain ⟨-, rfl⟩ := hs.wellFormed.positioned k _ m hm
    obtain ⟨found, hread⟩ := Except.exists_of_mapM_eq_ok hr hrow
    rw [htopic]
    exact (rowToHead_eq_ok.mp hread).1
  · intro hvalid
    apply Except.exists_mapM_ok
    intro row hrow
    obtain ⟨k, h, m, -, hhead, hm, hread⟩ := headRows_read hs hrow
    exact ⟨_, (hread _).mpr ⟨hvalid ⟨m.topic, m.origin, h⟩ ⟨k, m, hhead, hm, rfl, rfl⟩, rfl⟩⟩

theorem listHeads_outcome (hs : s.Inv) (env : CallEnv) :
    Outcome s env .listHeads ((listHeads s).map (·, s)) := by
  cases hrun : listHeads s with
  | error e =>
      intro _ hreadable _
      obtain ⟨r, hr⟩ := (listHeads_ok_iff hs).mpr (by
        rintro head ⟨k, m, -, hm, htopic, -⟩
        rw [htopic]
        exact (hreadable k _ m hm).2)
      rw [hr] at hrun
      cases hrun
  | ok r =>
      rw [listHeads_eq] at hrun
      refine ⟨hs.coded, ⟨?_, ?_, rfl⟩, fun _ => ⟨rfl, rfl, rfl⟩⟩
      · refine Except.nodup_of_mapM_eq_ok hrun ((headRows_sorted s).imp_of_mem ?_)
        intro row row' hmem hmem' hlt head hread hread'
        obtain ⟨k, h, m, rfl, -, hm, hiff⟩ := headRows_read hs hmem
        obtain ⟨k', h', m', rfl, -, hm', hiff'⟩ := headRows_read hs hmem'
        obtain ⟨-, rfl⟩ := (hiff head).mp hread
        have hnames := TopicHead.mk.inj ((hiff' _).mp hread').2
        have hlog : m.log = m'.log := by
          rw [StoredMessage.log, StoredMessage.log, hnames.1, hnames.2.1]
        rw [(hs.wellFormed.positioned k h m hm).2, (hs.wellFormed.positioned k' h' m' hm').2] at hlog
        exact absurd hlt (by rw [hlog]; exact lt_irrefl _)
      · intro head
        rw [Except.mem_of_mapM_eq_ok hrun]
        constructor
        · rintro ⟨row, hmem, hread⟩
          obtain ⟨k, h, m, -, hhead, hm, hiff⟩ := headRows_read hs hmem
          obtain ⟨-, rfl⟩ := (hiff head).mp hread
          exact ⟨k, m, hhead, hm, rfl, rfl⟩
        · rintro ⟨k, m, hhead, hm, htopic, horigin⟩
          have hmem : (headPk k, (head.headId.toNat : Int), (messageEntry m).2) ∈ s.headRows :=
            (mem_headRows hs).mpr ⟨k, head.headId, m, rfl, rfl, rfl, hhead, hm⟩
          obtain ⟨-, rfl⟩ := hs.wellFormed.positioned k _ m hm
          obtain ⟨found, hread⟩ := Except.exists_of_mapM_eq_ok hrun hmem
          refine ⟨_, hmem, rowToHead_eq_ok.mpr ⟨(rowToHead_eq_ok.mp hread).1, ?_⟩⟩
          rw [← htopic, ← horigin]

theorem tombstoneRange_ok_iff (hs : s.Inv) {topic : Topic} {origin : NodeId}
    {first last : HeadId} {now : UInt64} :
    (∃ r, tombstoneRange s topic origin first last now = .ok r) ↔
      first ≤ last ∧ Fits first ∧ Fits last ∧ Fits now := by
  unfold tombstoneRange
  split_ifs with hlt
  · constructor
    · rintro ⟨r, hr⟩
      cases hr
    · rintro ⟨hle, -⟩
      exact absurd hlt (UInt64.not_lt.mpr hle)
  · constructor
    · rintro ⟨r, hr⟩
      exact ⟨UInt64.not_lt.mp hlt, ((tombstoneRangeInTx_eq_ok hs).mp hr).1⟩
    · rintro ⟨-, hfits⟩
      exact ⟨_, (tombstoneRangeInTx_eq_ok hs).mpr ⟨hfits, rfl, rfl⟩⟩

theorem tombstoneRange_outcome (hs : s.Inv) (env : CallEnv) (topic : Topic) (origin : NodeId)
    (first last : HeadId) :
    Outcome s env (.tombstoneRange topic origin first last)
      (tombstoneRange s topic origin first last env.now) := by
  unfold tombstoneRange
  split_ifs with hlt
  · simp [Outcome, Logs.refuses, hlt, MsgbusError.kind]
  cases hrun : tombstoneRangeInTx s topic origin first last env.now with
  | error e =>
      intro _ _ haccepts
      rw [(tombstoneRangeInTx_eq_ok hs).mpr ⟨haccepts, rfl, rfl⟩] at hrun
      cases hrun
  | ok result =>
      obtain ⟨r, s'⟩ := result
      obtain ⟨-, rfl, rfl⟩ := (tombstoneRangeInTx_eq_ok hs).mp hrun
      exact ⟨coded_marked hs.coded topic origin first last env.now,
        ⟨UInt64.not_lt.mp hlt, toNat_ofNat_unmarked hs,
          logs_marked hs.coded hs.wellFormed topic origin first last env.now⟩,
        fun _ => ⟨rfl, rfl, rfl⟩⟩

omit [Formats] in
theorem AcceptsAppend.mark {b : Logs} {msg : NewMessage} {now : UInt64} {first last : HeadId}
    (h : AcceptsAppend b msg now) : AcceptsAppend (b.mark k first last) msg now where
  now := h.now
  head := h.head
  id := by
    intro k' n m hm
    by_cases hk : k' = k
    · subst hk
      rw [Logs.mark_message_self] at hm
      obtain ⟨old, hold, rfl⟩ := Logs.markRange_eq_some hm
      split_ifs
      · exact h.id k' n old hold
      · exact h.id k' n old hold
    · rw [Logs.mark_message_of_ne_log hk] at hm
      exact h.id k' n m hm

theorem tombstoneRangeWithMarker_outcome (hs : s.Inv) (env : CallEnv) (topic : Topic)
    (origin : NodeId) (first last : HeadId) (markerTopic : Topic) (markerOrigin : NodeId) :
    Outcome s env (.tombstoneRangeWithMarker topic origin first last markerTopic markerOrigin)
      (tombstoneRangeWithMarker s topic origin first last markerTopic markerOrigin env) := by
  by_cases hlt : last < first
  · simp [tombstoneRangeWithMarker, Outcome, Logs.refuses, hlt, MsgbusError.kind, throw, throwThe,
      MonadExceptOf.throw, bind, Except.bind]
  let s₁ := s.marked topic origin first last env.now
  let msg := Logs.marker topic origin first last markerTopic markerOrigin env
  have hlogs : s₁.logs = s.logs.mark (LogKey.of topic origin) first last :=
    logs_marked hs.coded hs.wellFormed topic origin first last env.now
  have hcoded : s₁.Coded := coded_marked hs.coded topic origin first last env.now
  have hs₁ : s₁.Inv := ⟨hcoded, hlogs ▸ Logs.wellFormed_mark hs.wellFormed first last⟩
  cases hrun : tombstoneRangeWithMarker s topic origin first last markerTopic markerOrigin env with
  | error e =>
      rintro _ - ⟨hfirst, hlast, hnow, happend⟩
      have hrange : tombstoneRangeInTx s topic origin first last env.now = .ok (_, s₁) :=
        (tombstoneRangeInTx_eq_ok hs).mpr ⟨⟨hfirst, hlast, hnow⟩, rfl, rfl⟩
      have hinsertable : s₁.Insertable (s₁.logs.appended msg env.later) :=
        insertable_appended hs₁ (hlogs ▸ happend.mark)
      have hmarker := (appendMessageInTx_eq_ok hcoded).mpr ⟨rfl, hinsertable, rfl⟩
      have hok : ∃ result, tombstoneRangeWithMarker s topic origin first last markerTopic
          markerOrigin env = .ok result := by
        unfold tombstoneRangeWithMarker
        rw [if_neg hlt]
        exact ⟨_, (Except.bind_of_ok hrange _).trans (Except.bind_of_ok hmarker _)⟩
      obtain ⟨result, hok⟩ := hok
      rw [hrun] at hok
      cases hok
  | ok result =>
      unfold tombstoneRangeWithMarker at hrun
      rw [if_neg hlt] at hrun
      obtain ⟨⟨changed, tx⟩, hrange, hrun⟩ := Except.bind_eq_ok.mp hrun
      obtain ⟨⟨marker, tx'⟩, hmarker, hrun⟩ := Except.bind_eq_ok.mp hrun
      cases hrun
      obtain ⟨-, rfl, rfl⟩ := (tombstoneRangeInTx_eq_ok hs).mp hrange
      obtain ⟨rfl, hinsertable, rfl⟩ := (appendMessageInTx_eq_ok hcoded).mp hmarker
      refine ⟨coded_withHead hcoded hinsertable, ⟨UInt64.not_lt.mp hlt, toNat_ofNat_unmarked hs,
        ?_, ?_⟩, fun _ => ⟨rfl, rfl, rfl⟩⟩
      · change s₁.logs.appended msg env.later = _
        rw [hlogs]
      · change (s₁.withHead (s₁.logs.appended msg env.later)).logs = _
        rw [logs_withHead_appended, hlogs]

/-! ## Calls on the other tables -/

structure SameLogs (s s' : Sqlite) : Prop where
  messages : s'.messages = s.messages
  heads : s'.heads = s.heads
  tombstones : s'.tombstones = s.tombstones

theorem SameLogs.coded {s' : Sqlite} (h : SameLogs s s') (hs : s.Coded) : s'.Coded where
  messages := h.messages ▸ hs.messages
  heads := h.heads ▸ hs.heads
  tombstones := h.tombstones ▸ hs.tombstones

theorem SameLogs.logs_eq {s' : Sqlite} (h : SameLogs s s') : s'.logs = s.logs := by
  unfold logs
  rw [h.messages, h.heads, h.tombstones]

theorem enqueueFifo_sameLogs {message : NewFifoMessage} {now : UInt64} {r : StoredFifoMessage}
    {s' : Sqlite} (h : enqueueFifo s message now = .ok (r, s')) : SameLogs s s' := by
  unfold enqueueFifo at h
  obtain ⟨_, -, h⟩ := Except.bind_eq_ok.mp h
  obtain ⟨_, -, h⟩ := Except.bind_eq_ok.mp h
  obtain ⟨_, -, h⟩ := Except.bind_eq_ok.mp h
  obtain ⟨tx, hinsert, h⟩ := Except.bind_eq_ok.mp h
  cases h
  unfold insertFifo at hinsert
  split_ifs at hinsert
  cases hinsert
  exact ⟨rfl, rfl, rfl⟩

theorem updateFifoFront_sameLogs {queue : QueueName} {messageId : MessageId}
    {action : FifoFrontAction} {r : Bool} {s' : Sqlite}
    (h : updateFifoFront s queue messageId action = .ok (r, s')) : SameLogs s s' := by
  unfold updateFifoFront at h
  obtain ⟨front, -, h⟩ := Except.bind_eq_ok.mp h
  cases front with
  | none =>
      cases h
      exact ⟨rfl, rfl, rfl⟩
  | some message =>
      simp only at h
      split_ifs at h
      · obtain ⟨_, -, h⟩ := Except.bind_eq_ok.mp h
        cases action <;> cases h <;> exact ⟨rfl, rfl, rfl⟩
      · cases h
        exact ⟨rfl, rfl, rfl⟩

theorem recordPeerSyncState_sameLogs {state : PeerSyncState} {r : Unit} {s' : Sqlite}
    (h : recordPeerSyncState s state = .ok (r, s')) : SameLogs s s' := by
  unfold recordPeerSyncState at h
  obtain ⟨previous, -, h⟩ := Except.bind_eq_ok.mp h
  cases h
  exact ⟨rfl, rfl, rfl⟩

theorem exec_sameLogs {env : CallEnv} {op : StoreOp} {r : op.Result} {s' : Sqlite}
    (hop : op.onLogs = false) (h : op.exec s env = .ok (r, s')) : SameLogs s s' := by
  cases op with
  | enqueueFifo message =>
      have hrun : enqueueFifo s message env.now = .ok (r, s') := h
      exact enqueueFifo_sameLogs hrun
  | peekFifo queue =>
      obtain ⟨_, -, heq⟩ := Except.map_eq_ok.mp h
      cases heq
      exact ⟨rfl, rfl, rfl⟩
  | ackFifo queue messageId =>
      have hrun : updateFifoFront s queue messageId .ack = .ok (r, s') := h
      exact updateFifoFront_sameLogs hrun
  | rejectFifo queue messageId =>
      have hrun : updateFifoFront s queue messageId .reject = .ok (r, s') := h
      exact updateFifoFront_sameLogs hrun
  | recordPeerSyncState state => exact recordPeerSyncState_sameLogs h
  | listPeerSyncStates =>
      obtain ⟨_, -, heq⟩ := Except.map_eq_ok.mp h
      cases heq
      exact ⟨rfl, rfl, rfl⟩
  | _ => cases hop

/-! ## Refinement -/

/-- Every call does to the logs what the abstract step says; one that is
accepted is refused only for the reasons the logs give. -/
theorem exec_outcome (hs : s.Inv) (env : CallEnv) (op : StoreOp) :
    Outcome s env op (op.exec s env) := by
  by_cases hop : op.onLogs = true
  · cases op with
    | appendMessage message => exact appendMessage_outcome hs env message
    | fetchMessages query => exact fetchMessages_outcome hs env query
    | getHead topic origin =>
        have hexec : StoreOp.exec s env (.getHead topic origin) = .ok (_, s) :=
          congrArg (Except.map (·, s)) (selectHead_eq hs.coded topic origin)
        rw [hexec]
        exact ⟨hs.coded, ⟨rfl, rfl⟩, fun _ => ⟨rfl, rfl, rfl⟩⟩
    | listHeads => exact listHeads_outcome hs env
    | putReplicatedMessage message => exact putReplicatedMessage_outcome hs env message
    | tombstoneRange topic origin first last =>
        exact tombstoneRange_outcome hs env topic origin first last
    | tombstoneRangeWithMarker topic origin first last markerTopic markerOrigin =>
        exact tombstoneRangeWithMarker_outcome hs env topic origin first last markerTopic
          markerOrigin
    | _ => cases hop
  · rw [Bool.not_eq_true] at hop
    cases hexec : op.exec s env with
    | error e =>
        intro hop'
        rw [hop] at hop'
        cases hop'
    | ok result =>
        obtain ⟨r, s'⟩ := result
        have hsame := exec_sameLogs hop hexec
        refine ⟨hsame.coded hs.coded, ?_, fun hop' => by rw [hop] at hop'; cases hop'⟩
        rw [hsame.logs_eq]
        exact Logs.step_of_not_onLogs hop

/-- The backend refines the abstract logs. -/
theorem exec_refines {env : CallEnv} {op : StoreOp} {r : op.Result} {s' : Sqlite} (hs : s.Inv)
    (h : op.exec s env = .ok (r, s')) : s'.Inv ∧ Logs.Step env op r s.logs s'.logs := by
  have hout := exec_outcome hs env op
  rw [h] at hout
  exact ⟨⟨hout.1, Logs.step_wellFormed hs.wellFormed hout.2.1⟩, hout.2.1⟩

theorem exec_refused {env : CallEnv} {op : StoreOp} {e : MsgbusError} (hs : s.Inv)
    (hop : op.onLogs = true) (hreadable : Readable s.logs) (haccepts : Accepts s.logs env op)
    (h : op.exec s env = .error e) : s.logs.refuses op = some e.kind := by
  have hout := exec_outcome hs env op
  rw [h] at hout
  exact hout hop hreadable haccepts

theorem logs_openEmpty : openEmpty.logs = Logs.empty := by
  refine Logs.ext rfl rfl ?_
  funext k first last
  simp [logs, openEmpty, Logs.empty]

theorem inv_openEmpty : openEmpty.Inv where
  coded := ⟨by simp [openEmpty, OrderedTable.empty], by simp [openEmpty, OrderedTable.empty],
    by simp [openEmpty, OrderedTable.empty]⟩
  wellFormed := logs_openEmpty ▸ Logs.wellFormed_empty

end Msgbus.Sqlite
