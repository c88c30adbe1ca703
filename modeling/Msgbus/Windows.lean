import Msgbus.Interchange

/-!
# Reading logs

`list_heads` reports exactly the logs that hold a message.  `fetch_messages`
returns the window of the log it is asked for, and a reader that goes on after
the last message of each page reads the log through.
-/

namespace Msgbus

namespace Logs

variable {b : Logs} {k : LogKey}

theorem map_headId_log (hb : b.WellFormed) :
    (b.log k).map (·.headId.toNat) = List.range' 1 (b.current k).toNat := by
  apply List.ext_getElem
  · rw [List.length_map, length_log hb, List.length_range']
  · intro i hi _
    rw [List.length_map] at hi
    rw [List.getElem_map, List.getElem_range',
      (message_of_log_getElem? hb (List.getElem?_eq_getElem hi)).2]
    omega

theorem map_headId_drop (hb : b.WellFormed) (first : Nat) :
    ((b.log k).drop first).map (·.headId.toNat) =
      List.range' (first + 1) ((b.current k).toNat - first) := by
  rw [List.map_drop, map_headId_log hb, List.drop_range']
  congr 1
  omega

theorem map_headId_window (hb : b.WellFormed) {first : UInt64} (hfirst : 1 ≤ first.toNat)
    (limit : Nat) :
    (b.window k first limit).map (·.headId.toNat) =
      List.range' first.toNat
        (min (b.current k).toNat (first.toNat + limit - 1) + 1 - first.toNat) := by
  rw [window, List.map_take, map_headId_drop hb]
  apply List.ext_getElem
  · rw [List.length_take, List.length_range', List.length_range']
    omega
  · intro i _ _
    rw [List.getElem_take, List.getElem_range', List.getElem_range']
    omega

theorem le_headId_of_mem_window (hb : b.WellFormed) {first : UInt64} (hfirst : 1 ≤ first.toNat)
    {limit : Nat} {m : StoredMessage} (h : m ∈ b.window k first limit) :
    first.toNat ≤ m.headId.toNat := by
  have hposition := List.mem_map_of_mem (f := fun m : StoredMessage => m.headId.toNat) h
  rw [map_headId_window hb hfirst] at hposition
  exact (List.mem_range'_1.mp hposition).1

theorem headId_lt_of_mem_window (hb : b.WellFormed) {first : UInt64} (hfirst : 1 ≤ first.toNat)
    {limit : Nat} {m : StoredMessage} (h : m ∈ b.window k first limit) :
    m.headId.toNat < first.toNat + limit := by
  have hposition := List.mem_map_of_mem (f := fun m : StoredMessage => m.headId.toNat) h
  rw [map_headId_window hb hfirst] at hposition
  have hbounds := List.mem_range'_1.mp hposition
  omega

theorem message_of_mem_window (hb : b.WellFormed) {first : UInt64} {limit : Nat}
    {m : StoredMessage} (h : m ∈ b.window k first limit) : b.message k m.headId = some m :=
  (mem_log hb).mp (List.mem_of_mem_drop (List.mem_of_mem_take h))

theorem mem_window (hb : b.WellFormed) {first n : UInt64} (hfirst : 1 ≤ first.toNat) {limit : Nat}
    {m : StoredMessage} (hm : b.message k n = some m) (hle : first.toNat ≤ n.toNat)
    (hlimit : n.toNat < first.toNat + limit) : m ∈ b.window k first limit := by
  have hbounds := (hb.contiguous k n).mp (by rw [hm]; rfl)
  have hposition : n.toNat ∈ (b.window k first limit).map (·.headId.toNat) := by
    rw [map_headId_window hb hfirst]
    exact List.mem_range'_1.mpr ⟨hle, by omega⟩
  obtain ⟨m', hm', hid⟩ := List.mem_map.mp hposition
  have hmessage := message_of_mem_window hb hm'
  rw [UInt64.toNat_inj.mp hid, hm] at hmessage
  cases hmessage
  exact hm'

theorem window_current (hb : b.WellFormed) {m : StoredMessage}
    (hm : b.message k (b.current k) = some m) {limit : Nat} (hlimit : 0 < limit) :
    b.window k (b.current k) limit = [m] := by
  have hpos : 1 ≤ (b.current k).toNat := ((hb.contiguous k _).mp (by rw [hm]; rfl)).1
  have hids := map_headId_window (k := k) hb hpos limit
  rw [Nat.min_eq_left (by omega), Nat.add_sub_cancel_left] at hids
  obtain ⟨m', hm', hid⟩ := List.map_eq_singleton_iff.mp hids
  have hmessage := message_of_mem_window hb (by rw [hm']; exact List.mem_singleton_self m')
  rw [UInt64.toNat_inj.mp hid, hm] at hmessage
  cases hmessage
  exact hm'

end Logs

variable [Formats]

/-- The names that a call about logs would store come from their validating
constructors. -/
def StoreOp.LogNamesValid (env : CallEnv) (op : StoreOp) : Prop :=
  op.onLogs = true → op.NamesValid env

namespace StorageKind

/-- The message can be read back; redb never looks. -/
def ReadsBack (kind : StorageKind) (m : StoredMessage) : Prop :=
  kind = .sqlite → ValidPart m.id.value ∧ ValidPart m.topic.value

theorem readable_of_reachableBy {s : Sqlite} (hs : ReachableBy StoreOp.LogNamesValid s) :
    Sqlite.Readable s.logs := by
  induction hs with
  | empty =>
      intro k n m hm
      rw [show (MsgbusStore.empty : Sqlite).logs = Logs.empty from Sqlite.logs_openEmpty] at hm
      cases hm
  | call hnames hs ih =>
      rename_i s env op
      have hinv : Backend.Inv s := Backend.inv_of_reachable hs.reachable
      rcases Backend.after_cases hinv env op with ⟨r, -, -, hstep⟩ | hsame
      · cases hop : op.onLogs with
        | true => exact readable_of_step ih (hnames hop) hstep
        | false =>
            rw [show (op.after s env).logs = s.logs from Logs.eq_of_step_of_not_onLogs hop hstep]
            exact ih
      · rw [hsame]
        exact ih

theorem readsBack_of_reachableBy (kind : StorageKind) {s : kind.Store}
    (hs : ReachableBy StoreOp.LogNamesValid s) {k : LogKey} {n : HeadId} {m : StoredMessage}
    (hm : (kind.logs s).message k n = some m) : kind.ReadsBack m := by
  rintro rfl
  exact readable_of_reachableBy hs k n m hm

theorem fetch_ok_iff {kind : StorageKind} {s : kind.Store} {env : CallEnv} (hs : kind.Inv s)
    {query : FetchQuery} :
    (∃ result, (StoreOp.fetchMessages query).exec s env = .ok result) ↔
      query.fromHeadId.toNat ≤ kind.counterLimit ∧
        ∀ m ∈ (kind.logs s).window (LogKey.of query.topic query.origin) query.fromHeadId
          (effectiveLimit query.limit), kind.ReadsBack m := by
  cases kind with
  | redb =>
      have hrun : ∃ r s', (StoreOp.fetchMessages query).exec s env = .ok (r, s') :=
        Backend.exec_eq_ok hs rfl trivial rfl
      obtain ⟨r, s', hexec⟩ := hrun
      exact ⟨fun _ => ⟨toNat_le_counterLimit_redb _, fun _ _ hkind => by cases hkind⟩,
        fun _ => ⟨_, hexec⟩⟩
  | sqlite =>
      have hrun : (∃ result, (StoreOp.fetchMessages query).exec (s : Sqlite) env = .ok result) ↔
          ∃ r, Sqlite.fetchMessages s query = .ok r :=
        Except.exists_map_ok_iff
      rw [hrun, Sqlite.fetchMessages_ok_iff hs]
      exact and_congr_right fun _ => forall₂_congr fun m _ =>
        ⟨fun hvalid _ => hvalid, fun hreads => hreads rfl⟩

theorem fetchMessages_eq_window (kind : StorageKind) {s : kind.Store} (hs : kind.Inv s)
    (query : FetchQuery) (hfits : query.fromHeadId.toNat ≤ kind.counterLimit)
    (hreads : ∀ n m, (kind.logs s).message (LogKey.of query.topic query.origin) n = some m →
      kind.ReadsBack m) :
    MsgbusStore.fetchMessages s query =
      .ok ((kind.logs s).window (LogKey.of query.topic query.origin) query.fromHeadId
        (effectiveLimit query.limit)) := by
  have hb : (kind.logs s).WellFormed := Backend.wellFormed hs
  cases kind with
  | redb => exact Redb.fetchMessages_eq hs query
  | sqlite =>
      obtain ⟨page, hpage⟩ := (Sqlite.fetchMessages_ok_iff hs).mpr
        ⟨hfits, fun m hm => hreads _ m (Logs.message_of_mem_window hb hm) rfl⟩
      have hout := Sqlite.fetchMessages_outcome hs ⟨0, 0, ⟨""⟩⟩ query
      rw [hpage] at hout
      exact hpage.trans (congrArg Except.ok hout.2.1.1)

theorem accepts_listHeads (kind : StorageKind) {s : kind.Store}
    (hs : ReachableBy StoreOp.LogNamesValid s) (env : CallEnv) :
    @Backend.Accepts _ _ (instBackendStore kind) (kind.logs s) env .listHeads := by
  cases kind with
  | redb => exact trivial
  | sqlite => exact ⟨readable_of_reachableBy hs, trivial⟩

end StorageKind

/-! ## The heads -/

/-- `list_heads` succeeds and names each log that holds a message once, by its
largest stored head. -/
theorem listHeads_total_and_exact (kind : StorageKind) {s : kind.Store}
    (hs : ReachableBy StoreOp.LogNamesValid s) :
    ∃ heads, MsgbusStore.listHeads s = .ok heads ∧
      (heads.map fun head => LogKey.of head.topic head.origin).Nodup ∧
      (∀ k, k ∈ (heads.map fun head => LogKey.of head.topic head.origin) ↔
        ∃ n m, (kind.logs s).message k n = some m) ∧
      ∀ head ∈ heads, MsgbusStore.getHead s head.topic head.origin = .ok (some head.headId) ∧
        IsGreatest {n | ∃ m, (kind.logs s).message (LogKey.of head.topic head.origin) n = some m}
          head.headId := by
  have hinv : kind.Inv s := Backend.inv_of_reachable hs.reachable
  have hb : (kind.logs s).WellFormed := Backend.wellFormed hinv
  obtain ⟨heads, hlist, hnodup, hmem⟩ :=
    Backend.listHeads_eq hinv (kind.accepts_listHeads hs ⟨0, 0, ⟨""⟩⟩)
  refine ⟨heads, hlist, ?_, ?_, ?_⟩
  · refine (List.nodup_map_iff_inj_on hnodup).mpr ?_
    intro head hhead head' hhead' hlog
    exact Logs.IsHead.eq_of_log hb ((hmem head).mp hhead) ((hmem head').mp hhead') hlog
  · intro k
    rw [← Logs.exists_isHead_iff hb, List.mem_map]
    exact exists_congr fun head => and_congr_left fun _ => hmem head
  · intro head hhead
    have hlisted : (kind.logs s).IsHead head := (hmem head).mp hhead
    obtain ⟨hhead, hmessage⟩ := hlisted.head_message hb
    refine ⟨(Backend.getHead_eq head.topic head.origin hinv).trans (congrArg Except.ok hhead), ?_⟩
    constructor
    · exact hmessage
    · rintro n ⟨m', hm'⟩
      have hbounds := (hb.contiguous _ n).mp (by rw [hm']; rfl)
      rw [hlisted.current_eq hb] at hbounds
      exact UInt64.le_iff_toNat_le.mpr hbounds.2

theorem exists_appended {s : Sqlite} (hs : ReachableBy StoreOp.LogNamesValid s) {b : Logs}
    (hb : s.logs = b) (msg : NewMessage)
    (hnames : ValidPart msg.id.value ∧ ValidPart msg.topic.value)
    {last : HeadId} (hlast : b.current (LogKey.of msg.topic msg.origin) = last)
    (hroom : Sqlite.Fits (last.saturatingAdd 1))
    (hid : ∀ k n old, b.message k n = some old → old.id ≠ msg.id) :
    ∃ s' : Sqlite, ReachableBy StoreOp.LogNamesValid s' ∧ s'.logs = b.append msg 0 := by
  subst hb hlast
  have hinv : Backend.Inv s := Backend.inv_of_reachable hs.reachable
  have haccepts : Sqlite.Readable s.logs ∧ Sqlite.Accepts s.logs firstEnv (.appendMessage msg) :=
    ⟨StorageKind.readable_of_reachableBy hs, by decide, hroom, hid⟩
  obtain ⟨r, s', hexec⟩ := Backend.exec_eq_ok hinv rfl haccepts rfl
  have hafter : StoreOp.after s firstEnv (.appendMessage msg) = s' := by
    rw [StoreOp.after, hexec]
  have hstep : Logs.Step firstEnv (.appendMessage msg) r s.logs s'.logs :=
    (Backend.refines hinv hexec).2
  exact ⟨s', hafter ▸ .call (fun _ => hnames) hs, hstep.2⟩

/-- A second message for the first log, and one for another. -/
def secondMessage : NewMessage := ⟨⟨"n"⟩, ⟨"t"⟩, ⟨"a", "b", "c"⟩, .empty, .empty⟩

def otherMessage : NewMessage := ⟨⟨"o"⟩, ⟨"u"⟩, ⟨"a", "b", "c"⟩, .empty, .empty⟩

omit [Formats] in
theorem Logs.id_ne_of_append {b : Logs} {msg : NewMessage} {now : UInt64} {id : MessageId}
    (hmsg : msg.id ≠ id) (hb : ∀ k n old, b.message k n = some old → old.id ≠ id)
    (k : LogKey) (n : HeadId) (old : StoredMessage)
    (hold : (b.append msg now).message k n = some old) : old.id ≠ id := by
  rw [Logs.append, Logs.write_message] at hold
  split_ifs at hold with hnew
  · cases hold
    exact hmsg
  · exact hb k n old hold

omit [Formats] in
theorem Logs.current_append {b : Logs} (msg : NewMessage) {last : HeadId}
    (hlast : b.current (LogKey.of msg.topic msg.origin) = last) (now : UInt64) :
    (b.append msg now).current (LogKey.of msg.topic msg.origin) = last.saturatingAdd 1 :=
  hlast ▸ Logs.current_append_self msg now

theorem exists_three_stored : ∃ s : Sqlite, ReachableBy StoreOp.LogNamesValid s ∧
    s.logs.current (LogKey.of ⟨"t"⟩ ⟨"a", "b", "c"⟩) = 2 ∧
    s.logs.current (LogKey.of ⟨"u"⟩ ⟨"a", "b", "c"⟩) = 1 := by
  have hempty (id : MessageId) (k : LogKey) (n : HeadId) (old : StoredMessage)
      (hold : Logs.empty.message k n = some old) : old.id ≠ id := by
    cases hold
  have hfirst : (Logs.empty.append firstMessage 0).current (LogKey.of ⟨"t"⟩ ⟨"a", "b", "c"⟩) = 1 :=
    Logs.current_append firstMessage rfl 0
  have hsecond : ((Logs.empty.append firstMessage 0).append secondMessage 0).current
      (LogKey.of ⟨"t"⟩ ⟨"a", "b", "c"⟩) = 2 :=
    Logs.current_append secondMessage hfirst 0
  have hother : ((Logs.empty.append firstMessage 0).append secondMessage 0).current
      (LogKey.of ⟨"u"⟩ ⟨"a", "b", "c"⟩) = 0 := by
    rw [Logs.append, Logs.write_current_of_ne_log (by decide), Logs.append,
      Logs.write_current_of_ne_log (by decide)]
    rfl
  obtain ⟨s₁, hs₁, hlogs₁⟩ := exists_appended (.empty : ReachableBy _ (MsgbusStore.empty : Sqlite))
    Sqlite.logs_openEmpty firstMessage (by decide) rfl (by decide) (hempty _)
  obtain ⟨s₂, hs₂, hlogs₂⟩ := exists_appended hs₁ hlogs₁ secondMessage (by decide) hfirst (by decide)
    (Logs.id_ne_of_append (by decide) (hempty _))
  obtain ⟨s₃, hs₃, hlogs₃⟩ := exists_appended hs₂ hlogs₂ otherMessage (by decide) hother (by decide)
    (Logs.id_ne_of_append (by decide) (Logs.id_ne_of_append (by decide) (hempty _)))
  refine ⟨s₃, hs₃, ?_, ?_⟩
  · rw [hlogs₃, Logs.append, Logs.write_current_of_ne_log (by decide), hsecond]
  · rw [hlogs₃]
    exact Logs.current_append otherMessage hother 0

omit [Formats] in
/-- Two logs are listed by two heads. -/
theorem listHeads_total_and_exact_two :
    letI := Serde.formats
    ∃ s : Sqlite, ReachableBy StoreOp.LogNamesValid s ∧
      ∃ heads, MsgbusStore.listHeads s = .ok heads ∧
        (heads.map fun head => LogKey.of head.topic head.origin).Nodup ∧
        LogKey.of ⟨"t"⟩ ⟨"a", "b", "c"⟩ ∈ heads.map (fun head => LogKey.of head.topic head.origin) ∧
        LogKey.of ⟨"u"⟩ ⟨"a", "b", "c"⟩ ∈ heads.map fun head => LogKey.of head.topic head.origin := by
  let := Serde.formats
  obtain ⟨s, hs, ht, hu⟩ := exists_three_stored
  have hb : s.logs.WellFormed := Backend.wellFormed (Backend.inv_of_reachable hs.reachable)
  obtain ⟨heads, hlist, hnodup, hmem, -⟩ := listHeads_total_and_exact .sqlite hs
  have hstored (k : LogKey) (hk : 1 ≤ (s.logs.current k).toNat) :
      ∃ n m, s.logs.message k n = some m :=
    ⟨_, Option.isSome_iff_exists.mp ((hb.contiguous k _).mpr ⟨hk, Nat.le_refl _⟩)⟩
  refine ⟨s, hs, heads, hlist, hnodup, (hmem _).mpr (hstored _ ?_), (hmem _).mpr (hstored _ ?_)⟩
  · rw [ht]
    decide
  · rw [hu]
    decide

/-! ## A reader -/

/-- Read a log page by page: each page starts after the last message of the one
before, and the reader stops at an empty page, when it has no limit left to ask
with, or when the next position is past what the backend can be asked for. -/
def readPages (kind : StorageKind) (s : kind.Store) (topic : Topic) (origin : NodeId) :
    Nat → List UInt32 → Except MsgbusError (List StoredMessage)
  | _, [] => .ok []
  | position, limit :: limits =>
      if kind.counterLimit < position then .ok []
      else do
        let page ← MsgbusStore.fetchMessages s ⟨topic, origin, UInt64.ofNat position, limit⟩
        match page.getLast? with
        | none => .ok []
        | some last => do
            let rest ← readPages kind s topic origin (last.headId.toNat + 1) limits
            .ok (page ++ rest)

theorem StorageKind.current_le_counterLimit (kind : StorageKind) {s : kind.Store}
    (hs : kind.Inv s) (k : LogKey) : ((kind.logs s).current k).toNat ≤ kind.counterLimit := by
  cases kind with
  | redb => exact StorageKind.toNat_le_counterLimit_redb _
  | sqlite =>
      unfold Logs.current
      cases hhead : (StorageKind.sqlite.logs s).head k with
      | none => exact Nat.zero_le _
      | some h =>
          have hget := (Sqlite.logs_head_eq_some hs.coded).mp hhead
          obtain ⟨h', hvalue, hfits⟩ := hs.coded.heads _ (OrderedTable.get_eq_some_iff.mp hget)
          have hh : h = h' := UInt64.toNat_inj.mp (Int.ofNat_inj.mp hvalue)
          rw [hh]
          exact hfits

omit [Formats] in
theorem StorageKind.counterLimit_lt (kind : StorageKind) : kind.counterLimit < 2 ^ 64 := by
  have hle := kind.counterLimit_le
  rw [UInt64.toNat_maxValue] at hle
  omega

omit [Formats] in
theorem Logs.headId_getLast? {b : Logs} (hb : b.WellFormed) {k : LogKey} {start limit : Nat}
    {last : StoredMessage} (h : (((b.log k).drop start).take limit).getLast? = some last) :
    start < last.headId.toNat ∧
      last.headId.toNat = start + (((b.log k).drop start).take limit).length := by
  have hne : 0 < (((b.log k).drop start).take limit).length := by
    rw [List.length_pos_iff]
    intro hnil
    rw [hnil] at h
    cases h
  have hle : (((b.log k).drop start).take limit).length ≤ limit := List.length_take_le _ _
  rw [List.getLast?_eq_getElem?, List.getElem?_take_of_lt (by omega), List.getElem?_drop] at h
  have hlast := (message_of_log_getElem? hb h).2
  omega

theorem readPages_eq_drop (kind : StorageKind) {s : kind.Store} (hinv : kind.Inv s) (topic : Topic)
    (origin : NodeId)
    (hreads : ∀ n m, (kind.logs s).message (LogKey.of topic origin) n = some m → kind.ReadsBack m)
    (limits : List UInt32) {position : Nat} (hposition : 1 ≤ position)
    (hlimits : ((kind.logs s).current (LogKey.of topic origin)).toNat < position + limits.length) :
    readPages kind s topic origin position limits =
      .ok (((kind.logs s).log (LogKey.of topic origin)).drop (position - 1)) := by
  have hb : (kind.logs s).WellFormed := Backend.wellFormed hinv
  have hlength := Logs.length_log (k := LogKey.of topic origin) hb
  -- each page that is not empty moves the reader on, so the limits last
  induction limits generalizing position with
  | nil =>
      rw [List.length_nil] at hlimits
      rw [readPages, List.drop_eq_nil_of_le (by omega)]
  | cons limit limits ih =>
      rw [readPages]
      split_ifs with hpast
      · have hhead := kind.current_le_counterLimit hinv (LogKey.of topic origin)
        rw [List.drop_eq_nil_of_le (by omega)]
      · have hlt := kind.counterLimit_lt
        have hnat : (UInt64.ofNat position).toNat = position := by
          rw [UInt64.toNat_ofNat']
          exact Nat.mod_eq_of_lt (by omega)
        rw [Except.bind_of_ok (kind.fetchMessages_eq_window hinv _ (by rw [hnat]; omega) hreads),
          Logs.window, hnat]
        cases hpage : ((((kind.logs s).log (LogKey.of topic origin)).drop (position - 1)).take
            (effectiveLimit limit)).getLast? with
        | none =>
            have hpos := effectiveLimit_pos limit
            have hnil := List.getLast?_eq_none_iff.mp hpage
            rw [List.take_eq_nil_iff] at hnil
            rw [hnil.resolve_left (by omega)]
        | some last =>
            obtain ⟨hafter, hlast⟩ := Logs.headId_getLast? hb hpage
            rw [List.length_cons] at hlimits
            have hrest := @ih (last.headId.toNat + 1) (by omega) (by omega)
            change (_ >>= fun rest => _) = _
            rw [Except.bind_of_ok hrest, Nat.add_sub_cancel, hlast, ← List.drop_drop]
            exact congrArg Except.ok (List.prefix_iff_eq_append.mp (List.take_prefix _ _))

/-- Every fetch of a log that can be read back returns exactly the stored messages
of its window, and a reader that goes on after each page reads the rest of the log,
in order and once. -/
theorem fetch_exact_and_lossless (kind : StorageKind) {s : kind.Store} (hs : Reachable s)
    (topic : Topic) (origin : NodeId)
    (hreads : ∀ n m, (kind.logs s).message (LogKey.of topic origin) n = some m → kind.ReadsBack m)
    {first : HeadId} (hfirst : 1 ≤ first.toNat) (hfits : first.toNat ≤ kind.counterLimit) :
    (∀ limit : UInt32,
      ∃ page, MsgbusStore.fetchMessages s ⟨topic, origin, first, limit⟩ = .ok page ∧
        page.map (·.headId.toNat) = List.range' first.toNat
          (min ((kind.logs s).current (LogKey.of topic origin)).toNat
            (first.toNat + (if limit = 0 then 100 else min limit.toNat 10000) - 1) + 1 -
              first.toNat) ∧
        ∀ m ∈ page, (kind.logs s).message (LogKey.of topic origin) m.headId = some m) ∧
    ∀ limits : List UInt32,
      ((kind.logs s).current (LogKey.of topic origin)).toNat < first.toNat + limits.length →
      ∃ all, readPages kind s topic origin first.toNat limits = .ok all ∧
        all.map (·.headId.toNat) = List.range' first.toNat
          (((kind.logs s).current (LogKey.of topic origin)).toNat + 1 - first.toNat) ∧
        ∀ m ∈ all, (kind.logs s).message (LogKey.of topic origin) m.headId = some m := by
  have hinv : kind.Inv s := Backend.inv_of_reachable hs
  have hb : (kind.logs s).WellFormed := Backend.wellFormed hinv
  constructor
  · intro limit
    refine ⟨_, kind.fetchMessages_eq_window hinv _ hfits hreads,
      Logs.map_headId_window hb hfirst _, ?_⟩
    intro m hm
    exact Logs.message_of_mem_window hb hm
  · intro limits hlimits
    refine ⟨_, readPages_eq_drop kind hinv topic origin hreads limits hfirst hlimits, ?_, ?_⟩
    · rw [Logs.map_headId_drop hb]
      congr 1 <;> omega
    · intro m hm
      exact (Logs.mem_log hb).mp (List.mem_of_mem_drop hm)

omit [Formats] in
/-- Three pages of one message each read a log of two messages. -/
theorem fetch_exact_and_lossless_two :
    letI := Serde.formats
    ∃ s : Sqlite, Reachable s ∧
      (∃ page, MsgbusStore.fetchMessages s firstQuery = .ok page ∧
        page.map (·.headId.toNat) = [1, 2]) ∧
      ∃ all, readPages .sqlite s ⟨"t"⟩ ⟨"a", "b", "c"⟩ 1 [1, 1, 1] = .ok all ∧
        all.map (·.headId.toNat) = [1, 2] := by
  let := Serde.formats
  obtain ⟨s, hs, hcurrent, -⟩ := exists_three_stored
  have hreads (n : HeadId) (m : StoredMessage)
      (hm : s.logs.message (LogKey.of ⟨"t"⟩ ⟨"a", "b", "c"⟩) n = some m) :
      StorageKind.sqlite.ReadsBack m := StorageKind.readsBack_of_reachableBy .sqlite hs hm
  obtain ⟨hpages, hreader⟩ := @fetch_exact_and_lossless _ .sqlite s hs.reachable ⟨"t"⟩
    ⟨"a", "b", "c"⟩ hreads 1 (by decide) (by decide)
  obtain ⟨page, hpage, hpositions, -⟩ := hpages 0
  obtain ⟨all, hall, hlog, -⟩ := hreader [1, 1, 1] (by
    rw [show (StorageKind.sqlite.logs s).current _ = 2 from hcurrent]
    decide)
  rw [show (StorageKind.sqlite.logs s).current _ = 2 from hcurrent] at hpositions hlog
  exact ⟨s, hs.reachable, ⟨page, hpage, hpositions⟩, all, hall, hlog⟩

def blankMessage : NewMessage := ⟨⟨"m"⟩, ⟨" "⟩, ⟨"a", "b", "c"⟩, .empty, .empty⟩

omit [Formats] in
/-- SQLite stores the blank topic and then fails to read its log. -/
theorem blank_topic_unreadable :
    letI := Serde.formats
    ∃ s : Sqlite, Reachable s ∧ s.logs.head (LogKey.of ⟨" "⟩ ⟨"a", "b", "c"⟩) = some 1 ∧
      ∃ e, MsgbusStore.fetchMessages s ⟨⟨" "⟩, ⟨"a", "b", "c"⟩, 1, 0⟩ = .error e := by
  let := Serde.formats
  let s : Sqlite := StoreOp.after MsgbusStore.empty firstEnv (.appendMessage blankMessage)
  have hreachable : Reachable s := .call _ _ .empty
  have hinv : s.Inv := Backend.inv_of_reachable hreachable
  have hhead : s.logs.head (LogKey.of ⟨" "⟩ ⟨"a", "b", "c"⟩) = some 1 :=
    @head_append_fresh _ .sqlite blankMessage _ (by decide)
  refine ⟨s, hreachable, hhead, ?_⟩
  cases hfetch : MsgbusStore.fetchMessages s ⟨⟨" "⟩, ⟨"a", "b", "c"⟩, 1, 0⟩ with
  | error e => exact ⟨e, rfl⟩
  | ok page =>
      have hreads := ((Sqlite.fetchMessages_ok_iff hinv).mp ⟨page, hfetch⟩).2
      have hcurrent : s.logs.current (LogKey.of ⟨" "⟩ ⟨"a", "b", "c"⟩) = 1 :=
        congrArg (Option.getD · 0) hhead
      obtain ⟨m, hm⟩ := Option.isSome_iff_exists.mp
        ((hinv.wellFormed.contiguous (LogKey.of ⟨" "⟩ ⟨"a", "b", "c"⟩) 1).mpr
          ⟨by decide, by rw [hcurrent]⟩)
      have hpage : s.logs.window _ _ (effectiveLimit 0) = [m] :=
        Logs.window_current hinv.wellFormed (hcurrent.symm ▸ hm) (by decide)
      rw [hcurrent] at hpage
      have hvalid := (hreads m (hpage ▸ List.mem_singleton_self m)).2
      have hlog : m.log = LogKey.of ⟨" "⟩ ⟨"a", "b", "c"⟩ := (hinv.wellFormed.positioned _ _ m hm).2
      rw [show m.topic = ⟨" "⟩ from congrArg LogKey.topic hlog] at hvalid
      exact absurd hvalid (by decide)

end Msgbus
