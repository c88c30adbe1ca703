import Msgbus.Formats
import Msgbus.Lib.TextKey

/-!
# Redb keys

Every redb table is keyed by text.  A key joins a tag, the base64 of the names
it is about and zero-padded numbers; scans rely on the order and the prefixes
of these texts.
-/

namespace Msgbus.Redb

open TextKey

variable [Formats]

def decimal20 (n : UInt64) : String := String.ofList (padded 20 n.toNat)

def headKey (topic : Topic) (origin : NodeId) : String :=
  "head/" ++ enc topic.value ++ "/" ++ enc origin.key

/-- `head_key_parts`: the two encoded names of a head key. -/
def headKeyParts (key : String) : Except MsgbusError (String × String) :=
  match "head/".toList.isPrefixOf key.toList with
  | false => .error (.storage ("invalid head key: " ++ key))
  | true =>
      match (key.toList.drop 5).splitOn '/' with
      | [topic, origin] => .ok (String.ofList topic, String.ofList origin)
      | _ => .error (.storage ("invalid head key: " ++ key))

def messagePrefix (topic : Topic) (origin : NodeId) : String :=
  "msg/" ++ enc topic.value ++ "/" ++ enc origin.key ++ "/"

def rawMessageKey (topicPart originPart : String) (headId : HeadId) : String :=
  "msg/" ++ topicPart ++ "/" ++ originPart ++ "/" ++ decimal20 headId

/-- `peer_sync_key`; a state without topic or origin has `-` in their place. -/
def peerSyncKey (state : PeerSyncState) : String :=
  "peer-sync/" ++ enc state.peer ++ "/" ++
    enc (state.topic.elim "-" Topic.value) ++ "/" ++
    enc (state.origin.elim "-" NodeId.key)

def messageKey (topic : Topic) (origin : NodeId) (headId : HeadId) : String :=
  messagePrefix topic origin ++ decimal20 headId

def tombstonePrefix (topic : Topic) (origin : NodeId) : String :=
  "tombstone/" ++ enc topic.value ++ "/" ++ enc origin.key ++ "/"

def tombstoneKey (topic : Topic) (origin : NodeId) (first last : HeadId) : String :=
  tombstonePrefix topic origin ++ decimal20 first ++ "-" ++ decimal20 last

def fifoSequenceKey (queue : QueueName) : String :=
  "fifo-seq/" ++ enc queue.value

def fifoPrefix (queue : QueueName) : String :=
  "fifo/" ++ enc queue.value ++ "/"

def fifoMessageKey (queue : QueueName) (sequence : UInt64) : String :=
  fifoPrefix queue ++ decimal20 sequence

def startsWith (key start : String) : Bool := start.toList.isPrefixOf key.toList

/-! ## Keys by log

The proofs address tables by log, that is by the key of an origin. -/

def logHeadKey (k : LogKey) : String :=
  "head/" ++ enc k.topic.value ++ "/" ++ enc k.origin

def logMessagePrefix (k : LogKey) : String :=
  "msg/" ++ enc k.topic.value ++ "/" ++ enc k.origin ++ "/"

def logMessageKey (k : LogKey) (n : HeadId) : String := logMessagePrefix k ++ decimal20 n

def logTombstonePrefix (k : LogKey) : String :=
  "tombstone/" ++ enc k.topic.value ++ "/" ++ enc k.origin ++ "/"

def logTombstoneKey (k : LogKey) (first last : HeadId) : String :=
  logTombstonePrefix k ++ decimal20 first ++ "-" ++ decimal20 last

omit [Formats] in
theorem toNat_lt_pow (n : UInt64) : n.toNat < 10 ^ 20 := by
  have := n.toNat_lt
  omega

theorem toList_logHeadKey (k : LogKey) :
    (logHeadKey k).toList =
      "head/".toList ++ ((enc k.topic.value).toList ++ '/' :: (enc k.origin).toList) := by
  simp [logHeadKey, String.toList_append]

theorem toList_logMessagePrefix (k : LogKey) :
    (logMessagePrefix k).toList =
      "msg/".toList ++ ((enc k.topic.value).toList ++ '/' :: ((enc k.origin).toList ++ ['/'])) := by
  simp [logMessagePrefix, String.toList_append]

theorem toList_logMessageKey (k : LogKey) (n : HeadId) :
    (logMessageKey k n).toList =
      "msg/".toList ++ ((enc k.topic.value).toList ++ '/' ::
        ((enc k.origin).toList ++ '/' :: padded 20 n.toNat)) := by
  simp [logMessageKey, logMessagePrefix, decimal20, String.toList_append]

theorem toList_logTombstonePrefix (k : LogKey) :
    (logTombstonePrefix k).toList =
      "tombstone/".toList ++
        ((enc k.topic.value).toList ++ '/' :: ((enc k.origin).toList ++ ['/'])) := by
  simp [logTombstonePrefix, String.toList_append]

theorem toList_logTombstoneKey (k : LogKey) (first last : HeadId) :
    (logTombstoneKey k first last).toList =
      "tombstone/".toList ++ ((enc k.topic.value).toList ++ '/' ::
        ((enc k.origin).toList ++ '/' ::
          (padded 20 first.toNat ++ '-' :: padded 20 last.toNat))) := by
  simp [logTombstoneKey, logTombstonePrefix, decimal20, String.toList_append]

theorem logKey_eq_of_enc {k k' : LogKey}
    (htopic : (enc k.topic.value).toList = (enc k'.topic.value).toList)
    (horigin : (enc k.origin).toList = (enc k'.origin).toList) : k = k' := by
  have ht := Formats.enc_injective (String.toList_inj.mp htopic)
  have ho := Formats.enc_injective (String.toList_inj.mp horigin)
  obtain ⟨⟨t⟩, o⟩ := k
  obtain ⟨⟨t'⟩, o'⟩ := k'
  simp only at ht ho
  rw [ht, ho]

theorem logHeadKey_injective : Function.Injective logHeadKey := by
  intro k k' h
  have hlist := congrArg String.toList h
  rw [toList_logHeadKey, toList_logHeadKey, List.append_cancel_left_eq] at hlist
  obtain ⟨ht, ho⟩ := append_sep_inj (slash_notMem_enc _) (slash_notMem_enc _) hlist
  exact logKey_eq_of_enc ht ho

theorem logMessageKey_inj {k k' : LogKey} {n n' : HeadId} :
    logMessageKey k n = logMessageKey k' n' ↔ k = k' ∧ n = n' := by
  constructor
  · intro h
    have hlist := congrArg String.toList h
    rw [toList_logMessageKey, toList_logMessageKey, List.append_cancel_left_eq] at hlist
    obtain ⟨ht, hrest⟩ := append_sep_inj (slash_notMem_enc _) (slash_notMem_enc _) hlist
    obtain ⟨ho, hn⟩ := append_sep_inj (slash_notMem_enc _) (slash_notMem_enc _) hrest
    exact ⟨logKey_eq_of_enc ht ho,
      UInt64.toNat_inj.mp (padded_inj (toNat_lt_pow n) (toNat_lt_pow n') hn)⟩
  · rintro ⟨rfl, rfl⟩
    rfl

theorem logTombstoneKey_inj {k k' : LogKey} {f f' l l' : HeadId} :
    logTombstoneKey k f l = logTombstoneKey k' f' l' ↔ k = k' ∧ f = f' ∧ l = l' := by
  constructor
  · intro h
    have hlist := congrArg String.toList h
    rw [toList_logTombstoneKey, toList_logTombstoneKey, List.append_cancel_left_eq] at hlist
    obtain ⟨ht, hrest⟩ := append_sep_inj (slash_notMem_enc _) (slash_notMem_enc _) hlist
    obtain ⟨ho, hnumbers⟩ := append_sep_inj (slash_notMem_enc _) (slash_notMem_enc _) hrest
    have hlength : (padded 20 f.toNat).length = (padded 20 f'.toNat).length := by simp
    obtain ⟨hf, hl⟩ := List.append_inj hnumbers hlength
    exact ⟨logKey_eq_of_enc ht ho,
      UInt64.toNat_inj.mp (padded_inj (toNat_lt_pow f) (toNat_lt_pow f') hf),
      UInt64.toNat_inj.mp
        (padded_inj (toNat_lt_pow l) (toNat_lt_pow l') (List.cons.inj hl).2)⟩
  · rintro ⟨rfl, rfl, rfl⟩
    rfl

theorem toList_fifoPrefix (queue : QueueName) :
    (fifoPrefix queue).toList = "fifo/".toList ++ ((enc queue.value).toList ++ ['/']) := by
  simp [fifoPrefix, String.toList_append]

theorem toList_fifoMessageKey (queue : QueueName) (n : UInt64) :
    (fifoMessageKey queue n).toList =
      "fifo/".toList ++ ((enc queue.value).toList ++ '/' :: padded 20 n.toNat) := by
  simp [fifoMessageKey, fifoPrefix, decimal20, String.toList_append]

theorem fifoMessageKey_inj {queue queue' : QueueName} {n n' : UInt64} :
    fifoMessageKey queue n = fifoMessageKey queue' n' ↔ queue = queue' ∧ n = n' := by
  constructor
  · intro h
    have hlist := congrArg String.toList h
    rw [toList_fifoMessageKey, toList_fifoMessageKey, List.append_cancel_left_eq] at hlist
    obtain ⟨hq, hn⟩ := append_sep_inj (slash_notMem_enc _) (slash_notMem_enc _) hlist
    have hqueue := Formats.enc_injective (String.toList_inj.mp hq)
    exact ⟨QueueName.value_injective hqueue,
      UInt64.toNat_inj.mp (padded_inj (toNat_lt_pow n) (toNat_lt_pow n') hn)⟩
  · rintro ⟨rfl, rfl⟩
    rfl

theorem fifoSequenceKey_injective : Function.Injective fifoSequenceKey := by
  intro queue queue' h
  have hlist := congrArg String.toList h
  simp only [fifoSequenceKey, String.toList_append, List.append_cancel_left_eq] at hlist
  exact QueueName.value_injective (Formats.enc_injective (String.toList_inj.mp hlist))

theorem peerSyncKey_parts {state state' : PeerSyncState}
    (h : peerSyncKey state = peerSyncKey state') :
    state.peer = state'.peer ∧
      state.topic.elim "-" Topic.value = state'.topic.elim "-" Topic.value ∧
      state.origin.elim "-" NodeId.key = state'.origin.elim "-" NodeId.key := by
  have hlist := congrArg String.toList h
  have hslash : "/".toList = ['/'] := rfl
  simp only [peerSyncKey, String.toList_append, hslash, List.append_assoc,
    List.append_cancel_left_eq, List.singleton_append] at hlist
  obtain ⟨hpeer, hrest⟩ := append_sep_inj (slash_notMem_enc _) (slash_notMem_enc _) hlist
  obtain ⟨htopic, horigin⟩ := append_sep_inj (slash_notMem_enc _) (slash_notMem_enc _) hrest
  exact ⟨Formats.enc_injective (String.toList_inj.mp hpeer),
    Formats.enc_injective (String.toList_inj.mp htopic),
    Formats.enc_injective (String.toList_inj.mp horigin)⟩

/-! ## Prefixes and order -/

omit [Formats] in
theorem startsWith_iff {key start : String} :
    startsWith key start = true ↔ start.toList <+: key.toList := by
  unfold startsWith
  exact List.isPrefixOf_iff_prefix

theorem startsWith_logMessagePrefix {k k' : LogKey} {n : HeadId} :
    startsWith (logMessageKey k' n) (logMessagePrefix k) = true ↔ k' = k := by
  rw [startsWith_iff, toList_logMessagePrefix, toList_logMessageKey,
    List.prefix_append_right_inj,
    append_sep_isPrefix_iff (slash_notMem_enc _) (slash_notMem_enc _),
    append_sep_isPrefix_iff (slash_notMem_enc _) (slash_notMem_enc _)]
  constructor
  · rintro ⟨ht, ho, -⟩
    exact (logKey_eq_of_enc ht ho).symm
  · rintro rfl
    exact ⟨rfl, rfl, List.nil_prefix⟩

theorem startsWith_logTombstonePrefix {k k' : LogKey} {first last : HeadId} :
    startsWith (logTombstoneKey k' first last) (logTombstonePrefix k) = true ↔ k' = k := by
  rw [startsWith_iff, toList_logTombstonePrefix, toList_logTombstoneKey,
    List.prefix_append_right_inj,
    append_sep_isPrefix_iff (slash_notMem_enc _) (slash_notMem_enc _),
    append_sep_isPrefix_iff (slash_notMem_enc _) (slash_notMem_enc _)]
  constructor
  · rintro ⟨ht, ho, -⟩
    exact (logKey_eq_of_enc ht ho).symm
  · rintro rfl
    exact ⟨rfl, rfl, List.nil_prefix⟩

theorem startsWith_fifoPrefix {queue queue' : QueueName} {n : UInt64} :
    startsWith (fifoMessageKey queue' n) (fifoPrefix queue) = true ↔ queue' = queue := by
  rw [startsWith_iff, toList_fifoPrefix, toList_fifoMessageKey, List.prefix_append_right_inj,
    append_sep_isPrefix_iff (slash_notMem_enc _) (slash_notMem_enc _)]
  constructor
  · rintro ⟨hq, -⟩
    exact (QueueName.value_injective (Formats.enc_injective (String.toList_inj.mp hq))).symm
  · rintro rfl
    exact ⟨rfl, List.nil_prefix⟩

omit [Formats] in
theorem startsWith_self (start : String) : startsWith start start = true :=
  startsWith_iff.mpr (List.prefix_refl _)

omit [Formats] in
theorem le_of_startsWith {key start : String} (h : startsWith key start = true) :
    start ≤ key := by
  obtain ⟨rest, hrest⟩ := startsWith_iff.mp h
  rw [← not_lt, String.lt_iff_toList_lt, ← hrest]
  intro hlt
  have hnil : rest < [] := by
    rw [← append_lt_append_iff start.toList, List.append_nil]
    exact hlt
  exact absurd hnil (List.not_lt_nil _)

theorem logMessageKey_lt_iff {k : LogKey} {n n' : HeadId} :
    logMessageKey k n < logMessageKey k n' ↔ n.toNat < n'.toNat := by
  rw [String.lt_iff_toList_lt, toList_logMessageKey, toList_logMessageKey,
    append_lt_append_iff, append_lt_append_iff, List.cons_lt_cons_iff]
  simp only [lt_irrefl, false_or, true_and]
  rw [append_lt_append_iff, List.cons_lt_cons_iff]
  simp only [lt_irrefl, false_or, true_and]
  exact padded_lt_iff (toNat_lt_pow n) (toNat_lt_pow n')

theorem logTombstoneKey_lt_iff {k : LogKey} {f f' l l' : HeadId} :
    logTombstoneKey k f l < logTombstoneKey k f' l' ↔
      f.toNat < f'.toNat ∨ f = f' ∧ l.toNat < l'.toNat := by
  rw [String.lt_iff_toList_lt, toList_logTombstoneKey, toList_logTombstoneKey,
    append_lt_append_iff, append_lt_append_iff, List.cons_lt_cons_iff]
  simp only [lt_irrefl, false_or, true_and]
  rw [append_lt_append_iff, List.cons_lt_cons_iff]
  simp only [lt_irrefl, false_or, true_and]
  rw [append_lt_append_iff_of_length (by simp), padded_lt_iff (toNat_lt_pow f) (toNat_lt_pow f'),
    List.cons_lt_cons_iff, padded_lt_iff (toNat_lt_pow l) (toNat_lt_pow l')]
  simp only [lt_irrefl, false_or, true_and]
  constructor
  · rintro (hlt | ⟨heq, hlt⟩)
    · exact Or.inl hlt
    · exact Or.inr ⟨UInt64.toNat_inj.mp
        (padded_inj (toNat_lt_pow f) (toNat_lt_pow f') heq), hlt⟩
  · rintro (hlt | ⟨rfl, hlt⟩)
    · exact Or.inl hlt
    · exact Or.inr ⟨rfl, hlt⟩

theorem fifoMessageKey_lt_iff {queue : QueueName} {n n' : UInt64} :
    fifoMessageKey queue n < fifoMessageKey queue n' ↔ n.toNat < n'.toNat := by
  rw [String.lt_iff_toList_lt, toList_fifoMessageKey, toList_fifoMessageKey,
    append_lt_append_iff, append_lt_append_iff, List.cons_lt_cons_iff]
  simp only [lt_irrefl, false_or, true_and]
  exact padded_lt_iff (toNat_lt_pow n) (toNat_lt_pow n')

omit [Formats] in
/-- A scan from a key with some prefix that stops at the first key without it
has read all keys with that prefix, from there on. -/
theorem takeWhile_rangeFrom {V : Type} (t : OrderedTable String V) {key start : String}
    (hkey : startsWith key start = true) :
    (t.rangeFrom key).takeWhile (fun e => startsWith e.1 start) =
      (t.rangeFrom key).filter (fun e => startsWith e.1 start) := by
  apply List.takeWhile_eq_filter_of_pairwise
  refine (t.rangeFrom_sorted key).imp_of_mem ?_
  intro a b ha _ hab hb
  have hfrom : key ≤ a.1 := by simpa using (List.mem_filter.mp ha).2
  rw [startsWith_iff] at hkey hb ⊢
  refine isPrefix_of_between hkey hb ?_ ?_
  · rw [← String.lt_iff_toList_lt]
    exact not_lt.mpr hfrom
  · rw [← String.lt_iff_toList_lt]
    exact not_lt.mpr hab.le

theorem headKeyParts_logHeadKey (k : LogKey) :
    headKeyParts (logHeadKey k) = .ok (enc k.topic.value, enc k.origin) := by
  have hstart : "head/".toList.isPrefixOf (logHeadKey k).toList = true := by
    rw [List.isPrefixOf_iff_prefix, toList_logHeadKey]
    exact List.prefix_append _ _
  have hdrop : (logHeadKey k).toList.drop 5 =
      (enc k.topic.value).toList ++ '/' :: (enc k.origin).toList := by
    rw [toList_logHeadKey]
    rfl
  have hsplit : ((enc k.topic.value).toList ++ '/' :: (enc k.origin).toList).splitOn '/' =
      [(enc k.topic.value).toList, (enc k.origin).toList] := by
    refine splitOn_eq_iff.mpr ⟨by simp, ?_, by simp [List.intercalate]⟩
    intro piece hpiece
    simp only [List.mem_cons, List.not_mem_nil, or_false] at hpiece
    rcases hpiece with rfl | rfl
    · exact slash_notMem_enc _
    · exact slash_notMem_enc _
  unfold headKeyParts
  rw [hstart, hdrop, hsplit]
  simp

theorem rawMessageKey_enc (k : LogKey) (n : HeadId) :
    rawMessageKey (enc k.topic.value) (enc k.origin) n = logMessageKey k n := rfl

end Msgbus.Redb
