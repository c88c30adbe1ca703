import Msgbus.Lib.Utf8
import Msgbus.Redb.Keys

/-!
# Scans over redb keys

Redb compares keys byte by byte.  A scan of one log or one queue starts inside
its keys and stops at the first key without its prefix; that it reads exactly
the entries it is after, in numeric order, is a property of the key builders.
-/

namespace Msgbus.Redb

open TextKey Utf8

/-- The keys of a table that is scanned one address at a time: `key i n` is the
key number `n` of what `i` addresses, `start i` the prefix its scan looks for. -/
structure Scannable {I L N : Type} (address : I → L) (before : N → N → Prop)
    (start : I → String) (key : I → N → String) : Prop where
  key_inj : ∀ i i' n n', key i n = key i' n' ↔ address i = address i' ∧ n = n'
  startsWith_start : ∀ i i' n, startsWith (key i' n) (start i) = true ↔ address i' = address i
  contiguous : ∀ i n n' other, bytes (key i n) ≤ bytes other → bytes other ≤ bytes (key i n') →
    startsWith other (start i) = true
  ordered : ∀ i n n', bytes (key i n) < bytes (key i n') ↔ before n n'

theorem startsWith_of_between {start low high other : String}
    (hlow : startsWith low start = true) (hhigh : startsWith high start = true)
    (hfrom : bytes low ≤ bytes other) (hto : bytes other ≤ bytes high) :
    startsWith other start = true := by
  rw [bytes_le_iff, ← not_lt, String.lt_iff_toList_lt] at hfrom hto
  rw [startsWith_iff] at hlow hhigh ⊢
  exact isPrefix_of_between hlow hhigh hfrom hto

theorem Scannable.of_text {I L N : Type} {address : I → L} {before : N → N → Prop}
    {start : I → String} {key : I → N → String}
    (hinj : ∀ i i' n n', key i n = key i' n' ↔ address i = address i' ∧ n = n')
    (hstart : ∀ i i' n, startsWith (key i' n) (start i) = true ↔ address i' = address i)
    (hlt : ∀ i n n', key i n < key i n' ↔ before n n') :
    Scannable address before start key where
  key_inj := hinj
  startsWith_start := hstart
  contiguous := by
    intro i n n' other
    exact startsWith_of_between ((hstart i i n).mpr rfl) ((hstart i i n').mpr rfl)
  ordered := by
    intro i n n'
    rw [bytes_lt_iff]
    exact hlt i n n'

variable [Formats]

def logOf (i : Topic × NodeId) : LogKey := LogKey.of i.1 i.2

theorem scannable_messageKey :
    Scannable logOf (fun n n' : HeadId => n.toNat < n'.toNat)
      (fun i => messagePrefix i.1 i.2) (fun i => messageKey i.1 i.2) := by
  change Scannable logOf _ (fun i => logMessagePrefix (logOf i)) (fun i => logMessageKey (logOf i))
  apply Scannable.of_text
  · intro i i' n n'
    exact logMessageKey_inj
  · intro i i' n
    exact startsWith_logMessagePrefix
  · intro i n n'
    exact logMessageKey_lt_iff

theorem scannable_tombstoneKey :
    Scannable logOf
      (fun r r' : HeadId × HeadId =>
        r.1.toNat < r'.1.toNat ∨ r.1 = r'.1 ∧ r.2.toNat < r'.2.toNat)
      (fun i => tombstonePrefix i.1 i.2) (fun i r => tombstoneKey i.1 i.2 r.1 r.2) := by
  have hkey : ∀ i first last,
      tombstoneKey i.1 i.2 first last = logTombstoneKey (logOf i) first last := fun _ _ _ => rfl
  simp only [hkey]
  change Scannable logOf _ (fun i => logTombstonePrefix (logOf i)) _
  apply Scannable.of_text
  · intro i i' r r'
    rw [Prod.ext_iff]
    exact logTombstoneKey_inj
  · intro i i' r
    exact startsWith_logTombstonePrefix
  · intro i r r'
    exact logTombstoneKey_lt_iff

theorem scannable_fifoMessageKey :
    Scannable id (fun n n' : UInt64 => n.toNat < n'.toNat) fifoPrefix fifoMessageKey := by
  apply Scannable.of_text
  · intro queue queue' n n'
    exact fifoMessageKey_inj
  · intro queue queue' n
    exact startsWith_fifoPrefix
  · intro queue n n'
    exact fifoMessageKey_lt_iff

/-- `list_heads` splits a head key and rebuilds the key of the head's message. -/
theorem rawMessageKey_headKeyParts (topic : Topic) (origin : NodeId) :
    ∃ parts, headKeyParts (headKey topic origin) = .ok parts ∧
      ∀ headId, rawMessageKey parts.1 parts.2 headId = messageKey topic origin headId := by
  refine ⟨_, headKeyParts_logHeadKey (LogKey.of topic origin), ?_⟩
  intro headId
  exact rawMessageKey_enc (LogKey.of topic origin) headId

/-- The key codec: messages, tombstones and queue entries are each scanned by
log or queue, and the two builders of a message key agree. -/
theorem key_codec :
    Scannable logOf (fun n n' : HeadId => n.toNat < n'.toNat)
        (fun i => messagePrefix i.1 i.2) (fun i => messageKey i.1 i.2) ∧
      Scannable logOf
        (fun r r' : HeadId × HeadId =>
          r.1.toNat < r'.1.toNat ∨ r.1 = r'.1 ∧ r.2.toNat < r'.2.toNat)
        (fun i => tombstonePrefix i.1 i.2) (fun i r => tombstoneKey i.1 i.2 r.1 r.2) ∧
      Scannable id (fun n n' : UInt64 => n.toNat < n'.toNat) fifoPrefix fifoMessageKey ∧
      ∀ topic origin, ∃ parts, headKeyParts (headKey topic origin) = .ok parts ∧
        ∀ headId, rawMessageKey parts.1 parts.2 headId = messageKey topic origin headId :=
  ⟨scannable_messageKey, scannable_tombstoneKey, scannable_fifoMessageKey,
    rawMessageKey_headKeyParts⟩

end Msgbus.Redb
