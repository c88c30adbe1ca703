import Msgbus.Logs.Growth
import Msgbus.Server.Obligations

/-!
# Replicated logs

The logs of several daemons side by side.  `Agreement` says that whatever a
daemon holds of a log is in the owner's own copy, and that deletions come from
the owner; `MarkerLogs` ties the ranges an owner has recorded to the markers in
its delete log.  Both are preserved by every call that the contract of the
daemons' tasks allows.
-/

namespace Msgbus

open StoredMessage

variable {ι : Type} {node : ι → NodeId} {w w' : ι → Logs} {i : ι} {k : LogKey}

/-- The owner holds the message at its position, up to a deleted flag that has
not arrived yet. -/
def Vouched (node : ι → NodeId) (w : ι → Logs) (m : StoredMessage) : Prop :=
  ∃ owner m', m.origin = node owner ∧ (w owner).message m.log m.headId = some m' ∧ m.Keeps m'

/-- Every message is vouched for by its owner; every range is recorded at the
owner of its log, and none is about delete logs; an owner flags a message only
for a range. -/
structure Agreement (node : ι → NodeId) (w : ι → Logs) : Prop where
  vouched : ∀ i k n m, (w i).message k n = some m → Vouched node w m
  ranges : ∀ i k first last, (w i).tombstone k first last → k.topic ≠ deleteTopic ∧
    ∃ owner, k.origin = (node owner).key ∧ (w owner).tombstone k first last
  owned : ∀ i k n m, k.origin = (node i).key → (w i).message k n = some m →
    m.deleted = true → (w i).Covers k n

def Grown (w w' : ι → Logs) : Prop := ∀ i, (w i).Grows (w' i)

theorem Vouched.later {m : StoredMessage} (hgrown : Grown w w') (h : Vouched node w m) :
    Vouched node w' m := by
  obtain ⟨owner, m', horigin, hm', hkeep⟩ := h
  obtain ⟨m'', hm'', hkeep'⟩ := (hgrown owner).message _ _ _ hm'
  exact ⟨owner, m'', horigin, hm'', hkeep.trans hkeep'⟩

theorem Vouched.at_owner {m : StoredMessage} {owner : ι}
    (hdistinct : Function.Injective fun i => (node i).key) (h : Vouched node w m)
    (hlog : m.log.origin = (node owner).key) :
    m.origin = node owner ∧ ∃ m', (w owner).message m.log m.headId = some m' ∧ m.Keeps m' := by
  obtain ⟨owner', m', horigin, hm', hkeep⟩ := h
  have hkey : (node owner').key = (node owner).key := by
    rw [← hlog, ← horigin]
    rfl
  cases hdistinct hkey
  exact ⟨horigin, m', hm', hkeep⟩

section Update

variable [DecidableEq ι]

theorem grown_update {b : Logs} (h : (w i).Grows b) : Grown w (Function.update w i b) := by
  intro j
  by_cases hj : j = i
  · subst hj
    rw [Function.update_self]
    exact h
  · rw [Function.update_of_ne hj]
    exact .refl _

theorem wellFormed_update {b : Logs} (hw : ∀ j, (w j).WellFormed) (hb : b.WellFormed) (j : ι) :
    (Function.update w i b j).WellFormed := by
  by_cases hj : j = i
  · subst hj
    rw [Function.update_self]
    exact hb
  · rw [Function.update_of_ne hj]
    exact hw j

/-! ## Recording a range -/

/-- Recording a range keeps agreement when the owner records it now or has done
so before. -/
theorem Agreement.mark {owner : ι} {first last : UInt64}
    (hdistinct : Function.Injective fun i => (node i).key) (hw : ∀ j, (w j).WellFormed)
    (h : Agreement node w) (htopic : k.topic ≠ deleteTopic) (howner : k.origin = (node owner).key)
    (hrange : owner = i ∨ (w owner).tombstone k first last) :
    Agreement node (Function.update w i ((w i).mark k first last)) := by
  have hgrown : Grown w (Function.update w i ((w i).mark k first last)) :=
    grown_update (Logs.grows_mark first last)
  have hrecorded : (Function.update w i ((w i).mark k first last) owner).tombstone k first last := by
    rcases hrange with rfl | hrange
    · rw [Function.update_self]
      exact Or.inr ⟨rfl, rfl, rfl⟩
    · exact (hgrown owner).tombstone k first last hrange
  have hwf := wellFormed_update (i := i) hw (Logs.wellFormed_mark (hw i) (k := k) first last)
  refine ⟨?_, ?_, ?_⟩
  · intro j k' n m hm
    by_cases hj : j = i
    · subst hj
      rw [Function.update_self] at hm
      rcases Logs.mark_message_cases hm with hold | ⟨rfl, hfirst, hlast, old, hold, rfl⟩
      · exact (h.vouched j k' n m hold).later hgrown
      -- The message has been flagged here, so the owner has flagged its own copy too.
      · obtain ⟨hpos, hlog⟩ := (hw j).positioned k' n old hold
        have hold' := (h.vouched j k' n old hold).later hgrown
        obtain ⟨horigin, m', hm', hkeep⟩ := hold'.at_owner hdistinct (by rw [hlog, howner])
        have hcovers : (Function.update w j ((w j).mark k' first last) owner).Covers k' n :=
          ⟨first, last, hrecorded, hfirst, hlast⟩
        rw [hlog, hpos] at hm'
        have hdeleted := (hwf owner).covered k' n m' hm' hcovers
        refine ⟨owner, m', horigin, ?_, hkeep.1, fun _ => hdeleted⟩
        rw [Logs.withDeleted_log, Logs.withDeleted_headId, hlog, hpos, hm']
    · rw [Function.update_of_ne hj] at hm
      exact (h.vouched j k' n m hm).later hgrown
  · intro j k' f l hrange'
    by_cases hj : j = i
    · subst hj
      rw [Function.update_self] at hrange'
      rcases hrange' with hold | ⟨rfl, rfl, rfl⟩
      · obtain ⟨htopic', owner', howner', htombstone⟩ := h.ranges j k' f l hold
        exact ⟨htopic', owner', howner', (hgrown owner').tombstone _ _ _ htombstone⟩
      · exact ⟨htopic, owner, howner, hrecorded⟩
    · rw [Function.update_of_ne hj] at hrange'
      obtain ⟨htopic', owner', howner', htombstone⟩ := h.ranges j k' f l hrange'
      exact ⟨htopic', owner', howner', (hgrown owner').tombstone _ _ _ htombstone⟩
  · intro j k' n m hkey hm hdeleted
    by_cases hj : j = i
    · subst hj
      rw [Function.update_self] at hm ⊢
      rw [Logs.mark_covers]
      rcases Logs.mark_message_cases hm with hold | ⟨rfl, hfirst, hlast, -⟩
      · exact Or.inl (h.owned j k' n m hkey hold hdeleted)
      · exact Or.inr ⟨rfl, hfirst, hlast⟩
    · rw [Function.update_of_ne hj] at hm ⊢
      exact h.owned j k' n m hkey hm hdeleted

/-! ## Storing a message -/

/-- Storing a message keeps agreement when the owner vouches for it and, in a
log of the daemon's own, a range accounts for its flag. -/
theorem Agreement.write {n : UInt64} {a : StoredMessage} (h : Agreement node w)
    (hgrows : (w i).Grows ((w i).write k n a))
    (hvouched : Vouched node (Function.update w i ((w i).write k n a)) a)
    (howned : k.origin = (node i).key → a.deleted = true → (w i).Covers k n) :
    Agreement node (Function.update w i ((w i).write k n a)) := by
  have hgrown := grown_update hgrows
  refine ⟨?_, ?_, ?_⟩
  · intro j k' n' m hm
    by_cases hj : j = i
    · subst hj
      rw [Function.update_self] at hm
      rcases Logs.write_message_cases hm with ⟨-, -, rfl⟩ | hold
      · exact hvouched
      · exact (h.vouched j k' n' m hold).later hgrown
    · rw [Function.update_of_ne hj] at hm
      exact (h.vouched j k' n' m hm).later hgrown
  · intro j k' f l hrange
    have hold : (w j).tombstone k' f l := by
      by_cases hj : j = i
      · subst hj
        rw [Function.update_self] at hrange
        exact hrange
      · rw [Function.update_of_ne hj] at hrange
        exact hrange
    obtain ⟨htopic, owner, howner, htombstone⟩ := h.ranges j k' f l hold
    exact ⟨htopic, owner, howner, (hgrown owner).tombstone _ _ _ htombstone⟩
  · intro j k' n' m hkey hm hdeleted
    by_cases hj : j = i
    · subst hj
      rw [Function.update_self] at hm ⊢
      rcases Logs.write_message_cases hm with ⟨rfl, rfl, rfl⟩ | hold
      · exact howned hkey hdeleted
      · exact h.owned j k' n' m hkey hold hdeleted
    · rw [Function.update_of_ne hj] at hm ⊢
      exact h.owned j k' n' m hkey hm hdeleted

theorem Agreement.append {msg : NewMessage} {now : UInt64} (hw : (w i).WellFormed)
    (h : Agreement node w) (horigin : msg.origin = node i)
    (hlimit : (w i).current (LogKey.of msg.topic msg.origin) ≠ UInt64.maxValue) :
    Agreement node (Function.update w i ((w i).append msg now)) := by
  refine h.write (Logs.grows_append hw hlimit) ?_ ?_
  · refine ⟨i, (w i).appended msg now, horigin, ?_, .refl _⟩
    rw [Function.update_self]
    exact Logs.write_message_self
  · intro _ hdeleted
    rcases Logs.stamp_deleted.mp hdeleted with hfalse | hcovers
    · cases hfalse
    · exact hcovers

theorem Agreement.issue {topic : Topic} {first last now : UInt64} {msg : NewMessage}
    (hdistinct : Function.Injective fun i => (node i).key) (hw : ∀ j, (w j).WellFormed)
    (h : Agreement node w) (htopic : topic ≠ deleteTopic) (horigin : msg.origin = node i)
    (hlimit : (w i).current (LogKey.of msg.topic msg.origin) ≠ UInt64.maxValue) :
    Agreement node (Function.update w i
      (((w i).mark (LogKey.of topic (node i)) first last).append msg now)) := by
  have hmarked : Agreement node
      (Function.update w i ((w i).mark (LogKey.of topic (node i)) first last)) :=
    h.mark hdistinct hw htopic rfl (Or.inl rfl)
  let marked := (w i).mark (LogKey.of topic (node i)) first last
  have hself : Function.update w i marked i = marked := Function.update_self _ _ _
  have happend : Agreement node (Function.update (Function.update w i marked) i
      ((Function.update w i marked i).append msg now)) := by
    refine hmarked.append ?_ horigin ?_
    · rw [hself]
      exact Logs.wellFormed_mark (hw i) first last
    · rw [hself]
      exact hlimit
  rw [hself, Function.update_idem] at happend
  exact happend

end Update

/-! ## Delete logs -/

variable [Formats]

/-- The delete log of an owner and the ranges of its own logs: every entry of
the one is recorded among the others, and every one of those was issued. -/
structure MarkerLogs (node : ι → NodeId) (w : ι → Logs) : Prop where
  recorded : ∀ i n m, (w i).message (LogKey.of deleteTopic (node i)) n = some m →
    ∃ range, Formats.tombstoneRange.fromSlice m.payload = .ok range ∧ range.origin = node i ∧
      range.topic ≠ deleteTopic ∧
      (w i).tombstone (LogKey.of range.topic range.origin) range.fromHeadId range.toHeadId
  issued : ∀ i k first last, k.origin = (node i).key → (w i).tombstone k first last →
    ∃ n m range, (w i).message (LogKey.of deleteTopic (node i)) n = some m ∧
      Formats.tombstoneRange.fromSlice m.payload = .ok range ∧
      range.op = .tombstoneRange k.topic (node i) first last

/-- Nothing is owed while the delete log and the ranges of a daemon's own logs
stay as they are. -/
theorem MarkerLogs.congr (h : MarkerLogs node w)
    (hmessage : ∀ i, (w' i).message (LogKey.of deleteTopic (node i)) =
      (w i).message (LogKey.of deleteTopic (node i)))
    (hgrown : Grown w w')
    (hranges : ∀ i k first last, k.origin = (node i).key → (w' i).tombstone k first last →
      (w i).tombstone k first last) : MarkerLogs node w' := by
  constructor
  · intro i n m hm
    rw [hmessage i] at hm
    obtain ⟨range, hrange, horigin, htopic, htombstone⟩ := h.recorded i n m hm
    exact ⟨range, hrange, horigin, htopic, (hgrown i).tombstone _ _ _ htombstone⟩
  · intro i k first last hkey htombstone
    rw [hmessage i]
    exact h.issued i k first last hkey (hranges i k first last hkey htombstone)

/-- What a vouched marker asks for has been recorded by its owner. -/
theorem MarkerLogs.range_of_marks {m : StoredMessage} {range : TombstoneRange}
    (h : MarkerLogs node w) (hm : Vouched node w m) (hmarks : m.Marks range) :
    ∃ owner, range.origin = node owner ∧ range.topic ≠ deleteTopic ∧
      (w owner).tombstone (LogKey.of range.topic range.origin) range.fromHeadId range.toHeadId := by
  obtain ⟨owner, m', horigin, hm', hkeep⟩ := hm
  obtain ⟨htopic, -, hslice, hrange⟩ := marks_iff.mp hmarks
  have hlog : m.log = LogKey.of deleteTopic (node owner) := by
    rw [StoredMessage.log, htopic, horigin]
  rw [hlog] at hm'
  obtain ⟨range', hslice', horigin', htopic', htombstone⟩ := h.recorded owner _ m' hm'
  rw [hkeep.payload_eq, hslice] at hslice'
  cases hslice'
  exact ⟨owner, horigin', htopic', htombstone⟩

variable [DecidableEq ι]

theorem MarkerLogs.write {n : UInt64} {a : StoredMessage} (h : MarkerLogs node w)
    (hgrows : (w i).Grows ((w i).write k n a)) (hk : LogKey.of deleteTopic (node i) ≠ k) :
    MarkerLogs node (Function.update w i ((w i).write k n a)) := by
  refine h.congr ?_ (grown_update hgrows) ?_
  · intro j
    by_cases hj : j = i
    · subst hj
      rw [Function.update_self, Logs.write_message_of_ne_log hk]
    · rw [Function.update_of_ne hj]
  · intro j k' first last _ htombstone
    by_cases hj : j = i
    · subst hj
      rw [Function.update_self] at htombstone
      exact htombstone
    · rw [Function.update_of_ne hj] at htombstone
      exact htombstone

theorem MarkerLogs.mark {first last : UInt64} (h : MarkerLogs node w)
    (htopic : k.topic ≠ deleteTopic)
    (hold : k.origin = (node i).key → (w i).tombstone k first last) :
    MarkerLogs node (Function.update w i ((w i).mark k first last)) := by
  refine h.congr ?_ (grown_update (Logs.grows_mark first last)) ?_
  · intro j
    by_cases hj : j = i
    · subst hj
      have hk : LogKey.of deleteTopic (node j) ≠ k :=
        fun heq => htopic (congrArg LogKey.topic heq).symm
      rw [Function.update_self, Logs.mark_message_of_ne_log hk]
    · rw [Function.update_of_ne hj]
  · intro j k' f l hkey htombstone
    by_cases hj : j = i
    · subst hj
      rw [Function.update_self] at htombstone
      rcases htombstone with htombstone | ⟨rfl, rfl, rfl⟩
      · exact htombstone
      · exact hold hkey
    · rw [Function.update_of_ne hj] at htombstone
      exact htombstone

theorem MarkerLogs.issue {topic : Topic} {first last : UInt64} {env : CallEnv}
    (hw : (w i).WellFormed) (h : MarkerLogs node w) (htopic : topic ≠ deleteTopic)
    (hlimit : (w i).current (LogKey.of deleteTopic (node i)) ≠ UInt64.maxValue) :
    MarkerLogs node (Function.update w i
      (((w i).mark (LogKey.of topic (node i)) first last).append
        (Logs.marker topic (node i) first last deleteTopic (node i) env) env.later)) := by
  have hmarked := Logs.wellFormed_mark hw (k := LogKey.of topic (node i)) first last
  have happend : ((w i).mark (LogKey.of topic (node i)) first last).Grows
      (((w i).mark (LogKey.of topic (node i)) first last).append
        (Logs.marker topic (node i) first last deleteTopic (node i) env) env.later) :=
    Logs.grows_append hmarked hlimit
  have hgrown := grown_update ((Logs.grows_mark first last).trans happend)
  have hslice : Formats.tombstoneRange.fromSlice
      (Logs.marker topic (node i) first last deleteTopic (node i) env).payload =
        .ok ⟨topic, node i, first, last, env.now⟩ :=
    Formats.tombstoneRange.fromSlice_toVec _
  constructor
  · intro j n m hm
    by_cases hj : j = i
    · subst hj
      rw [Function.update_self] at hm ⊢
      rcases Logs.write_message_cases hm with ⟨-, -, rfl⟩ | hold
      · exact ⟨_, hslice, rfl, htopic, Or.inr ⟨rfl, rfl, rfl⟩⟩
      · rw [Logs.mark_message_of_ne_log (LogKey.of_ne_of_topic htopic.symm)] at hold
        obtain ⟨range, hrange, horigin, htopic', htombstone⟩ := h.recorded j n m hold
        exact ⟨range, hrange, horigin, htopic', Or.inl htombstone⟩
    · rw [Function.update_of_ne hj] at hm ⊢
      exact h.recorded j n m hm
  · intro j k f l hkey htombstone
    by_cases hj : j = i
    · subst hj
      rw [Function.update_self] at htombstone ⊢
      rcases htombstone with hold | ⟨rfl, rfl, rfl⟩
      · obtain ⟨n, m, range, hm, hrange, hop⟩ := h.issued j k f l hkey hold
        obtain ⟨m', hm', hkeep⟩ := (hgrown j).message _ _ _ hm
        rw [Function.update_self] at hm'
        exact ⟨n, m', range, hm', by rw [hkeep.payload_eq, hrange], hop⟩
      · exact ⟨_, _, _, Logs.write_message_self, hslice, rfl⟩
    · rw [Function.update_of_ne hj] at htombstone ⊢
      exact h.issued j k f l hkey htombstone

/-! ## Every allowed call -/

/-- What a daemon may know of a network of replicas.  It never wants messages of
its own logs. -/
def replicaKnowledge (node : ι → NodeId) : Knowledge ι (ι → Logs) where
  node := node
  Later := Grown
  refl := fun _ _ => .refl _
  trans := fun h₁ h₂ i => (h₁ i).trans (h₂ i)
  Known := Vouched node
  known_later := Vouched.later
  Listed := fun w head => ∃ owner, head.origin = node owner ∧
    head.headId.toNat ≤ ((w owner).current (LogKey.of head.topic head.origin)).toNat
  listed_later := by
    rintro w w' head hgrown ⟨owner, horigin, hle⟩
    exact ⟨owner, horigin, hle.trans ((hgrown owner).head _)⟩
  Wanted := fun i _ origin => origin ≠ node i
  Held := fun _ => Vouched node
  held_later := Vouched.later
  held_of_known := fun h _ => h
  Sent := fun _ _ _ => True
  sent_later := fun _ h => h

section Step

variable {env : CallEnv} {b : Logs}

theorem replicas_put {m : StoredMessage} {r : ReplicateResult}
    (hdistinct : Function.Injective fun i => (node i).key) (hw : ∀ j, (w j).WellFormed)
    (h : Agreement node w) (hmarkers : MarkerLogs node w) (hm : Vouched node w m)
    (hwanted : m.origin ≠ node i) (hput : Logs.PutStep m r (w i) b) :
    Agreement node (Function.update w i b) ∧ MarkerLogs node (Function.update w i b) := by
  have hgrows := Logs.grows_put hput
  cases r with
  | alreadyPresent =>
      rw [hput.2, Function.update_eq_self]
      exact ⟨h, hmarkers⟩
  | inserted =>
      obtain ⟨rfl, -⟩ := hput
      obtain ⟨owner, m', horigin, hm', hkeep⟩ := hm
      have hforeign : m.log.origin ≠ (node i).key := by
        intro hkey
        have hkey' : (node owner).key = (node i).key := by
          rw [← horigin]
          exact hkey
        exact hwanted (by rw [horigin, hdistinct hkey'])
      have hstamp : Vouched node w ((w i).stamp m) := by
        refine ⟨owner, m', horigin, hm', hkeep.1, fun hdeleted => ?_⟩
        rcases Logs.stamp_deleted.mp hdeleted with hflag | ⟨first, last, hrange, hfirst, hlast⟩
        · exact hkeep.2 hflag
        -- A range that covers the message here is recorded at the owner as well.
        · obtain ⟨-, owner', hkey, hrange'⟩ := h.ranges i _ _ _ hrange
          have howner : owner' = owner := by
            apply hdistinct
            change (node owner').key = (node owner).key
            rw [← hkey, ← horigin]
            rfl
          subst howner
          exact (hw owner').covered _ _ m' hm' ⟨first, last, hrange', hfirst, hlast⟩
      refine ⟨h.write hgrows (hstamp.later (grown_update hgrows)) ?_, hmarkers.write hgrows ?_⟩
      · intro hkey
        exact absurd hkey hforeign
      · intro heq
        exact hforeign (by rw [← heq]; rfl)

theorem replicas_apply {m : StoredMessage} {range : TombstoneRange}
    (hdistinct : Function.Injective fun i => (node i).key) (hw : ∀ j, (w j).WellFormed)
    (h : Agreement node w) (hmarkers : MarkerLogs node w) (hm : Vouched node w m)
    (hmarks : m.Marks range)
    (hb : b = (w i).mark (LogKey.of range.topic range.origin) range.fromHeadId range.toHeadId) :
    Agreement node (Function.update w i b) ∧ MarkerLogs node (Function.update w i b) := by
  subst hb
  obtain ⟨owner, horigin, htopic, htombstone⟩ := hmarkers.range_of_marks hm hmarks
  have howner : (LogKey.of range.topic range.origin).origin = (node owner).key := by
    rw [horigin]
    rfl
  refine ⟨h.mark hdistinct hw htopic howner (Or.inr htombstone), hmarkers.mark htopic ?_⟩
  intro hkey
  have hi : owner = i := hdistinct (howner.symm.trans hkey)
  rw [← hi]
  exact htombstone

/-- Every call that a daemon's tasks may make keeps the replicas in agreement,
below the counter limit. -/
theorem replicas_step {op : StoreOp} {r : op.Result}
    (hdistinct : Function.Injective fun i => (node i).key) (hw : ∀ j, (w j).WellFormed)
    (h : Agreement node w) (hmarkers : MarkerLogs node w)
    (hallows : (replicaKnowledge node).Allows i w (.store op))
    (hlimit : ∀ k ∈ op.appendsTo, (w i).current k ≠ UInt64.maxValue)
    (hstep : Logs.Step env op r (w i) b) :
    Agreement node (Function.update w i b) ∧ MarkerLogs node (Function.update w i b) := by
  have hsame : b = w i →
      Agreement node (Function.update w i b) ∧ MarkerLogs node (Function.update w i b) := by
    rintro rfl
    rw [Function.update_eq_self]
    exact ⟨h, hmarkers⟩
  cases op with
  | appendMessage msg =>
      obtain ⟨-, rfl⟩ := hstep
      have hgrows : (w i).Grows ((w i).append msg env.now) :=
        Logs.grows_append (hw i) (hlimit _ rfl)
      exact ⟨h.append (hw i) hallows.1 (hlimit _ rfl),
        hmarkers.write hgrows (LogKey.of_ne_of_topic hallows.2.1.symm)⟩
  | tombstoneRangeWithMarker topic origin first last markerTopic markerOrigin =>
      obtain ⟨rfl, htopic, rfl, rfl⟩ := hallows
      obtain ⟨-, -, -, rfl⟩ := hstep
      have hlimit' := hlimit _ rfl
      exact ⟨h.issue hdistinct hw htopic rfl hlimit', hmarkers.issue (hw i) htopic hlimit'⟩
  | putReplicatedMessage m =>
      exact replicas_put hdistinct hw h hmarkers hallows.1 hallows.2 hstep.2
  | tombstoneRange topic origin first last =>
      obtain ⟨m, range, hm, hmarks, hop⟩ := hallows
      cases hop
      exact replicas_apply hdistinct hw h hmarkers hm hmarks hstep.2.2
  | fetchMessages query => exact hsame hstep.2
  | getHead topic origin => exact hsame hstep.2
  | listHeads => exact hsame hstep.2.2
  | enqueueFifo message => exact hsame hstep
  | peekFifo queue => exact hsame hstep
  | ackFifo queue messageId => exact hsame hstep
  | rejectFifo queue messageId => exact hsame hstep
  | recordPeerSyncState state => exact hsame hstep
  | listPeerSyncStates => exact hsame hstep

end Step

end Msgbus
