import Msgbus.Replay

/-!
# Restarts

A daemon replays its delete logs before it serves, and gives up when a marker
cannot be applied.  Every marker was taken by the backend of the daemon that
issued it, which is not always the backend that replays it.
-/

namespace Msgbus

open Program

variable [Formats]

/-! ## Messages that can be replayed -/

/-- What a replay asks of a message: names that can be read back and, on the
delete topic, a range of the message's own origin with bounds that fit. -/
structure Replayable (Fits : HeadId → Prop) (m : StoredMessage) : Prop where
  id : ValidPart m.id.value
  topic : ValidPart m.topic.value
  below : m.topic = deleteTopic → m.headId ≠ UInt64.maxValue
  marker : m.topic = deleteTopic → ∃ range, Formats.tombstoneRange.fromSlice m.payload = .ok range ∧
    m.origin = range.origin ∧ range.fromHeadId ≤ range.toHeadId ∧ Fits range.toHeadId

variable {Fits : HeadId → Prop} {m : StoredMessage}

theorem Replayable.keeps {m' : StoredMessage} (h : Replayable Fits m) (hkeeps : m.Keeps m') :
    Replayable Fits m' := by
  rw [hkeeps.1]
  exact ⟨h.id, h.topic, h.below, h.marker⟩

theorem Replayable.mono {Fits' : HeadId → Prop} (h : Replayable Fits m)
    (hfits : ∀ last, Fits last → Fits' last) : Replayable Fits' m where
  id := h.id
  topic := h.topic
  below := h.below
  marker := by
    intro htopic
    obtain ⟨range, hslice, horigin, hle, hlast⟩ := h.marker htopic
    exact ⟨range, hslice, horigin, hle, hfits _ hlast⟩

theorem Replayable.control (h : Replayable Fits m) : controlRange m = .ok none ∨
    ∃ range, controlRange m = .ok (some range) ∧ range.fromHeadId ≤ range.toHeadId ∧
      Fits range.toHeadId := by
  by_cases hskip : m.topic ≠ deleteTopic ∨ m.deleted = true
  · exact Or.inl (if_pos hskip)
  · obtain ⟨htopic, hlive⟩ := not_or.mp hskip
    rw [not_not] at htopic
    rw [Bool.not_eq_true] at hlive
    obtain ⟨range, hslice, horigin, hle, hlast⟩ := h.marker htopic
    exact Or.inr ⟨range, StoredMessage.marks_iff.mpr ⟨htopic, hlive, hslice, horigin⟩, hle, hlast⟩

/-! ## The replay of one store -/

namespace StorageKind

variable {kind : StorageKind} {s : kind.Store}

structure Replays (kind : StorageKind) (s : kind.Store) : Prop where
  inv : kind.Inv s
  messages : ∀ k n m, (kind.logs s).message k n = some m →
    Replayable (fun last => last.toNat ≤ kind.counterLimit) m

theorem Replays.unimpeded (hs : kind.Replays s) : kind.Unimpeded (kind.logs s) where
  lists := by
    rintro - head ⟨k, m, -, hm, htopic, -⟩
    rw [htopic]
    exact (hs.messages k _ m hm).topic
  reads := fun k n m hm _ _ => ⟨(hs.messages k n m hm).id, (hs.messages k n m hm).topic⟩
  control := by
    intro k n m hm _
    rcases (hs.messages k n m hm).control with hnone | ⟨range, hrange, htakes⟩
    · exact Or.inl hnone
    · exact Or.inr ⟨range, hrange, htakes⟩
  below := by
    rintro head ⟨k, m, -, hm, htopic, -⟩ hdelete
    rw [← (Logs.WellFormed.positioned (Backend.wellFormed hs.inv) k _ m hm).1]
    exact (hs.messages k _ m hm).below (htopic ▸ hdelete)

/-! ## What a replay that succeeded has done -/

theorem step_of_runs (hs : kind.Inv s) {op : StoreOp} {result : op.Result} {s' : kind.Store}
    (h : Runs kind.UndisturbedAnswers s (callStoreStatus op) (.ok result) s') :
    kind.Inv s' ∧ ∃ env, Logs.Step env op result (kind.logs s) (kind.logs s') := by
  obtain ⟨env, -, -, hout, rfl⟩ := answers_of_callStore h.of_mapError
  obtain ⟨t, hexec⟩ := StoreOp.outcome_eq_ok.mp hout.symm
  rw [StoreOp.after_of_ok hexec]
  obtain ⟨hinv, hstep⟩ := Backend.refines hs hexec
  exact ⟨hinv, env, hstep⟩

end StorageKind

theorem applied_of_applyBatch {S : Type} {answers : S → (c : Command) → c.Answer → S → Prop}
    {s s' : S} {fromHeadId next : UInt64} {messages : List StoredMessage}
    (h : Runs answers s (applyBatch fromHeadId messages) (.ok next) s') (hm : m ∈ messages) :
    ∃ s₁ s₂, Runs answers s₁ (applyControlMessage m) (.ok ()) s₂ := by
  induction messages generalizing s fromHeadId with
  | nil => cases hm
  | cons m' rest ih =>
      obtain ⟨u, s₁, happly, hrest⟩ := h.of_bind
      rcases List.mem_cons.mp hm with rfl | hmem
      · exact ⟨s, s₁, happly⟩
      · exact ih hrest hmem

/-! ## Restarts in a network -/

def replayKnowledge {ι : Type} (node : ι → NodeId) (Fits : HeadId → Prop) : Knowledge ι Unit where
  node := node
  Later := fun _ _ => True
  refl := fun _ => trivial
  trans := fun _ _ => trivial
  Known := fun _ => Replayable Fits
  known_later := fun _ h => h
  Listed := fun _ _ => True
  listed_later := fun _ _ => trivial
  Wanted := fun _ _ _ => True
  Held := fun _ _ _ => True
  held_later := fun _ _ => trivial
  held_of_known := fun _ _ => trivial
  Sent := fun _ _ _ => True
  sent_later := fun _ _ => trivial

namespace Network

open System

variable {ι : Type} {N : Network ι}

def FitsAll (N : Network ι) (last : HeadId) : Prop := ∀ x, last.toNat ≤ (N.storage x).counterLimit

/-- A delete that a daemon carries out is one whose bounds every backend in the
network can store, and its marker does not get the last counter value. -/
def Portable (N : Network ι) (i : ι) (s : N.Stores) : (c : Command) → c.Answer → Prop
  | .store (.tombstoneRangeWithMarker _ _ _ last markerTopic markerOrigin),
      (answer : Except MsgbusError (UInt64 × StoredMessage)) =>
      (∃ result, answer = .ok result) → N.FitsAll last ∧
        ((N.view s i).current (LogKey.of markerTopic markerOrigin)).toNat + 1 <
          UInt64.maxValue.toNat
  | _, _ => True

def AllReplayable (N : Network ι) (s : N.Stores) : Prop :=
  N.Inv s ∧ ∀ i k n m, (N.view s i).message k n = some m → Replayable N.FitsAll m

theorem allReplayable_fresh : N.AllReplayable N.fresh := by
  refine ⟨inv_fresh, ?_⟩
  intro i k n m hm
  rw [view_fresh] at hm
  cases hm

theorem AllReplayable.replays {s : N.Stores} (hs : N.AllReplayable s) (i : ι) :
    (N.storage i).Replays (s i) where
  inv := hs.1 i
  messages := fun k n m hm => (hs.2 i k n m hm).mono fun _ hfits => hfits i

theorem replayable_step {i : ι} {s : N.Stores} {op : StoreOp} {result : op.Result} {env : CallEnv}
    {b' : Logs} (hs : N.AllReplayable s) (hid : ValidPart env.id.value)
    (hcond : N.Portable i s (.store op) (Except.ok result))
    (hallows : (replayKnowledge N.node N.FitsAll).Allows i () (.store op))
    (hstep : Logs.Step env op result (N.view s i) b') {k : LogKey} {n : HeadId} {m : StoredMessage}
    (hm : b'.message k n = some m) : Replayable N.FitsAll m := by
  rcases Logs.step_message_cases hstep hm with ⟨old, hold, hkeeps⟩ | ⟨msg, rfl, rfl⟩ |
    ⟨msg, rfl, rfl⟩ | ⟨topic, origin, first, last, markerTopic, markerOrigin, rfl, rfl⟩
  · exact (hs.2 i k n old hold).keeps hkeeps
  · refine Replayable.keeps hallows.1 ⟨Logs.stamp_eq_withDeleted, fun hdeleted => ?_⟩
    exact Logs.stamp_deleted.mpr (Or.inl hdeleted)
  · obtain ⟨-, hne, htopic, hmsg⟩ := hallows
    exact ⟨hmsg, htopic, fun h => absurd h hne, fun h => absurd h hne⟩
  · obtain ⟨horigin, -, htopic, hmarker⟩ := hallows
    obtain ⟨hfits, hbelow⟩ := hcond ⟨result, rfl⟩
    refine ⟨hid, ?_, fun _ => ?_, fun _ => ?_⟩
    · change ValidPart markerTopic.value
      rw [htopic]
      decide
    · intro hmax
      have hhead := congrArg UInt64.toNat hmax
      change (((N.view s i).current (LogKey.of markerTopic markerOrigin)).saturatingAdd 1).toNat = _
        at hhead
      rw [UInt64.toNat_saturatingAdd_one] at hhead
      omega
    · exact ⟨_, Formats.tombstoneRange.fromSlice_toVec _, hmarker.trans horigin.symm, hstep.1, hfits⟩

variable [DecidableEq ι]

theorem honours_replay : (N.system.restrict N.Portable).Honours
    (replayKnowledge N.node N.FitsAll).contract (fun _ => ()) N.AllReplayable := by
  apply Knowledge.honours_of_calls
  · rintro i s op answer s' hs hallows ⟨hcond, t, hstore, rfl⟩
    refine ⟨?_, trivial, ?_⟩
    · rcases storeAnswers_cases (hs.1 i) hstore with ⟨env, result, hid, rfl, ht, hstep⟩ | ⟨-, rfl⟩
      · refine ⟨inv_update hs.1 ht, ?_⟩
        rw [view_update]
        refine (Function.forall_update_iff (N.view s) fun _ b => ∀ k n m, b.message k n = some m →
          Replayable N.FitsAll m).mpr ⟨?_, fun j _ => hs.2 j⟩
        intro k n m hm
        exact replayable_step hs hid hcond hallows hstep hm
      · rw [Function.update_eq_self]
        exact hs
    · cases op with
      | fetchMessages query => exact fun _ _ _ _ => trivial
      | appendMessage msg => exact fun _ _ => trivial
      | getHead topic origin => exact fun _ _ _ _ _ _ _ => trivial
      | putReplicatedMessage m => exact fun _ => trivial
      | tombstoneRangeWithMarker topic origin first last markerTopic markerOrigin =>
          exact fun _ _ => trivial
      | _ => trivial
  · rintro i s c answer s' hs hc ⟨-, hanswer⟩
    cases answers_eq_of_ne_store hanswer hc
    exact ⟨hs, trivial⟩
  · rintro i s id s' ⟨-, hid, -⟩
    exact hid
  · exact fun _ _ _ _ _ _ _ _ _ _ _ => trivial
  · rintro i s endpoint request items last s' hs ⟨-, hsame, hserves⟩ item hitem envelope m
      henvelope hm
    obtain ⟨j, all, -, hserve, hstream, -⟩ := hserves items last rfl
    exact hs.2 j _ _ m (message_of_serves_fetch (hs.1 j) hserve (hstream.mem hitem) henvelope hm)

/-- In every run of honest daemons whose deletes have bounds that every backend
can store, whatever fails and wherever tasks stop, each daemon can restart. -/
theorem daemon_restarts {a : State ι N.Stores Command Command.Answer}
    (hrun : (N.system.restrict N.Portable).Reaches (.init N.fresh) a) (i : ι) :
    (N.storage i).Restarts (a.shared i) := by
  have hs : N.AllReplayable a.shared :=
    (System.kept_of_reaches (fun _ _ w hstarts => meets_of_starts rfl hstarts w) honours_replay
      allReplayable_fresh hrun).1
  exact (hs.replays i).unimpeded.restarts (hs.1 i)

/-! ## A marker that one backend takes and the other does not -/

omit [DecidableEq ι] in
theorem lenient_portable : N.Lenient N.Portable := by
  intro i w s c answer hs hc hok
  cases c with
  | store op =>
      cases op with
      | tombstoneRangeWithMarker topic origin first last markerTopic markerOrigin =>
          cases hc _ rfl
      | _ => trivial
  | _ => trivial

section Pair

variable {first last : HeadId}

theorem exec_of_not_fits (s : Sqlite) (env : CallEnv) {range : TombstoneRange}
    (hle : range.fromHeadId ≤ range.toHeadId) (hfirst : Sqlite.Fits range.fromHeadId)
    (hlast : ¬ Sqlite.Fits range.toHeadId) : range.op.exec s env =
      .error (.invalidArgument (toString range.toHeadId ++ " exceeds i64")) :=
  Sqlite.tombstoneRange_of_not_fits hle hfirst hlast

/-- The store that holds only the marker does not restart if it cannot store the
bounds. -/
theorem not_restarts_copied {s : Sqlite} (hs : StorageKind.sqlite.Inv s)
    (hlogs : StorageKind.sqlite.logs s = copiedLogs first last) (hle : first ≤ last)
    (hfirst : Sqlite.Fits first) (hlast : ¬ Sqlite.Fits last) : ¬ StorageKind.sqlite.Restarts s := by
  rintro ⟨fuel, ⟨s', hruns⟩, -⟩
  obtain ⟨heads, s₁, hlist, hreplay⟩ := hruns.of_bind
  obtain ⟨hs₁, env, hnodup, hmem, hsame⟩ := StorageKind.step_of_runs hs hlist
  have hone : heads = [⟨deleteTopic, ⟨"a", "b", "c"⟩, 1⟩] := by
    refine List.perm_singleton.mp
      ((List.perm_ext_iff_of_nodup hnodup (List.nodup_singleton _)).mpr fun head => ?_)
    rw [hmem, hlogs, List.mem_singleton]
    exact Logs.isHead_write_iff (fun _ _ => rfl) rfl head
  rw [hone] at hreplay
  obtain ⟨done, s₂, hlog, hrest⟩ := hreplay.of_bind
  cases done with
  | none => cases hrest
  | some u =>
      cases fuel with
      | zero => cases hlog
      | succ fuel =>
          obtain ⟨messages, s₃, hfetch, hround⟩ := hlog.of_bind
          obtain ⟨-, env, hwindow, -⟩ := StorageKind.step_of_runs hs₁ hfetch
          have hmessage : (StorageKind.sqlite.logs s₁).message
              (LogKey.of deleteTopic ⟨"a", "b", "c"⟩) 1 = some (firstMarker first last) := by
            rw [hsame, hlogs]
            exact Logs.write_message_self
          have hmarker : firstMarker first last ∈ (messages : List StoredMessage) := by
            rw [hwindow]
            exact Logs.mem_window (Backend.wellFormed hs₁) (by decide) hmessage (by decide)
              (by decide)
          have hne : ¬ (messages : List StoredMessage).isEmpty = true := by
            rw [List.isEmpty_iff]
            exact List.ne_nil_of_mem hmarker
          rw [if_neg hne] at hround
          obtain ⟨next, s₄, hbatch, -⟩ := hround.of_bind
          obtain ⟨s₅, s₆, happly⟩ := applied_of_applyBatch hbatch hmarker
          rcases applyControlMessage_cases happly with ⟨hnone, -⟩ | ⟨range, count, hrange, hanswer⟩
          · rw [show controlRange (firstMarker first last) = _ from firstMarker_marks] at hnone
            cases hnone
          · rw [show controlRange (firstMarker first last) = _ from firstMarker_marks] at hrange
            cases hrange
            obtain ⟨env, -, -, hout, -⟩ := hanswer
            obtain ⟨t, hexec⟩ := StoreOp.outcome_eq_ok.mp hout.symm
            rw [exec_of_not_fits s₅ env hle hfirst hlast] at hexec
            cases hexec

theorem accepts_put_marker : @Backend.Accepts _ StorageKind.sqlite.Store (instBackendStore _)
    Logs.empty ⟨0, 0, ⟨"m"⟩⟩ (.putReplicatedMessage (firstMarker first last)) := by
  have hreadable : Sqlite.Readable Logs.empty := by
    intro k n m hm
    cases hm
  have hids : ∀ k n old, Logs.empty.message k n = some old → old.id = (firstMarker first last).id →
      k = (firstMarker first last).log ∧ n = (firstMarker first last).headId := by
    intro k n old hold
    cases hold
  exact ⟨hreadable, (by decide : Sqlite.Fits 1), (by decide : Sqlite.Fits 0), hids⟩

omit [Formats] in
/-- A redb daemon deletes up to a position beyond `i64::MAX`.  Its SQLite peer
stores the marker and can no longer restart. -/
theorem oversized_marker_stops_restart : letI := Serde.formats
    ∃ a : State Bool (pair .sqlite).Stores Command Command.Answer,
      (pair .sqlite).system.Reaches (.init (pair .sqlite).fresh) a ∧
      ¬ StorageKind.sqlite.Restarts (a.shared false) := by
  let := Serde.formats
  let Cond : Bool → (pair .sqlite).Stores → (c : Command) → c.Answer → Prop := fun _ _ _ _ => True
  have hcond : (pair .sqlite).Lenient Cond := fun _ _ _ _ _ _ _ _ => trivial
  have hle : (1 : HeadId) ≤ 9223372036854775808 := by decide
  have hfirst : Sqlite.Fits 1 := by decide
  have hlast : ¬ Sqlite.Fits 9223372036854775808 := by decide
  have hrefused : ∀ s : (pair .sqlite).Stores, ((pair .sqlite).system.restrict Cond).Answers false s
      (.store (TombstoneRange.op ⟨⟨"t"⟩, ⟨"a", "b", "c"⟩, 1, 9223372036854775808, 0⟩))
      (Except.error (.invalidArgument (toString (9223372036854775808 : UInt64) ++ " exceeds i64")))
      s := by
    intro s
    have hexec : StoreOp.exec (s false) ⟨0, 0, ⟨"m"⟩⟩
        (TombstoneRange.op ⟨⟨"t"⟩, ⟨"a", "b", "c"⟩, 1, 9223372036854775808, 0⟩) = .error _ :=
      exec_of_not_fits (s false) ⟨0, 0, ⟨"m"⟩⟩ hle hfirst hlast
    exact ⟨trivial, s false, Or.inl ⟨⟨0, 0, ⟨"m"⟩⟩, by decide,
      (StoreOp.outcome_eq_error.mpr hexec).symm, (StoreOp.after_of_error hexec).symm⟩,
      (Function.update_eq_self false s).symm⟩
  obtain ⟨a, hrun, ha⟩ := exists_copied hcond (fun _ _ _ _ _ _ => trivial) hle accepts_put_marker
    fun s _ => hrefused s
  exact ⟨a, Reaches.of_restrict hrun, not_restarts_copied
    (Backend.inv_of_reachable (ha.1.1 false)) (ha.1.logs_eq false) hle hfirst hlast⟩

theorem permits_portable (hfits : (pair .sqlite).FitsAll last) :
    (pair .sqlite).Permits (pair .sqlite).Portable true (fun _ => Logs.empty)
      (· = .tombstoneRangeWithMarker ⟨"t"⟩ ((pair .sqlite).node true) first last deleteTopic
        ((pair .sqlite).node true)) := by
  intro s c answer hs hc _
  cases c with
  | store op =>
      cases hc op rfl
      intro _
      refine ⟨hfits, ?_⟩
      rw [hs.2]
      decide
  | _ => trivial

omit [Formats] in
theorem daemon_restarts_pass : letI := Serde.formats
    ∃ a, ((pair .sqlite).system.restrict (pair .sqlite).Portable).Reaches
        (.init (pair .sqlite).fresh) a ∧
      ((pair .sqlite).view a.shared false).message (LogKey.of deleteTopic ⟨"a", "b", "c"⟩) 1 =
        some (firstMarker 1 1) ∧
      ((pair .sqlite).storage false).Restarts (a.shared false) := by
  let := Serde.formats
  have hfits : (pair .sqlite).FitsAll 1 := by
    intro x
    cases x with
    | false => exact (by decide : 1 ≤ i64Max)
    | true => exact (by decide : 1 ≤ UInt64.maxValue.toNat)
  have hresolve : (pair .sqlite).resolve "peer" = some true := rfl
  obtain ⟨a₁, hdelete, ha₁⟩ := exists_deleted lenient_portable (permits_portable hfits)
    (show (1 : HeadId) ≤ 1 by decide)
  have happlied : @Backend.Accepts _ ((pair .sqlite).storage false).Store (instBackendStore _)
      (copiedLogs 1 1) ⟨0, 0, ⟨"m"⟩⟩
      (TombstoneRange.op ⟨⟨"t"⟩, ⟨"a", "b", "c"⟩, 1, 1, 0⟩) := by
    refine ⟨?_, (by decide : Sqlite.Fits 1), (by decide : Sqlite.Fits 1),
      (by decide : Sqlite.Fits 0)⟩
    intro k n m hm
    rcases Logs.write_message_cases hm with ⟨-, -, rfl⟩ | hold
    · exact (by decide : ValidPart "m" ∧ ValidPart "$msgbus.delete")
    · cases hold
  obtain ⟨a₂, hpass, ha₂⟩ := ha₁.exists_syncOnce_marks oneAhead_deleted lenient_portable hresolve
    (by decide) firstMarker_marks accepts_put_marker copiedLogs_eq happlied (UInt64.le_refl 1) 1
  refine ⟨a₂, hdelete.trans hpass, ?_, daemon_restarts (hdelete.trans hpass) false⟩
  have hother : LogKey.of deleteTopic ⟨"a", "b", "c"⟩ ≠ LogKey.of ⟨"t"⟩ ⟨"a", "b", "c"⟩ := by decide
  rw [ha₂.1.2, Function.update_self, Logs.mark_message_of_ne_log hother]
  exact Logs.write_message_self

end Pair

end Network

end Msgbus
