import Msgbus.Network.Runs

/-!
# What sync broadcasts

`sync_head` hands the message it received to `put_replicated_message`, which
stores a copy flagged for the tombstones on record, and then broadcasts the
message as received.
-/

namespace Msgbus

open Program

def TombstoneRange.Contains (range : TombstoneRange) (k : LogKey) (n : HeadId) : Prop :=
  k = LogKey.of range.topic range.origin ∧ range.fromHeadId ≤ n ∧ n ≤ range.toHeadId

namespace Network

open System

variable {ι : Type} [DecidableEq ι]

def broadcast (i : ι) : Event ι Command Command.Answer → Option StoredMessage
  | (j, ⟨.send m, _⟩) => if j = i then some m else none
  | _ => none

def broadcasts (i : ι) (events : List (Event ι Command Command.Answer)) : List StoredMessage :=
  events.reverse.filterMap (broadcast i)

variable {i : ι} {events : List (Event ι Command Command.Answer)}

theorem broadcasts_cons (event : Event ι Command Command.Answer) :
    broadcasts i (event :: events) = broadcasts i events ++ (broadcast i event).toList := by
  cases h : broadcast i event <;> simp [broadcasts, h]

theorem broadcast_eq_some {event : Event ι Command Command.Answer} {m : StoredMessage}
    (h : broadcast i event = some m) : ∃ answer, event = (i, ⟨.send m, answer⟩) := by
  obtain ⟨j, c, answer⟩ := event
  cases c with
  | send sent =>
      obtain ⟨rfl, hsent⟩ := Option.ite_none_right_eq_some.mp h
      cases hsent
      exact ⟨answer, rfl⟩
  | _ => cases h

theorem broadcasts_send (m : StoredMessage) (answer : Command.Answer (.send m)) :
    broadcasts i ((i, ⟨.send m, answer⟩) :: events) = broadcasts i events ++ [m] := by
  simp [broadcasts_cons, broadcast]

theorem broadcasts_store (j : ι) (op : StoreOp) (answer : Command.Answer (.store op)) :
    broadcasts i ((j, ⟨.store op, answer⟩) :: events) = broadcasts i events := by
  simp [broadcasts_cons, broadcast]

variable [Formats] {N : Network ι} {s s' : N.Stores}
variable {events' : List (Event ι Command Command.Answer)}

theorem step_of_answers {op : StoreOp} {result : op.Result} (hs : N.Inv s)
    (h : N.exposed.traced.Answers i (s, events) (.store op) (Except.ok result) (s', events')) :
    N.Inv s' ∧ broadcasts i events' = broadcasts i events ∧
      ∃ env, Logs.Step env op result (N.view s i) (N.view s' i) := by
  obtain ⟨⟨t, hstore, hupdate⟩, hevents⟩ := h
  cases hupdate
  cases hevents
  rcases storeAnswers_cases (hs i) hstore with
    ⟨env, result, -, hresult, ht, hstep⟩ | ⟨⟨e, herror⟩, -⟩
  · cases hresult
    refine ⟨inv_update hs ht, broadcasts_store i op _, env, ?_⟩
    change Logs.Step env op _ _ (N.view (Function.update s i t) i)
    rw [view_update, Function.update_self]
    exact hstep
  · cases herror

/-- A message that is put and applied stays as it was received unless a recorded
range, or its own, flags it. -/
theorem message_synced_iff {b b' : Logs} {m : StoredMessage}
    (hput : b' = b.write m.log m.headId (b.stamp m)) {final : Logs}
    (happly : (controlRange m = .ok none ∧ final = b') ∨
      ∃ range, controlRange m = .ok (some range) ∧ final =
        b'.mark (LogKey.of range.topic range.origin) range.fromHeadId range.toHeadId) :
    final.message m.log m.headId = some m ↔ m.deleted = true ∨
      (¬ b.Covers m.log m.headId ∧
        ∀ range, controlRange m = .ok (some range) → ¬ range.Contains m.log m.headId) := by
  have hstored : b'.message m.log m.headId = some (b.stamp m) := by
    rw [hput]
    exact Logs.write_message_self
  rcases happly with ⟨hnone, rfl⟩ | ⟨range, hrange, rfl⟩
  · rw [hstored, Option.some_inj, Logs.stamp_eq_self_iff, hnone]
    simp
  · have hlive : m.deleted = false := (StoredMessage.marks_iff.mp hrange).2.1
    have honly : (∀ range, controlRange m = .ok (some range) → ¬ range.Contains m.log m.headId) ↔
        ¬ range.Contains m.log m.headId := by
      simp [hrange]
    rw [honly]
    by_cases hown : range.Contains m.log m.headId
    · have hflag : (b'.mark (LogKey.of range.topic range.origin) range.fromHeadId
          range.toHeadId).message m.log m.headId = some ((b.stamp m).withDeleted true) := by
        rw [← hown.1, Logs.mark_message_self, Logs.markRange, if_pos hown.2, hstored]
        rfl
      rw [hflag, hlive]
      constructor
      · intro hsame
        have hdeleted := congrArg StoredMessage.deleted (Option.some.inj hsame)
        rw [hlive] at hdeleted
        cases hdeleted
      · rintro (hfalse | ⟨-, hnot⟩)
        · cases hfalse
        · exact absurd hown hnot
    · have hkept : (b'.mark (LogKey.of range.topic range.origin) range.fromHeadId
          range.toHeadId).message m.log m.headId = some (b.stamp m) := by
        by_cases hlog : m.log = LogKey.of range.topic range.origin
        · rw [← hlog, Logs.mark_message_self, Logs.markRange, if_neg fun h => hown ⟨hlog, h⟩, hstored]
        · rw [Logs.mark_message_of_ne_log hlog, hstored]
      rw [hkept, Option.some_inj, Logs.stamp_eq_self_iff]
      exact or_congr_right (and_iff_left hown).symm

variable {peer : PeerSpec} {head : TopicHead} {m sent : StoredMessage}

/-- A message that sync broadcasts is the one then stored exactly when it came
flagged or no range flags it: none on record, and not the one it carries itself
as a delete marker. -/
theorem broadcast_eq_stored_iff (hs : ∀ j, Reachable (s j))
    (hrun : Runs (N.exposed.traced.Answers i) (s, events) (syncMessage peer head m) (.ok ())
      (s', events')) (hsent : broadcasts i events' = broadcasts i events ++ [sent]) :
    (N.view s' i).message sent.log sent.headId = some sent ↔ m.deleted = true ∨
      (¬ (N.view s i).Covers m.log m.headId ∧
        ∀ range, controlRange m = .ok (some range) → ¬ range.Contains m.log m.headId) := by
  have hinv : N.Inv s := fun j => Backend.inv_of_reachable (hs j)
  obtain ⟨-, -, result, ⟨s₁, events₁⟩, ⟨s₂, events₂⟩, hput, happly, hend⟩ := syncMessage_cases hrun
  obtain ⟨hinv₁, hsent₁, env, -, hput⟩ := step_of_answers hinv hput
  have happlied : broadcasts i events₂ = broadcasts i events₁ ∧
      ((controlRange m = .ok none ∧ N.view s₂ i = N.view s₁ i) ∨
        ∃ range, controlRange m = .ok (some range) ∧ N.view s₂ i =
          (N.view s₁ i).mark (LogKey.of range.topic range.origin) range.fromHeadId
            range.toHeadId) := by
    rcases applyControlMessage_cases happly with ⟨hnone, hsame⟩ | ⟨range, count, hrange, hmark⟩
    · cases hsame
      exact ⟨rfl, Or.inl ⟨hnone, rfl⟩⟩
    · obtain ⟨-, hsent₂, env, -, -, hmarked⟩ := step_of_answers hinv₁ hmark
      exact ⟨hsent₂, Or.inr ⟨range, hrange, hmarked⟩⟩
  rcases hend with ⟨rfl, ⟨hsame, hevents⟩⟩ | ⟨rfl, hsame⟩
  · have hsend : broadcasts i events' = broadcasts i events₂ ++ [m] := by
      rw [show events' = _ from hevents]
      exact broadcasts_send m _
    cases hsame
    rw [hsend, happlied.1, hsent₁] at hsent
    cases List.append_cancel_left hsent
    exact message_synced_iff hput.1 happlied.2
  · cases hsame
    rw [happlied.1, hsent₁] at hsent
    have hlength := congrArg List.length hsent
    rw [List.length_append] at hlength
    exact absurd hlength (by simp)

/-! ## A message that arrives after its tombstone -/

def foreign : StoredMessage :=
  ⟨⟨"m"⟩, ⟨"t"⟩, ⟨"x", "y", "z"⟩, 1, .empty, .empty, 0, false⟩

theorem exists_runs_foreign {s : solo.Stores} (hs : ∀ j, Reachable (s j))
    (hnone : (solo.view s ()).head foreign.log = none) :
    ∃ s' events', Runs (solo.exposed.traced.Answers ()) (s, [])
        (syncMessage ⟨"peer", none⟩ ⟨⟨"t"⟩, ⟨"x", "y", "z"⟩, 1⟩ foreign) (.ok ()) (s', events') ∧
      broadcasts () events' = [foreign] ∧
      solo.view s' () = (solo.view s ()).write foreign.log 1 ((solo.view s ()).stamp foreign) := by
  have hcurrent : (solo.view s ()).current foreign.log = 0 := by
    rw [Logs.current, hnone]
    rfl
  have hnext : ((StorageKind.redb.logs (s ())).current foreign.log).toNat + 1 =
      foreign.headId.toNat := by
    rw [show (StorageKind.redb.logs (s ())).current foreign.log = 0 from hcurrent]
    rfl
  have hid : ValidPart (CallEnv.id ⟨0, 0, ⟨"m"⟩⟩).value := by decide
  obtain ⟨t, hput, -, hlogs⟩ := exists_put_next (hs ()) hid hnext trivial
  let put : Event Unit Command Command.Answer :=
    ((), ⟨.store (.putReplicatedMessage foreign), Except.ok ReplicateResult.inserted⟩)
  have hanswer : solo.exposed.traced.Answers () (s, []) (.store (.putReplicatedMessage foreign))
      (Except.ok ReplicateResult.inserted) (Function.update s () t, [put]) :=
    ⟨⟨t, hput, rfl⟩, rfl⟩
  have hsend : solo.exposed.traced.Answers () (Function.update s () t, [put]) (.send foreign) ()
      (Function.update s () t, [((), ⟨.send foreign, ()⟩), put]) := ⟨rfl, rfl⟩
  refine ⟨_, _, runs_syncMessage rfl rfl rfl hanswer hsend, ?_, ?_⟩
  · exact (broadcasts_send foreign _).trans (congrArg (· ++ [foreign]) (broadcasts_store () _ _))
  · rw [view_update, Function.update_self]
    exact hlogs

omit [Formats] in
theorem broadcast_eq_stored_fresh : letI := Serde.formats
    ∃ (s' : solo.Stores) (events' : List (Event Unit Command Command.Answer)),
      Runs (solo.exposed.traced.Answers ()) (solo.fresh, [])
        (syncMessage ⟨"peer", none⟩ ⟨⟨"t"⟩, ⟨"x", "y", "z"⟩, 1⟩ foreign) (.ok ()) (s', events') ∧
      broadcasts () events' = [foreign] ∧
      (solo.view s' ()).message foreign.log foreign.headId = some foreign := by
  let := Serde.formats
  have hempty : solo.view solo.fresh () = Logs.empty := congrFun view_fresh ()
  have hreachable : ∀ j, Reachable (solo.fresh j) := fun _ => .empty
  obtain ⟨s', events', hrun, hsent, -⟩ := exists_runs_foreign hreachable (by rw [hempty]; rfl)
  refine ⟨s', events', hrun, hsent, ?_⟩
  refine (broadcast_eq_stored_iff hreachable hrun hsent).mpr (Or.inr ⟨?_, ?_⟩)
  · rw [hempty]
    rintro ⟨first, last, hrange, -⟩
    exact hrange
  · intro range hrange
    cases hrange

omit [Formats] in
/-- A range deletes a position before its message arrives: the message is stored
flagged and broadcast live. -/
theorem flagged_message_broadcast_live : letI := Serde.formats
    ∃ (s s' : solo.Stores) (events' : List (Event Unit Command Command.Answer))
      (stored : StoredMessage), (∀ j, Reachable (s j)) ∧
      Runs (solo.exposed.traced.Answers ()) (s, [])
        (syncMessage ⟨"peer", none⟩ ⟨⟨"t"⟩, ⟨"x", "y", "z"⟩, 1⟩ foreign) (.ok ()) (s', events') ∧
      broadcasts () events' = [foreign] ∧
      (solo.view s' ()).message foreign.log foreign.headId = some stored ∧
      foreign.deleted = false ∧ stored.deleted = true := by
  let := Serde.formats
  have hempty : StorageKind.redb.logs MsgbusStore.empty = Logs.empty :=
    (instBackendStore .redb).logs_empty
  have hstart : Reachable (MsgbusStore.empty : StorageKind.redb.Store) := .empty
  have hid : ValidPart (CallEnv.id ⟨0, 0, ⟨"m"⟩⟩).value := by decide
  have hop : (StoreOp.tombstoneRange ⟨"t"⟩ ⟨"x", "y", "z"⟩ 1 1).onLogs = true := rfl
  obtain ⟨count, t, -, ht, -, -, hmark⟩ := exists_storeAnswers hstart hid hop trivial rfl
  rw [hempty] at hmark
  have hlogs : solo.view (fun _ => t) () = _ := hmark
  have hreachable : ∀ j, Reachable ((fun _ => t : solo.Stores) j) := fun _ => ht
  obtain ⟨s', events', hrun, hsent, hfinal⟩ := exists_runs_foreign hreachable (by rw [hlogs]; rfl)
  have hcovers : (solo.view (fun _ => t) ()).Covers foreign.log foreign.headId := by
    rw [hlogs]
    exact ⟨1, 1, Or.inr ⟨rfl, rfl, rfl⟩, UInt64.le_refl _, UInt64.le_refl _⟩
  refine ⟨fun _ => t, s', events', _, hreachable, hrun, hsent, ?_, rfl,
    Logs.stamp_deleted.mpr (Or.inr hcovers)⟩
  rw [hfinal]
  exact Logs.write_message_self

end Network

end Msgbus
