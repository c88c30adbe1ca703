import Msgbus.Network.Accepted

/-!
# Own logs

What a daemon stores under its own key when its peers may return anything.
Publishes and deletes of its clients are the only writers there as long as no
peer lists a head with that key beyond what the daemon holds: `sync_head` asks
nobody whose log it fills.
-/

namespace Msgbus

variable [Formats] {node : NodeId} {A A' : Ledger Unit} {m : StoredMessage}

/-! ## Accounts of one log owner -/

/-- The messages under the key of the node were written by its own requests, on
the delete topic they name accepted ranges, and their flags go back to accepted
ranges; so do the ranges recorded under the key. -/
structure OwnLogs (node : NodeId) (A : Ledger Unit) (Wrote : StoredMessage → Prop) (b : Logs) :
    Prop where
  written : ∀ k n m, b.message k n = some m → k.origin = node.key →
    ∃ r, Wrote r ∧ r.withDeleted false = m.withDeleted false
  markers : ∀ k n m, b.message k n = some m → k.origin = node.key → m.topic = deleteTopic →
    ∀ range, Formats.tombstoneRange.fromSlice m.payload = .ok range →
      A () range.topic range.fromHeadId range.toHeadId
  flags : ∀ k n m, b.message k n = some m → k.origin = node.key → m.deleted = true →
    ∃ first last, A () k.topic first last ∧ first ≤ n ∧ n ≤ last
  ranges : ∀ k first last, b.tombstone k first last → k.origin = node.key → A () k.topic first last

structure OwnWorld where
  accepted : Ledger Unit
  heads : LogKey → Nat

/-- Heads with the daemon's own key are listed as far as it has them, so that the
logs of others are the ones wanted, and a marker under its key names an accepted
range. -/
def ownKnowledge (node : NodeId) : Knowledge Unit OwnWorld where
  node := fun _ => node
  Later := fun w w' => w.accepted.Later w'.accepted ∧ ∀ k, w.heads k ≤ w'.heads k
  refl := fun _ => ⟨fun _ _ _ _ h => h, fun _ => Nat.le_refl _⟩
  trans := fun h₁ h₂ => ⟨fun _ _ _ _ h => h₂.1 _ _ _ _ (h₁.1 _ _ _ _ h),
    fun k => Nat.le_trans (h₁.2 k) (h₂.2 k)⟩
  Known := fun _ _ => True
  known_later := fun _ h => h
  Listed := fun w head => head.origin.key = node.key →
    head.headId.toNat ≤ w.heads (LogKey.of head.topic head.origin)
  listed_later := fun hlater h hkey => Nat.le_trans (h hkey) (hlater.2 _)
  Wanted := fun _ _ origin => origin.key ≠ node.key
  Held := fun _ w m => m.origin.key = node.key → ∀ range, m.Marks range →
    w.accepted () range.topic range.fromHeadId range.toHeadId
  held_later := fun hlater h hkey range hmarks => hlater.1 _ _ _ _ (h hkey range hmarks)
  held_of_known := fun _ hwanted hkey => absurd hkey hwanted
  Sent := fun _ _ _ => True
  sent_later := fun _ h => h

section Step

variable {Wrote Wrote' : StoredMessage → Prop} {b b' : Logs} {env : CallEnv} {op : StoreOp}
variable {r : op.Result} {k : LogKey} {n : HeadId} {heads : LogKey → Nat}

def StoreOp.wrote : (op : StoreOp) → op.Result → Option StoredMessage
  | .appendMessage _, (r : StoredMessage) => some r
  | .tombstoneRangeWithMarker _ _ _ _ _ _, (r : UInt64 × StoredMessage) => some r.2
  | _, _ => none

/-- No call of a task puts a message under the daemon's own key. -/
theorem key_ne_of_put {msg : StoredMessage}
    (hallows : (ownKnowledge node).Allows () ⟨A, heads⟩ (.store (.putReplicatedMessage msg)))
    (hkey : (b.stamp msg).log.origin = node.key) : False :=
  hallows.2 hkey

theorem OwnLogs.written_step (h : OwnLogs node A Wrote b) (hwrote : ∀ m, Wrote m → Wrote' m)
    (hnew : ∀ m, op.wrote r = some m → Wrote' m)
    (hallows : (ownKnowledge node).Allows () ⟨A, heads⟩ (.store op)) (hstep : Logs.Step env op r b b')
    (hb : b'.WellFormed) (hm : b'.message k n = some m) (hkey : k.origin = node.key) :
    ∃ r, Wrote' r ∧ r.withDeleted false = m.withDeleted false := by
  have hlog := (hb.positioned k n m hm).2
  rcases Logs.step_message_cases hstep hm with ⟨old, hold, hkeep⟩ | ⟨msg, rfl, rfl⟩ |
    ⟨msg, rfl, rfl⟩ | ⟨topic, origin, first, last, markerTopic, markerOrigin, rfl, rfl⟩
  · obtain ⟨written, hwritten, hsame⟩ := h.written k n old hold hkey
    refine ⟨written, hwrote _ hwritten, ?_⟩
    rw [hsame, hkeep.1]
    rfl
  · rw [← hlog] at hkey
    exact (key_ne_of_put hallows hkey).elim
  · exact ⟨_, hnew _ (congrArg some hstep.1), rfl⟩
  · exact ⟨_, hnew _ (congrArg some hstep.2.2.1), rfl⟩

theorem OwnLogs.markers_step (h : OwnLogs node A Wrote b) (hlater : A.Later A')
    (hallows : (ownKnowledge node).Allows () ⟨A, heads⟩ (.store op)) (haccepted : op.Accepted A' ())
    (hstep : Logs.Step env op r b b') (hb : b'.WellFormed) (hm : b'.message k n = some m)
    (hkey : k.origin = node.key) (htopic : m.topic = deleteTopic) {range : TombstoneRange}
    (hslice : Formats.tombstoneRange.fromSlice m.payload = .ok range) :
    A' () range.topic range.fromHeadId range.toHeadId := by
  have hlog := (hb.positioned k n m hm).2
  rcases Logs.step_message_cases hstep hm with ⟨old, hold, hkeep⟩ | ⟨msg, rfl, rfl⟩ |
    ⟨msg, rfl, rfl⟩ | ⟨topic, origin, first, last, markerTopic, markerOrigin, rfl, rfl⟩
  · rw [hkeep.1] at htopic hslice
    exact hlater _ _ _ _ (h.markers k n old hold hkey htopic range hslice)
  · rw [← hlog] at hkey
    exact (key_ne_of_put hallows hkey).elim
  · exact absurd htopic hallows.2.1
  · have hrange := (Formats.tombstoneRange.fromSlice_toVec _).symm.trans hslice
    cases hrange
    exact haccepted

/-- A range recorded under the daemon's own key was accepted: what is applied to
a log comes from a marker of the same origin. -/
theorem OwnLogs.ranges_step (h : OwnLogs node A Wrote b) (hlater : A.Later A')
    (hallows : (ownKnowledge node).Allows () ⟨A, heads⟩ (.store op)) (haccepted : op.Accepted A' ())
    (hstep : Logs.Step env op r b b') {first last : HeadId} (hrange : b'.tombstone k first last)
    (hkey : k.origin = node.key) : A' () k.topic first last := by
  rcases (Logs.step_tombstone_iff hstep).mp hrange with hold | hmarks
  · exact hlater _ _ _ _ (h.ranges k first last hold hkey)
  · cases op with
    | tombstoneRange topic origin f l =>
        obtain ⟨m, range, hheld, hmark, hop⟩ := hallows
        obtain ⟨-, -, -, horigin⟩ := StoredMessage.marks_iff.mp hmark
        cases hop
        cases hmarks
        refine hlater _ _ _ _ (hheld ?_ range hmark)
        rw [horigin]
        exact hkey
    | tombstoneRangeWithMarker topic origin f l markerTopic markerOrigin =>
        cases hmarks
        exact haccepted
    | _ => cases hmarks

theorem OwnLogs.step (h : OwnLogs node A Wrote b) (hlater : A.Later A')
    (hwrote : ∀ m, Wrote m → Wrote' m) (hnew : ∀ m, op.wrote r = some m → Wrote' m)
    (hallows : (ownKnowledge node).Allows () ⟨A, heads⟩ (.store op)) (haccepted : op.Accepted A' ())
    (hstep : Logs.Step env op r b b') (hb : b'.WellFormed) : OwnLogs node A' Wrote' b' where
  written := fun k n m hm hkey => h.written_step hwrote hnew hallows hstep hb hm hkey
  markers := fun k n m hm hkey htopic range hslice =>
    h.markers_step hlater hallows haccepted hstep hb hm hkey htopic hslice
  ranges := fun k first last hrange hkey =>
    h.ranges_step hlater hallows haccepted hstep hrange hkey
  flags := by
    intro k n m hm hkey hdeleted
    have hlog := (hb.positioned k n m hm).2
    rcases Logs.step_deleted_cases hstep hm hdeleted with ⟨old, hold, hkeep, hflag⟩ |
      ⟨first, last, hrange, hfirst, hlast⟩ | ⟨msg, rfl, rfl, hflag⟩
    · obtain ⟨first, last, hA, hcover⟩ := h.flags k n old hold hkey hflag
      exact ⟨first, last, hlater _ _ _ _ hA, hcover⟩
    · exact ⟨first, last, h.ranges_step hlater hallows haccepted hstep hrange hkey, hfirst, hlast⟩
    · rw [← hlog] at hkey
      exact (key_ne_of_put hallows hkey).elim

theorem OwnLogs.later (h : OwnLogs node A Wrote b) (hlater : A.Later A')
    (hwrote : ∀ m, Wrote m → Wrote' m) : OwnLogs node A' Wrote' b where
  written := by
    intro k n m hm hkey
    obtain ⟨r, hr, hsame⟩ := h.written k n m hm hkey
    exact ⟨r, hwrote r hr, hsame⟩
  markers := fun k n m hm hkey htopic range hslice =>
    hlater _ _ _ _ (h.markers k n m hm hkey htopic range hslice)
  flags := by
    intro k n m hm hkey hdeleted
    obtain ⟨first, last, hA, hcover⟩ := h.flags k n m hm hkey hdeleted
    exact ⟨first, last, hlater _ _ _ _ hA, hcover⟩
  ranges := fun k first last hrange hkey => hlater _ _ _ _ (h.ranges k first last hrange hkey)

end Step

/-! ## A daemon among arbitrary peers -/

namespace Network

open System Program

variable {N : Network Unit}

/-- No head with the key of the daemon that a peer lists is beyond the daemon's own. -/
def ListsNoneBeyond (N : Network Unit) (_ : Unit) (s : N.Stores) : (c : Command) → c.Answer → Prop
  | .listHeads _, (answer : Except Status (List Pb.TopicHead)) =>
      ∀ heads, answer = .ok heads → ∀ listed ∈ heads, ∀ head, coreTopicHead listed = .ok head →
        head.origin.key = (N.node ()).key →
          head.headId.toNat ≤ N.headAt s () (LogKey.of head.topic head.origin)
  | _, _ => True

/-- A publish or a delete of the daemon's clients has stored the message: the one
call that either makes to append has returned it. -/
def Wrote (events : List (Event Unit Command Command.Answer)) (m : StoredMessage) : Prop :=
  ∃ (op : StoreOp) (r : op.Result), op.wrote r = some m ∧ ((), ⟨.store op, .ok r⟩) ∈ events

def OwnKept (N : Network Unit) (s : N.Stores × List (Event Unit Command Command.Answer)) : Prop :=
  N.Inv s.1 ∧ OwnLogs (N.node ()) (N.AcceptedRange s.2) (Wrote s.2) (N.view s.1 ())

def ownWorld (N : Network Unit) (s : N.Stores × List (Event Unit Command Command.Answer)) :
    OwnWorld :=
  ⟨N.AcceptedRange s.2, N.headAt s.1 ()⟩

theorem ownKept_fresh : N.OwnKept (N.fresh, []) := by
  have hempty : N.view N.fresh () = Logs.empty := congrFun view_fresh ()
  refine ⟨inv_fresh, ?_⟩
  change OwnLogs _ _ _ (N.view N.fresh ())
  rw [hempty]
  constructor
  · intro k n m hm
    cases hm
  · intro k n m hm
    cases hm
  · intro k n m hm
    cases hm
  · intro k first last hrange
    cases hrange

theorem ownKept_store {s s' : N.Stores} {events : List (Event Unit Command Command.Answer)}
    {op : StoreOp} {answer : Except MsgbusError op.Result} (hs : N.OwnKept (s, events))
    (hallows : (ownKnowledge (N.node ())).Allows () (N.ownWorld (s, events)) (.store op))
    (hanswer : N.ExposedAnswers () s (.store op) answer s') :
    N.OwnKept (s', ((), ⟨.store op, answer⟩) :: events) := by
  obtain ⟨t, hstore, rfl⟩ := hanswer
  obtain ⟨hinv, hown⟩ := hs
  have hlater := N.acceptedRange_later events ((), ⟨.store op, answer⟩)
  have hwrote : ∀ m, Wrote events m → Wrote (((), ⟨.store op, answer⟩) :: events) m := by
    rintro m ⟨op', r', hr', hmem⟩
    exact ⟨op', r', hr', List.mem_cons_of_mem _ hmem⟩
  rcases storeAnswers_cases (hinv ()) hstore with ⟨env, result, -, rfl, ht, hstep⟩ | ⟨-, rfl⟩
  · refine ⟨inv_update hinv ht, ?_⟩
    change OwnLogs _ _ _ (N.view (Function.update s () t) ())
    rw [view_update, Function.update_self]
    refine hown.step hlater hwrote ?_ hallows ?_ hstep (Backend.wellFormed ht)
    · exact fun m hm => ⟨op, result, hm, List.mem_cons_self⟩
    · cases op with
      | tombstoneRangeWithMarker topic origin first last markerTopic markerOrigin =>
          obtain ⟨rfl, -, rfl, rfl⟩ := hallows
          exact ⟨result, List.mem_cons_self⟩
      | _ => trivial
  · rw [Function.update_eq_self]
    exact ⟨hinv, hown.later hlater hwrote⟩

theorem honours_own :
    (N.exposed.restrict N.ListsNoneBeyond).traced.Honours (ownKnowledge (N.node ())).contract
      N.ownWorld N.OwnKept := by
  apply Knowledge.honours_of_calls
  · rintro ⟨⟩ ⟨s, events⟩ op answer ⟨s', events'⟩ hs hallows ⟨⟨-, hanswer⟩, hevents⟩
    cases hevents
    have hlater := N.acceptedRange_later events ((), ⟨.store op, answer⟩)
    have hs' := ownKept_store hs hallows hanswer
    change N.ExposedAnswers () s (.store op) answer s' at hanswer
    have hheads := headAt_le_of_answers hs.1 hanswer ()
    refine ⟨hs', ⟨hlater, hheads⟩, ?_⟩
    cases op with
    | fetchMessages query =>
        rintro messages rfl m hm hkey range hmarks
        obtain ⟨t, hstore, -⟩ := hanswer
        rcases storeAnswers_cases (hs.1 ()) hstore with
          ⟨env, result, -, hresult, -, hstep⟩ | ⟨⟨e, herror⟩, -⟩
        · cases hresult
          obtain ⟨htopic, -, hslice, -⟩ := StoredMessage.marks_iff.mp hmarks
          exact hlater _ _ _ _ (hs.2.markers m.log m.headId m (message_of_fetched (hs.1 ()) hstep hm)
            hkey htopic range hslice)
        · cases herror
    | appendMessage msg => exact fun _ _ => trivial
    | getHead topic origin =>
        rintro stored head rfl hlisted rfl rfl hbehind hkey
        obtain ⟨t, hstore, rfl⟩ := hanswer
        rcases storeAnswers_cases (hs.1 ()) hstore with
          ⟨env, result, -, hresult, -, hstep⟩ | ⟨⟨e, herror⟩, -⟩
        · cases hresult
          have hlast : head.headId.toNat ≤ N.headAt (Function.update s () t) () _ := hlisted hkey
          rw [headAt, view_update, Function.update_self,
            show (N.storage ()).logs t = N.view s () from hstep.2] at hlast
          rw [hstep.1, UInt64.lt_iff_toNat_lt] at hbehind
          exact absurd hlast (Nat.not_le.mpr hbehind)
        · cases herror
    | putReplicatedMessage m => exact fun _ => trivial
    | tombstoneRangeWithMarker topic origin first last markerTopic markerOrigin =>
        exact fun _ _ => trivial
    | _ => trivial
  · rintro i ⟨s, events⟩ c answer ⟨s', events'⟩ hs hc ⟨⟨-, hanswer⟩, hevents⟩
    cases hevents
    cases exposedAnswers_eq_of_ne_store hanswer hc
    have hlater := N.acceptedRange_later events (i, ⟨c, answer⟩)
    refine ⟨⟨hs.1, hs.2.later hlater ?_⟩, hlater, fun _ => Nat.le_refl _⟩
    rintro m ⟨op, r, hr, hmem⟩
    exact ⟨op, r, hr, List.mem_cons_of_mem _ hmem⟩
  · rintro i ⟨s, events⟩ id s' ⟨⟨-, hid, -⟩, -⟩
    exact hid
  · rintro i ⟨s, events⟩ endpoint heads ⟨s', events'⟩ - ⟨⟨hnone, rfl⟩, -⟩ listed hlisted head hhead
    exact hnone heads rfl listed hlisted head hhead
  · exact fun _ _ _ _ _ _ _ _ _ _ _ _ _ _ _ => trivial

/-- In every run of a daemon whose peers return anything but heads with its own key
beyond its own: each message under that key was written by a request of its clients, and if
it is marked deleted, a client has deleted it. -/
theorem own_logs_written_by_owner
    {a : State Unit (N.Stores × List (Event Unit Command Command.Answer)) Command Command.Answer}
    (hrun : (N.exposed.restrict N.ListsNoneBeyond).traced.Reaches (.init (N.fresh, [])) a)
    {topic : Topic} {n : HeadId} {m : StoredMessage}
    (hm : (N.view a.shared.1 ()).message (LogKey.of topic (N.node ())) n = some m) :
    (∃ r, Wrote a.shared.2 r ∧ r.withDeleted false = m.withDeleted false) ∧
      (m.deleted = true → ∃ first last,
        N.AcceptedRange a.shared.2 () topic first last ∧ first ≤ n ∧ n ≤ last) := by
  have hown := (System.kept_of_reaches (fun _ _ w hstarts => meets_of_starts rfl hstarts w)
    honours_own ownKept_fresh hrun).1.2
  exact ⟨hown.written _ n m hm rfl, hown.flags _ n m hm rfl⟩

noncomputable def publishedLogs : Logs :=
  Logs.empty.append ⟨⟨"m"⟩, ⟨"t"⟩, solo.node (), .empty, .empty⟩ 0

omit [Formats] in
theorem current_publishedLogs :
    publishedLogs.current (LogKey.of ⟨"t"⟩ (solo.node ())) = 1 :=
  Logs.current_append ⟨⟨"m"⟩, ⟨"t"⟩, solo.node (), .empty, .empty⟩ rfl 0

theorem exists_published (Cond : Unit → solo.Stores → (c : Command) → c.Answer → Prop)
    (hcond : ∀ s c answer, (∀ endpoint, c ≠ .listHeads endpoint) → Cond () s c answer) :
    ∃ a, (solo.exposed.restrict Cond).Reaches (.init solo.fresh) a ∧
      solo.Rests (fun _ => publishedLogs) a := by
  let msg : NewMessage := ⟨⟨"m"⟩, ⟨"t"⟩, solo.node (), .empty, .empty⟩
  have hid : ValidPart (CallEnv.id ⟨0, 0, ⟨"m"⟩⟩).value := by decide
  have hop : (StoreOp.appendMessage msg).onLogs = true := rfl
  let sys := solo.exposed.restrict Cond
  obtain ⟨stored, b, s, ⟨-, hanswer⟩, ⟨-, rfl⟩, hs⟩ := (settled_fresh (N := solo)).answers
    (show solo.Permits (fun _ _ _ _ => True) () _ _ from fun _ _ _ _ _ _ => trivial) hid hop
    trivial rfl
  have hdrawn : sys.Answers () solo.fresh .newMessageId (⟨"m"⟩ : MessageId) solo.fresh :=
    ⟨hcond _ _ _ (fun _ hc => by cases hc), hid, rfl⟩
  have happended : sys.Answers () solo.fresh (.store (.appendMessage msg)) (Except.ok stored) s :=
    ⟨hcond _ _ _ (fun _ hc => by cases hc), hanswer⟩
  have hsent : sys.Answers () s (.send stored) () s :=
    ⟨hcond _ _ _ (fun _ hc => by cases hc), rfl⟩
  have hruns : Runs (sys.Answers ()) solo.fresh
      (publish (solo.node ()) ⟨"t", none, .empty, .empty⟩) _ _ :=
    runs_publish (writeTarget_self (solo.node ()) (by decide) (by decide)) hdrawn happended hsent
  exact rests_init.task (Starts.publish _) hruns.discard hs

def listedBack : Event Unit Command Command.Answer :=
  ((), ⟨.listHeads "peer",
    (Except.ok [protoTopicHead ⟨⟨"t"⟩, solo.node (), 1⟩] : Except Status (List Pb.TopicHead))⟩)

theorem calm_listsNoneBeyond : Calm ((solo.exposed.restrict solo.ListsNoneBeyond).Answers ())
    (solo.Settled fun _ => publishedLogs) := by
  have hfree : solo.Lenient fun _ _ _ _ => True := fun _ _ _ _ _ _ _ _ => trivial
  refine (hfree.exposedCalm () _).mono fun s c answer _ hc hanswer => ⟨?_, hanswer.2⟩
  cases c with
  | listHeads endpoint => exact absurd rfl (hc endpoint)
  | _ => trivial

theorem listsOne_listedBack : ListsOne ((solo.exposed.restrict solo.ListsNoneBeyond).Answers ())
    (solo.Settled fun _ => publishedLogs) (solo.Settled fun _ => publishedLogs) (solo.node ())
    ⟨"peer", none⟩ (protoTopicHead ⟨⟨"t"⟩, solo.node (), 1⟩) ⟨⟨"t"⟩, solo.node (), 1⟩ := by
  have hhead : coreTopicHead (protoTopicHead ⟨⟨"t"⟩, solo.node (), 1⟩) =
      .ok ⟨⟨"t"⟩, solo.node (), 1⟩ := coreTopicHead_protoTopicHead (by decide) (by decide)
  refine ⟨calm_listsNoneBeyond, rfl, ?_, ?_, hhead⟩
  · intro s hs
    exact ⟨⟨"x", "y", "z"⟩, s, by decide, by decide, ⟨trivial, rfl⟩, hs⟩
  · refine fun s hs => ⟨s, ⟨?_, rfl⟩, hs⟩
    rintro heads ⟨⟩ listed hlisted head hcore -
    rw [List.mem_singleton.mp hlisted, hhead] at hcore
    cases hcore
    change _ ≤ ((solo.view s ()).current _).toNat
    rw [hs.2, current_publishedLogs]

theorem exists_pass_listedBack {s : solo.Stores} (hs : solo.Settled (fun _ => publishedLogs) s)
    (events : List (Event Unit Command Command.Answer)) :
    ∃ s', Runs ((solo.exposed.restrict solo.ListsNoneBeyond).traced.Answers ()) (s, events)
        (syncOnce ⟨solo.node (), [⟨"peer", none⟩], 1⟩) (.ok ()) s' ∧
      solo.Settled (fun _ => publishedLogs) s'.1 ∧ listedBack ∈ s'.2 := by
  have hfree : solo.Lenient fun _ _ _ _ => True := fun _ _ _ _ _ _ _ _ => trivial
  have hlists : ListsOne _ (Recording _ fun _ => True)
      (Recording _ fun events => listedBack ∈ events) _ _ _ _ :=
    ListsOne.traced listsOne_listedBack (fun _ _ _ _ _ => trivial) fun _ _ => List.mem_cons_self
  have hcalm : Calm _ (Recording _ fun events => listedBack ∈ events) :=
    Calm.traced calm_listsNoneBeyond fun _ _ _ _ hmem => List.mem_cons_of_mem _ hmem
  have hgetHead (s : solo.Stores) (hs : solo.Settled (fun _ => publishedLogs) s) :
      ∃ s', (solo.exposed.restrict solo.ListsNoneBeyond).Answers () s
        (.store (.getHead ⟨"t"⟩ (solo.node ())))
        (Except.ok (publishedLogs.head (LogKey.of ⟨"t"⟩ (solo.node ())))) s' ∧
          solo.Settled (fun _ => publishedLogs) s' :=
    ⟨s, ⟨trivial, (hs.getHead hfree ⟨"t"⟩ (solo.node ())).2⟩, hs⟩
  have hcurrent : (1 : UInt64) ≤ (publishedLogs.head (LogKey.of ⟨"t"⟩ (solo.node ()))).getD 0 := by
    change 1 ≤ publishedLogs.current _
    rw [current_publishedLogs]
    exact UInt64.le_refl 1
  refine hlists.runs_syncOnce hcalm ?_ ⟨hs, trivial⟩
  intro s hs
  exact hcalm.runs_syncHead
    (exists_answer_recorded hgetHead fun _ hmem => List.mem_cons_of_mem _ hmem) hcurrent hs

omit [Formats] in
/-- A daemon publishes, and a peer lists the log back to it. -/
theorem own_logs_written_by_owner_listed : letI := Serde.formats
    ∃ (a : State Unit (solo.Stores × List (Event Unit Command Command.Answer)) Command
      Command.Answer) (m : StoredMessage),
      (solo.exposed.restrict solo.ListsNoneBeyond).traced.Reaches (.init (solo.fresh, [])) a ∧
      listedBack ∈ a.shared.2 ∧
      (solo.view a.shared.1 ()).message (LogKey.of ⟨"t"⟩ (solo.node ())) 1 = some m ∧
      ∃ r, Wrote a.shared.2 r ∧ r.withDeleted false = m.withDeleted false := by
  let := Serde.formats
  obtain ⟨a, hpublish, ha⟩ := exists_published solo.ListsNoneBeyond fun s c answer hc => by
    cases c with
    | listHeads endpoint => exact absurd rfl (hc endpoint)
    | _ => trivial
  obtain ⟨events, hrecorded⟩ := hpublish.recorded []
  obtain ⟨⟨s, events'⟩, hpass, hs, hlisted⟩ := exists_pass_listedBack ha.1 events
  have hrun := hrecorded.trans (reaches_task (Starts.syncOnce _ rfl) hpass.discard a.tasks)
  have hm : (solo.view s ()).message (LogKey.of ⟨"t"⟩ (solo.node ())) 1 =
      some (Logs.empty.appended ⟨⟨"m"⟩, ⟨"t"⟩, solo.node (), .empty, .empty⟩ 0) := by
    rw [hs.2]
    exact Logs.write_message_self
  exact ⟨_, _, hrun, hlisted, hm, (own_logs_written_by_owner hrun hm).1⟩

def forged : StoredMessage :=
  ⟨⟨"m"⟩, ⟨"t"⟩, ⟨"a", "b", "c"⟩, 1, .empty, .empty, 0, false⟩

omit [Formats] in
/-- A pass stores under the daemon's own key what no request wrote. -/
theorem forged_message_stored : letI := Serde.formats
    ∃ (a : State Unit (solo.Stores × List (Event Unit Command Command.Answer)) Command
      Command.Answer), solo.exposed.traced.Reaches (.init (solo.fresh, [])) a ∧
      (solo.view a.shared.1 ()).message (LogKey.of ⟨"t"⟩ (solo.node ())) 1 = some forged ∧
      ∀ r, ¬ Wrote a.shared.2 r := by
  let := Serde.formats
  let Cond : Unit → solo.Stores → (c : Command) → c.Answer → Prop :=
    fun _ _ c _ => ∀ op, c = .store op → op.appendsTo = none
  have hcond : solo.Lenient Cond := fun _ _ _ _ _ _ hc _ => hc
  have hhead : coreTopicHead (protoTopicHead ⟨⟨"t"⟩, ⟨"a", "b", "c"⟩, 1⟩) =
      .ok ⟨⟨"t"⟩, ⟨"a", "b", "c"⟩, 1⟩ := coreTopicHead_protoTopicHead (by decide) (by decide)
  have hmessage : coreMessage (protoMessage forged) = .ok forged :=
    coreMessage_protoMessage (by decide) (by decide) (by decide) (by decide)
  obtain ⟨a, hpass, ha⟩ := (rests_init (N := solo)).exists_exposed_syncOnce hcond
    (show NodeId.Valid ⟨"x", "y", "z"⟩ by decide)
    (show (⟨"x", "y", "z"⟩ : NodeId) ≠ solo.node () by decide) hhead hmessage rfl rfl rfl trivial
  obtain ⟨events, hrun, hevents⟩ := Reaches.traced hpass
  refine ⟨_, hrun, ?_, ?_⟩
  · change (solo.view a.shared ()).message _ 1 = _
    rw [ha.1.2, Function.update_self]
    have hstamp : Logs.empty.stamp forged = forged :=
      Logs.stamp_eq_self_iff.mpr (Or.inr fun ⟨_, _, hrange, _⟩ => hrange)
    rw [hstamp]
    exact Logs.write_message_self
  · rintro r ⟨op, result, hr, hmem⟩
    obtain ⟨s, hop⟩ := hevents _ hmem
    have hnone := hop op rfl
    cases op with
    | appendMessage msg => cases hnone
    | tombstoneRangeWithMarker topic origin first last markerTopic markerOrigin => cases hnone
    | _ => cases hr

end Network

end Msgbus
