import Msgbus.Network.Overflow
import Msgbus.Network.Replicas

/-!
# Replica agreement

In every run of a network with distinct keys in which no daemon appends to a log
whose counter is at its limit, each daemon's copy of a log is a prefix of the
owner's, up to deleted flags, and nobody is asked to store a message of its own.
-/

namespace Msgbus.Network

open System

variable [Formats] {ι : Type} {N : Network ι}

/-- No append goes to a log whose head is the last counter value. -/
def BelowLimit (N : Network ι) (i : ι) (s : N.Stores) : (c : Command) → c.Answer → Prop
  | .store op, _ => ∀ k ∈ op.appendsTo, (N.view s i).current k ≠ UInt64.maxValue
  | _, _ => True

def Agrees (N : Network ι) (s : N.Stores) : Prop :=
  N.Inv s ∧ Agreement N.node (N.view s) ∧ MarkerLogs N.node (N.view s)

theorem agrees_fresh : N.Agrees N.fresh := by
  unfold Agrees
  rw [view_fresh]
  refine ⟨inv_fresh, ⟨?_, ?_, ?_⟩, ⟨?_, ?_⟩⟩
  · intro i k n m hm
    cases hm
  · intro i k first last hrange
    cases hrange
  · intro i k n m _ hm
    cases hm
  · intro i n m hm
    cases hm
  · intro i k first last _ hrange
    cases hrange

theorem Agrees.content_eq {s : N.Stores} (hdistinct : N.Distinct) (hs : N.Agrees s) {x y : ι}
    {k : LogKey} {n : UInt64} {m m' : StoredMessage} (hm : (N.view s x).message k n = some m)
    (hm' : (N.view s y).message k n = some m') : m'.withDeleted false = m.withDeleted false := by
  obtain ⟨hpos, hlog⟩ := (wellFormed_view hs.1 x).positioned k n m hm
  obtain ⟨hpos', hlog'⟩ := (wellFormed_view hs.1 y).positioned k n m' hm'
  obtain ⟨owner, c, horigin, hc, hkeep⟩ := hs.2.1.vouched x k n m hm
  have howner : m'.log.origin = (N.node owner).key := by
    rw [hlog', ← hlog, ← horigin]
    rfl
  obtain ⟨-, c', hc', hkeep'⟩ := (hs.2.1.vouched y k n m' hm').at_owner hdistinct howner
  rw [hlog', hpos', ← hlog, ← hpos, hc] at hc'
  cases hc'
  calc m'.withDeleted false = c.withDeleted false := by rw [hkeep'.1]; rfl
    _ = m.withDeleted false := by rw [hkeep.1]; rfl

/-! ## The network honours the contract of its tasks -/

theorem listed_of_isHead {s : N.Stores} {j : ι} {head : TopicHead} (hs : N.Agrees s)
    (h : (N.view s j).IsHead head) : (replicaKnowledge N.node).Listed (N.view s) head := by
  obtain ⟨k, m, -, hm, htopic, horigin⟩ := h
  obtain ⟨owner, m', howner, hm', -⟩ := hs.2.1.vouched j k _ m hm
  have hpos := ((wellFormed_view hs.1 j).positioned k _ m hm).1
  have hsome : ((N.view s owner).message m.log m.headId).isSome := by rw [hm']; rfl
  have hle := ((wellFormed_view hs.1 owner).contiguous _ _).mp hsome
  refine ⟨owner, horigin.trans howner, ?_⟩
  rw [htopic, horigin, ← hpos]
  exact hle.2

variable [DecidableEq ι]

theorem agrees_store (hdistinct : N.Distinct) {i : ι} {s s' : N.Stores} {op : StoreOp}
    {answer : Except MsgbusError op.Result} (hs : N.Agrees s)
    (hallows : (replicaKnowledge N.node).Allows i (N.view s) (.store op))
    (hlimit : ∀ k ∈ op.appendsTo, (N.view s i).current k ≠ UInt64.maxValue)
    (hanswer : N.Answers i s (.store op) answer s') :
    N.Agrees s' ∧ Grown (N.view s) (N.view s') := by
  obtain ⟨t, hstore, rfl⟩ := hanswer
  obtain ⟨hinv, hagree, hmarkers⟩ := hs
  rcases storeAnswers_cases (hinv i) hstore with ⟨env, result, -, -, ht, hstep⟩ | ⟨-, rfl⟩
  · obtain ⟨hagree', hmarkers'⟩ :=
      replicas_step hdistinct (wellFormed_view hinv) hagree hmarkers hallows hlimit hstep
    have hgrows := Logs.step_grows (wellFormed_view hinv i) hlimit hstep
    unfold Agrees
    rw [view_update]
    exact ⟨⟨inv_update hinv ht, hagree', hmarkers'⟩, grown_update hgrows⟩
  · rw [Function.update_eq_self]
    exact ⟨⟨hinv, hagree, hmarkers⟩, fun _ => .refl _⟩

/-- A daemon that is behind a listed head does not own the log, and what it reads
from its store is vouched for. -/
theorem ensures_store (hdistinct : N.Distinct) {i : ι} {s s' : N.Stores} {op : StoreOp}
    {answer : Except MsgbusError op.Result} (hs : N.Agrees s) (hs' : N.Agrees s')
    (hanswer : N.Answers i s (.store op) answer s') :
    (replicaKnowledge N.node).Ensures i (N.view s') (.store op) answer := by
  cases op with
  | getHead topic origin =>
      obtain ⟨t, hstore, rfl⟩ := hanswer
      rintro stored head rfl ⟨owner, horigin, hle⟩ rfl rfl hbehind
      rcases storeAnswers_cases (hs.1 i) hstore with
        ⟨env, result, -, hresult, -, hstep⟩ | ⟨⟨e, herror⟩, -⟩
      · cases hresult
        obtain ⟨hstored, hunchanged⟩ := hstep
        have hsame : (N.storage i).logs t = (N.storage i).logs (s i) := hunchanged
        intro hown
        have howner : owner = i := by
          apply hdistinct
          change (N.node owner).key = (N.node i).key
          rw [← horigin, ← hown]
        subst howner
        rw [view_update, Function.update_self, hsame] at hle
        rw [UInt64.lt_iff_toNat_lt, hstored] at hbehind
        exact absurd hle (Nat.not_le.mpr hbehind)
      · cases herror
  | fetchMessages query =>
      obtain ⟨t, hstore, rfl⟩ := hanswer
      rintro messages rfl m hm
      rcases storeAnswers_cases (hs.1 i) hstore with
        ⟨env, result, -, hresult, ht, hstep⟩ | ⟨⟨e, herror⟩, -⟩
      · cases hresult
        have hold := message_of_fetched (hs.1 i) hstep hm
        have hsame : (N.storage i).logs t = (N.storage i).logs (s i) := hstep.2
        refine hs'.2.1.vouched i m.log m.headId m ?_
        rw [view_update, Function.update_self, hsame]
        exact hold
      · cases herror
  | appendMessage msg => exact fun _ _ => trivial
  | putReplicatedMessage m => exact fun _ => trivial
  | tombstoneRangeWithMarker topic origin first last markerTopic markerOrigin =>
      exact fun _ _ => trivial
  | listHeads => trivial
  | tombstoneRange topic origin first last => trivial
  | enqueueFifo message => trivial
  | peekFifo queue => trivial
  | ackFifo queue messageId => trivial
  | rejectFifo queue messageId => trivial
  | recordPeerSyncState state => trivial
  | listPeerSyncStates => trivial

theorem honours (hdistinct : N.Distinct)
    {Cond : ι → N.Stores → (c : Command) → c.Answer → Prop}
    (hcond : ∀ i s c answer, Cond i s c answer → N.BelowLimit i s c answer) :
    (N.system.restrict Cond).Honours (replicaKnowledge N.node).contract N.view N.Agrees := by
  apply Knowledge.honours_of_calls
  · rintro i s op answer s' hs hallows ⟨hc, hanswer⟩
    obtain ⟨hs', hgrown⟩ := agrees_store hdistinct hs hallows (hcond _ _ _ _ hc) hanswer
    exact ⟨hs', hgrown, ensures_store hdistinct hs hs' hanswer⟩
  · rintro i s c answer s' hs hc ⟨-, hanswer⟩
    rw [answers_eq_of_ne_store hanswer hc]
    exact ⟨hs, fun _ => .refl _⟩
  · rintro i s id s' ⟨-, hid, -⟩
    exact hid
  · rintro i s endpoint heads s' hs ⟨-, rfl, hserves⟩ listed hlisted head hhead
    obtain ⟨j, -, hserve⟩ := hserves heads rfl
    exact listed_of_isHead hs (isHead_of_serves_listHeads (hs.1 j) hserve hlisted hhead)
  · rintro i s endpoint request items last s' hs ⟨-, rfl, hserves⟩ item hitem envelope m henvelope hm
    obtain ⟨j, all, -, hserve, hstream, -⟩ := hserves items last rfl
    have hmessage := message_of_serves_fetch (hs.1 j) hserve (hstream.mem hitem) henvelope hm
    exact hs.2.1.vouched j _ _ m hmessage

/-- In every run below the counter limit the replicas agree, and every task
keeps its contract. -/
theorem kept_of_reaches (hdistinct : N.Distinct)
    {Cond : ι → N.Stores → (c : Command) → c.Answer → Prop}
    (hcond : ∀ i s c answer, Cond i s c answer → N.BelowLimit i s c answer)
    {a : State ι N.Stores Command Command.Answer}
    (hrun : (N.system.restrict Cond).Reaches (.init N.fresh) a) :
    Kept (replicaKnowledge N.node).contract N.view N.Agrees a :=
  System.kept_of_reaches (fun _ _ w hstarts => meets_of_starts rfl hstarts w)
    (honours hdistinct hcond) agrees_fresh hrun

/-! ## Agreement -/

/-- In every run below the counter limit: each copy of a log is a prefix of the
owner's up to deleted flags, two copies of a position carry the same contents,
and no daemon is about to store a message of its own. -/
theorem replicas_agree (hdistinct : N.Distinct) {a : State ι N.Stores Command Command.Answer}
    (hrun : (N.system.restrict N.BelowLimit).Reaches (.init N.fresh) a) :
    (∀ x owner topic,
        ((N.view a.shared x).log (LogKey.of topic (N.node owner))).map (·.withDeleted false) <+:
          ((N.view a.shared owner).log (LogKey.of topic (N.node owner))).map
            (·.withDeleted false)) ∧
      (∀ x y k n m m', (N.view a.shared x).message k n = some m →
        (N.view a.shared y).message k n = some m' →
          m'.id = m.id ∧ m'.payload = m.payload ∧ m'.headers = m.headers ∧
            m'.createdAtMs = m.createdAtMs) ∧
      ∀ x m, a.AboutTo x (.store (.putReplicatedMessage m)) → m.origin.key ≠ (N.node x).key := by
  have hkept := kept_of_reaches hdistinct (fun _ _ _ _ h => h) hrun
  have hs := hkept.1
  refine ⟨?_, ?_, ?_⟩
  · intro x owner topic
    refine Logs.map_log_prefix (wellFormed_view hs.1 x) (wellFormed_view hs.1 owner) ?_
    intro n m hm
    obtain ⟨hpos, hlog⟩ := (wellFormed_view hs.1 x).positioned _ n m hm
    have howner : m.log.origin = (N.node owner).key := by
      rw [hlog]
      rfl
    obtain ⟨-, m', hm', hkeep⟩ := (hs.2.1.vouched x _ n m hm).at_owner hdistinct howner
    rw [hlog, hpos] at hm'
    exact ⟨m', hm', by rw [hkeep.1]; rfl⟩
  · intro x y k n m m' hm hm'
    have hcontent := hs.content_eq hdistinct hm hm'
    obtain ⟨hid, -, -, -, hpayload, hheaders, hcreated, -⟩ := StoredMessage.mk.inj hcontent
    exact ⟨hid, hpayload, hheaders, hcreated⟩
  · rintro x m ⟨n, p, htask, hfirst⟩ hkey
    cases p with
    | ret u => cases hfirst
    | fail u => cases hfirst
    | call c next =>
        cases hfirst
        obtain ⟨⟨hm, hwanted⟩, -⟩ := hkept.requires htask
        exact hwanted (hm.at_owner hdistinct hkey).1

/-! ## A round and an overflow -/

omit [DecidableEq ι] in
theorem lenient_belowLimit : N.Lenient N.BelowLimit := by
  intro i w s c answer hs hc _
  cases c with
  | store op =>
      intro k hk
      rw [hc op rfl] at hk
      cases hk
  | _ => trivial

theorem permits_belowLimit {n : Nat} (hn : n + 1 < 2 ^ 64) :
    (pair .redb).Permits (pair .redb).BelowLimit true (fun _ => filled n)
      (· = .appendMessage entry) := by
  intro s c answer hs hc _
  cases c with
  | store op =>
      cases hc op rfl
      rintro k ⟨⟩
      rw [hs.2]
      intro hmax
      have hcurrent := current_filled n (by omega)
      rw [show (filled n).current entryLog = UInt64.maxValue from hmax, UInt64.toNat_maxValue]
        at hcurrent
      omega
  | _ => trivial

omit [Formats] in
theorem replicas_agree_round : letI := Serde.formats
    ∃ a, ((pair .redb).system.restrict (pair .redb).BelowLimit).Reaches
        (.init (pair .redb).fresh) a ∧
      (((pair .redb).view a.shared false).message entryLog 1).isSome ∧
      (((pair .redb).view a.shared false).log entryLog).map (·.withDeleted false) <+:
        (((pair .redb).view a.shared true).log entryLog).map (·.withDeleted false) := by
  let := Serde.formats
  obtain ⟨a, hrun, ha⟩ := exists_filled (n := 1) lenient_belowLimit
    (fun n hn => permits_belowLimit hn) (by omega)
  refine ⟨a, hrun, ?_, (replicas_agree (distinct_pair .redb) hrun).1 false true ⟨"t"⟩⟩
  rw [ha.1.2]
  exact congrArg Option.isSome (message_filled_succ 0)

omit [Formats] in
/-- Above the limit a copy and the owner's log can differ. -/
theorem overwritten_copy_disagrees : letI := Serde.formats
    (pair .redb).Distinct ∧ ∃ a m m', (pair .redb).system.Reaches (.init (pair .redb).fresh) a ∧
      ((pair .redb).view a.shared false).message entryLog UInt64.maxValue = some m ∧
      ((pair .redb).view a.shared true).message entryLog UInt64.maxValue = some m' ∧
      m'.payload ≠ m.payload := by
  let := Serde.formats
  let Cond : Bool → (pair .redb).Stores → (c : Command) → c.Answer → Prop := fun _ _ _ _ => True
  have hcond : (pair .redb).Lenient Cond := fun _ _ _ _ _ _ _ _ => trivial
  obtain ⟨a, m, m', hrun, -, -, hm, hm', hpayload, hpayload'⟩ :=
    exists_overwritten hcond fun _ _ _ _ _ _ _ _ => trivial
  refine ⟨distinct_pair .redb, a, m, m', Reaches.of_restrict hrun, hm, hm', ?_⟩
  rw [hpayload, hpayload']
  decide

end Msgbus.Network
