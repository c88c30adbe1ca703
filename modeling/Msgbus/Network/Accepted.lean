import Msgbus.Network.Completion

/-!
# Deletions are asked for

Every flag on a copy of a message, wherever the copy is, goes back to a range
that the owner of its log has accepted.  The proof needs no limit on counters
and no success of any store call: messages carry what accounts for their flags,
and delete markers the ranges their owners accepted.
-/

namespace Msgbus

variable [Formats] {ι : Type} {node : ι → NodeId}

/-! ## Accounts -/

abbrev Ledger (ι : Type) := ι → Topic → HeadId → HeadId → Prop

/-- A message of the owner, which on the delete topic names a range the owner
accepted. -/
structure IssuedBy (node : ι → NodeId) (A : Ledger ι) (owner : ι) (m : StoredMessage) : Prop where
  origin : m.origin = node owner
  marker : m.topic = deleteTopic → ∃ range, Formats.tombstoneRange.fromSlice m.payload = .ok range ∧
    range.origin = node owner ∧ A owner range.topic range.fromHeadId range.toHeadId

/-- The owner also accepted a range that its flag goes back to. -/
structure AccountedBy (node : ι → NodeId) (A : Ledger ι) (owner : ι) (m : StoredMessage) : Prop
    extends IssuedBy node A owner m where
  flag : m.deleted = true →
    ∃ first last, A owner m.topic first last ∧ first ≤ m.headId ∧ m.headId ≤ last

def Explained (node : ι → NodeId) (A : Ledger ι) (m : StoredMessage) : Prop :=
  ∃ owner, AccountedBy node A owner m

structure Accounts (node : ι → NodeId) (A : Ledger ι) (w : ι → Logs) : Prop where
  messages : ∀ i k n m, (w i).message k n = some m → Explained node A m
  ranges : ∀ i k first last, (w i).tombstone k first last →
    ∃ owner, k.origin = (node owner).key ∧ A owner k.topic first last

def Ledger.Later (A A' : Ledger ι) : Prop :=
  ∀ owner topic first last, A owner topic first last → A' owner topic first last

variable {A A' : Ledger ι} {m : StoredMessage} {owner : ι}

theorem IssuedBy.later (h : A.Later A') (hm : IssuedBy node A owner m) :
    IssuedBy node A' owner m where
  origin := hm.origin
  marker := by
    intro htopic
    obtain ⟨range, hslice, horigin, hA⟩ := hm.marker htopic
    exact ⟨range, hslice, horigin, h _ _ _ _ hA⟩

theorem IssuedBy.keeps {m' : StoredMessage} (hm : IssuedBy node A owner m) (h : m.Keeps m') :
    IssuedBy node A owner m' := by
  rw [h.1]
  exact ⟨hm.origin, hm.marker⟩

theorem AccountedBy.later (h : A.Later A') (hm : AccountedBy node A owner m) :
    AccountedBy node A' owner m where
  toIssuedBy := hm.toIssuedBy.later h
  flag := by
    intro hdeleted
    obtain ⟨first, last, hA, hfirst, hlast⟩ := hm.flag hdeleted
    exact ⟨first, last, h _ _ _ _ hA, hfirst, hlast⟩

theorem Explained.later (h : A.Later A') (hm : Explained node A m) : Explained node A' m := by
  obtain ⟨owner, hm⟩ := hm
  exact ⟨owner, hm.later h⟩

theorem Accounts.later {w : ι → Logs} (hlater : A.Later A') (h : Accounts node A w) :
    Accounts node A' w where
  messages := fun j k n m hm => (h.messages j k n m hm).later hlater
  ranges := by
    intro j k first last hrange
    obtain ⟨owner, hkey, hA⟩ := h.ranges j k first last hrange
    exact ⟨owner, hkey, hlater _ _ _ _ hA⟩

def ledgerKnowledge (node : ι → NodeId) : Knowledge ι (Ledger ι) where
  node := node
  Later := Ledger.Later
  refl := fun _ _ _ _ _ h => h
  trans := fun h₁ h₂ _ _ _ _ h => h₂ _ _ _ _ (h₁ _ _ _ _ h)
  Known := Explained node
  known_later := Explained.later
  Listed := fun _ _ => True
  listed_later := fun _ h => h
  Wanted := fun _ _ _ => True
  Held := fun _ => Explained node
  held_later := Explained.later
  held_of_known := fun h _ => h
  Sent := fun _ _ _ => True
  sent_later := fun _ h => h

def StoreOp.Accepted (A : Ledger ι) (i : ι) : StoreOp → Prop
  | .tombstoneRangeWithMarker topic _ first last _ _ => A i topic first last
  | _ => True

section Step

variable {w : ι → Logs} {i : ι} {b : Logs} {env : CallEnv} {op : StoreOp} {r : op.Result}

theorem Accounts.ranges_step (h : Accounts node A w) (hlater : A.Later A')
    (hallows : (ledgerKnowledge node).Allows i A (.store op)) (haccepted : op.Accepted A' i)
    (hstep : Logs.Step env op r (w i) b) {k : LogKey} {first last : UInt64}
    (hrange : b.tombstone k first last) :
    ∃ owner, k.origin = (node owner).key ∧ A' owner k.topic first last := by
  rcases (Logs.step_tombstone_iff hstep).mp hrange with hold | hmarks
  · obtain ⟨owner, hkey, hA⟩ := h.ranges i k first last hold
    exact ⟨owner, hkey, hlater _ _ _ _ hA⟩
  · cases op with
    | tombstoneRange topic origin f l =>
        obtain ⟨m, range, ⟨owner, hm⟩, hmark, hop⟩ := hallows
        obtain ⟨htopic, -, hslice, -⟩ := StoredMessage.marks_iff.mp hmark
        obtain ⟨range', hslice', horigin, hA⟩ := hm.marker htopic
        rw [hslice] at hslice'
        cases hslice'
        cases hop
        cases hmarks
        refine ⟨owner, ?_, hlater _ _ _ _ hA⟩
        rw [horigin]
        rfl
    | tombstoneRangeWithMarker topic origin f l markerTopic markerOrigin =>
        have horigin : origin = node i := hallows.1
        cases hmarks
        refine ⟨i, ?_, haccepted⟩
        rw [horigin]
        rfl
    | _ => cases hmarks

theorem Accounts.issued_step (h : Accounts node A w) (hlater : A.Later A')
    (hallows : (ledgerKnowledge node).Allows i A (.store op)) (haccepted : op.Accepted A' i)
    (hstep : Logs.Step env op r (w i) b) {k : LogKey} {n : UInt64}
    (hm : b.message k n = some m) : ∃ owner, IssuedBy node A' owner m := by
  have hkeeps : ∀ {old : StoredMessage}, Explained node A old → old.Keeps m →
      ∃ owner, IssuedBy node A' owner m := by
    rintro old ⟨owner, hold⟩ hkeep
    exact ⟨owner, (hold.toIssuedBy.later hlater).keeps hkeep⟩
  rcases Logs.step_message_cases hstep hm with ⟨old, hold, hkeep⟩ | ⟨msg, rfl, rfl⟩ |
    ⟨msg, rfl, rfl⟩ | ⟨topic, origin, first, last, markerTopic, markerOrigin, rfl, rfl⟩
  · exact hkeeps (h.messages i k n old hold) hkeep
  · refine hkeeps hallows.1 ⟨Logs.stamp_eq_withDeleted, fun hdeleted => ?_⟩
    exact Logs.stamp_deleted.mpr (Or.inl hdeleted)
  · obtain ⟨horigin, hne, -⟩ := hallows
    exact ⟨i, horigin, fun htopic => absurd htopic hne⟩
  · obtain ⟨horigin, -, -, hmarker⟩ := hallows
    exact ⟨i, hmarker, fun _ =>
      ⟨_, Formats.tombstoneRange.fromSlice_toVec _, horigin, haccepted⟩⟩

/-- The flag of a message after a call goes back to its origin. -/
theorem Accounts.explained_step (hdistinct : Function.Injective fun i => (node i).key)
    (h : Accounts node A w) (hlater : A.Later A')
    (hallows : (ledgerKnowledge node).Allows i A (.store op)) (haccepted : op.Accepted A' i)
    (hstep : Logs.Step env op r (w i) b) (hb : b.WellFormed) {k : LogKey} {n : UInt64}
    (hm : b.message k n = some m) : Explained node A' m := by
  obtain ⟨hpos, hlog⟩ := hb.positioned k n m hm
  obtain ⟨owner, hissued⟩ := h.issued_step hlater hallows haccepted hstep hm
  refine ⟨owner, hissued, fun hdeleted => ?_⟩
  -- the one who accounts for a flag is the origin of the message
  have howner : ∀ {m' : StoredMessage}, Explained node A m' → m'.deleted = true →
      m = m'.withDeleted m.deleted →
        ∃ first last, A' owner m.topic first last ∧ first ≤ m.headId ∧ m.headId ≤ last := by
    rintro m' ⟨owner', hm'⟩ hflag hsame
    have horigin : m.origin = m'.origin := by
      rw [hsame]
      rfl
    have hkey : (node owner').key = (node owner).key := by
      rw [← hm'.origin, ← horigin, hissued.origin]
    obtain ⟨first, last, hA, hfirst, hlast⟩ := hm'.flag hflag
    rw [hdistinct hkey] at hA
    rw [hsame]
    exact ⟨first, last, hlater _ _ _ _ hA, hfirst, hlast⟩
  rcases Logs.step_deleted_cases hstep hm hdeleted with ⟨old, hold, hkeep, hflag⟩ |
    ⟨first, last, hrange, hfirst, hlast⟩ | ⟨msg, rfl, rfl, hflag⟩
  · exact howner (h.messages i k n old hold) hflag hkeep.1
  · obtain ⟨owner', hkey, hA⟩ := h.ranges_step hlater hallows haccepted hstep hrange
    have hkey' : (node owner').key = (node owner).key := by
      rw [← hkey, ← hlog, ← hissued.origin]
      rfl
    rw [hdistinct hkey', ← hlog] at hA
    rw [← hpos] at hfirst hlast
    exact ⟨first, last, hA, hfirst, hlast⟩
  · exact howner hallows.1 hflag Logs.stamp_eq_withDeleted

theorem Accounts.step [DecidableEq ι] (hdistinct : Function.Injective fun i => (node i).key)
    (h : Accounts node A w) (hlater : A.Later A')
    (hallows : (ledgerKnowledge node).Allows i A (.store op)) (haccepted : op.Accepted A' i)
    (hstep : Logs.Step env op r (w i) b) (hb : b.WellFormed) :
    Accounts node A' (Function.update w i b) where
  messages := by
    apply (Function.forall_update_iff w fun _ b' => ∀ k n m, b'.message k n = some m →
      Explained node A' m).mpr
    constructor
    · intro k n m hm
      exact h.explained_step hdistinct hlater hallows haccepted hstep hb hm
    · intro j _ k n m hm
      exact (h.messages j k n m hm).later hlater
  ranges := by
    apply (Function.forall_update_iff w fun _ b' => ∀ k first last, b'.tombstone k first last →
      ∃ owner, k.origin = (node owner).key ∧ A' owner k.topic first last).mpr
    constructor
    · intro k first last hrange
      exact h.ranges_step hlater hallows haccepted hstep hrange
    · intro j _ k first last hrange
      obtain ⟨owner, hkey, hA⟩ := h.ranges j k first last hrange
      exact ⟨owner, hkey, hlater _ _ _ _ hA⟩

end Step

/-! ## Networks -/

namespace Network

open System

variable {N : Network ι}

/-- The store of a daemon has carried out a `delete_range` of its own: the call
that the handler makes for topic and bounds of a request has been answered with a
result. -/
def AcceptedRange (N : Network ι) (events : List (Event ι Command Command.Answer)) : Ledger ι :=
  fun owner topic first last => ∃ result : UInt64 × StoredMessage,
    (owner, ⟨.store (.tombstoneRangeWithMarker topic (N.node owner) first last deleteTopic
      (N.node owner)), .ok result⟩) ∈ events

def AccountsKept (N : Network ι) (s : N.Stores × List (Event ι Command Command.Answer)) : Prop :=
  N.Inv s.1 ∧ Accounts N.node (N.AcceptedRange s.2) (N.view s.1)

theorem accountsKept_fresh : N.AccountsKept (N.fresh, []) := by
  refine ⟨inv_fresh, ?_, ?_⟩
  · intro i k n m hm
    rw [show N.view (N.fresh, ([] : List (Event ι Command Command.Answer))).1 = _ from view_fresh]
      at hm
    cases hm
  · intro i k first last hrange
    rw [show N.view (N.fresh, ([] : List (Event ι Command Command.Answer))).1 = _ from view_fresh]
      at hrange
    cases hrange

omit [Formats] in
theorem acceptedRange_later (events : List (Event ι Command Command.Answer))
    (event : Event ι Command Command.Answer) :
    (N.AcceptedRange events).Later (N.AcceptedRange (event :: events)) := by
  rintro owner topic first last ⟨result, hmem⟩
  exact ⟨result, List.mem_cons_of_mem _ hmem⟩

variable [DecidableEq ι]

theorem accountsKept_store (hdistinct : N.Distinct) {i : ι} {s s' : N.Stores}
    {events : List (Event ι Command Command.Answer)} {op : StoreOp}
    {answer : Except MsgbusError op.Result} (hs : N.AccountsKept (s, events))
    (hallows : (ledgerKnowledge N.node).Allows i (N.AcceptedRange events) (.store op))
    (hanswer : N.Answers i s (.store op) answer s') :
    N.AccountsKept (s', (i, ⟨.store op, answer⟩) :: events) := by
  obtain ⟨t, hstore, rfl⟩ := hanswer
  obtain ⟨hinv, haccounts⟩ := hs
  have hlater := N.acceptedRange_later events (i, ⟨.store op, answer⟩)
  rcases storeAnswers_cases (hinv i) hstore with ⟨env, result, -, rfl, ht, hstep⟩ | ⟨-, rfl⟩
  · refine ⟨inv_update hinv ht, ?_⟩
    change Accounts _ _ (N.view (Function.update s i t))
    rw [view_update]
    refine haccounts.step hdistinct hlater hallows ?_ hstep (Backend.wellFormed ht)
    cases op with
    | tombstoneRangeWithMarker topic origin first last markerTopic markerOrigin =>
        obtain ⟨rfl, -, rfl, rfl⟩ := hallows
        exact ⟨result, List.mem_cons_self⟩
    | _ => trivial
  · rw [Function.update_eq_self]
    exact ⟨hinv, haccounts.later hlater⟩

theorem explained_of_fetched {i : ι} {s s' : N.Stores} {query : FetchQuery}
    {messages : List StoredMessage} {A : Ledger ι} (hinv : N.Inv s)
    (haccounts : Accounts N.node A (N.view s))
    (hanswer : N.Answers i s (.store (.fetchMessages query)) (Except.ok messages) s')
    {m : StoredMessage} (hm : m ∈ messages) : Explained N.node A m := by
  obtain ⟨t, hstore, -⟩ := hanswer
  rcases storeAnswers_cases (hinv i) hstore with
    ⟨env, result, -, hresult, -, hstep⟩ | ⟨⟨e, herror⟩, -⟩
  · cases hresult
    exact haccounts.messages i m.log m.headId m (message_of_fetched (hinv i) hstep hm)
  · cases herror

theorem honours_accounts (hdistinct : N.Distinct) :
    N.system.traced.Honours (ledgerKnowledge N.node).contract (fun s => N.AcceptedRange s.2)
      N.AccountsKept := by
  apply Knowledge.honours_of_calls
  · rintro i ⟨s, events⟩ op answer ⟨s', events'⟩ hs hallows ⟨hanswer, hevents⟩
    cases hevents
    have hlater := N.acceptedRange_later events (i, ⟨.store op, answer⟩)
    refine ⟨accountsKept_store hdistinct hs hallows hanswer, hlater, ?_⟩
    cases op with
    | fetchMessages query =>
        rintro messages rfl m hm
        exact (explained_of_fetched hs.1 hs.2 hanswer hm).later hlater
    | appendMessage msg => exact fun _ _ => trivial
    | getHead topic origin => exact fun _ _ _ _ _ _ _ => trivial
    | putReplicatedMessage m => exact fun _ => trivial
    | tombstoneRangeWithMarker topic origin first last markerTopic markerOrigin =>
        exact fun _ _ => trivial
    | _ => trivial
  · rintro i ⟨s, events⟩ c answer ⟨s', events'⟩ hs hc ⟨hanswer, hevents⟩
    cases hevents
    cases answers_eq_of_ne_store hanswer hc
    have hlater := N.acceptedRange_later events (i, ⟨c, answer⟩)
    exact ⟨⟨hs.1, hs.2.later hlater⟩, hlater⟩
  · rintro i ⟨s, events⟩ id s' ⟨⟨hid, -⟩, -⟩
    exact hid
  · exact fun _ _ _ _ _ _ _ _ _ _ _ => trivial
  · rintro i ⟨s, events⟩ endpoint request items last ⟨s', events'⟩ hs ⟨⟨hsame, hserves⟩, hevents⟩
      item hitem envelope m henvelope hm
    cases hevents
    obtain ⟨j, all, -, hserve, hstream, -⟩ := hserves items last rfl
    have hmessage := message_of_serves_fetch (hs.1 j) hserve (hstream.mem hitem) henvelope hm
    exact (hs.2.messages j _ _ m hmessage).later (N.acceptedRange_later events _)

theorem accountsKept_of_reaches (hdistinct : N.Distinct)
    {a : State ι (N.Stores × List (Event ι Command Command.Answer)) Command Command.Answer}
    (hrun : N.system.traced.Reaches (.init (N.fresh, [])) a) : N.AccountsKept a.shared :=
  (System.kept_of_reaches (fun _ _ w hstarts => meets_of_starts rfl hstarts w)
    (honours_accounts hdistinct) accountsKept_fresh hrun).1

/-- In every run of a network with distinct keys, whatever fails: a message of an
owner that is marked deleted somewhere is in a range the owner has accepted. -/
theorem deletions_accepted (hdistinct : N.Distinct)
    {a : State ι (N.Stores × List (Event ι Command Command.Answer)) Command Command.Answer}
    (hrun : N.system.traced.Reaches (.init (N.fresh, [])) a) {x owner : ι} {topic : Topic}
    {n : HeadId} {m : StoredMessage}
    (hm : (N.view a.shared.1 x).message (LogKey.of topic (N.node owner)) n = some m)
    (hdeleted : m.deleted = true) :
    ∃ first last, N.AcceptedRange a.shared.2 owner topic first last ∧ first ≤ n ∧ n ≤ last := by
  obtain ⟨hinv, haccounts⟩ := accountsKept_of_reaches hdistinct hrun
  obtain ⟨hpos, hlog⟩ := (wellFormed_view hinv x).positioned _ n m hm
  obtain ⟨owner', howner⟩ := haccounts.messages x _ n m hm
  have hkey : (N.node owner').key = (N.node owner).key := by
    rw [← howner.origin]
    exact congrArg LogKey.origin hlog
  have htopic : m.topic = topic := congrArg LogKey.topic hlog
  obtain ⟨first, last, hA, hfirst, hlast⟩ := howner.flag hdeleted
  rw [hdistinct hkey, htopic] at hA
  rw [hpos] at hfirst hlast
  exact ⟨first, last, hA, hfirst, hlast⟩

omit [Formats] [DecidableEq ι] in
/-- A deletion that another daemon has taken over goes back to the range that the
owner has accepted. -/
theorem deletions_accepted_taken : letI := Serde.formats
    ∃ (a : State Bool ((pair .redb).Stores × List (Event Bool Command Command.Answer)) Command
      Command.Answer) (m : StoredMessage),
      (pair .redb).system.traced.Reaches (.init ((pair .redb).fresh, [])) a ∧
      ((pair .redb).view a.shared.1 false).message (LogKey.of ⟨"t"⟩ ((pair .redb).node true)) 1 =
        some m ∧ m.deleted = true ∧
      ∃ first last, (pair .redb).AcceptedRange a.shared.2 true ⟨"t"⟩ first last ∧ first ≤ 1 ∧
        1 ≤ last := by
  let := Serde.formats
  obtain ⟨a, hrun, -, -, hcopy⟩ := exists_removed_taken roomy_belowLimit (fun _ _ _ _ h => h)
    (fun _ _ _ _ happends _ => belowLimit_of_appends happends)
  obtain ⟨events, hrecorded, -⟩ := hrun.traced
  obtain ⟨m, hm, hdeleted⟩ := deleted_caughtUp_removed
  have hheld : ((pair .redb).view a.shared false).message
      (LogKey.of ⟨"t"⟩ ((pair .redb).node true)) 1 = some m := by
    rw [hcopy]
    exact hm
  exact ⟨⟨(a.shared, events), a.tasks⟩, m, hrecorded, hheld, hdeleted,
    deletions_accepted (distinct_pair .redb) hrecorded hheld hdeleted⟩

end Network

end Msgbus
