import Msgbus.Server.Subscribe
import Msgbus.Windows

/-!
# What a stream delivers

Two invariants of a stream.  `InOrder` needs only that pages are pages of the log
and broadcasts are held by it.  `Gapless` needs an orderly channel, in which every
message of the log follows those at lower positions, and a replay that was not cut
by its limit: the stream then delivers consecutive positions.
-/

namespace Msgbus

/-! ## What is held -/

namespace Logs

variable {b b' : Logs} {m : StoredMessage}

/-- The logs hold the message, up to its deleted flag. -/
def Holds (b : Logs) (m : StoredMessage) : Prop :=
  ∃ stored, b.message m.log m.headId = some stored ∧
    stored.withDeleted false = m.withDeleted false

theorem Holds.grows (h : b.Holds m) (hgrows : b.Grows b') : b'.Holds m := by
  obtain ⟨stored, hstored, hsame⟩ := h
  obtain ⟨later, hlater, hkeeps⟩ := hgrows.message _ _ stored hstored
  refine ⟨later, hlater, ?_⟩
  rw [hkeeps.1, ← hsame]
  rfl

theorem holds_append (msg : NewMessage) (now : UInt64) :
    (b.append msg now).Holds (b.appended msg now) :=
  ⟨_, write_message_self, rfl⟩

theorem holds_of_inserted (h : PutStep m .inserted b b') : b'.Holds m := by
  refine ⟨b.stamp m, ?_, rfl⟩
  rw [h.1]
  exact write_message_self

theorem holds_of_message {k : LogKey} {n : HeadId} (hb : b.WellFormed)
    (h : b.message k n = some m) : b.Holds m := by
  obtain ⟨rfl, rfl⟩ := hb.positioned k n m h
  exact ⟨m, h, rfl⟩

end Logs

/-! ## One stream -/

namespace SubscribeStream

variable {b b' : Logs} {t t' : SubscribeStream}

def pending (t : SubscribeStream) : List StoredMessage :=
  match t.phase with
  | .forwarding replay => replay
  | _ => []

theorem pending_of_forwarding {replay : List StoredMessage} (h : t.phase = .forwarding replay) :
    t.pending = replay := by
  unfold pending
  rw [h]

/-- What was sent and what is left of the replay are messages of the log in the
order of their heads, and `last_sent` stands between them. -/
structure InOrder (b : Logs) (t : SubscribeStream) : Prop where
  positive : 1 ≤ t.query.fromHeadId.toNat
  sorted : (t.delivered ++ t.pending).Pairwise fun m m' => m.headId.toNat < m'.headId.toNat
  held : ∀ m ∈ t.delivered ++ t.pending,
    t.query.fromHeadId.toNat ≤ m.headId.toNat ∧ m.log = t.log ∧ b.Holds m
  sent : ∀ m ∈ t.delivered, m.headId.toNat ≤ t.lastSent.toNat
  unsent : ∀ m ∈ t.pending, t.lastSent.toNat < m.headId.toNat
  started : t.query.fromHeadId.toNat ≤ t.lastSent.toNat + 1
  waiting : t.phase = .fetching →
    t.delivered = [] ∧ t.lastSent.toNat < t.query.fromHeadId.toNat

theorem inOrder_subscribe {query : FetchQuery} (hfirst : 1 ≤ query.fromHeadId.toNat)
    (channel : List StoredMessage) : (subscribe query channel).InOrder b := by
  have hlast : (subscribe query channel).lastSent.toNat = query.fromHeadId.toNat - 1 :=
    UInt64.toNat_saturatingSub _ _
  constructor
  · exact hfirst
  · exact List.Pairwise.nil
  · intro m hm
    cases hm
  · intro m hm
    cases hm
  · intro m hm
    cases hm
  · rw [hlast]
    change query.fromHeadId.toNat ≤ _
    omega
  · intro _
    refine ⟨rfl, ?_⟩
    rw [hlast]
    change _ < query.fromHeadId.toNat
    omega

theorem InOrder.grows (h : t.InOrder b) (hgrows : b.Grows b') : t.InOrder b' where
  positive := h.positive
  sorted := h.sorted
  held := fun m hm => ⟨(h.held m hm).1, (h.held m hm).2.1, (h.held m hm).2.2.grows hgrows⟩
  sent := h.sent
  unsent := h.unsent
  started := h.started
  waiting := h.waiting

theorem InOrder.ended (h : t.InOrder b) (status : Option Status) : (t.ended status).InOrder b where
  positive := h.positive
  sorted := by
    change (t.delivered ++ []).Pairwise _
    rw [List.append_nil]
    exact (List.pairwise_append.mp h.sorted).1
  held := by
    intro m hm
    rw [show (t.ended status).pending = [] from rfl, List.append_nil] at hm
    exact h.held m (List.mem_append_left _ hm)
  sent := h.sent
  unsent := by
    intro m hm
    cases hm
  started := h.started
  waiting := by
    intro hphase
    cases hphase

theorem InOrder.fetched (hb : b.WellFormed) (h : t.InOrder b) (hphase : t.phase = .fetching)
    {limit : Nat} {messages : List StoredMessage}
    (hpage : messages = b.window t.log t.query.fromHeadId limit) :
    ({ t with phase := .forwarding messages } : SubscribeStream).InOrder b := by
  obtain ⟨hnone, hlast⟩ := h.waiting hphase
  have hfrom : ∀ m ∈ messages, t.query.fromHeadId.toNat ≤ m.headId.toNat := by
    intro m hm
    rw [hpage] at hm
    exact Logs.le_headId_of_mem_window hb h.positive hm
  constructor
  · exact h.positive
  · change (t.delivered ++ messages).Pairwise _
    rw [hnone, hpage]
    exact (Logs.log_pairwise hb).sublist ((List.take_sublist _ _).trans (List.drop_sublist _ _))
  · intro m hm
    change m ∈ t.delivered ++ messages at hm
    rw [hnone, List.nil_append] at hm
    have hmessage : b.message t.log m.headId = some m := by
      rw [hpage] at hm
      exact Logs.message_of_mem_window hb hm
    exact ⟨hfrom m hm, (hb.positioned _ _ _ hmessage).2, Logs.holds_of_message hb hmessage⟩
  · exact h.sent
  · intro m hm
    exact Nat.lt_of_lt_of_le hlast (hfrom m hm)
  · exact h.started
  · intro hforwarding
    cases hforwarding

theorem InOrder.replayed (h : t.InOrder b) {m : StoredMessage} {rest : List StoredMessage}
    (hphase : t.phase = .forwarding (m :: rest)) : (t.replayed m rest).InOrder b := by
  have hpending := pending_of_forwarding hphase
  have hsame : (t.replayed m rest).delivered ++ (t.replayed m rest).pending =
      t.delivered ++ t.pending := by
    rw [hpending]
    exact List.append_assoc t.delivered [m] rest
  have hnext : t.lastSent.toNat < m.headId.toNat :=
    h.unsent m (by rw [hpending]; exact List.mem_cons_self)
  have hlast : (t.replayed m rest).lastSent.toNat = m.headId.toNat := by
    change (max t.lastSent m.headId).toNat = _
    rw [UInt64.toNat_max]
    omega
  constructor
  · exact h.positive
  · rw [hsame]
    exact h.sorted
  · rw [hsame]
    exact h.held
  · intro m' hm'
    rw [hlast]
    rcases List.mem_append.mp hm' with hold | hnew
    · have hle := h.sent m' hold
      omega
    · rw [List.mem_singleton.mp hnew]
  · intro m' hm'
    rw [hlast]
    have hsorted := (List.pairwise_append.mp h.sorted).2.1
    rw [hpending] at hsorted
    exact List.rel_of_pairwise_cons hsorted hm'
  · have hstarted := h.started
    change t.query.fromHeadId.toNat ≤ _
    omega
  · intro hfetching
    cases hfetching

theorem InOrder.received (h : t.InOrder b) {m : StoredMessage} (hphase : t.phase = .forwarding [])
    (hheld : b.Holds m) : (t.received m).InOrder b := by
  have hpending := pending_of_forwarding hphase
  unfold SubscribeStream.received
  split_ifs with hwanted
  · obtain ⟨⟨htopic, horigin⟩, hbeyond⟩ := hwanted
    rw [UInt64.lt_iff_toNat_lt] at hbeyond
    have hlog : m.log = t.log := congrArg₂ LogKey.of htopic horigin
    have hsorted := h.sorted
    have hall := h.held
    have hstarted := h.started
    rw [hpending, List.append_nil] at hsorted hall
    constructor
    · exact h.positive
    · change ((t.delivered ++ [m]) ++ t.pending).Pairwise _
      rw [hpending, List.append_nil, List.pairwise_append]
      refine ⟨hsorted, List.pairwise_singleton _ _, ?_⟩
      intro m' hm' last hlast
      rw [List.mem_singleton.mp hlast]
      exact Nat.lt_of_le_of_lt (h.sent m' hm') hbeyond
    · intro m' hm'
      change m' ∈ (t.delivered ++ [m]) ++ t.pending at hm'
      rw [hpending, List.append_nil] at hm'
      rcases List.mem_append.mp hm' with hold | hnew
      · exact hall m' hold
      · rw [List.mem_singleton.mp hnew]
        refine ⟨?_, hlog, hheld⟩
        change t.query.fromHeadId.toNat ≤ _
        omega
    · intro m' hm'
      rcases List.mem_append.mp hm' with hold | hnew
      · exact Nat.le_of_lt (Nat.lt_of_le_of_lt (h.sent m' hold) hbeyond)
      · rw [List.mem_singleton.mp hnew]
    · intro m' hm'
      change m' ∈ t.pending at hm'
      rw [hpending] at hm'
      cases hm'
    · change t.query.fromHeadId.toNat ≤ m.headId.toNat + 1
      omega
    · intro hfetching
      rw [show t.phase = .fetching from hfetching] at hphase
      cases hphase
  · exact ⟨h.positive, h.sorted, h.held, h.sent, h.unsent, h.started, h.waiting⟩

/-- Each step keeps the order when pages are pages of the log and broadcasts are
held. -/
theorem InOrder.step {fetched : FetchQuery → Except MsgbusError (List StoredMessage) → Prop}
    {channel : List StoredMessage} (hb : b.WellFormed)
    (hfetched : ∀ messages, fetched t.query (.ok messages) →
      ∃ limit, messages = b.window t.log t.query.fromHeadId limit)
    (hchannel : ∀ m ∈ channel, b.Holds m) (h : t.InOrder b) (hstep : Step fetched channel t t') :
    t'.InOrder b := by
  cases hstep with
  | fetched hphase hpage =>
      obtain ⟨limit, hwindow⟩ := hfetched _ hpage
      exact h.fetched hb hphase hwindow
  | refused hphase herror => exact h.ended _
  | replay hphase => exact h.replayed hphase
  | live hphase hkept hget => exact h.received hphase (hchannel _ (List.mem_of_getElem? hget))
  | lagged text hphase hlost => exact h.ended _
  | closed => exact h.ended _

/-! ## Steps of a stream -/

section Step

variable {fetched : FetchQuery → Except MsgbusError (List StoredMessage) → Prop}
variable {channel : List StoredMessage}

theorem Step.query_eq (hstep : Step fetched channel t t') : t'.query = t.query := by
  cases hstep with
  | live hphase hkept hget =>
      unfold SubscribeStream.received
      split_ifs
      · rfl
      · rfl
  | _ => rfl

theorem Step.log_eq (hstep : Step fetched channel t t') : t'.log = t.log := by
  unfold log
  rw [hstep.query_eq]

theorem step_last {m : StoredMessage} {earlier : List StoredMessage}
    (hphase : t.phase = .forwarding []) (hcursor : t.cursor = earlier.length) :
    Step fetched (earlier ++ [m]) t (t.received m) := by
  refine .live hphase ?_ ?_
  · rw [List.length_append, List.length_singleton, hcursor]
    exact Nat.add_le_add_left (by decide) _
  · rw [hcursor, List.getElem?_append_right (Nat.le_refl _), Nat.sub_self]
    rfl

end Step

end SubscribeStream

theorem subscribeQuery_fromHeadId {node : NodeId} {request : Pb.SubscribeRequest}
    {query : FetchQuery} (h : subscribeQuery node request = .ok query) :
    query.fromHeadId = max request.fromHeadId 1 := by
  obtain ⟨topic, -, h⟩ := Except.bind_eq_ok.mp h
  obtain ⟨origin, -, h⟩ := Except.bind_eq_ok.mp h
  cases h
  rfl

/-! ## An orderly channel -/

/-- The messages of a log in the channel are at positions up to the head, and
each follows those at the positions between `base` and its own. -/
structure Orderly (concerns : StoredMessage → Prop) (base head : Nat)
    (channel : List StoredMessage) : Prop where
  base_le : base ≤ head
  le_head : ∀ m ∈ channel, concerns m → m.headId.toNat ≤ head
  follows : ∀ earlier m later, channel = earlier ++ m :: later → concerns m →
    ∀ n, base < n → n < m.headId.toNat → ∃ m' ∈ earlier, concerns m' ∧ m'.headId.toNat = n

namespace Orderly

variable {concerns : StoredMessage → Prop} {base head : Nat} {channel : List StoredMessage}

/-- What was broadcast up to `base` may have come in any order. -/
theorem of_le (h : ∀ m ∈ channel, concerns m → m.headId.toNat ≤ base) :
    Orderly concerns base base channel where
  base_le := Nat.le_refl base
  le_head := h
  follows := by
    rintro earlier m later rfl hconcerns n hbase hlt
    have hle := h m (List.mem_append_right _ List.mem_cons_self) hconcerns
    omega

theorem mono {head' : Nat} (h : Orderly concerns base head channel) (hle : head ≤ head') :
    Orderly concerns base head' channel where
  base_le := Nat.le_trans h.base_le hle
  le_head := fun m hm hconcerns => Nat.le_trans (h.le_head m hm hconcerns) hle
  follows := h.follows

theorem raise {base' : Nat} (h : Orderly concerns base head channel) (hle : base ≤ base')
    (hhead : base' ≤ head) : Orderly concerns base' head channel where
  base_le := hhead
  le_head := h.le_head
  follows := fun earlier m later hsplit hconcerns n hbase =>
    h.follows earlier m later hsplit hconcerns n (Nat.lt_of_le_of_lt hle hbase)

theorem broadcast (h : Orderly concerns base head channel) {m : StoredMessage}
    (hle : concerns m → m.headId.toNat ≤ head)
    (hfollows : concerns m → ∀ n, base < n → n < m.headId.toNat →
      ∃ m' ∈ channel, concerns m' ∧ m'.headId.toNat = n) :
    Orderly concerns base head (channel ++ [m]) where
  base_le := h.base_le
  le_head := by
    intro m' hm'
    rcases List.mem_append.mp hm' with hold | hnew
    · exact h.le_head m' hold
    · rw [List.mem_singleton.mp hnew]
      exact hle
  follows := by
    intro earlier m' later hsplit
    rcases List.eq_nil_or_concat later with rfl | ⟨front, last, rfl⟩
    · obtain ⟨rfl, hlast⟩ := List.append_inj' hsplit rfl
      cases hlast
      exact hfollows
    · have hinit : channel = earlier ++ m' :: front := by
        rw [List.concat_eq_append, ← List.cons_append, ← List.append_assoc] at hsplit
        exact (List.append_inj' hsplit rfl).1
      exact h.follows earlier m' front hinit

end Orderly

/-! ## Consecutive positions -/

namespace SubscribeStream

variable {t t' : SubscribeStream} {base head : Nat} {channel : List StoredMessage}

def reach (t : SubscribeStream) : Nat :=
  t.query.fromHeadId.toNat + t.delivered.length + t.pending.length

/-- What was sent and what is left of the replay are at consecutive positions up
to the head, and `last_sent` stands between them.  What was read of the channel is
not beyond them, unless it was stored when the head was at `base`. -/
structure Gapless (base head : Nat) (channel : List StoredMessage) (t : SubscribeStream) :
    Prop where
  positive : 1 ≤ t.query.fromHeadId.toNat
  heads : (t.delivered ++ t.pending).map (·.headId.toNat) =
    List.range' t.query.fromHeadId.toNat (t.delivered.length + t.pending.length)
  last : t.lastSent.toNat + 1 = t.query.fromHeadId.toNat + t.delivered.length
  base_le : base ≤ head
  cursor_le : t.cursor ≤ channel.length
  waiting : t.phase = .fetching → t.delivered = []
  read : (∀ status, t.phase ≠ .ended status) → ∀ m ∈ channel.take t.cursor, t.Concerns m →
    m.headId.toNat ≤ base ∨ m.headId.toNat < t.reach

theorem gapless_subscribe {query : FetchQuery} (hfirst : 1 ≤ query.fromHeadId.toNat)
    (hread : ∀ m ∈ channel, (subscribe query channel).Concerns m → m.headId.toNat ≤ base) :
    (subscribe query channel).Gapless base base channel where
  positive := hfirst
  heads := rfl
  last := by
    change (query.fromHeadId.saturatingSub 1).toNat + 1 = query.fromHeadId.toNat
    rw [UInt64.toNat_saturatingSub, UInt64.toNat_one]
    omega
  base_le := Nat.le_refl _
  cursor_le := Nat.le_refl _
  waiting := fun _ => rfl
  read := fun _ m hm hconcerns => Or.inl (hread m (List.mem_of_mem_take hm) hconcerns)

theorem Gapless.delivered_heads (h : t.Gapless base head channel) :
    t.delivered.map (·.headId.toNat) =
      List.range' t.query.fromHeadId.toNat t.delivered.length := by
  have hheads := h.heads
  rw [List.map_append, ← List.range'_append_1] at hheads
  exact (List.append_inj hheads (by rw [List.length_map, List.length_range'])).1

theorem Gapless.mono {head' : Nat} (h : t.Gapless base head channel) (hle : head ≤ head')
    (more : List StoredMessage) : t.Gapless base head' (channel ++ more) where
  positive := h.positive
  heads := h.heads
  last := h.last
  base_le := Nat.le_trans h.base_le hle
  cursor_le := by
    rw [List.length_append]
    exact Nat.le_trans h.cursor_le (Nat.le_add_right _ _)
  waiting := h.waiting
  read := by
    rw [List.take_append_of_le_length h.cursor_le]
    exact h.read

theorem Gapless.ended (h : t.Gapless base head channel) (status : Option Status) :
    (t.ended status).Gapless base head channel where
  positive := h.positive
  heads := by
    change (t.delivered ++ []).map _ = List.range' t.query.fromHeadId.toNat (t.delivered.length + 0)
    rw [List.append_nil]
    exact h.delivered_heads
  last := h.last
  base_le := h.base_le
  cursor_le := h.cursor_le
  waiting := by
    intro hphase
    cases hphase
  read := fun hopen => absurd rfl (hopen status)

theorem Gapless.fetched (h : t.Gapless base head channel) (hphase : t.phase = .fetching)
    {messages : List StoredMessage}
    (hpage : messages.map (·.headId.toNat) =
      List.range' t.query.fromHeadId.toNat messages.length) :
    ({ t with phase := .forwarding messages } : SubscribeStream).Gapless base head channel := by
  have hnone := h.waiting hphase
  constructor
  · exact h.positive
  · change (t.delivered ++ messages).map _ = List.range' t.query.fromHeadId.toNat
      (t.delivered.length + messages.length)
    rw [hnone, List.nil_append, hpage, List.length_nil, Nat.zero_add]
  · exact h.last
  · exact h.base_le
  · exact h.cursor_le
  · intro hforwarding
    cases hforwarding
  · intro _ m hm hconcerns
    refine (h.read (by simp [hphase]) m hm hconcerns).imp_right fun hlt => ?_
    have hempty : t.pending = [] := by
      unfold pending
      rw [hphase]
    unfold reach at hlt
    rw [hempty] at hlt
    exact Nat.lt_of_lt_of_le hlt (Nat.add_le_add_left (Nat.zero_le _) _)

theorem reach_replayed {m : StoredMessage} {rest : List StoredMessage}
    (hphase : t.phase = .forwarding (m :: rest)) : (t.replayed m rest).reach = t.reach := by
  unfold reach
  rw [pending_of_forwarding hphase]
  change t.query.fromHeadId.toNat + (t.delivered ++ [m]).length + rest.length = _
  simp only [List.length_append, List.length_cons, List.length_nil]
  omega

theorem Gapless.replayed (h : t.Gapless base head channel) {m : StoredMessage}
    {rest : List StoredMessage} (hphase : t.phase = .forwarding (m :: rest)) :
    (t.replayed m rest).Gapless base head channel := by
  have hheads := h.heads
  rw [pending_of_forwarding hphase] at hheads
  have hposition : m.headId.toNat = t.query.fromHeadId.toNat + t.delivered.length := by
    have hget := congrArg (fun heads => heads[t.delivered.length]?) hheads
    rw [List.getElem?_map, List.getElem?_append_right (Nat.le_refl _), Nat.sub_self,
      List.getElem?_range' (by simp)] at hget
    simpa using hget
  have hlength : (t.delivered ++ [m]).length + rest.length =
      t.delivered.length + (m :: rest).length := by
    simp only [List.length_append, List.length_cons, List.length_nil]
    omega
  constructor
  · exact h.positive
  · change ((t.delivered ++ [m]) ++ rest).map _ = List.range' t.query.fromHeadId.toNat
      ((t.delivered ++ [m]).length + rest.length)
    rw [List.append_assoc, hlength]
    exact hheads
  · have hlast := h.last
    change (max t.lastSent m.headId).toNat + 1 =
      t.query.fromHeadId.toNat + (t.delivered ++ [m]).length
    rw [UInt64.toNat_max, List.length_append, List.length_singleton]
    omega
  · exact h.base_le
  · exact h.cursor_le
  · intro hfetching
    cases hfetching
  · intro _
    rw [reach_replayed hphase]
    exact h.read (by simp [hphase])

/-- Before the message there is one that was not sent and was stored when the head
was at `base`. -/
def Passes (base : Nat) (t : SubscribeStream) (m : StoredMessage) : Prop :=
  ∃ n, t.lastSent.toNat < n ∧ n < m.headId.toNat ∧ n ≤ base

/-- A message of an orderly channel that is beyond what was sent is at the next
position: one in between was stored before, or it would have been read already. -/
theorem Gapless.next (h : t.Gapless base head channel)
    (horderly : Orderly t.Concerns base head channel) (hphase : t.phase = .forwarding [])
    {m : StoredMessage} (hget : channel[t.cursor]? = some m) (hconcerns : t.Concerns m)
    (hbeyond : t.lastSent.toNat < m.headId.toNat) (hpasses : ¬ t.Passes base m) :
    m.headId.toNat = t.query.fromHeadId.toNat + t.delivered.length := by
  have hlast := h.last
  have hreach : t.reach = t.query.fromHeadId.toNat + t.delivered.length := by
    unfold reach
    rw [pending_of_forwarding hphase]
    rfl
  by_contra hne
  have hbase : base < t.reach := by
    by_contra hle
    exact hpasses ⟨t.reach, by omega, by omega, Nat.le_of_not_lt hle⟩
  obtain ⟨hlt, hm⟩ := List.getElem?_eq_some_iff.mp hget
  have hsplit : channel = channel.take t.cursor ++ m :: channel.drop (t.cursor + 1) := by
    rw [← hm, ← List.drop_eq_getElem_cons hlt, List.take_append_drop]
  obtain ⟨m', hm', hconcerns', hposition⟩ := horderly.follows _ m _ hsplit hconcerns t.reach hbase
    (by omega)
  have hbound := h.read (by simp [hphase]) m' hm' hconcerns'
  omega

theorem Gapless.received (h : t.Gapless base head channel)
    (horderly : Orderly t.Concerns base head channel) (hphase : t.phase = .forwarding [])
    {m : StoredMessage} (hget : channel[t.cursor]? = some m)
    (hpasses : t.Concerns m → t.lastSent < m.headId → ¬ t.Passes base m) :
    (t.received m).Gapless base head channel := by
  have hpending := pending_of_forwarding hphase
  have hlt := (List.getElem?_eq_some_iff.mp hget).1
  have hlast := h.last
  have hreach : t.reach = t.query.fromHeadId.toNat + t.delivered.length := by
    unfold reach
    rw [hpending]
    rfl
  have hread := h.read (by simp [hphase])
  have htake : channel.take (t.cursor + 1) = channel.take t.cursor ++ [m] := by
    rw [List.take_add_one, hget]
    rfl
  unfold SubscribeStream.received
  split_ifs with hwanted
  · obtain ⟨hconcerns, hbeyond⟩ := hwanted
    have hnext := h.next horderly hphase hget hconcerns (UInt64.lt_iff_toNat_lt.mp hbeyond)
      (hpasses hconcerns hbeyond)
    constructor
    · exact h.positive
    · change ((t.delivered ++ [m]) ++ t.pending).map _ = List.range' t.query.fromHeadId.toNat
        ((t.delivered ++ [m]).length + t.pending.length)
      rw [hpending, List.append_nil, List.map_append, h.delivered_heads, List.length_append,
        List.length_nil, Nat.add_zero, List.length_singleton, List.range'_1_concat, List.map_singleton,
        hnext]
    · change m.headId.toNat + 1 = t.query.fromHeadId.toNat + (t.delivered ++ [m]).length
      rw [List.length_append, List.length_singleton]
      omega
    · exact h.base_le
    · exact hlt
    · intro hfetching
      rw [show t.phase = .fetching from hfetching] at hphase
      cases hphase
    · intro _ m' hm' hconcerns'
      change _ ∨ _ < t.query.fromHeadId.toNat + (t.delivered ++ [m]).length + t.pending.length
      change m' ∈ channel.take (t.cursor + 1) at hm'
      rw [hpending, List.length_append, List.length_singleton, List.length_nil]
      rw [htake] at hm'
      rcases List.mem_append.mp hm' with hold | hnew
      · have hbound := hread m' hold hconcerns'
        omega
      · rw [List.mem_singleton.mp hnew]
        omega
  · refine ⟨h.positive, h.heads, h.last, h.base_le, hlt, h.waiting, ?_⟩
    intro _ m' hm' hconcerns'
    change m'.headId.toNat ≤ base ∨ m'.headId.toNat < t.reach
    change m' ∈ channel.take (t.cursor + 1) at hm'
    rw [htake] at hm'
    rcases List.mem_append.mp hm' with hold | hnew
    · exact hread m' hold hconcerns'
    · -- it was not wanted, so it is not beyond what was sent
      rw [List.mem_singleton.mp hnew] at hconcerns' ⊢
      have hnot : ¬ t.lastSent < m.headId := fun hbeyond => hwanted ⟨hconcerns', hbeyond⟩
      rw [UInt64.lt_iff_toNat_lt] at hnot
      omega

/-- Each step keeps positions consecutive when the channel is orderly, pages are
consecutive and no message of the channel passes one that was stored before. -/
theorem Gapless.step {fetched : FetchQuery → Except MsgbusError (List StoredMessage) → Prop}
    (horderly : Orderly t.Concerns base head channel)
    (hfetched : ∀ messages, fetched t.query (.ok messages) →
      messages.map (·.headId.toNat) = List.range' t.query.fromHeadId.toNat messages.length)
    (hpasses : ∀ m, t.phase = .forwarding [] → t.Concerns m → t.lastSent < m.headId →
      t'.delivered = t.delivered ++ [m] → ¬ t.Passes base m)
    (h : t.Gapless base head channel) (hstep : Step fetched channel t t') :
    t'.Gapless base head channel := by
  cases hstep with
  | fetched hphase hpage => exact h.fetched hphase (hfetched _ hpage)
  | refused hphase herror => exact h.ended _
  | replay hphase => exact h.replayed hphase
  | live hphase hkept hget =>
      refine h.received horderly hphase hget fun hconcerns hbeyond => ?_
      refine hpasses _ hphase hconcerns hbeyond ?_
      rw [t.received_of_wanted ⟨hconcerns, hbeyond⟩]
  | lagged text hphase hlost => exact h.ended _
  | closed => exact h.ended _

/-! ## A replay that is not cut -/

/-- What is forwarded reaches beyond what was stored when the head was at `base`. -/
def Whole (base : Nat) (t : SubscribeStream) : Prop :=
  ∀ replay, t.phase = .forwarding replay → base < t.reach

theorem whole_subscribe (query : FetchQuery) (base : Nat) :
    (subscribe query channel).Whole base := by
  intro replay hphase
  cases hphase

theorem Whole.not_passes (h : t.Whole base) (hgapless : t.Gapless base head channel)
    (hphase : t.phase = .forwarding []) (m : StoredMessage) : ¬ t.Passes base m := by
  rintro ⟨n, hbeyond, -, hle⟩
  have hbase := h [] hphase
  have hlast := hgapless.last
  unfold reach at hbase
  rw [pending_of_forwarding hphase, List.length_nil] at hbase
  omega

theorem Whole.step {fetched : FetchQuery → Except MsgbusError (List StoredMessage) → Prop}
    (hfetched : ∀ messages, fetched t.query (.ok messages) →
      messages.length = head + 1 - t.query.fromHeadId.toNat)
    (hgapless : t.Gapless base head channel) (h : t.Whole base)
    (hstep : Step fetched channel t t') : t'.Whole base := by
  intro replay hforwarding
  cases hstep with
  | @fetched messages hphase hpage =>
      have hlength := hfetched messages hpage
      have hbase := hgapless.base_le
      change base < t.query.fromHeadId.toNat + t.delivered.length + messages.length
      omega
  | replay hphase =>
      rw [reach_replayed hphase]
      exact h _ hphase
  | @live m hphase hkept hget =>
      have hbase := h [] hphase
      unfold SubscribeStream.received
      split_ifs with hwanted
      · change base < t.query.fromHeadId.toNat + (t.delivered ++ [m]).length + t.pending.length
        unfold reach at hbase
        rw [List.length_append]
        omega
      · exact hbase
  | refused => cases hforwarding
  | lagged => cases hforwarding
  | closed => cases hforwarding

end SubscribeStream

end Msgbus
