import Msgbus.Network.CatchUp
import Msgbus.Server.Loop

/-!
# A bad log blocks those listed after it

`sync_peer` replicates the logs of a peer in the order they are listed and stops
at the first that fails.  So a log that would be replicated alone is brought up
to the peer's head exactly if no log that fails is listed before it.
-/

namespace Msgbus

open Program

variable [Formats]

/-! ## The calls of a pass -/

/-- A call that appends nothing, and puts messages only into logs that `P` allows. -/
def Command.Puts (P : LogKey → Prop) : Command → Prop
  | store op => op.appendsTo = none ∧ ∀ m, op = .putReplicatedMessage m → P m.log
  | _ => True

theorem takes_puts {P : LogKey → Prop} {head : TopicHead}
    (h : P (LogKey.of head.topic head.origin)) :
    Takes (Contract.ofCalls (Command.Puts P)) () head := by
  refine takes_of_calls ⟨⟨fun _ => ⟨rfl, fun m hop => by cases hop⟩, fun _ => trivial⟩, ?_⟩ ?_
  · intro m htopic horigin
    refine ⟨rfl, ?_⟩
    intro m' hop
    cases hop
    rw [StoredMessage.log, htopic, horigin]
    exact h
  · intro c hc
    cases hc with
    | nowMs => exact trivial
    | record state _ => exact ⟨rfl, fun m hop => by cases hop⟩
    | getHead => exact ⟨rfl, fun m hop => by cases hop⟩
    | fetch endpoint request => exact trivial

/-! ## The order of the heads -/

theorem syncHeads_append {spec : PeerSpec} (batchLimit : UInt32) (before rest : List Pb.TopicHead) :
    syncHeads spec batchLimit (before ++ rest) =
      syncHeads spec batchLimit before >>= fun _ => syncHeads spec batchLimit rest := by
  induction before with
  | nil => rfl
  | cons listed before ih =>
      rw [List.cons_append]
      cases hhead : coreTopicHead listed with
      | error status =>
          rw [syncHeads, syncHeads, hhead]
          rfl
      | ok head =>
          rw [syncHeads_cons hhead, syncHeads_cons hhead]
          refine Eq.trans ?_ (bind_assoc _ _ _).symm
          refine congrArg ((syncHead spec head batchLimit).attempt.bind ·) (funext fun outcome => ?_)
          cases outcome with
          | ok u => exact ih
          | error err =>
              refine Eq.trans ?_ (bind_assoc _ _ _).symm
              refine congrArg ((callStoreText (.getHead head.topic head.origin)).bind ·)
                (funext fun stored => ?_)
              exact (bind_assoc (recordPeerSyncFailure spec (some head.topic) (some head.origin)
                (Option.getD stored 0) head.headId err) (fun _ => .fail err) _).symm

namespace Network

variable {ι : Type} [DecidableEq ι] {N : Network ι} {i : ι}
variable {answers : N.Stores → (c : Command) → c.Answer → N.Stores → Prop} {I : N.Stores → Prop}

/-- Some peer and some way for calls to fail or succeed, with what stays true of
the stores. -/
structure Surrounds (N : Network ι) (i : ι)
    (answers : N.Stores → (c : Command) → c.Answer → N.Stores → Prop) (I : N.Stores → Prop) :
    Prop where
  exposed : ∀ s c answer s', answers s c answer s' → N.ExposedAnswers i s c answer s'
  keeps : ∀ s c answer s', I s → answers s c answer s' → I s'
  inv : ∀ s, I s → N.Inv s

theorem Surrounds.current_le (h : Surrounds N i answers I) {s s' : N.Stores} {c : Command}
    {answer : c.Answer} {P : LogKey → Prop} {k : LogKey} (hs : I s) (hc : c.Puts P)
    (hanswer : answers s c answer s') :
    (N.view s i).current k ≤ (N.view s' i).current k ∧
      (¬ P k → (N.view s' i).current k = (N.view s i).current k) := by
  have hexposed := h.exposed s c answer s' hanswer
  by_cases hstore : ∃ op, c = .store op
  · obtain ⟨op, rfl⟩ := hstore
    obtain ⟨t, hstored, rfl⟩ := hexposed
    rw [view_update, Function.update_self]
    rcases storeAnswers_cases (h.inv s hs i) hstored with
      ⟨env, r, -, -, -, hstep⟩ | ⟨-, rfl⟩
    · have hgrows := Logs.step_grows (wellFormed_view (h.inv s hs) i) (by simp [hc.1]) hstep
      refine ⟨UInt64.le_iff_toNat_le.mpr (hgrows.head k), fun hP => ?_⟩
      exact congrArg (Option.getD · 0) (Logs.step_head_eq hstep hc.1 fun m hop hlog =>
        hP (hlog ▸ hc.2 m hop))
    · exact ⟨UInt64.le_refl _, fun _ => rfl⟩
  · rw [exposedAnswers_eq_of_ne_store hexposed fun op hc => hstore ⟨op, hc⟩]
    exact ⟨UInt64.le_refl _, fun _ => rfl⟩

theorem Surrounds.runs_current_le (h : Surrounds N i answers I) {s s' : N.Stores} {ε α : Type}
    {p : Server ε α} {out : Except ε α} {P : LogKey → Prop} (hs : I s)
    (hp : Calls (Command.Puts P) p) (hruns : Runs answers s p out s') (k : LogKey) :
    (N.view s i).current k ≤ (N.view s' i).current k ∧
      (¬ P k → (N.view s' i).current k = (N.view s i).current k) := by
  let Same : N.Stores → Prop := fun t => I t ∧ (N.view s i).current k ≤ (N.view t i).current k ∧
    (¬ P k → (N.view t i).current k = (N.view s i).current k)
  have hstart : Same s := ⟨hs, UInt64.le_refl _, fun _ => rfl⟩
  have hend : Same s' := by
    refine hruns.invariant hp hstart ?_
    rintro s₁ c answer s₂ ⟨hs₁, hle, hsame⟩ hc hanswer
    obtain ⟨hle', hsame'⟩ := h.current_le hs₁ hc hanswer
    exact ⟨h.keeps s₁ c answer s₂ hs₁ hanswer, UInt64.le_trans hle hle',
      fun hP => (hsame' hP).trans (hsame hP)⟩
  exact hend.2

section Order

variable (answers I) in
def Fails (spec : PeerSpec) (batchLimit : UInt32) (listed : Pb.TopicHead) : Prop :=
  ∀ s s', I s → ¬ Runs answers s (syncHeads spec batchLimit [listed]) (.ok ()) s'

variable (answers I) in
def Works (spec : PeerSpec) (batchLimit : UInt32) (listed : Pb.TopicHead) : Prop :=
  ∀ s e s', I s → ¬ Runs answers s (syncHeads spec batchLimit [listed]) (.error e) s'

variable {spec : PeerSpec} {batchLimit : UInt32} {before after : List Pb.TopicHead}
variable {listed : Pb.TopicHead} {head : TopicHead} {s s' : N.Stores} {out : Except String Unit}

theorem Surrounds.ok_of_works (h : Surrounds N i answers I)
    (hworks : ∀ other ∈ before, Works answers I spec batchLimit other) (hs : I s)
    (hruns : Runs answers s (syncHeads spec batchLimit before) out s') : out = .ok () := by
  induction before generalizing s with
  | nil =>
      cases hruns
      rfl
  | cons other rest ih =>
      rw [← List.singleton_append, syncHeads_append] at hruns
      rcases Runs.bind_cases hruns with ⟨u, t, hother, hrest⟩ | ⟨e, -, hother⟩
      · exact ih (fun other' hmem => hworks other' (List.mem_cons_of_mem _ hmem))
          (hother.preserves hs h.keeps) hrest
      · exact absurd hother (hworks other List.mem_cons_self s e s' hs)

theorem Surrounds.not_ok_of_fails (h : Surrounds N i answers I) {other : Pb.TopicHead}
    (hmem : other ∈ before) (hfails : Fails answers I spec batchLimit other) (hs : I s) :
    ¬ Runs answers s (syncHeads spec batchLimit before) (.ok ()) s' := by
  obtain ⟨first, rest, rfl⟩ := List.append_of_mem hmem
  intro hruns
  rw [syncHeads_append] at hruns
  obtain ⟨u, t, hfirst, hruns⟩ := Runs.of_bind hruns
  rw [← List.singleton_append, syncHeads_append] at hruns
  obtain ⟨u', t', hother, -⟩ := Runs.of_bind hruns
  exact hfails t t' (hfirst.preserves hs h.keeps) hother

/-- Nothing of a log is replicated if one that fails is listed before it. -/
theorem Surrounds.not_brought (h : Surrounds N i answers I)
    (hdistinct : ∀ other ∈ before, ∀ head', coreTopicHead other = .ok head' →
      LogKey.of head'.topic head'.origin ≠ LogKey.of head.topic head.origin)
    {other : Pb.TopicHead} (hmem : other ∈ before)
    (hfails : Fails answers I spec batchLimit other) (hs : I s)
    (hruns : Runs answers s (syncHeads spec batchLimit (before ++ listed :: after)) out s') :
    (N.view s' i).current (LogKey.of head.topic head.origin) =
      (N.view s i).current (LogKey.of head.topic head.origin) := by
  rw [syncHeads_append] at hruns
  rcases Runs.bind_cases hruns with ⟨u, t, hbefore, -⟩ | ⟨e, -, hbefore⟩
  · exact absurd hbefore (h.not_ok_of_fails hmem hfails hs)
  · have hcalls : Calls (Command.Puts (· ≠ LogKey.of head.topic head.origin))
        (syncHeads spec batchLimit before) :=
      calls_syncHeads batchLimit fun other hother head' hhead' =>
        takes_puts (hdistinct other hother head' hhead')
    exact (h.runs_current_le hs hcalls hbefore _).2 fun hne => hne rfl

/-- Whatever the peer and whichever calls fail: a log that would be replicated
alone is brought up to the peer's head exactly if no log that fails is listed
before it. -/
theorem brought_iff (h : Surrounds N i answers I) (head : TopicHead)
    (halone : ∀ s out s', I s → Runs answers s (syncHeads spec batchLimit [listed]) out s' →
      out = .ok () ∧ head.headId ≤ (N.view s' i).current (LogKey.of head.topic head.origin))
    (hothers : ∀ other ∈ before,
      Fails answers I spec batchLimit other ∨ Works answers I spec batchLimit other)
    (hdistinct : ∀ other ∈ before, ∀ head', coreTopicHead other = .ok head' →
      LogKey.of head'.topic head'.origin ≠ LogKey.of head.topic head.origin)
    (hs : I s) (hbehind : (N.view s i).current (LogKey.of head.topic head.origin) < head.headId)
    (hruns : Runs answers s (syncHeads spec batchLimit (before ++ listed :: after)) out s') :
    head.headId ≤ (N.view s' i).current (LogKey.of head.topic head.origin) ↔
      ∀ other ∈ before, ¬ Fails answers I spec batchLimit other := by
  constructor
  · intro hbrought other hmem hfails
    rw [h.not_brought hdistinct hmem hfails hs hruns] at hbrought
    exact absurd hbehind (UInt64.not_lt.mpr hbrought)
  · intro hnone
    rw [syncHeads_append] at hruns
    rcases Runs.bind_cases hruns with ⟨u, t, hbefore, hrest⟩ | ⟨e, -, hbefore⟩
    · have ht := hbefore.preserves hs h.keeps
      rw [← List.singleton_append, syncHeads_append] at hrest
      rcases Runs.bind_cases hrest with ⟨u', t', hlisted, hafter⟩ | ⟨e, -, hlisted⟩
      · have hcalls : Calls (Command.Puts fun _ => True) (syncHeads spec batchLimit after) :=
          calls_syncHeads batchLimit fun _ _ _ _ => takes_puts trivial
        have hle := h.runs_current_le (hlisted.preserves ht h.keeps) hcalls hafter
          (LogKey.of head.topic head.origin)
        exact UInt64.le_trans (halone t _ t' ht hlisted).2 hle.1
      · cases (halone t _ s' ht hlisted).1
    · have hok := h.ok_of_works
        (fun other hmem => (hothers other hmem).resolve_left (hnone other hmem)) hs hbefore
      cases hok

end Order

/-! ## A good log after a bad one -/

def otherEntry : StoredMessage := ⟨⟨"o"⟩, ⟨"u"⟩, slashedNode, 1, .empty, .empty, 0, false⟩

def twoLogs : Logs := slashedLogs.write otherEntry.log 1 otherEntry

def blockedLogs : Logs := mixedLogs.write otherEntry.log 1 otherEntry

theorem honest_twoLogs : twoLogs.Honest :=
  honest_slashedLogs.write (by decide) (by decide) (Or.inl (by decide)) (by decide)

theorem honest_blockedLogs : blockedLogs.Honest :=
  honest_mixedLogs.write (by decide) (by decide) (Or.inl (by decide)) (by decide)

omit [Formats] in
theorem isHead_otherEntry (b : Logs) (hfree : b.head otherEntry.log = none) :
    (b.write otherEntry.log 1 otherEntry).IsHead ⟨⟨"u"⟩, slashedNode, 1⟩ := by
  refine ⟨otherEntry.log, otherEntry, ?_, Logs.write_message_self, rfl, rfl⟩
  simp only [Logs.write, Function.update_self, Logs.current, hfree]
  rfl

omit [Formats] in
theorem isHead_write_of_ne {b : Logs} {k : LogKey} {n : HeadId} {m : StoredMessage}
    {head : TopicHead} (hb : b.WellFormed) (h : b.IsHead head)
    (hne : LogKey.of head.topic head.origin ≠ k) : (b.write k n m).IsHead head := by
  obtain ⟨k', m', hk', hm', htopic, horigin⟩ := h
  have hlog : k' ≠ k := by
    rw [← (hb.positioned k' _ m' hm').2]
    rw [htopic, horigin] at hne
    exact hne
  exact ⟨k', m', (Logs.write_head_of_ne_log hlog).trans hk',
    (congrFun (Logs.write_message_of_ne_log hlog) _).trans hm', htopic, horigin⟩

omit [Formats] in
theorem origin_twoLogs {k : LogKey} {n : HeadId} {m : StoredMessage}
    (hm : twoLogs.message k n = some m) : m.origin = slashedNode := by
  rw [twoLogs, Logs.write_message, slashedLogs, Logs.write_message] at hm
  split_ifs at hm
  · cases hm
    rfl
  · cases hm
    rfl
  · cases hm

theorem surrounds_smooth (I : (pair .redb).Stores → Prop)
    (hkeep : ∀ s c answer s', I s → (pair .redb).smooth.Answers false s c answer s' → I s')
    (hinv : ∀ s, I s → (pair .redb).Inv s) :
    Surrounds (pair .redb) false ((pair .redb).smooth.Answers false) I where
  exposed := fun _ _ _ _ h => (exposedAnswers_of_answers h).2
  keeps := hkeep
  inv := hinv

omit [Formats] in
/-- A good log listed after one that cannot be replicated is not brought, though
it would be alone. -/
theorem good_log_blocked : letI := Serde.formats
    ∃ s : (pair .redb).Stores, (∀ x, Reachable (s x)) ∧ ((pair .redb).view s true).Honest ∧
      (∃ s', Runs ((pair .redb).smooth.Answers false) s
        (syncHeads ⟨"peer", none⟩ 10 [protoTopicHead ⟨⟨"u"⟩, slashedNode, 1⟩]) (.ok ()) s' ∧
          ((pair .redb).view s' false).current otherEntry.log = 1) ∧
      ∃ e s', Runs ((pair .redb).smooth.Answers false) s
        (syncHeads ⟨"peer", none⟩ 10 [protoTopicHead ⟨⟨"t"⟩, splitNode, 2⟩,
          protoTopicHead ⟨⟨"u"⟩, slashedNode, 1⟩]) (.error e) s' ∧
          ((pair .redb).view s' false).current otherEntry.log = 0 := by
  let := Serde.formats
  obtain ⟨s₀, hs₀⟩ := exists_mixed
  obtain ⟨s, hs⟩ := exists_holds (m := otherEntry) hs₀ rfl fun _ _ _ hrange => hrange
  have hpeer : (pair .redb).view s true = blockedLogs := by rw [hs.2, Function.update_self]; rfl
  have hmine : (pair .redb).view s false = Logs.empty := by rw [hs.2]; rfl
  have hhonest : ((pair .redb).view s true).Honest := hpeer ▸ honest_blockedLogs
  have hinv : (pair .redb).Inv s := fun x => Backend.inv_of_reachable (hs.1 x)
  have hresolve : (pair .redb).resolve (PeerSpec.endpoint ⟨"peer", none⟩) = some true := rfl
  have hgood : ((pair .redb).view s true).IsHead ⟨⟨"u"⟩, slashedNode, 1⟩ := by
    rw [hpeer]
    exact isHead_otherEntry mixedLogs rfl
  have hbad : ((pair .redb).view s true).IsHead ⟨⟨"t"⟩, splitNode, 2⟩ := by
    have hmixed : mixedLogs.WellFormed := by simpa using hs₀.wellFormed true
    rw [hpeer]
    exact isHead_write_of_ne hmixed ((isHead_mixedLogs _).mpr rfl) (by decide)
  refine ⟨s, hs.1, hhonest, ?_, ?_⟩
  · obtain ⟨out, s', hruns⟩ := exists_runs_syncHeads (i := false) (by decide) hs.1 (by decide)
      hhonest hresolve (List.nodup_singleton _)
      (fun head hmem => List.mem_singleton.mp hmem ▸ hgood) 10
    have hreplicable : Logs.Replicable ((pair .redb).view s false) ((pair .redb).view s true)
        ⟨⟨"u"⟩, slashedNode, 1⟩ := by
      intro _
      refine ⟨by decide, ?_⟩
      intro n m _ hm
      rw [hpeer, blockedLogs, Logs.write_message] at hm
      split_ifs at hm
      · cases hm
        rfl
      · cases hm
    rcases handles_of_runs hinv (by decide) hhonest hresolve hgood hruns with
      ⟨-, hnot⟩ | ⟨rfl, ⟨-, hcurrent⟩ | ⟨hempty, -⟩⟩
    · exact absurd hreplicable hnot
    · rw [hmine] at hcurrent
      exact ⟨s', hruns, hcurrent⟩
    · exact absurd hempty (by decide)
  · have hheads : ∀ head ∈ [⟨⟨"t"⟩, splitNode, 2⟩, ⟨⟨"u"⟩, slashedNode, 1⟩],
        ((pair .redb).view s true).IsHead head :=
      List.forall_mem_cons.mpr ⟨hbad, List.forall_mem_singleton.mpr hgood⟩
    obtain ⟨out, s', hruns⟩ := exists_runs_syncHeads (i := false) (by decide) hs.1 (by decide)
      hhonest hresolve (by decide) hheads 10
    have hparts := hruns
    rw [List.map_cons, ← List.singleton_append, syncHeads_append] at hparts
    rcases Runs.bind_cases hparts with ⟨u, t, hfirst, -⟩ | ⟨e, rfl, hfirst⟩
    · rcases handles_of_runs hinv (by decide) hhonest hresolve hbad hfirst with
        ⟨⟨e, herror⟩, -⟩ | ⟨-, ⟨hreplicable, -⟩ | ⟨hempty, -⟩⟩
      · cases herror
      · rw [hmine, hpeer] at hreplicable
        exact absurd hreplicable (not_replicable_mixed rfl)
      · exact absurd hempty (by decide)
    · refine ⟨e, s', hruns, ?_⟩
      have hcalls : Calls (Command.Puts (· ≠ otherEntry.log)) (syncHeads ⟨"peer", none⟩ 10
          [protoTopicHead ⟨⟨"t"⟩, splitNode, 2⟩]) := by
        refine calls_syncHeads 10 fun listed hmem head hhead => takes_puts ?_
        rw [List.mem_singleton.mp hmem] at hhead
        rw [coreTopicHead_protoTopicHead_eq hhead]
        decide
      have hsame := ((surrounds_smooth _ inv_of_smooth fun _ hs => hs).runs_current_le hinv hcalls
        hfirst otherEntry.log).2 fun hne => hne rfl
      rw [hsame, hmine]
      rfl

def KeepsTwo (s : (pair .redb).Stores) : Prop :=
  (pair .redb).Inv s ∧ (pair .redb).view s true = twoLogs

theorem surrounds_keepsTwo :
    Surrounds (pair .redb) false ((pair .redb).smooth.Answers false) KeepsTwo := by
  refine surrounds_smooth KeepsTwo ?_ fun s hs => hs.1
  rintro s c answer s' ⟨hinv, hpeer⟩ hanswer
  refine ⟨inv_of_smooth s c answer s' hinv hanswer, ?_⟩
  rw [← hpeer]
  by_cases hstore : ∃ op, c = .store op
  · obtain ⟨op, rfl⟩ := hstore
    obtain ⟨-, t, -, rfl⟩ := hanswer
    rw [view_update, Function.update_of_ne (by decide)]
  · rw [answers_eq_of_ne_store hanswer.2 fun op hc => hstore ⟨op, hc⟩]

theorem brought_of_keepsTwo {s s' : (pair .redb).Stores} {head : TopicHead}
    {out : Except String Unit} (hs : KeepsTwo s) (hlisted : twoLogs.IsHead head)
    (hruns : Runs ((pair .redb).smooth.Answers false) s
      (syncHeads ⟨"peer", none⟩ 10 [protoTopicHead head]) out s') :
    out = .ok () ∧ head.headId ≤
      ((pair .redb).view s' false).current (LogKey.of head.topic head.origin) := by
  have hresolve : (pair .redb).resolve (PeerSpec.endpoint ⟨"peer", none⟩) = some true := rfl
  have horigin : head.origin = slashedNode := by
    obtain ⟨k, m, -, hm, -, hsame⟩ := hlisted
    rw [hsame, origin_twoLogs hm]
  have hreplicable : Logs.Replicable ((pair .redb).view s false) ((pair .redb).view s true) head := by
    intro _
    rw [horigin, hs.2]
    exact ⟨by decide, fun n m _ hm => origin_twoLogs hm⟩
  rcases handles_of_runs hs.1 (by decide) (hs.2 ▸ honest_twoLogs) hresolve (hs.2 ▸ hlisted) hruns with
    ⟨-, hnot⟩ | ⟨hok, ⟨-, hcurrent⟩ | ⟨-, hnot, -⟩⟩
  · exact absurd hreplicable hnot
  · refine ⟨hok, ?_⟩
    rw [hcurrent, UInt64.le_iff_toNat_le, UInt64.toNat_max]
    omega
  · exact absurd hreplicable hnot

omit [Formats] in
/-- The second of two good logs is brought. -/
theorem brought_second : letI := Serde.formats
    ∃ s s' : (pair .redb).Stores, ∃ out, KeepsTwo s ∧
      Runs ((pair .redb).smooth.Answers false) s (syncHeads ⟨"peer", none⟩ 10
        [protoTopicHead ⟨⟨"t"⟩, slashedNode, 1⟩, protoTopicHead ⟨⟨"u"⟩, slashedNode, 1⟩]) out s' ∧
      1 ≤ ((pair .redb).view s' false).current otherEntry.log := by
  let := Serde.formats
  obtain ⟨s₀, hs₀⟩ := exists_slashed
  obtain ⟨s, hs⟩ := exists_holds (m := otherEntry) hs₀ rfl fun _ _ _ hrange => hrange
  have htwo : KeepsTwo s :=
    ⟨fun x => Backend.inv_of_reachable (hs.1 x), by rw [hs.2, Function.update_self]; rfl⟩
  have hmine : (pair .redb).view s false = Logs.empty := by rw [hs.2]; rfl
  have hresolve : (pair .redb).resolve (PeerSpec.endpoint ⟨"peer", none⟩) = some true := rfl
  have hsecond : twoLogs.IsHead ⟨⟨"u"⟩, slashedNode, 1⟩ := isHead_otherEntry slashedLogs rfl
  have hfirst : twoLogs.IsHead ⟨⟨"t"⟩, slashedNode, 1⟩ := by
    have hslashed : slashedLogs.WellFormed := by simpa using hs₀.wellFormed true
    exact isHead_write_of_ne hslashed ((isHead_slashedLogs _).mpr rfl) (by decide)
  have hheads : ∀ head ∈ [⟨⟨"t"⟩, slashedNode, 1⟩, ⟨⟨"u"⟩, slashedNode, 1⟩],
      ((pair .redb).view s true).IsHead head := by
    rw [htwo.2]
    exact List.forall_mem_cons.mpr ⟨hfirst, List.forall_mem_singleton.mpr hsecond⟩
  obtain ⟨out, s', hruns⟩ := exists_runs_syncHeads (i := false) (by decide) hs.1 (by decide)
    (htwo.2 ▸ honest_twoLogs) hresolve (by decide) hheads 10
  refine ⟨s, s', out, htwo, hruns, ?_⟩
  have hworks : Works ((pair .redb).smooth.Answers false) KeepsTwo ⟨"peer", none⟩ 10
      (protoTopicHead ⟨⟨"t"⟩, slashedNode, 1⟩) := by
    intro s e s' hs hruns
    cases (brought_of_keepsTwo hs hfirst hruns).1
  have hdistinct : ∀ other ∈ [protoTopicHead ⟨⟨"t"⟩, slashedNode, 1⟩], ∀ head',
      coreTopicHead other = .ok head' → LogKey.of head'.topic head'.origin ≠ otherEntry.log := by
    intro other hmem head' hhead'
    rw [List.mem_singleton.mp hmem] at hhead'
    rw [coreTopicHead_protoTopicHead_eq hhead']
    decide
  have hnone : ∀ other ∈ [protoTopicHead ⟨⟨"t"⟩, slashedNode, 1⟩],
      ¬ Fails ((pair .redb).smooth.Answers false) KeepsTwo ⟨"peer", none⟩ 10 other := by
    intro other hmem hfails
    obtain ⟨out, t, hfirstRuns⟩ := exists_runs_syncHeads (i := false) (by decide) hs.1 (by decide)
      (htwo.2 ▸ honest_twoLogs) hresolve (List.nodup_singleton _)
      (fun head hmem => List.mem_singleton.mp hmem ▸ htwo.2 ▸ hfirst) 10
    rw [List.mem_singleton.mp hmem] at hfails
    refine hfails s t htwo ?_
    rw [← (brought_of_keepsTwo htwo hfirst hfirstRuns).1]
    exact hfirstRuns
  have hbehind : ((pair .redb).view s false).current otherEntry.log < 1 := by
    rw [hmine]
    decide
  exact (brought_iff surrounds_keepsTwo ⟨⟨"u"⟩, slashedNode, 1⟩
    (fun s out s' hs hruns => brought_of_keepsTwo hs hsecond hruns)
    (fun other hmem => Or.inr (List.mem_singleton.mp hmem ▸ hworks)) hdistinct htwo hbehind
    hruns).mpr hnone

end Network

end Msgbus
