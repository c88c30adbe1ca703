import Msgbus.Lib.Spread
import Msgbus.Network.Relays

/-!
# Convergence

While every daemon keeps making passes over its peers, and the peers connect all
daemons, everything that some daemon holds reaches every daemon within one round of
passes less than there are daemons.  Once nobody writes any more, all daemons then
hold the same logs.
-/

namespace Msgbus.Network

open Program System Spread

variable {ι : Type} {N : Network ι} {i j : ι} {config : ι → PeerSyncConfig}
variable {Cond : ι → N.Stores → (c : Command) → c.Answer → Prop}

def Pulls (N : Network ι) (config : ι → PeerSyncConfig) (i j : ι) : Prop :=
  ∃ peer ∈ (config i).peers, N.resolve peer.endpoint = some j

/-- Whatever a daemon has can reach every other over the peers in between. -/
def Connected (N : Network ι) (config : ι → PeerSyncConfig) : Prop :=
  ∀ i j, Relation.ReflTransGen (fun x y => N.Pulls config y x) i j

variable [Formats] [DecidableEq ι] {a b c : State ι N.Stores Command Command.Answer} {n : Nat}

def PassBetween (N : Network ι) (Cond : ι → N.Stores → (c : Command) → c.Answer → Prop)
    (config : PeerSyncConfig) (i : ι) (a b : State ι N.Stores Command Command.Answer) : Prop :=
  ∃ a' b', (N.system.restrict Cond).Reaches a a' ∧
    (N.system.restrict Cond).Reaches
      ⟨a'.shared, a'.tasks ++ [(i, (syncOnce config).discard)]⟩ b' ∧
    b'.tasks[a'.tasks.length]? = some (i, .ret ()) ∧ (N.system.restrict Cond).Reaches b' b

theorem PassBetween.extend {config : PeerSyncConfig} {a' b' : State ι N.Stores Command Command.Answer}
    (h : N.PassBetween Cond config i a b) (hbefore : (N.system.restrict Cond).Reaches a' a)
    (hafter : (N.system.restrict Cond).Reaches b b') : N.PassBetween Cond config i a' b' := by
  obtain ⟨a₁, b₁, hstart, hpass, hdone, hend⟩ := h
  exact ⟨a₁, b₁, hbefore.trans hstart, hpass, hdone, hend.trans hafter⟩

/-- From `a` to `b` the network makes so many rounds: in each of them every daemon
makes a pass that returns `Ok`, all in any order, with any other tasks running
between any two calls. -/
inductive Rounds (N : Network ι) (Cond : ι → N.Stores → (c : Command) → c.Answer → Prop)
    (config : ι → PeerSyncConfig) (a : State ι N.Stores Command Command.Answer) :
    Nat → State ι N.Stores Command Command.Answer → Prop where
  | none {b : State ι N.Stores Command Command.Answer} (h : (N.system.restrict Cond).Reaches a b) :
      Rounds N Cond config a 0 b
  | round {n : Nat} {b c : State ι N.Stores Command Command.Answer} (h : Rounds N Cond config a n b)
      (hrun : (N.system.restrict Cond).Reaches b c)
      (hpasses : ∀ i, N.PassBetween Cond (config i) i b c) : Rounds N Cond config a (n + 1) c

theorem Rounds.reaches (h : N.Rounds Cond config a n b) : (N.system.restrict Cond).Reaches a b := by
  induction h with
  | none h => exact h
  | round _ hrun _ ih => exact ih.trans hrun

/-- After so many rounds, what `i` held has been handed on to all that are so many
peers away at most. -/
theorem Rounds.relayed (hlocal : ∀ i, (config i).localNode = N.node i)
    (h : N.Rounds Cond config a n b) (hnear : Within (fun x y => N.Pulls config y x) i n j) :
    N.Relayed Cond i a j b := by
  induction h generalizing j with
  | none h =>
      cases hnear
      exact .waits .held h
  | round _ hrun hpasses ih =>
      rcases hnear with hnear | ⟨x, hnear, peer, hpeer, hresolve⟩
      · exact .waits (ih hnear) hrun
      · obtain ⟨a', b', hbefore, hpass, hdone, hafter⟩ := hpasses j
        exact .waits (.pass (.waits (ih hnear) hbefore) (hlocal j) hpeer hresolve hpass hdone) hafter

/-! ## Rounds can be made -/

theorem exists_passes (hdistinct : N.Distinct) (hredb : ∀ x, N.storage x = .redb)
    (hcond : ∀ i s c answer, Cond i s c answer → N.BelowLimit i s c answer)
    (hlenient : ∀ i s (c : Command) (answer : c.Answer),
      (∀ op, c = .store op → op.appendsTo = none) → c.Completes answer → Cond i s c answer)
    (hlocal : ∀ i, (config i).localNode = N.node i)
    (hpeers : ∀ i, ∀ spec ∈ (config i).peers, ∃ j, N.Peers i j spec) (daemons : List ι)
    (hrun : (N.system.restrict Cond).Reaches (.init N.fresh) a) :
    ∃ b, (N.system.restrict Cond).Reaches a b ∧
      (∀ i ∈ daemons, N.PassBetween Cond (config i) i a b) ∧
      ∀ task ∈ b.tasks, task ∈ a.tasks ∨ task.2 = .ret () := by
  induction daemons generalizing a with
  | nil => exact ⟨a, .refl, fun i hmem => absurd hmem List.not_mem_nil, fun task => Or.inl⟩
  | cons i rest ih =>
      obtain ⟨b, hpass, htasks, -⟩ := exists_pass hdistinct hredb hcond hlenient hrun (hlocal i)
        (hpeers i)
      have hstep : (N.system.restrict Cond).Reaches a b :=
        .head (.start (Starts.syncOnce _ (hlocal i))) hpass
      have hdone : b.tasks[a.tasks.length]? = some (i, .ret ()) := by
        rw [htasks]
        exact List.getElem?_concat_length
      obtain ⟨c, hrest, hpasses, htasks'⟩ := ih (hrun.trans hstep)
      refine ⟨c, hstep.trans hrest, List.forall_mem_cons.mpr ⟨?_, ?_⟩, ?_⟩
      · exact ⟨a, b, .refl, hpass, hdone, hrest⟩
      · intro x hmem
        exact (hpasses x hmem).extend hstep .refl
      · intro task hmem
        rcases htasks' task hmem with hold | hended
        · rw [htasks] at hold
          rcases List.mem_append.mp hold with hold | hnew
          · exact Or.inl hold
          · rw [List.mem_singleton.mp hnew]
            exact Or.inr rfl
        · exact Or.inr hended

theorem exists_rounds [Fintype ι] (hdistinct : N.Distinct) (hredb : ∀ x, N.storage x = .redb)
    (hcond : ∀ i s c answer, Cond i s c answer → N.BelowLimit i s c answer)
    (hlenient : ∀ i s (c : Command) (answer : c.Answer),
      (∀ op, c = .store op → op.appendsTo = none) → c.Completes answer → Cond i s c answer)
    (hlocal : ∀ i, (config i).localNode = N.node i)
    (hpeers : ∀ i, ∀ spec ∈ (config i).peers, ∃ j, N.Peers i j spec)
    (hrun : (N.system.restrict Cond).Reaches (.init N.fresh) a) (n : Nat) :
    ∃ b, N.Rounds Cond config a n b ∧ ∀ task ∈ b.tasks, task ∈ a.tasks ∨ task.2 = .ret () := by
  induction n with
  | zero => exact ⟨a, .none .refl, fun task => Or.inl⟩
  | succ n ih =>
      obtain ⟨b, hrounds, htasks⟩ := ih
      obtain ⟨c, hround, hpasses, htasks'⟩ := exists_passes hdistinct hredb hcond hlenient hlocal
        hpeers Finset.univ.toList (hrun.trans hrounds.reaches)
      refine ⟨c, .round hrounds hround fun i => ?_, fun task hmem => ?_⟩
      · exact hpasses i (Finset.mem_toList.mpr (Finset.mem_univ i))
      · exact (htasks' task hmem).elim (htasks task) Or.inr

/-! ## Everything spreads -/

/-- In every run below the counter limit: over connected peers, after one round
less than there are daemons, every daemon holds, up to deleted flags, all that any
daemon held when the rounds began.  On redb, if the transport delivers every
response, the rounds can be made from every state of a run. -/
theorem rounds_spread [Fintype ι] (hdistinct : N.Distinct)
    (hrun : (N.system.restrict N.BelowLimit).Reaches (.init N.fresh) a)
    (hlocal : ∀ i, (config i).localNode = N.node i) (hconnected : N.Connected config)
    (hn : Fintype.card ι ≤ n + 1) :
    (∀ b, N.Rounds N.BelowLimit config a n b → ∀ i j k,
      ((N.view a.shared i).log k).map (·.withDeleted false) <+:
        ((N.view b.shared j).log k).map (·.withDeleted false)) ∧
    ((∀ x, N.storage x = .redb) → (∀ i, ∀ spec ∈ (config i).peers, ∃ j, N.Peers i j spec) →
      ∃ b, N.Rounds N.BelowLimit config a n b) := by
  have hcond : ∀ i s c answer, N.BelowLimit i s c answer → N.BelowLimit i s c answer :=
    fun _ _ _ _ h => h
  constructor
  · intro b hrounds i j k
    have hrelayed := hrounds.relayed hlocal (within_of_reflTransGen (hconnected i j) hn)
    exact map_log_prefix_of_current_le hdistinct hrun hrounds.reaches
      (hrelayed.current_le hdistinct hcond hrun k)
  · intro hredb hpeers
    obtain ⟨b, hrounds, -⟩ := exists_rounds hdistinct hredb hcond
      (fun _ _ _ _ happends _ => belowLimit_of_appends happends) hlocal hpeers hrun n
    exact ⟨b, hrounds⟩

def mesh : Network Bool where
  node := (pair .redb).node
  storage := (pair .redb).storage
  resolve := fun endpoint => some (endpoint == "first")
  valid := (pair .redb).valid

def meshConfig (i : Bool) : PeerSyncConfig :=
  ⟨mesh.node i, [⟨if i then "second" else "first", none⟩], 0⟩

omit [Formats] in
theorem peers_mesh (i : Bool) : mesh.Peers i (!i) ⟨if i then "second" else "first", none⟩ := by
  refine ⟨?_, ?_, fun _ hexpected => by cases hexpected⟩
  · cases i <;> rfl
  · cases i <;> decide

omit [Formats] in
theorem connected_mesh : mesh.Connected meshConfig := by
  have hpulls : ∀ i, mesh.Pulls meshConfig (!i) i := by
    intro i
    refine ⟨_, List.mem_singleton_self _, ?_⟩
    rw [(peers_mesh !i).1, Bool.not_not]
  intro i j
  by_cases hij : j = i
  · rw [hij]
  · rw [Bool.eq_not.mpr hij]
    exact .single (hpulls i)

omit [Formats] in
theorem distinct_mesh : mesh.Distinct := distinct_pair .redb

theorem exists_pass_mesh {Cond : Bool → mesh.Stores → (c : Command) → c.Answer → Prop}
    {a : State Bool mesh.Stores Command Command.Answer}
    (hbelow : ∀ i s c answer, Cond i s c answer → mesh.BelowLimit i s c answer)
    (hlenient : ∀ i s (c : Command) (answer : c.Answer),
      (∀ op, c = .store op → op.appendsTo = none) → c.Completes answer → Cond i s c answer)
    (hrun : (mesh.system.restrict Cond).Reaches (.init mesh.fresh) a) (i : Bool) :
    ∃ b, (mesh.system.restrict Cond).Reaches a b ∧
      mesh.PassBetween Cond (meshConfig i) i a b ∧ b.tasks = a.tasks ++ [(i, .ret ())] ∧
      mesh.view b.shared = Function.update (mesh.view a.shared) i
        (Logs.caughtUp (mesh.view a.shared i) (mesh.view a.shared !i)) := by
  have hlocal : (meshConfig i).localNode = mesh.node i := rfl
  obtain ⟨b, hpass, htasks, hview⟩ := exists_pass distinct_mesh (by decide) hbelow hlenient hrun
    hlocal (List.forall_mem_singleton.mpr ⟨!i, peers_mesh i⟩)
  have hdone : b.tasks[a.tasks.length]? = some (i, .ret ()) := by
    rw [htasks]
    exact List.getElem?_concat_length
  refine ⟨b, .head (.start (Starts.syncOnce _ hlocal)) hpass, ⟨a, b, .refl, hpass, hdone, .refl⟩,
    htasks, ?_⟩
  rw [hview]
  congr 1
  exact pulled_cons (peers_mesh i) _ _ _

theorem exists_round_mesh {Cond : Bool → mesh.Stores → (c : Command) → c.Answer → Prop}
    (hcond : mesh.Roomy Cond)
    (hbelow : ∀ i s c answer, Cond i s c answer → mesh.BelowLimit i s c answer)
    (hlenient : ∀ i s (c : Command) (answer : c.Answer),
      (∀ op, c = .store op → op.appendsTo = none) → c.Completes answer → Cond i s c answer) :
    ∃ a b, (mesh.system.restrict Cond).Reaches (.init mesh.fresh) a ∧
      mesh.view a.shared = Function.update (fun _ => Logs.empty) true removedLogs ∧
      mesh.Rounds Cond meshConfig a 1 b ∧ mesh.view b.shared =
        Function.update (mesh.view a.shared) false (Logs.caughtUp Logs.empty removedLogs) ∧
      ∀ task ∈ b.tasks, task.2.first = none := by
  obtain ⟨a, hrun, ha⟩ := exists_removed (N := mesh) (x := true) rfl rfl hcond
  have hview : mesh.view a.shared = Function.update (fun _ => Logs.empty) true removedLogs := ha.1.2
  obtain ⟨b, hreach, hpass, htasks, hview₁⟩ := exists_pass_mesh hbelow hlenient hrun false
  obtain ⟨c, hreach', hpass', htasks', hview₂⟩ :=
    exists_pass_mesh hbelow hlenient (hrun.trans hreach) true
  have hround : mesh.Rounds Cond meshConfig a 1 c := by
    refine .round (.none .refl) (hreach.trans hreach') fun i => ?_
    cases i with
    | false => exact hpass.extend .refl hreach'
    | true => exact hpass'.extend hreach .refl
  have hfirst : mesh.view b.shared true = removedLogs := by
    rw [hview₁, hview]
    rfl
  have hsecond : mesh.view b.shared false = Logs.caughtUp Logs.empty removedLogs := by
    rw [hview₁, hview]
    rfl
  refine ⟨a, c, hrun, hview, hround, ?_, ?_⟩
  · -- The second pass finds nothing new.
    have hnothing : Logs.caughtUp removedLogs (Logs.caughtUp Logs.empty removedLogs) =
        removedLogs := by
      have hs := (kept_of_reaches distinct_mesh hbelow (hrun.trans hreach)).1
      have hwf := wellFormed_view hs.1 true
      rw [hfirst] at hwf
      refine Logs.caughtUp_of_current_le hwf fun k => ?_
      rw [Logs.caughtUp, Logs.caughtTo_current (UInt64.le_max_left _ _)]
      rw [UInt64.le_iff_toNat_le, UInt64.toNat_max]
      exact Nat.max_le.mpr ⟨Nat.zero_le _, Nat.le_refl _⟩
    rw [hview₂, hfirst, show mesh.view b.shared (!true) = _ from hsecond, hnothing, ← hfirst,
      Function.update_eq_self, hview₁, hview]
    rfl
  · intro task hmem
    rw [htasks', htasks] at hmem
    rcases List.mem_append.mp hmem with hmem | hnew
    · rcases List.mem_append.mp hmem with hold | hnew
      · exact ha.2 task hold
      · rw [List.mem_singleton.mp hnew]
        rfl
    · rw [List.mem_singleton.mp hnew]
      rfl

omit [Formats] in
theorem rounds_spread_mesh : letI := Serde.formats
    ∃ a b, (mesh.system.restrict mesh.BelowLimit).Reaches (.init mesh.fresh) a ∧
      mesh.Rounds mesh.BelowLimit meshConfig a 1 b ∧
      ((mesh.view a.shared true).message entryLog 1).isSome ∧
      ((mesh.view a.shared false).message entryLog 1) = none ∧
      ((mesh.view a.shared true).log entryLog).map (·.withDeleted false) <+:
        ((mesh.view b.shared false).log entryLog).map (·.withDeleted false) := by
  let := Serde.formats
  obtain ⟨a, b, hrun, hview, hrounds, -⟩ := exists_round_mesh roomy_belowLimit (fun _ _ _ _ h => h)
    (fun _ _ _ _ happends _ => belowLimit_of_appends happends)
  have hspread := (rounds_spread distinct_mesh hrun (fun _ => rfl) connected_mesh (by decide)).1 b
    hrounds true false entryLog
  refine ⟨a, b, hrun, hrounds, ?_, ?_, hspread⟩
  · obtain ⟨m, hm, -⟩ := deleted_removedLogs
    rw [hview]
    exact congrArg Option.isSome hm
  · rw [hview]
    rfl

/-! ## All logs become the same -/

omit [DecidableEq ι] in
theorem Agrees.log_eq_nil {s : N.Stores} (hs : N.Agrees s) {k : LogKey}
    (hnone : ∀ owner, (N.node owner).key ≠ k.origin) (j : ι) : (N.view s j).log k = [] := by
  have hwf := wellFormed_view hs.1 j
  refine List.eq_nil_iff_forall_not_mem.mpr fun m hmem => ?_
  have hm := (Logs.mem_log hwf).mp hmem
  obtain ⟨owner, -, howner, -⟩ := hs.2.1.vouched j k _ m hm
  refine hnone owner ?_
  rw [← howner, ← (hwf.positioned k _ m hm).2]
  rfl

/-- In every run below the counter limit in which store calls succeed: if no log
has changed at its owner since the rounds began, and no marker waits to be
applied, then after one round less than there are daemons all daemons hold the
same logs, deleted flags included. -/
theorem rounds_converge [Fintype ι] (hdistinct : N.Distinct)
    (hrun : (N.system.restrict N.Succeeding).Reaches (.init N.fresh) a)
    (hlocal : ∀ i, (config i).localNode = N.node i) (hconnected : N.Connected config)
    (hn : Fintype.card ι ≤ n + 1) (hrounds : N.Rounds N.Succeeding config a n b)
    (hquiet : ∀ j range, ¬ b.AboutTo j (.store (TombstoneRange.op range)))
    (hstill : ∀ i topic, (N.view b.shared i).log (LogKey.of topic (N.node i)) =
      (N.view a.shared i).log (LogKey.of topic (N.node i))) (i j : ι) (k : LogKey) :
    (N.view b.shared i).log k = (N.view b.shared j).log k := by
  have hs := (kept_of_reaches hdistinct (fun _ _ _ _ h => h.1) (hrun.trans hrounds.reaches)).1
  by_cases howned : ∃ owner, (N.node owner).key = k.origin
  · obtain ⟨owner, howner⟩ := howned
    have hk : k = LogKey.of k.topic (N.node owner) := by
      rw [LogKey.of, howner]
    have hsame : ∀ x, (N.view b.shared x).log k = (N.view b.shared owner).log k := by
      intro x
      rw [hk]
      exact (hrounds.relayed hlocal (within_of_reflTransGen (hconnected owner x) hn)).log_eq
        hdistinct hrun (hquiet x) (hstill owner k.topic)
    rw [hsame i, hsame j]
  · have hnone : ∀ owner, (N.node owner).key ≠ k.origin := not_exists.mp howned
    rw [hs.log_eq_nil hnone i, hs.log_eq_nil hnone j]

omit [Formats] in
/-- A message that its owner has deleted ends up flagged at both daemons. -/
theorem rounds_converge_removed : letI := Serde.formats
    ∃ (a b : State Bool mesh.Stores Command Command.Answer) (m : StoredMessage),
      (mesh.system.restrict mesh.Succeeding).Reaches (.init mesh.fresh) a ∧
      mesh.Rounds mesh.Succeeding meshConfig a 1 b ∧
      (mesh.view b.shared true).message entryLog 1 = some m ∧ m.deleted = true ∧
      m ∈ (mesh.view b.shared false).log entryLog ∧
      (mesh.view b.shared false).log entryLog = (mesh.view b.shared true).log entryLog := by
  let := Serde.formats
  obtain ⟨a, b, hrun, hview, hrounds, hview', htasks⟩ := exists_round_mesh roomy_succeeding
    (fun _ _ _ _ h => h.1) (fun _ _ c answer happends hcompletes =>
      ⟨belowLimit_of_appends happends, hcompletes.succeeds⟩)
  obtain ⟨m, hm, hdeleted⟩ := deleted_removedLogs
  have hfirst : mesh.view b.shared true = removedLogs := by
    rw [hview', hview]
    rfl
  have hstill : ∀ i topic, (mesh.view b.shared i).log (LogKey.of topic (mesh.node i)) =
      (mesh.view a.shared i).log (LogKey.of topic (mesh.node i)) := by
    intro i topic
    cases i with
    | true =>
        rw [hfirst, hview]
        rfl
    | false =>
        have hnone : removedLogs.head (LogKey.of topic (mesh.node false)) = none :=
          head_removedLogs_of_ne (show ("x/y/z" : String) ≠ "a/b/c" by decide)
        have hcurrent :
            (mesh.view b.shared false).current (LogKey.of topic (mesh.node false)) = 0 := by
          rw [hview']
          change (Logs.caughtUp Logs.empty removedLogs).current _ = 0
          rw [Logs.caughtUp, Logs.caughtTo_current (UInt64.le_max_left _ _), Logs.current,
            Logs.current, hnone]
          rfl
        rw [Logs.log, hcurrent, hview]
        rfl
  have hsame := rounds_converge distinct_mesh hrun (fun _ => rfl) connected_mesh (by decide) hrounds
    (fun _ _ => State.not_aboutTo_of_ended htasks) hstill false true entryLog
  have hs := (kept_of_reaches distinct_mesh (fun _ _ _ _ h => h.1) (hrun.trans hrounds.reaches)).1
  have hwf := wellFormed_view hs.1 true
  have hmessage : (mesh.view b.shared true).message entryLog 1 = some m := by
    rw [hfirst]
    exact hm
  refine ⟨a, b, m, hrun, hrounds, hmessage, hdeleted, ?_, hsame⟩
  rw [hsame, Logs.mem_log hwf, (hwf.positioned _ _ _ hmessage).1]
  exact hmessage

end Msgbus.Network
