import Msgbus.Network.Runs

/-!
# A full log

`append_message` of redb numbers messages with `saturating_add`, so a publish to
a log whose head is the last counter value replaces the message there.  Two
daemons fill a log together, one message and one pass at a time, and the owner
then publishes once more.
-/

namespace Msgbus.Network

open System

def entry : NewMessage := ⟨⟨"m"⟩, ⟨"t"⟩, ⟨"a", "b", "c"⟩, .empty, .empty⟩

def entryLog : LogKey := LogKey.of ⟨"t"⟩ ⟨"a", "b", "c"⟩

noncomputable def filled : Nat → Logs
  | 0 => Logs.empty
  | n + 1 => (filled n).append entry 0

theorem not_covers_filled (n : Nat) (k : LogKey) (h : HeadId) : ¬ (filled n).Covers k h := by
  induction n with
  | zero => exact fun ⟨_, _, hrange, _⟩ => hrange
  | succ n ih => exact ih

theorem current_filled (n : Nat) (hn : n < 2 ^ 64) : ((filled n).current entryLog).toNat = n := by
  induction n with
  | zero => rfl
  | succ n ih =>
      have hwrite : (filled (n + 1)).current entryLog =
          max ((filled n).current entryLog) (((filled n).current entryLog).saturatingAdd 1) :=
        Logs.write_current_self
      rw [hwrite, UInt64.max_saturatingAdd_one, UInt64.toNat_saturatingAdd_one, ih (by omega)]
      omega

theorem head_filled_of_ne (n : Nat) {k : LogKey} (hk : k ≠ entryLog) : (filled n).head k = none := by
  induction n with
  | zero => rfl
  | succ n ih => exact (Logs.write_head_of_ne_log hk).trans ih

theorem stamp_filled (n : Nat) {m : StoredMessage} (hm : m.deleted = false) :
    (filled n).stamp m = m := by
  rw [Logs.stamp_eq_of_iff (d := false)]
  · exact StoredMessage.withDeleted_of_eq hm
  · simp [hm, not_covers_filled]

noncomputable def nextEntry (n : Nat) : StoredMessage := (filled n).appended entry 0

theorem nextEntry_deleted (n : Nat) : (nextEntry n).deleted = false := by
  rw [← Bool.not_eq_true, nextEntry, Logs.appended, Logs.stamp_deleted]
  simp [not_covers_filled]

theorem nextEntry_headId {n : Nat} (hn : n + 1 < 2 ^ 64) : (nextEntry n).headId.toNat = n + 1 := by
  change (((filled n).current entryLog).saturatingAdd 1).toNat = n + 1
  rw [UInt64.toNat_saturatingAdd_one, current_filled n (by omega)]
  omega

theorem message_filled_succ (n : Nat) :
    (filled (n + 1)).message entryLog (nextEntry n).headId = some (nextEntry n) :=
  Logs.write_message_self

theorem isHead_filled_succ (n : Nat) (h : TopicHead) :
    (filled (n + 1)).IsHead h ↔ h = ⟨⟨"t"⟩, ⟨"a", "b", "c"⟩, (nextEntry n).headId⟩ :=
  Logs.isHead_write_iff (fun _ hk => head_filled_of_ne n hk) (UInt64.max_saturatingAdd_one _) h

variable [Formats] {Cond : Bool → (pair .redb).Stores → (c : Command) → c.Answer → Prop}

theorem oneAhead_filled {n : Nat} (hn : n + 1 < 2 ^ 64) :
    (pair .redb).OneAhead (Function.update (fun _ => filled n) true (filled (n + 1))) false true
      ⟨⟨"t"⟩, ⟨"a", "b", "c"⟩, (nextEntry n).headId⟩ (nextEntry n) where
  lists := isHead_filled_succ n
  message := message_filled_succ n
  behind := by
    rw [nextEntry_headId hn]
    exact congrArg (· + 1) (current_filled n (by omega))
  topic := rfl
  origin := rfl
  validTopic := (by decide : ValidPart "t")
  validOrigin := (by decide : NodeId.Valid ⟨"a", "b", "c"⟩)
  validId := (by decide : ValidPart "m")
  reads := fun _ _ => trivial

/-- The owner publishes once and the other daemon makes a pass. -/
theorem Rests.exists_round {n : Nat} (hn : n + 1 < 2 ^ 64)
    {a : State Bool (pair .redb).Stores Command Command.Answer}
    (ha : (pair .redb).Rests (fun _ => filled n) a) (hcond : (pair .redb).Lenient Cond)
    (hpermits : (pair .redb).Permits Cond true (fun _ => filled n) (· = .appendMessage entry)) :
    ∃ a', ((pair .redb).system.restrict Cond).Reaches a a' ∧
      (pair .redb).Rests (fun _ => filled (n + 1)) a' := by
  obtain ⟨a₁, hpublish, ha₁⟩ := ha.exists_publish ⟨0, 0, ⟨"m"⟩⟩ "t" .empty .empty (by decide)
    (by decide) (by decide) hcond hpermits trivial
  have hahead := oneAhead_filled hn
  have hresolve : (pair .redb).resolve "peer" = some true := rfl
  obtain ⟨a₂, hpass, ha₂⟩ := Rests.exists_syncOnce ha₁ hahead hcond hresolve (by decide) rfl
    trivial 1
  refine ⟨a₂, hpublish.trans hpass, ?_⟩
  have hboth : (fun _ => filled (n + 1)) = Function.update
      (Function.update (fun _ => filled n) true (filled (n + 1))) false
      ((filled n).write (nextEntry n).log (nextEntry n).headId
        ((filled n).stamp (nextEntry n))) := by
    rw [stamp_filled n (nextEntry_deleted n)]
    ext owner : 1
    cases owner with
    | false => rfl
    | true => rfl
  rw [hboth]
  exact ha₂

theorem exists_filled (hcond : (pair .redb).Lenient Cond)
    (hpermits : ∀ n, n + 1 < 2 ^ 64 →
      (pair .redb).Permits Cond true (fun _ => filled n) (· = .appendMessage entry))
    {n : Nat} (hn : n < 2 ^ 64) :
    ∃ a, ((pair .redb).system.restrict Cond).Reaches (.init (pair .redb).fresh) a ∧
      (pair .redb).Rests (fun _ => filled n) a := by
  induction n with
  | zero => exact ⟨_, .refl, rests_init⟩
  | succ n ih =>
      obtain ⟨a, hrun, ha⟩ := ih (by omega)
      obtain ⟨a', hround, ha'⟩ := ha.exists_round hn hcond (hpermits n hn)
      exact ⟨a', hrun.trans hround, ha'⟩

theorem exists_overwritten (hcond : (pair .redb).Lenient Cond)
    (hpermits : ∀ w op, (pair .redb).Permits Cond true w (· = op)) :
    ∃ a m m', ((pair .redb).system.restrict Cond).Reaches (.init (pair .redb).fresh) a ∧
      (∃ w, (pair .redb).Rests w a) ∧
      (∀ x k, k ≠ entryLog → ((pair .redb).view a.shared x).head k = none) ∧
      ((pair .redb).view a.shared false).message entryLog UInt64.maxValue = some m ∧
      ((pair .redb).view a.shared true).message entryLog UInt64.maxValue = some m' ∧
      m.payload = .empty ∧ m'.payload = ⟨#[1]⟩ := by
  obtain ⟨n, hn⟩ : ∃ n, n + 2 = 2 ^ 64 := ⟨2 ^ 64 - 2, rfl⟩
  obtain ⟨a, hrun, ha⟩ := exists_filled hcond (fun n _ => hpermits _ _) (show n + 1 < 2 ^ 64 by omega)
  obtain ⟨a', hpublish, ha'⟩ := ha.exists_publish ⟨0, 0, ⟨"m"⟩⟩ "t" ⟨#[1]⟩ .empty (by decide)
    (by decide) (by decide) hcond (hpermits _ _) trivial
  have hcopy : (nextEntry n).headId = UInt64.maxValue := by
    apply UInt64.toNat_inj.mp
    rw [nextEntry_headId (by omega), UInt64.toNat_maxValue]
    omega
  have hlast : ((filled (n + 1)).current entryLog).saturatingAdd 1 = UInt64.maxValue := by
    apply UInt64.toNat_inj.mp
    rw [UInt64.toNat_saturatingAdd_one, current_filled _ (by omega), UInt64.toNat_maxValue]
    omega
  let overwriting : NewMessage := { entry with payload := ⟨#[1]⟩ }
  refine ⟨a', nextEntry n, (filled (n + 1)).appended overwriting 0, hrun.trans hpublish, ⟨_, ha'⟩,
    ?_, ?_, ?_, rfl, rfl⟩
  · intro x k hk
    rw [ha'.1.2]
    cases x with
    | false => exact head_filled_of_ne _ hk
    | true => exact (Logs.write_head_of_ne_log hk).trans (head_filled_of_ne _ hk)
  · rw [ha'.1.2, ← hcopy]
    exact message_filled_succ n
  · rw [ha'.1.2, Function.update_self, ← hlast]
    exact Logs.write_message_self

end Msgbus.Network
