import Pastoral.Fs.Lookup

/-!
# The mode of a file

`stat_chmod` adds the bits of its argument to those that the file has.

## Main results

* `chmod_decides_iff`: when the argument decides on the access
-/

open Function

namespace Pastoral

def statChmod (s : LookupState) (euid : BitVec 32) (asset : ℕ) (mode : BitVec 32) :
    Option LookupState :=
  let stat := s.vfs.assets asset
  if euid ≠ (s.owners asset).stUid ∧ euid ≠ 0#32 then none
  else some { s with vfs := { s.vfs with
    assets := update s.vfs.assets asset
      { stat with stMode := stat.stMode ||| mode &&& 0o7777#32 } } }

inductive ChmodCall
  | fchmod (fd mode : BitVec 32)
  | fchmodat (fd : BitVec 32) (path : Name) (mode flags : BitVec 32) (file : Option ℕ)

namespace ChmodCall

def mode : ChmodCall → BitVec 32
  | fchmod _ mode => mode
  | fchmodat _ _ mode _ _ => mode

def asset (fuel : ℕ) (s : LookupState) (task : LookupTask) (fdAsset : BitVec 32 → Option ℕ) :
    ChmodCall → Option ℕ
  | fchmod fd _ => fdAsset fd
  | fchmodat fd path _ flags file =>
    (userLookupAt fuel s task fd path 0#32 flags).bind fun found =>
      (match found with
        | .ok node => some node
        | .error _ => file).map fun node => (s.vfs.nodes node).asset

def run (fuel : ℕ) (s : LookupState) (task : LookupTask) (fdAsset : BitVec 32 → Option ℕ)
    (c : ChmodCall) : Option (ℕ × LookupState) :=
  (c.asset fuel s task fdAsset).bind fun a =>
    (statChmod s task.effectiveUid a c.mode).map fun s' => (a, s')

end ChmodCall

def classBit (owner : Owner) (uid gid : BitVec 32) : ℕ :=
  if owner.stUid = uid then 6 else if owner.stGid = gid then 3 else 0

def Contains (mode : BitVec 32) (bit : ℕ) (request : BitVec 32) : Prop :=
  (request &&& rOk ≠ 0#32 → mode.getLsbD (bit + 2) = true) ∧
    (request &&& wOk ≠ 0#32 → mode.getLsbD (bit + 1) = true) ∧
    (request &&& xOk ≠ 0#32 → mode.getLsbD bit = true)

/-- **The mode decides**: the type is the same as before, and `stat_has_access` grants exactly what
the mode contains. -/
def ModeDecides (mode : BitVec 32) (s s' : LookupState) (asset : ℕ) : Prop :=
  (s'.vfs.assets asset).stMode &&& sIfmt = (s.vfs.assets asset).stMode &&& sIfmt ∧
    ∀ uid gid request, uid ≠ 0#32 →
      (statHasAccess (s'.vfs.assets asset).stMode (s'.owners asset) uid gid request = true ↔
        Contains mode (classBit (s.owners asset) uid gid) request)

/-! ## Access, bit by bit -/

theorem and_eq_right_iff {w : ℕ} {m a : BitVec w} :
    m &&& a = a ↔ ∀ i, a.getLsbD i = true → m.getLsbD i = true := by
  constructor
  · intro h i hi
    rw [← h, BitVec.getLsbD_and, Bool.and_eq_true] at hi
    exact hi.1
  · intro h
    refine BitVec.eq_of_getLsbD_eq fun i _ => ?_
    rw [BitVec.getLsbD_and]
    cases ha : a.getLsbD i with
    | false => rw [Bool.and_false]
    | true => rw [h i ha, Bool.and_true]

theorem accessMask_contains {m request : BitVec 32} {bit : ℕ} (hbit : bit + 2 < 32) :
    m &&& accessMask request (BitVec.twoPow 32 (bit + 2)) (BitVec.twoPow 32 (bit + 1))
        (BitVec.twoPow 32 bit) =
      accessMask request (BitVec.twoPow 32 (bit + 2)) (BitVec.twoPow 32 (bit + 1))
        (BitVec.twoPow 32 bit) ↔ Contains m bit request := by
  have hpart : ∀ (P : Prop) [Decidable P] (n i : ℕ), n < 32 →
      ((if P then BitVec.twoPow 32 n else 0#32).getLsbD i = true ↔ P ∧ i = n) := by
    intro P _ n i hn
    split_ifs with hP
    · simp [hP, hn, eq_comm]
    · simp [hP]
  simp only [and_eq_right_iff, accessMask, BitVec.getLsbD_or, Bool.or_eq_true,
    hpart _ _ _ hbit, hpart _ (bit + 1) _ (by omega), hpart _ bit _ (by omega), or_imp, forall_and,
    and_imp, and_assoc]
  exact and_congr (forall_comm.trans (by simp)) (and_congr (forall_comm.trans (by simp))
    (forall_comm.trans (by simp)))

theorem statHasAccess_iff {m uid gid request : BitVec 32} {owner : Owner} (huid : uid ≠ 0#32) :
    statHasAccess m owner uid gid request = true ↔ Contains m (classBit owner uid gid) request := by
  unfold statHasAccess classBit
  rw [if_neg huid]
  split_ifs
  · exact decide_eq_true_iff.trans (@accessMask_contains m request 6 (by omega))
  · exact decide_eq_true_iff.trans (@accessMask_contains m request 3 (by omega))
  · exact decide_eq_true_iff.trans (@accessMask_contains m request 0 (by omega))

theorem classBit_le (owner : Owner) (uid gid : BitVec 32) : classBit owner uid gid ≤ 6 := by
  unfold classBit
  split_ifs <;> omega

theorem classBit_root {owner : Owner} {uid gid : BitVec 32} (huid : uid ≠ 0#32)
    (hroot : owner.stUid = 0#32) : classBit owner uid gid ≤ 3 := by
  unfold classBit
  rw [if_neg (hroot ▸ huid.symm)]
  split_ifs <;> omega

theorem contains_single {m : BitVec 32} {bit d : ℕ} (hd : d < 3) :
    Contains m bit (8#32 >>> d) ↔ m.getLsbD (bit + d) = true := by
  unfold Contains
  obtain rfl | rfl | rfl : d = 0 ∨ d = 1 ∨ d = 2 := by omega
  all_goals simp [rOk, wOk, xOk]

theorem exists_classBit (owner : Owner) {bit : ℕ}
    (hbit : bit = 6 ∧ owner.stUid ≠ 0#32 ∨ bit = 3 ∨ bit = 0) :
    ∃ uid gid, uid ≠ 0#32 ∧ classBit owner uid gid = bit := by
  have hother : ∃ uid : BitVec 32, uid ≠ 0#32 ∧ owner.stUid ≠ uid := by
    by_cases h : owner.stUid = 1#32
    · exact ⟨2#32, by decide, by rw [h]; decide⟩
    · exact ⟨1#32, by decide, h⟩
  obtain ⟨uid, huid, hne⟩ := hother
  rcases hbit with ⟨rfl, hroot⟩ | rfl | rfl
  · exact ⟨owner.stUid, 0#32, hroot, if_pos rfl⟩
  · exact ⟨uid, owner.stGid, huid, by rw [classBit, if_neg hne, if_pos rfl]⟩
  · have hgid : owner.stGid ≠ owner.stGid + 1#32 := by simp
    exact ⟨uid, owner.stGid + 1#32, huid, by rw [classBit, if_neg hne, if_neg hgid]⟩

theorem ChmodCall.run_mode {fuel : ℕ} {s s' : LookupState} {task : LookupTask}
    {fdAsset : BitVec 32 → Option ℕ} {c : ChmodCall} {asset : ℕ}
    (h : c.run fuel s task fdAsset = some (asset, s')) :
    (s'.vfs.assets asset).stMode = (s.vfs.assets asset).stMode ||| c.mode &&& 0o7777#32 ∧
      s'.owners = s.owners := by
  obtain ⟨a, -, hmap⟩ := Option.bind_eq_some_iff.mp h
  obtain ⟨t, hchmod, heq⟩ := Option.map_eq_some_iff.mp hmap
  cases heq
  unfold statChmod at hchmod
  split_ifs at hchmod with hperm
  cases hchmod
  exact ⟨by simp only [update_self], rfl⟩

/-- **When the mode of a call that returned 0 decides**, from every state before it: a right of the
group or of others that the file gave is in the mode, and for a file that is not of root one of the
owner. -/
theorem chmod_decides_iff {fuel : ℕ} {s s' : LookupState} {task : LookupTask}
    {fdAsset : BitVec 32 → Option ℕ} {c : ChmodCall} {asset : ℕ}
    (h : c.run fuel s task fdAsset = some (asset, s')) :
    ModeDecides c.mode s s' asset ↔
      ∀ n < 9, ((s.owners asset).stUid = 0#32 → n < 6) →
        (s.vfs.assets asset).stMode.getLsbD n = true → c.mode.getLsbD n = true := by
  obtain ⟨hmode, howners⟩ := ChmodCall.run_mode h
  have hbit : ∀ n < 9, ((s'.vfs.assets asset).stMode.getLsbD n = true ↔
      (s.vfs.assets asset).stMode.getLsbD n = true ∨ c.mode.getLsbD n = true) := by
    intro n hn
    have hmask : ∀ k < 9, (0o7777#32).getLsbD k = true := by decide
    rw [hmode, BitVec.getLsbD_or, BitVec.getLsbD_and, hmask n hn, Bool.and_true, Bool.or_eq_true]
  unfold ModeDecides
  rw [howners]
  constructor
  · rintro ⟨-, haccess⟩ n hn howner hold
    -- One right is asked for, by a user of the class that the bit belongs to.
    obtain ⟨uid, gid, huid, hclass⟩ :=
      @exists_classBit (s.owners asset) (n / 3 * 3) (by
        by_cases hroot : (s.owners asset).stUid = 0#32
        · have := howner hroot
          omega
        · simp only [hroot, ne_eq, not_false_eq_true, and_true]
          omega)
    have hgrant := haccess uid gid (8#32 >>> (n % 3)) huid
    have hplace : n / 3 * 3 + n % 3 = n := by omega
    rw [statHasAccess_iff huid, hclass, contains_single (by omega), contains_single (by omega),
      hplace] at hgrant
    exact hgrant.mp ((hbit n hn).mpr (.inl hold))
  · intro hkept
    refine ⟨?_, fun uid gid request huid => ?_⟩
    · have hperm : 0o7777#32 &&& sIfmt = 0#32 := by decide
      rw [hmode, BitVec.and_comm, BitVec.and_or_distrib_left, BitVec.and_comm _ (_ &&& _),
        BitVec.and_assoc, hperm, BitVec.and_zero, BitVec.or_zero, BitVec.and_comm]
    · have hagree : ∀ d < 3,
          ((s'.vfs.assets asset).stMode.getLsbD (classBit (s.owners asset) uid gid + d) = true ↔
            c.mode.getLsbD (classBit (s.owners asset) uid gid + d) = true) := by
        intro d hd
        have hclass := classBit_le (s.owners asset) uid gid
        have hroot : (s.owners asset).stUid = 0#32 → classBit (s.owners asset) uid gid ≤ 3 :=
          classBit_root huid
        rw [hbit _ (by omega), or_iff_right_iff_imp]
        exact hkept _ (by omega) fun h => by have := hroot h; omega
      rw [statHasAccess_iff huid, Contains, hagree 2 (by omega), hagree 1 (by omega)]
      exact and_congr_right' (and_congr_right' (imp_congr_right fun _ => hagree 0 (by omega)))

def chmodState (mode : BitVec 32) : LookupState where
  vfs := { vfsInit with assets := fun _ => ⟨sIfreg ||| mode, 0#64, 0, true⟩ }
  owners _ := ⟨1#32, 1#32⟩

theorem chmod_decides_iff_wider :
    ∃ s', ((ChmodCall.fchmod 3#32 0o755#32).run 0 (chmodState 0o644#32) rootTask fun _ => some 0) =
        some (0, s') ∧ ModeDecides 0o755#32 (chmodState 0o644#32) s' 0 := by
  refine ⟨_, rfl, ?_⟩
  have hdecides := @chmod_decides_iff 0 (chmodState 0o644#32) _ rootTask (fun _ => some 0)
    (ChmodCall.fchmod 3#32 0o755#32) 0 rfl
  exact hdecides.mpr (by decide)

theorem chmod_takes_nothing_away :
    ((ChmodCall.fchmod 3#32 0#32).run 0 (chmodState 0o644#32) rootTask fun _ => some 0).map
        (fun r => statHasAccess (r.2.vfs.assets r.1).stMode (r.2.owners r.1) 2#32 2#32 rOk) =
      some true ∧ ¬ Contains 0#32 (classBit ⟨1#32, 1#32⟩ 2#32 2#32) rOk := by
  refine ⟨by decide, fun h => ?_⟩
  exact absurd (h.1 (by decide)) (by decide)

end Pastoral
