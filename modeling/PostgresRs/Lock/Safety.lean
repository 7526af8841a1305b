import PostgresRs.Lock.Acquire
import PostgresRs.Util.Run

/-!
# Are conflicting locks ever in force together?

A grant stays in force until its backend calls `releaseAll`, also when the backend is granted
another mode on the same object afterwards.  The lock table does not remember all of this: it keeps
one mode per backend and object, the one with the greater index.  This file runs the manager beside
the list of grants in force and asks whether two backends can have conflicting grants.

They can.  The modes are not linearly ordered by what they conflict with: `SHARE` and either of `ROW
EXCLUSIVE` and `SHARE UPDATE EXCLUSIVE` exclude different modes, so keeping only `SHARE` forgets
what the other one excludes (`share_forgets_shareUpdateExclusive`).  These two pairs are the whole
problem: every other mode excludes all that the modes before it exclude (`covers_of_index_le`), and
a run that never grants a backend one mode of such a pair while the table has it down for the other
keeps the grants in force compatible (`grants_compatible`).
-/

namespace PostgresRs

namespace LockMode

/-- Every mode that conflicts with `b` conflicts with `a`: holding `a` excludes all that holding
`b` does. -/
def Covers (a b : LockMode) : Prop :=
  ∀ c, b.conflictsWith c = true → a.conflictsWith c = true

theorem Covers.refl (a : LockMode) : a.Covers a := fun _ => id

theorem Covers.trans {a b c : LockMode} (hab : a.Covers b) (hbc : b.Covers c) : a.Covers c :=
  fun d hd => hab d (hbc d hd)

/-- One of the modes is `SHARE`, the other `ROW EXCLUSIVE` or `SHARE UPDATE EXCLUSIVE`. -/
def SharePair (a b : LockMode) : Prop :=
  (a = share ∧ (b = rowExclusive ∨ b = shareUpdateExclusive)) ∨
    (b = share ∧ (a = rowExclusive ∨ a = shareUpdateExclusive))

instance (a b : LockMode) : Decidable (SharePair a b) :=
  inferInstanceAs (Decidable (_ ∨ _))

/-- Apart from the two pairs with `SHARE`, a mode excludes all that the modes before it exclude. -/
theorem covers_of_index_le {a b : LockMode} (h : b.index ≤ a.index) (hp : ¬ SharePair a b) :
    a.Covers b := by
  intro c hc
  revert h hp hc
  cases a <;> cases b <;> cases c <;> decide

end LockMode

/-! ## Grants in force -/

/-- A grant: `pid` was granted `mode` on `obj`. -/
structure LockGrant where
  pid : Pid
  obj : LockObject
  mode : LockMode
deriving DecidableEq, Repr

/-- The lock manager, and the grants since each backend's last release. -/
structure LockHistory where
  locks : LockManager
  inForce : List LockGrant

namespace LockHistory

def init : LockHistory := ⟨.new, []⟩

def step (s : LockHistory) : LockCall → LockHistory
  | .tryAcquire pid obj mode =>
    { locks := (s.locks.tryAcquire pid obj mode).1
      inForce := if (s.locks.tryAcquire pid obj mode).2 = .granted then
          ⟨pid, obj, mode⟩ :: s.inForce
        else s.inForce }
  | .releaseAll pid =>
    { locks := s.locks.releaseAll pid
      inForce := s.inForce.filter fun g => g.pid != pid }

/-- No two backends have conflicting modes in force on one object. -/
def Compatible (s : LockHistory) : Prop :=
  ∀ g ∈ s.inForce, ∀ k ∈ s.inForce, g.obj = k.obj → g.pid ≠ k.pid →
    g.mode.conflictsWith k.mode = false

/-- A granted request does not pair `SHARE` with `ROW EXCLUSIVE` or `SHARE UPDATE EXCLUSIVE`, one of
them being what the table has the requester down for. -/
def NoSharePair (s : LockHistory) : LockCall → Prop
  | .tryAcquire pid obj mode => s.locks.conflicting pid obj mode = [] →
    ∀ h ∈ (s.locks.state obj).holders, h.pid = pid → ¬ LockMode.SharePair h.mode mode
  | .releaseAll _ => True

instance (s : LockHistory) : ∀ c, Decidable (s.NoSharePair c)
  | .tryAcquire _ _ _ => inferInstanceAs (Decidable (_ → _))
  | .releaseAll _ => isTrue trivial

/-- What the table knows of the grants in force. -/
structure Recorded (s : LockHistory) : Prop where
  /-- Each backend has at most one entry among the holders of an object. -/
  nodup : ∀ o, ((s.locks.state o).holders.map Holder.pid).Nodup
  /-- The recorded modes of different backends are compatible. -/
  compatible : ∀ o, ∀ h ∈ (s.locks.state o).holders, ∀ k ∈ (s.locks.state o).holders,
    h.pid ≠ k.pid → h.mode.conflictsWith k.mode = false
  /-- The recorded mode of a backend excludes all that its grants in force exclude. -/
  covered : ∀ g ∈ s.inForce, ∃ h ∈ (s.locks.state g.obj).holders,
    h.pid = g.pid ∧ h.mode.Covers g.mode

end LockHistory

/-! ## Upgrading a holder -/

namespace LockManager

variable {pid : Pid} {mode : LockMode} {hs : List Holder}

theorem map_pid_upgradeHolder :
    (upgradeHolder pid mode hs).map Holder.pid =
      if pid ∈ hs.map Holder.pid then hs.map Holder.pid else hs.map Holder.pid ++ [pid] := by
  obtain ⟨hnone, he⟩ | ⟨before, old, after, new, rfl, he, -⟩ := upgradeHolder_cases pid mode hs
  · rw [he, if_neg fun h => (List.mem_map.mp h).elim fun k hk => hnone k hk.1 hk.2, List.map_append]
    rfl
  · simp [he]

theorem nodup_upgradeHolder (h : (hs.map Holder.pid).Nodup) :
    ((upgradeHolder pid mode hs).map Holder.pid).Nodup := by
  rw [map_pid_upgradeHolder]
  split
  · exact h
  · next hp => simpa [List.nodup_append, h] using fun a ha hne => hp (List.mem_map.2 ⟨a, ha, hne⟩)

/-- An entry is what was granted or one that there was. -/
theorem mem_upgradeHolder {h : Holder} (hmem : h ∈ upgradeHolder pid mode hs) :
    h = ⟨pid, mode⟩ ∨ h ∈ hs := by
  obtain ⟨-, he⟩ | ⟨before, old, after, new, rfl, he, rfl | rfl, -⟩ :=
    upgradeHolder_cases pid mode hs
  · simpa [he, or_comm] using hmem
  · grind
  · exact .inr (he ▸ hmem)

/-- Unless the modes are one of the pairs with `SHARE`, the entry of the requester covers both the
mode it had and the mode it was granted. -/
theorem exists_covers_upgradeHolder (hnd : (hs.map Holder.pid).Nodup)
    (hpair : ∀ k ∈ hs, k.pid = pid → ¬ LockMode.SharePair k.mode mode) :
    ∃ h ∈ upgradeHolder pid mode hs, h.pid = pid ∧ h.mode.Covers mode ∧
      ∀ k ∈ hs, k.pid = pid → h.mode.Covers k.mode := by
  obtain ⟨hnone, he⟩ | ⟨before, old, after, new, rfl, he, hnew, hmode, hold⟩ :=
    upgradeHolder_cases pid mode hs
  · exact ⟨⟨pid, mode⟩, by simp [he], rfl, .refl _, fun k hk hp => absurd hp (hnone k hk)⟩
  · have hmem : ⟨pid, old⟩ ∈ before ++ ⟨pid, old⟩ :: after := by simp
    have hp := hpair _ hmem rfl
    have hcovers : new.Covers mode ∧ new.Covers old := by
      rcases hnew with rfl | rfl
      · exact ⟨.refl _, LockMode.covers_of_index_le hold fun h => hp h.symm⟩
      · exact ⟨LockMode.covers_of_index_le hmode hp, .refl _⟩
    refine ⟨⟨pid, new⟩, by simp [he], rfl, hcovers.1, fun k hk hkp => ?_⟩
    -- The requester has no other entry.
    obtain rfl := List.inj_on_of_nodup_map hnd hk hmem hkp
    exact hcovers.2

end LockManager

/-! ## Steps and runs -/

namespace LockHistory

open Machine

variable {s : LockHistory}

section

variable (h : s.Recorded)
include h

theorem Recorded.of_eq_holders {s' : LockHistory} (hf : s'.inForce = s.inForce)
    (hh : ∀ o, (s'.locks.state o).holders = (s.locks.state o).holders) : s'.Recorded :=
  ⟨fun o => hh o ▸ h.nodup o, fun o => hh o ▸ h.compatible o,
    fun g hg => by rw [hh]; exact h.covered g (hf ▸ hg)⟩

theorem Recorded.grant {pid : Pid} {obj : LockObject} {mode : LockMode}
    (hfree : s.locks.conflicting pid obj mode = [])
    (hpair : s.NoSharePair (.tryAcquire pid obj mode)) :
    Recorded ⟨s.locks.grant pid obj mode, ⟨pid, obj, mode⟩ :: s.inForce⟩ := by
  obtain ⟨hnew, hmem, hpid, hcov, hold⟩ :=
    LockManager.exists_covers_upgradeHolder (h.nodup obj) (hpair hfree)
  -- The new mode is compatible with all other holders, the request having been granted.
  have hother : ∀ k ∈ (s.locks.state obj).holders, k.pid ≠ pid →
      k.mode.conflictsWith mode = false := by
    intro k hk hne
    by_contra hc
    have : k.pid ∈ s.locks.conflicting pid obj mode :=
      LockManager.mem_conflicting.2 ⟨hne, k, hk, rfl, by simpa using hc⟩
    simp [hfree] at this
  have hmix : ∀ a ∈ LockManager.upgradeHolder pid mode (s.locks.state obj).holders,
      ∀ b ∈ (s.locks.state obj).holders, a.pid = pid → b.pid ≠ pid →
        a.mode.conflictsWith b.mode = false := by
    intro a ha b hb hap hbp
    rcases LockManager.mem_upgradeHolder ha with rfl | ha
    · rw [LockMode.conflictsWith_comm]
      exact hother b hb hbp
    · exact h.compatible obj a ha b hb (by rw [hap]; exact hbp.symm)
  refine ⟨fun o => ?_, fun o a ha b hb hab => ?_, fun g hg => ?_⟩
  · rw [LockManager.state_grant]
    split
    · exact LockManager.nodup_upgradeHolder (h.nodup o)
    · exact h.nodup o
  · rw [LockManager.state_grant] at ha hb
    split at ha
    · next ho =>
      subst ho
      rw [if_pos rfl] at hb
      by_cases hap : a.pid = pid
      · have hbp : b.pid ≠ pid := fun hbp => hab (hap.trans hbp.symm)
        exact hmix a ha b ((LockManager.mem_upgradeHolder_of_ne hbp).1 hb) hap hbp
      · have ha' := (LockManager.mem_upgradeHolder_of_ne hap).1 ha
        by_cases hbp : b.pid = pid
        · rw [LockMode.conflictsWith_comm]
          exact hmix b hb a ha' hbp hap
        · exact h.compatible o a ha' b ((LockManager.mem_upgradeHolder_of_ne hbp).1 hb) hab
    · next ho =>
      rw [if_neg ho] at hb
      exact h.compatible o a ha b hb hab
  · simp only [LockManager.state_grant]
    rcases List.mem_cons.1 hg with rfl | hg
    · exact ⟨hnew, by simpa using hmem, hpid, hcov⟩
    obtain ⟨k, hk, hkp, hkc⟩ := h.covered g hg
    by_cases ho : g.obj = obj
    · rw [if_pos ho, ho]
      rw [ho] at hk
      by_cases hgp : g.pid = pid
      · exact ⟨hnew, hmem, hpid.trans hgp.symm, (hold k hk (hkp.trans hgp)).trans hkc⟩
      · exact ⟨k, (LockManager.mem_upgradeHolder_of_ne (hkp ▸ hgp)).2 hk, hkp, hkc⟩
    · rw [if_neg ho]
      exact ⟨k, hk, hkp, hkc⟩

theorem Recorded.releaseAll (pid : Pid) : (s.step (.releaseAll pid)).Recorded := by
  refine ⟨fun o => ?_, fun o a ha b hb => ?_, fun g hg => ?_⟩
  · simp only [step, LockManager.state_releaseAll]
    exact (List.filter_sublist.map _).nodup (h.nodup o)
  · simp only [step, LockManager.state_releaseAll] at ha hb
    exact h.compatible o a (List.mem_filter.1 ha).1 b (List.mem_filter.1 hb).1
  · simp only [step, LockManager.state_releaseAll] at hg ⊢
    obtain ⟨hg, hne⟩ := List.mem_filter.1 hg
    obtain ⟨k, hk, hkp, hkc⟩ := h.covered g hg
    exact ⟨k, List.mem_filter.2 ⟨hk, by rw [hkp]; exact hne⟩, hkp, hkc⟩

/-- One call keeps the table a faithful record, unless it grants one of the pairs with `SHARE`. -/
theorem Recorded.step : ∀ c, s.NoSharePair c → (s.step c).Recorded
  | .releaseAll pid, _ => h.releaseAll pid
  | .tryAcquire pid obj mode, hpair => by
    by_cases hfree : s.locks.conflicting pid obj mode = []
    · have := LockManager.tryAcquire_of_free hfree
      simpa only [LockHistory.step, this, if_true] using h.grant hfree hpair
    · refine h.of_eq_holders ?_ (LockManager.holders_of_not_granted hfree)
      simp only [LockHistory.step, LockManager.granted_iff, hfree, if_false]

theorem Recorded.compatible_grants : s.Compatible := by
  intro g hg k hk hobj hpid
  obtain ⟨a, ha, hap, hac⟩ := h.covered g hg
  obtain ⟨b, hb, hbp, hbc⟩ := h.covered k hk
  rw [← hobj] at hb
  have hab := h.compatible g.obj a ha b hb (by rwa [hap, hbp])
  by_contra hc
  -- Through the covering modes a conflict of the grants is one of the recorded modes.
  have h1 : a.mode.conflictsWith k.mode = true := hac _ (by simpa using hc)
  rw [LockMode.conflictsWith_comm] at h1
  have h2 : b.mode.conflictsWith a.mode = true := hbc _ h1
  rw [LockMode.conflictsWith_comm, hab] at h2
  simp at h2

end

theorem Recorded.init : LockHistory.init.Recorded :=
  ⟨by simp [LockHistory.init], by simp [LockHistory.init], by simp [LockHistory.init]⟩

/-- **Lock safety.**  In every run whose grants never pair `SHARE` with `ROW EXCLUSIVE` or
`SHARE UPDATE EXCLUSIVE` for one backend on one object, the grants in force stay compatible. -/
theorem grants_compatible (calls : List LockCall)
    (hpair : Always step NoSharePair init calls) : (run step init calls).Compatible :=
  (hpair.run_induction Recorded.init fun _ c h hc => h.step c hc).compatible_grants

/-- Two backends in compatible modes, one of which upgrades. -/
theorem grants_compatible_upgrade :
    (run step init [.tryAcquire 1 (.table "t") .rowShare, .tryAcquire 2 (.table "t") .rowExclusive,
      .tryAcquire 2 (.table "t") .shareUpdateExclusive]).Compatible :=
  grants_compatible _ (by decide)

/-- Backend 1 is granted `SHARE UPDATE EXCLUSIVE` and then `SHARE`; the table keeps `SHARE` only, so
backend 2 is granted `SHARE`, which conflicts with the first grant. -/
theorem share_forgets_shareUpdateExclusive :
    ¬ (run step init [.tryAcquire 1 (.table "t") .shareUpdateExclusive,
      .tryAcquire 1 (.table "t") .share, .tryAcquire 2 (.table "t") .share]).Compatible := by
  intro h
  have := h ⟨2, .table "t", .share⟩ (by decide) ⟨1, .table "t", .shareUpdateExclusive⟩ (by decide)
  exact absurd this (by decide)

end LockHistory
end PostgresRs
