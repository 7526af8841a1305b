import PostgresRs.Util.AssocMap
import PostgresRs.Util.Text

/-!
# The lock manager

The lock table of `engine/src/lock.rs`: the eight table lock modes with their conflict matrix, the
lockable objects, and the operations of `LockManager`.  None of them blocks; a caller whose request
conflicts is recorded as a waiter and tries again later.

The table is a hash map from objects to `ObjectState`; an absent object and one that nobody holds
or waits for are the same to every operation, so the facts below are stated about
`LockManager.state`, which gives every object its holders and waiters.  Each operation has one
lemma `state_…` that says what it does to them.
-/

namespace PostgresRs

/-- Backend process ids.  They are only ever compared. -/
abbrev Pid := Int

/-! ## Lock modes -/

/-- The table-level lock modes, in the order of the source. -/
inductive LockMode where
  | accessShare
  | rowShare
  | rowExclusive
  | shareUpdateExclusive
  | share
  | shareRowExclusive
  | exclusive
  | accessExclusive
deriving DecidableEq, Repr

namespace LockMode

/-- The row and column of a mode in the conflict matrix. -/
def index : LockMode → Nat
  | accessShare => 0
  | rowShare => 1
  | rowExclusive => 2
  | shareUpdateExclusive => 3
  | share => 4
  | shareRowExclusive => 5
  | exclusive => 6
  | accessExclusive => 7

/-- The mode spelled by the text of a `LOCK TABLE ... IN mode MODE` clause. -/
def parse (s : String) : Option LockMode :=
  match Text.toAsciiUppercase (Text.trim s) with
  | "ACCESS SHARE" => some accessShare
  | "ROW SHARE" => some rowShare
  | "ROW EXCLUSIVE" => some rowExclusive
  | "SHARE UPDATE EXCLUSIVE" => some shareUpdateExclusive
  | "SHARE" => some share
  | "SHARE ROW EXCLUSIVE" => some shareRowExclusive
  | "EXCLUSIVE" => some exclusive
  | "ACCESS EXCLUSIVE" => some accessExclusive
  | _ => none

/-- The conflict matrix: entry `(a, b)` says whether mode `a` conflicts with mode `b`. -/
def conflicts : List (List Bool) :=
  [[false, false, false, false, false, false, false, true],
   [false, false, false, false, false, false, true, true],
   [false, false, false, false, true, true, true, true],
   [false, false, false, true, true, true, true, true],
   [false, false, true, true, false, true, true, true],
   [false, false, true, true, true, true, true, true],
   [false, true, true, true, true, true, true, true],
   [true, true, true, true, true, true, true, true]]

/-- Whether holding `self` conflicts with a concurrent request for `other`. -/
def conflictsWith (self other : LockMode) : Bool :=
  (conflicts.getD self.index []).getD other.index false

theorem conflictsWith_comm (a b : LockMode) : a.conflictsWith b = b.conflictsWith a := by
  cases a <;> cases b <;> rfl

end LockMode

/-! ## The lock table -/

/-- A whole table, or one row of a table named by an opaque key. -/
inductive LockObject where
  | table (name : String)
  | row (table key : String)
deriving DecidableEq, Repr

structure Holder where
  pid : Pid
  mode : LockMode
deriving DecidableEq, Repr

structure Waiter where
  pid : Pid
  mode : LockMode
deriving DecidableEq, Repr

/-- Who holds an object and who is queued for it. -/
structure ObjectState where
  holders : List Holder := []
  waiters : List Waiter := []
deriving DecidableEq, Repr, Inhabited

def ObjectState.isEmpty (st : ObjectState) : Bool :=
  st.holders.isEmpty && st.waiters.isEmpty

theorem ObjectState.eq_empty_of_isEmpty {st : ObjectState} (h : st.isEmpty = true) : st = {} := by
  obtain ⟨hs, ws⟩ := st
  simpa [ObjectState.isEmpty] using h

/-- The outcome of `tryAcquire`: granted, blocked on the listed holders, or refused because waiting
would close a cycle. -/
inductive TryAcquire where
  | granted
  | conflict (holders : List Pid)
  | deadlock
deriving DecidableEq, Repr

structure LockManager where
  objects : AList (fun _ : LockObject => ObjectState)

namespace LockManager

variable (lm : LockManager) (pid : Pid) (obj : LockObject) (mode : LockMode)

def new : LockManager := ⟨∅⟩

/-- The holders and waiters of an object. -/
def state (lm : LockManager) (obj : LockObject) : ObjectState :=
  lm.objects.get obj

/-- The holders of `obj` other than `pid` whose mode conflicts with `mode`. -/
def conflicting : List Pid :=
  ((lm.state obj).holders.filter fun h => h.pid != pid && h.mode.conflictsWith mode).map Holder.pid

/-- Record `mode` for `pid` among the holders: raise the mode of its first entry if the new one has
a greater index, or append an entry. -/
def upgradeHolder (pid : Pid) (mode : LockMode) : List Holder → List Holder
  | [] => [⟨pid, mode⟩]
  | h :: hs =>
    if h.pid = pid then
      (if h.mode.index < mode.index then { h with mode := mode } else h) :: hs
    else h :: upgradeHolder pid mode hs

/-- Record that `pid` holds `obj` in `mode`, and clear its waiter entry. -/
def grant : LockManager :=
  ⟨lm.objects.insert obj
    { holders := upgradeHolder pid mode (lm.state obj).holders
      waiters := (lm.state obj).waiters.filter fun w => w.pid != pid }⟩

/-- Queue `pid` for `obj`, unless it is queued there already. -/
def addWaiter : LockManager :=
  let st := lm.state obj
  ⟨lm.objects.insert obj
    (if st.waiters.any fun w => w.pid == pid then st
     else { st with waiters := st.waiters ++ [⟨pid, mode⟩] })⟩

/-- Drop the waiter entry of `pid` on `obj`, and the object itself once it is empty. -/
def removeWaiter : LockManager :=
  match lm.objects.lookup obj with
  | none => lm
  | some st =>
    let st := { st with waiters := st.waiters.filter fun w => w.pid != pid }
    if st.isEmpty then ⟨lm.objects.erase obj⟩ else ⟨lm.objects.insert obj st⟩

/-- One object of `releaseAll`: drop the entries of `pid`, and the object once it is empty. -/
def releaseObject (pid : Pid) (st : ObjectState) : Option ObjectState :=
  let st : ObjectState :=
    { holders := st.holders.filter fun h => h.pid != pid
      waiters := st.waiters.filter fun w => w.pid != pid }
  if st.isEmpty then none else some st

/-- Release every lock and waiter entry of `pid`.  (The source also returns whether anything
changed, for the caller to wake the waiters.) -/
def releaseAll : LockManager :=
  ⟨lm.objects.retainMap (releaseObject pid)⟩

/-- Whether somebody other than `pid` holds `obj` in a mode that conflicts with `mode`. -/
def isLockedByOther : Bool :=
  (lm.state obj).holders.any fun h => h.pid != pid && h.mode.conflictsWith mode

/-! ## What the operations do to an object's holders and waiters -/

variable {lm pid obj mode} (o : LockObject)

@[simp] theorem state_new : new.state o = {} := by
  simp only [new, state, AList.get_empty]
  rfl

theorem state_grant : (lm.grant pid obj mode).state o =
      if o = obj then
        { holders := upgradeHolder pid mode (lm.state o).holders
          waiters := (lm.state o).waiters.filter fun w => w.pid != pid }
      else lm.state o := by
  simp only [grant, state, AList.get_insert]
  split
  · next h => subst h; rfl
  · rfl

theorem state_addWaiter : (lm.addWaiter pid obj mode).state o =
      if o = obj ∧ ¬ ∃ w ∈ (lm.state o).waiters, w.pid = pid then
        { lm.state o with waiters := (lm.state o).waiters ++ [⟨pid, mode⟩] }
      else lm.state o := by
  simp only [addWaiter, state, AList.get_insert]
  by_cases ho : o = obj
  · subst ho
    by_cases hw : ∃ w ∈ (lm.objects.get o).waiters, w.pid = pid <;> simp [hw]
  · simp [ho]

theorem state_removeWaiter : (lm.removeWaiter pid obj).state o =
      if o = obj then
        { lm.state o with waiters := (lm.state o).waiters.filter fun w => w.pid != pid }
      else lm.state o := by
  unfold removeWaiter
  cases hl : lm.objects.lookup obj with
  | none =>
    by_cases ho : o = obj
    · subst ho
      have : lm.state o = {} := by simp only [state, AList.get, hl]; rfl
      simp [this]
    · simp [ho]
  | some st =>
    have hst : lm.state obj = st := by simp [state, AList.get, hl]
    dsimp only
    by_cases ho : o = obj
    · subst ho
      rw [hst]
      split
      · next he =>
        rw [if_pos rfl, ObjectState.eq_empty_of_isEmpty he]
        simp only [state, AList.get_erase, if_true]
        rfl
      · simp [state, AList.get_insert]
    · rw [if_neg ho]
      split <;> simp [state, AList.get_insert, AList.get_erase, ho]

theorem state_releaseAll : (lm.releaseAll pid).state o =
      { holders := (lm.state o).holders.filter fun h => h.pid != pid
        waiters := (lm.state o).waiters.filter fun w => w.pid != pid } := by
  simp only [releaseAll, state, AList.get, AList.lookup_retainMap]
  cases hl : lm.objects.lookup o with
  | none => rfl
  | some st =>
    simp only [Option.bind_some, releaseObject, Option.getD_some]
    split
    · next he => rw [ObjectState.eq_empty_of_isEmpty he]; rfl
    · rfl

theorem mem_conflicting {q : Pid} :
    q ∈ lm.conflicting pid obj mode ↔
      q ≠ pid ∧ ∃ h ∈ (lm.state obj).holders, h.pid = q ∧ h.mode.conflictsWith mode = true := by
  simp only [conflicting, List.mem_map, List.mem_filter, Bool.and_eq_true, bne_iff_ne]
  constructor
  · rintro ⟨h, ⟨hmem, hne, hc⟩, rfl⟩
    exact ⟨hne, h, hmem, rfl, hc⟩
  · rintro ⟨hne, h, hmem, rfl, hc⟩
    exact ⟨h, ⟨hmem, hne, hc⟩, rfl⟩

theorem isLockedByOther_iff :
    lm.isLockedByOther pid obj mode = true ↔ lm.conflicting pid obj mode ≠ [] := by
  simp [isLockedByOther, conflicting]

/-! ## Upgrading a holder -/

/-- Without an entry of the backend one is appended, and otherwise one gets the mode with the greater
index. -/
theorem upgradeHolder_cases (pid : Pid) (mode : LockMode) (hs : List Holder) :
    (∀ k ∈ hs, k.pid ≠ pid) ∧ upgradeHolder pid mode hs = hs ++ [⟨pid, mode⟩] ∨
      ∃ before old after new, hs = before ++ ⟨pid, old⟩ :: after ∧
        upgradeHolder pid mode hs = before ++ ⟨pid, new⟩ :: after ∧ (new = mode ∨ new = old) ∧
          mode.index ≤ new.index ∧ old.index ≤ new.index := by
  induction hs with
  | nil => exact .inl ⟨nofun, rfl⟩
  | cons k hs ih =>
    rw [upgradeHolder]
    split
    · next hk =>
      subst hk
      refine .inr ⟨[], k.mode, hs, ?_⟩
      split
      · next hlt => exact ⟨mode, rfl, rfl, .inl rfl, Nat.le_refl _, hlt.le⟩
      · next hle => exact ⟨k.mode, rfl, rfl, .inr rfl, Nat.not_lt.mp hle, Nat.le_refl _⟩
    · next hk =>
      obtain ⟨hnone, he⟩ | ⟨before, old, after, new, rfl, he, hnew⟩ := ih
      · exact .inl ⟨List.forall_mem_cons.mpr ⟨hk, hnone⟩, congrArg (k :: ·) he⟩
      · exact .inr ⟨k :: before, old, after, new, rfl, congrArg (k :: ·) he, hnew⟩

theorem mem_upgradeHolder_of_ne {hs : List Holder} {h : Holder} (hne : h.pid ≠ pid) :
    h ∈ upgradeHolder pid mode hs ↔ h ∈ hs := by
  have hself : ∀ m, h ≠ ⟨pid, m⟩ := fun m heq => hne (heq ▸ rfl)
  obtain ⟨-, he⟩ | ⟨before, old, after, new, rfl, he, -⟩ := upgradeHolder_cases pid mode hs <;>
    simp [he, hself]

end LockManager
end PostgresRs
