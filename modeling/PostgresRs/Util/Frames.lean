import Mathlib.Data.List.Basic

/-!
# Records in a file

A file of records that are written one behind the other, each with its own length.  `dec` reads one
record from the front; the file is read until that fails.  A record that was written only in part
cannot be read (`Framing`), so that what is read of a file is what was written in full
(`Framing.readFrames_eq`, `Framing.exists_take`), as long as nothing was written behind a part of a
record.
-/

namespace PostgresRs

open List

variable {α β : Type}

/-- The records at the front of a file; `n` is fuel. -/
def readFramesFrom (dec : List β → Option (α × List β)) : Nat → List β → List α
  | 0, _ => []
  | n + 1, bytes =>
    match dec bytes with
    | none => []
    | some (a, rest) => a :: readFramesFrom dec n rest

/-- The records at the front of a file. -/
def readFrames (dec : List β → Option (α × List β)) (bytes : List β) : List α :=
  readFramesFrom dec bytes.length bytes

/-- `dec` reads back what `enc` writes, and nothing less. -/
structure Framing (Ok : α → Prop) (enc : α → List β) (dec : List β → Option (α × List β)) : Prop where
  ne_nil : ∀ {a}, Ok a → enc a ≠ []
  read : ∀ {a}, Ok a → ∀ rest, dec (enc a ++ rest) = some (a, rest)
  torn : ∀ {a}, Ok a → ∀ cut < (enc a).length, dec ((enc a).take cut) = none

namespace Framing

variable {Ok : α → Prop} {enc : α → List β} {dec : List β → Option (α × List β)}

/-- **Reading a file**: the whole records in front of bytes that cannot be read. -/
theorem readFrames_eq (h : Framing Ok enc dec) {as : List α} (has : ∀ a ∈ as, Ok a)
    {tail : List β} (htail : dec tail = none) : readFrames dec (as.flatMap enc ++ tail) = as := by
  have hfuel : ∀ n, as.length ≤ n → readFramesFrom dec n (as.flatMap enc ++ tail) = as := by
    induction as with
    | nil =>
      intro n _
      cases n with
      | zero => rfl
      | succ n =>
        rw [flatMap_nil, nil_append, readFramesFrom, htail]
    | cons a as ih =>
      intro n hn
      rw [forall_mem_cons] at has
      cases n with
      | zero => cases hn
      | succ n =>
        rw [flatMap_cons, append_assoc, readFramesFrom, h.read has.1]
        exact congrArg (a :: ·) (ih has.2 n (Nat.le_of_succ_le_succ hn))
  refine hfuel _ ?_
  -- Every record has at least one byte.
  clear hfuel htail
  induction as with
  | nil => exact Nat.zero_le _
  | cons a as ih =>
    rw [forall_mem_cons] at has
    have hpos := length_pos_iff.mpr (h.ne_nil has.1)
    have hrest := ih has.2
    rw [flatMap_cons, append_assoc, length_append, length_cons]
    omega

/-- **Reading a part of a file**: the records that lie in it. -/
theorem exists_take (h : Framing Ok enc dec) (hnil : dec [] = none) {as : List α}
    (has : ∀ a ∈ as, Ok a) (n : Nat) : ∃ k, readFrames dec ((as.flatMap enc).take n) = as.take k ∧
      ((as.take k).flatMap enc).length ≤ n ∧
      (k < as.length → n < ((as.take (k + 1)).flatMap enc).length) := by
  have hcut : ∃ k tail, dec tail = none ∧ (as.flatMap enc).take n = (as.take k).flatMap enc ++ tail ∧
      ((as.take k).flatMap enc).length ≤ n ∧
      (k < as.length → n < ((as.take (k + 1)).flatMap enc).length) := by
    induction as generalizing n with
    | nil => exact ⟨0, [], hnil, by simp, by simp, nofun⟩
    | cons a as ih =>
      obtain ⟨ha, has⟩ := forall_mem_cons.mp has
      rcases Nat.lt_or_ge n (enc a).length with hn | hn
      · exact ⟨0, (enc a).take n, h.torn ha n hn, by simp [take_append_of_le_length (Nat.le_of_lt hn)],
          by simp, fun _ => by simpa using hn⟩
      · obtain ⟨k, tail, htail, htake, hle, hlt⟩ := ih has (n - (enc a).length)
        refine ⟨k + 1, tail, htail, ?_, ?_, fun hk => ?_⟩
        · rw [flatMap_cons, take_append, take_of_length_le hn, htake, take_succ_cons, flatMap_cons,
            append_assoc]
        · rw [take_succ_cons, flatMap_cons, length_append]
          omega
        · have := hlt (Nat.lt_of_succ_lt_succ hk)
          rw [take_succ_cons, flatMap_cons, length_append]
          omega
  obtain ⟨k, tail, htail, htake, hk⟩ := hcut
  exact ⟨k, by rw [htake, h.readFrames_eq (fun a ha => has a (mem_of_mem_take ha)) htail], hk⟩

end Framing

end PostgresRs
