import PostgresRs.Util.Run
import PostgresRs.Wal.Recovery

/-!
# The log across restarts

Over the life of a database the log is opened, appended to and left behind by crashes many times.  An
append that returns has written its whole record and synced it; a crash during an append can leave any
part of the record.  `Wal::open` reads the file and goes on appending at its end: it never cuts off
what a crash has left there.

So a record that is appended behind a torn one becomes part of it, and is lost with it.  Where no
append follows a torn record, everything that was acknowledged is executed at every later start
(`log_survives_restarts`).
-/

namespace PostgresRs.Wal

open PostgresRs.Parser Lexer Utf8

/-- What happens to the log: an append that returns, or a crash during an append, which leaves the
first `n` bytes of the record.  Opening the file does not change it. -/
inductive Event where
  | append (sql : List Char)
  | crash (sql : List Char) (n : Nat)

/-- The file, and how it came about. -/
structure History where
  file : List UInt8
  /-- The texts whose append returned, in order. -/
  acknowledged : List (List Char)
  /-- What crashes have left behind the last append that returned. -/
  torn : List UInt8

namespace History

def init : History := ⟨[], [], []⟩

def step (h : History) : Event → History
  | .append sql =>
    { file := append h.file sql, acknowledged := h.acknowledged ++ [sql], torn := [] }
  | .crash sql n =>
    let left := (utf8 (entry sql)).take n
    { h with file := h.file ++ left, torn := h.torn ++ left }

/-- All statements that were acknowledged are executed when the file is replayed, in their order. -/
def Durable (arms : Arms) (h : History) : Prop :=
  (h.acknowledged.flatMap (statementsOf arms)).Sublist (replay arms (contents h.file))

/-- An append of a text that is self-contained and without a terminator, to a file that does not end
in a torn record. -/
def AppendsCleanly (arms : Arms) (h : History) : Event → Prop
  | .append sql => h.torn = [] ∧ SelfContained arms sql ∧ ¬ terminator <:+: sql
  | .crash _ _ => True

/-- What such appends keep up: the file is the records of the acknowledged texts, and then what the
last crashes have left. -/
structure Intact (arms : Arms) (h : History) : Prop where
  file_eq : h.file = utf8 (script h.acknowledged) ++ h.torn
  selfContained : ∀ sql ∈ h.acknowledged, SelfContained arms sql
  unbroken : ∀ sql ∈ h.acknowledged, ¬ terminator <:+: sql

namespace Intact

variable {arms : Arms} {h : History}

theorem init : Intact arms History.init :=
  ⟨rfl, by simp [History.init], by simp [History.init]⟩

theorem step {e : Event} (hi : Intact arms h) (hc : AppendsCleanly arms h e) :
    Intact arms (h.step e) := by
  cases e with
  | append sql =>
    obtain ⟨htorn, hself, hsql⟩ := hc
    have hmem : ∀ u ∈ h.acknowledged ++ [sql], u ∈ h.acknowledged ∨ u = sql := by simp
    refine ⟨?_, fun u hu => ?_, fun u hu => ?_⟩
    · change append h.file sql = utf8 (script (h.acknowledged ++ [sql])) ++ []
      rw [append, hi.file_eq, htorn, List.append_nil, List.append_nil, script, script,
        List.flatMap_append, utf8_append]
      simp
    · rcases hmem u hu with hu | rfl
      · exact hi.selfContained u hu
      · exact hself
    · rcases hmem u hu with hu | rfl
      · exact hi.unbroken u hu
      · exact hsql
  | crash sql n =>
    refine ⟨?_, hi.selfContained, hi.unbroken⟩
    change h.file ++ _ = utf8 (script h.acknowledged) ++ (h.torn ++ _)
    rw [hi.file_eq, List.append_assoc]

theorem durable (hi : Intact arms h) : Durable arms h := by
  have hcontents : contents h.file = script h.acknowledged ++ contents h.torn := by
    rw [contents, hi.file_eq, decodeLossy_utf8]
    rfl
  rw [Durable, replay_eq, hcontents, executed_script_append hi.selfContained (.inr hi.unbroken)]
  exact List.sublist_append_left _ _

end Intact

/-- **What is acknowledged survives.**  In every run in which no append follows a torn record and the
appended texts are self-contained and without a terminator, all acknowledged statements are executed
when the file is replayed. -/
theorem log_survives_restarts (arms : Arms) (run : List Event)
    (hrun : Machine.Always step (AppendsCleanly arms) init run) :
    Durable arms (Machine.run step init run) :=
  (hrun.run_induction Intact.init fun _ _ hi hc => hi.step hc).durable

/-- An append, a crash that leaves nothing, another append, and a crash in the middle of a record. -/
theorem log_survives_restarts_drops :
    Durable refusing (Machine.run step init
      [.append dropOrders, .crash dropOrders 0, .append dropOrdersOld, .crash dropOrders 5]) := by
  have hfirst := (of_isDropTable isDropTable_orders).2
  have hsecond := (of_isDropTable isDropTable_ordersOld).2
  refine log_survives_restarts refusing _ ⟨⟨rfl, hfirst, ?_⟩, trivial, ⟨?_, hsecond, ?_⟩, trivial,
    trivial⟩
  · decide +kernel
  · decide +kernel
  · decide +kernel

/-- A crash leaves `DRO`; `DROP TABLE orders` is appended behind it and acknowledged, and is not
executed at the next start. -/
theorem appended_behind_torn_lost :
    ¬ Durable refusing (Machine.run step init [.crash dropOrders 3, .append dropOrders]) := by
  intro hdurable
  have hlost : (replay refusing (contents
      (Machine.run step init [.crash dropOrders 3, .append dropOrders]).file)).length = 0 := by
    decide +kernel
  have hlen := hdurable.length_le
  rw [hlost] at hlen
  change (statementsOf refusing dropOrders ++ []).length ≤ 0 at hlen
  rw [statementsOf_of_isDropTable isDropTable_orders] at hlen
  exact absurd hlen (by decide)

end History
end PostgresRs.Wal
