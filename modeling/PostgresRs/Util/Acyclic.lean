import Mathlib.Logic.Relation

/-!
# Acyclic relations

A relation is acyclic when no element reaches itself by one or more of its edges.  The file has the
three ways acyclicity is established below.

* `Acyclic.mono` — removing edges keeps a relation acyclic.
* `Acyclic.of_sink` — so does adding edges that all end in one element without outgoing edges.
* `FinishOrder r l` — the elements of the list `l`, read from its end, were finished one by one,
  each after all its successors; a relation has no cycle through such a list
  (`FinishOrder.no_cycle`).  This is the certificate a depth-first search leaves behind.
-/

namespace PostgresRs

open Relation

variable {α : Type*} {r s : α → α → Prop}

/-- No element reaches itself by one or more edges. -/
def Acyclic (r : α → α → Prop) : Prop :=
  ∀ a, ¬ TransGen r a a

theorem Acyclic.mono (h : Acyclic s) (hrs : ∀ a b, r a b → s a b) : Acyclic r :=
  fun a ha => h a (TransGen.mono hrs a a ha)

/-- A path of `r` that may use new edges into the sink `p` is a path of `s` followed by at most one
of them, since no edge leaves `p`. -/
theorem transGen_of_sink {p : α} (hsink : ∀ b, ¬ r p b) (hr : ∀ a b, r a b → b = p ∨ s a b)
    {a b : α} (h : TransGen r a b) : b = p ∨ TransGen s a b := by
  induction h with
  | single hab => exact (hr _ _ hab).imp id .single
  | @tail b c _ hbc ih =>
    rcases ih with rfl | ih
    · exact absurd hbc (hsink c)
    · exact (hr _ _ hbc).imp id ih.tail

theorem Acyclic.of_sink {p : α} (h : Acyclic s) (hsink : ∀ b, ¬ r p b)
    (hr : ∀ a b, r a b → b = p ∨ s a b) : Acyclic r := by
  intro a ha
  rcases transGen_of_sink hsink hr ha with rfl | hs
  · obtain ⟨b, hb, -⟩ := TransGen.head'_iff.1 ha
    exact hsink b hb
  · exact h a hs

/-- `l` lists elements in the reverse of an order in which each one was finished after all its
successors. -/
inductive FinishOrder (r : α → α → Prop) : List α → Prop
  | nil : FinishOrder r []
  | cons {a : α} {l : List α} (hl : FinishOrder r l) (ha : a ∉ l) (hsucc : ∀ b, r a b → b ∈ l) :
      FinishOrder r (a :: l)

namespace FinishOrder

variable {l : List α}

theorem succ_mem (h : FinishOrder r l) : ∀ {a b}, a ∈ l → r a b → b ∈ l := by
  induction h with
  | nil => simp
  | @cons c l _ _ hsucc ih =>
    intro a b ha hab
    rcases List.mem_cons.1 ha with rfl | ha
    · exact List.mem_cons_of_mem _ (hsucc b hab)
    · exact List.mem_cons_of_mem _ (ih ha hab)

theorem reach_mem (h : FinishOrder r l) {a b : α} (ha : a ∈ l) (hab : TransGen r a b) : b ∈ l := by
  induction hab with
  | single hb => exact h.succ_mem ha hb
  | tail _ hbc ih => exact h.succ_mem ih hbc

/-- No cycle passes through a finished element: following the edges only goes back in the order
of finishing. -/
theorem no_cycle (h : FinishOrder r l) : ∀ {a}, a ∈ l → ¬ TransGen r a a := by
  induction h with
  | nil => simp
  | @cons c l hl hc hsucc ih =>
    intro a ha hcyc
    rcases List.mem_cons.1 ha with rfl | ha
    · obtain ⟨b, hb, hba⟩ := TransGen.head'_iff.1 hcyc
      rcases reflTransGen_iff_eq_or_transGen.1 hba with rfl | hba
      · exact hc (hsucc _ hb)
      · exact hc (hl.reach_mem (hsucc b hb) hba)
    · exact ih ha hcyc

end FinishOrder

end PostgresRs
