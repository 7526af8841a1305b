import PostgresRs.Disk.Page

/-!
# Pages that are reached

A page that is reached by its operations is a map from slots to tuples (`Reached.isMap`), and a
change of one byte of it is seen when it is read (`Reached.fromBytes_corrupt`).
-/

namespace PostgresRs.Disk.Page

open List Bytes

variable (p : Page)

/-- The live tuple of a slot. -/
def getTuple (slot : Nat) : Option (List UInt8) :=
  p.ids[slot]?.bind fun id => if id.length = 0 then none else p.tuples[slot]?

/-- Whether a live tuple is removed, and the page without it. -/
def deleteTuple (slot : Nat) : Bool × Page :=
  match p.ids[slot]? with
  | some id =>
    if id.length ≠ 0 then
      (true, { p with ids := p.ids.set slot ⟨0, 0⟩, tuples := p.tuples.set slot [] })
    else (false, p)
  | none => (false, p)

def setLsn (lsn : UInt64) : Page := { p with header := { p.header with lsn := lsn.toNat } }

/-- The pages that are reached from the empty one by operations that insert tuples in `ok`. -/
inductive Reached (ok : List UInt8 → Prop) : Page → Prop
  | new : Reached ok .new
  | insert {p p' : Page} {data : List UInt8} {slot : Nat} (h : Reached ok p) (hdata : ok data)
    (hins : p.insertTuple data = some (slot, p')) : Reached ok p'
  | delete {p : Page} (h : Reached ok p) (slot : Nat) : Reached ok (p.deleteTuple slot).2
  | setLsn {p : Page} (h : Reached ok p) (lsn : UInt64) : Reached ok (p.setLsn lsn)

/-- A page as a map from slots to tuples.  The live tuples lie behind the line pointers, each below
the one before, and the bytes of the page give it back. -/
structure IsMap : Prop where
  insert : ∀ data slot p', data ≠ [] → p.insertTuple data = some (slot, p') →
    slot = p.ids.length ∧ p'.ids.length = slot + 1 ∧
      p'.getTuple = Function.update p.getTuple slot (some data)
  delete : ∀ slot, (p.deleteTuple slot).1 = (p.getTuple slot).isSome ∧
    (p.deleteTuple slot).2.ids.length = p.ids.length ∧
      (p.deleteTuple slot).2.getTuple = Function.update p.getTuple slot none
  setLsn : ∀ lsn, (p.setLsn lsn).ids = p.ids ∧ (p.setLsn lsn).getTuple = p.getTuple
  apart : p.ids.Pairwise fun a b => 0 < a.length → 0 < b.length → b.offset + b.length ≤ a.offset
  behind : ∀ id ∈ p.ids, 0 < id.length → headerSize + p.ids.length * itemIdSize ≤ id.offset
  bytes : fromBytes p.toBytes = .ok p

variable {p}

/-! ## Invariants -/

theorem deleteTuple_cases (p : Page) (slot : Nat) :
    p.getTuple slot = none ∧ p.deleteTuple slot = (false, p) ∨
      ∃ id, p.ids[slot]? = some id ∧ 0 < id.length ∧ p.deleteTuple slot =
        (true, { p with ids := p.ids.set slot ⟨0, 0⟩, tuples := p.tuples.set slot [] }) := by
  rw [deleteTuple, getTuple]
  split
  · next id hid =>
    by_cases hlen : id.length = 0
    · exact .inl ⟨by rw [hid]; exact if_pos hlen, if_neg (not_not_intro hlen)⟩
    · exact .inr ⟨id, hid, Nat.pos_of_ne_zero hlen, if_pos hlen⟩
  · next hid => exact .inl ⟨by rw [hid]; rfl, rfl⟩

theorem zip_set {α β : Type} (as : List α) (bs : List β) (i : Nat) (a : α) (b : β) :
    (as.set i a).zip (bs.set i b) = (as.zip bs).set i (a, b) := by
  induction as generalizing bs i with
  | nil => simp
  | cons a' as ih => cases bs <;> cases i <;> simp [ih]

theorem InBounds.deleteTuple (h : p.InBounds) (slot : Nat) : (p.deleteTuple slot).2.InBounds := by
  rcases deleteTuple_cases p slot with ⟨-, hd⟩ | ⟨id, -, -, hd⟩
  · rwa [hd]
  rw [hd]
  refine ⟨by simpa using h.length, by simpa using h.lower, h.room, h.upper, fun e he hlive => ?_⟩
  rw [zip_set] at he
  rcases mem_or_eq_of_mem_set he with he | rfl
  · exact h.live e he hlive
  · cases hlive

theorem WellFormed.deleteTuple (h : p.WellFormed) (slot : Nat) :
    (p.deleteTuple slot).2.WellFormed := by
  have hb := h.inBounds.deleteTuple slot
  rcases deleteTuple_cases p slot with ⟨-, hd⟩ | ⟨id, -, -, hd⟩
  · rwa [hd]
  rw [hd] at hb ⊢
  refine ⟨h.lsn, h.flags, h.special, hb.length, hb.lower, hb.room, hb.upper, fun e he => ?_, ?_⟩
  · rw [zip_set] at he
    exact (mem_or_eq_of_mem_set he).elim (h.slots e) .inl
  · rw [zip_set, pairwise_iff_getElem]
    intro i j hi hj hij
    rw [getElem_set, getElem_set]
    split
    · exact nofun
    split
    · exact fun _ => nofun
    · exact pairwise_iff_getElem.mp h.descending i j _ _ hij

namespace Reached

variable {ok : List UInt8 → Prop}

theorem inBounds (h : Reached ok p) : p.InBounds := by
  induction h with
  | new => exact wellFormed_new.inBounds
  | insert _ _ hins ih => exact ih.insertTuple hins
  | delete _ slot ih => exact ih.deleteTuple slot
  | setLsn _ _ ih => exact { ih with }

theorem wellFormed (h : Reached (· ≠ []) p) : p.WellFormed := by
  induction h with
  | new => exact wellFormed_new
  | insert _ hdata hins ih => exact ih.insertTuple hdata hins
  | delete _ slot ih => exact ih.deleteTuple slot
  | setLsn _ lsn ih => exact { ih with lsn := lsn.toNat_lt }

/-- **A page is a map** from slots to tuples. -/
theorem isMap (hp : Reached (· ≠ []) p) : p.IsMap := by
  have h := hp.wellFormed
  refine ⟨fun data slot p' hdata hins => ?_, fun slot => ?_, fun _ => ⟨rfl, rfl⟩, ?_,
    fun id hid hlive => ?_, h.fromBytes_toBytes⟩
  · obtain ⟨-, rfl, rfl⟩ := insertTuple_eq_some hins
    refine ⟨rfl, by simp, funext fun s => ?_⟩
    rw [getTuple]
    rcases Nat.lt_trichotomy s p.ids.length with hs | rfl | hs
    · rw [Function.update_of_ne hs.ne, getTuple, getElem?_append_left hs,
        getElem?_append_left (h.length ▸ hs)]
    · simp [h.length, hdata]
    · rw [Function.update_of_ne hs.ne', getTuple, getElem?_eq_none hs.le, getElem?_eq_none]
      · rfl
      · rw [length_append]
        exact hs
  · rcases deleteTuple_cases p slot with ⟨hnone, hd⟩ | ⟨id, hid, hlive, hd⟩
    · rw [hd, hnone]
      exact ⟨rfl, rfl, (Function.update_eq_self_iff.mpr hnone.symm).symm⟩
    obtain ⟨hslot, -⟩ := List.getElem?_eq_some_iff.mp hid
    rw [hd]
    refine ⟨?_, by simp, funext fun s => ?_⟩
    · simp [getTuple, hid, hlive.ne', h.length ▸ hslot]
    by_cases hs : s = slot
    · subst hs
      simp [getTuple, hslot]
    · simp [getTuple, hs, Ne.symm hs]
  · rw [← map_fst_zip h.length.le, pairwise_map]
    exact h.descending
  · rw [← map_fst_zip h.length.le] at hid
    obtain ⟨e, he, rfl⟩ := mem_map.mp hid
    rw [← h.lower]
    exact h.room.trans (h.inBounds.live e he hlive).2.1

theorem isMap_two : ∃ p₁ p₂, Page.new.insertTuple [1, 2] = some (0, p₁) ∧
    p₁.insertTuple [3] = some (1, p₂) ∧ (p₂.deleteTuple 0).2.getTuple 0 = none ∧
    (p₂.deleteTuple 0).2.getTuple 1 = some [3] ∧ (p₂.deleteTuple 0).2.IsMap :=
  ⟨_, _, rfl, rfl, rfl, rfl, isMap (.delete
    (@insert _ _ _ [3] 1 (@insert _ _ _ [1, 2] 0 new (by decide) rfl) (by decide) rfl) 0)⟩

end Reached

/-! ## Corruption -/

variable {front back : List UInt8} {x y : UInt8}

theorem pageChecksum_of_inside (h : 8 ≤ front.length ∧ front.length < 12) :
    pageChecksum (front ++ x :: back) = pageChecksum (front ++ y :: back) := by
  simp [pageChecksum, mapIdx_append, mapIdx_cons, h]

/-- A step of the checksum can be undone, as its factor has an inverse. -/
theorem pageChecksum_ne (h : ¬(8 ≤ front.length ∧ front.length < 12)) (hne : x ≠ y) :
    pageChecksum (front ++ x :: back) ≠ pageChecksum (front ++ y :: back) := by
  have hprime : ∀ a b : UInt32, a * 0x01000193 = b * 0x01000193 → a = b := by
    intro a b hab
    have hinv := congrArg (· * (0x359c449b : UInt32)) hab
    simpa [UInt32.mul_assoc] using hinv
  rw [pageChecksum, pageChecksum, mapIdx_append, mapIdx_append, mapIdx_cons, mapIdx_cons,
    Nat.zero_add, if_neg h, if_neg h]
  refine foldl_ne (fun b s s' h => ?_) (fun s b b' h => ?_) hne _
  · exact (UInt32.xor_left_inj _).mp (hprime _ _ h)
  · exact UInt8.toUInt32_inj.mp ((UInt32.xor_right_inj _).mp (hprime _ _ h))

namespace Reached

/-- **A change of one byte** of a page is seen. -/
theorem fromBytes_corrupt (hp : Reached (fun _ => True) p) (h : p.toBytes = front ++ x :: back)
    (hne : x ≠ y) : ∃ e, fromBytes (front ++ y :: back) = .error e := by
  have hlen : (front ++ y :: back).length = pageSize := by
    rw [← hp.inBounds.length_toBytes, h, length_append, length_append, length_cons, length_cons]
  have hsum := hp.inBounds.pageChecksum_toBytes
  rw [h] at hsum
  rw [fromBytes, if_neg (not_not_intro hlen)]
  refine ⟨_, if_pos ?_⟩
  by_cases hin : 8 ≤ front.length ∧ front.length < 12
  · rw [← pageChecksum_of_inside (x := x) hin, ← hsum]
    exact ofLe_slice_ne hin.1 hin.2 hne.symm
  · rw [slice_of_outside (x := y) (y := x) (by omega), hsum]
    exact fun heq => pageChecksum_ne hin hne (UInt32.toNat_inj.mp heq)

theorem fromBytes_corrupt_new : ∃ x back, Page.new.toBytes = x :: back ∧
    ∃ e, fromBytes ((x + 1) :: back) = .error e := by
  have hlen := wellFormed_new.inBounds.length_toBytes
  cases h : Page.new.toBytes with
  | nil =>
    rw [h] at hlen
    cases hlen
  | cons x back =>
    exact ⟨x, back, rfl, new.fromBytes_corrupt (h.trans (nil_append _).symm) (by simp)⟩

end Reached
end PostgresRs.Disk.Page
