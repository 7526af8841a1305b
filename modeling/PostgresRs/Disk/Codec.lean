import Mathlib.Data.List.Forall2
import PostgresRs.Sql.Decimal
import PostgresRs.Util.Bytes
import PostgresRs.Util.Utf8

/-!
# Rows as bytes

The tuple codec of `engine/src/disk/mod.rs`: a row is the number of its cells, then for each cell a
tag and its payload.  `decodeRow_encodeRow`: a row is read back, whatever follows it.  Nothing is
read from a part of its bytes (`decodeRow_prefixFree`).
-/

namespace PostgresRs.Disk

open List Bytes

/-- A text with its length in front. -/
def encodeText (cs : List Char) : List UInt8 := Bytes.le 4 (Utf8.utf8 cs).length ++ Utf8.utf8 cs

/-- The tag and the payload of a cell. -/
def encodeCell : Value → List UInt8
  | .null => [0]
  | .int i => 1 :: Bytes.le 8 (i % 2 ^ 64).toNat
  | .float f => 2 :: Bytes.le 8 f.bits.toNat
  | .text s => 3 :: encodeText s.toList
  | .bool b => [4, if b then 1 else 0]
  | .numeric n => 5 :: encodeText n.toCanonicalString

def encodeRow (row : List Value) : List UInt8 := Bytes.le 4 row.length ++ row.flatMap encodeCell

/-- The next `n` bytes and the rest. -/
def getBytes (bs : List UInt8) (n : Nat) : Option (List UInt8 × List UInt8) :=
  if n ≤ bs.length then some (bs.take n, bs.drop n) else none

/-- `i64::from_le_bytes`. -/
def i64OfLe (bs : List UInt8) : Int :=
  let n := Bytes.ofLe bs
  if n < 2 ^ 63 then n else n - 2 ^ 64

def decodeText (bs : List UInt8) : Option (List Char × List UInt8) := do
  let (len, bs) ← getBytes bs 4
  let (body, bs) ← getBytes bs (Bytes.ofLe len)
  let cs ← Utf8.decode body
  some (cs, bs)

/-- What follows a tag. -/
def decodePayload : Nat → List UInt8 → Option (Value × List UInt8)
  | 0, bs => some (.null, bs)
  | 1, bs => (getBytes bs 8).map fun (v, bs) => (.int (i64OfLe v), bs)
  | 2, bs => (getBytes bs 8).map fun (v, bs) => (.float ⟨.ofNat (Bytes.ofLe v)⟩, bs)
  | 3, bs => (decodeText bs).map fun (cs, bs) => (.text (String.ofList cs), bs)
  | 4, bs => (getBytes bs 1).map fun (b, bs) => (.bool (b != [0]), bs)
  | 5, bs => do
    let (cs, bs) ← decodeText bs
    let n ← BigDecimal.parse cs
    some (.numeric n, bs)
  | _, _ => none

def decodeCell : List UInt8 → Option (Value × List UInt8)
  | [] => none
  | tag :: bs => decodePayload tag.toNat bs

/-- `n` cells; what follows them is not looked at. -/
def decodeCells : Nat → List UInt8 → Option (List Value)
  | 0, _ => some []
  | n + 1, bs => do
    let (v, bs) ← decodeCell bs
    let row ← decodeCells n bs
    some (v :: row)

def decodeRow (bs : List UInt8) : Option (List Value) := do
  let (n, bs) ← getBytes bs 4
  decodeCells (Bytes.ofLe n) bs

/-! ## Reading back -/

theorem getBytes_append {bs rest : List UInt8} {n : Nat} (h : bs.length = n) :
    getBytes (bs ++ rest) n = some (bs, rest) := by
  rw [getBytes, if_pos (by rw [length_append]; omega), take_left' h, drop_left' h]

theorem i64OfLe_le {i : Int} (h : -2 ^ 63 ≤ i ∧ i < 2 ^ 63) :
    i64OfLe (Bytes.le 8 (i % 2 ^ 64).toNat) = i := by
  rw [i64OfLe, ofLe_le (by omega)]
  split <;> omega

theorem utf8Decode_utf8 (cs : List Char) : Utf8.decode (Utf8.utf8 cs) = some cs := by
  rw [Utf8.decode, Utf8.decodeLossy_utf8_self]
  exact if_pos rfl

theorem decodeText_encodeText {cs : List Char} (h : (Utf8.utf8 cs).length < 2 ^ 32)
    (rest : List UInt8) : decodeText (encodeText cs ++ rest) = some (cs, rest) := by
  rw [decodeText, encodeText, append_assoc, getBytes_append (length_le ..)]
  show (getBytes _ _ >>= _) = _
  rw [ofLe_le h, getBytes_append rfl]
  show (Utf8.decode _ >>= _) = _
  rw [utf8Decode_utf8]
  rfl

/-- The length of a text in a cell can be written. -/
def TextFits : Value → Prop
  | .text s => (Utf8.utf8 s.toList).length < 2 ^ 32
  | .numeric n => (Utf8.utf8 n.toCanonicalString).length < 2 ^ 32
  | _ => True

variable {v : Value} {row : List Value}

theorem decodeCell_encodeCell (hv : v.Valid) (hfits : TextFits v) (rest : List UInt8) :
    decodeCell (encodeCell v ++ rest) = some (v.padded, rest) := by
  cases v with
  | null => rfl
  | int i =>
    rw [encodeCell, cons_append, decodeCell, show (1 : UInt8).toNat = 1 from rfl, decodePayload,
      getBytes_append (length_le ..)]
    show some (Value.int (i64OfLe _), rest) = _
    rw [i64OfLe_le hv]
    rfl
  | float f =>
    rw [encodeCell, cons_append, decodeCell, show (2 : UInt8).toNat = 2 from rfl, decodePayload,
      getBytes_append (length_le ..)]
    show some (Value.float ⟨.ofNat (Bytes.ofLe _)⟩, rest) = _
    rw [ofLe_le f.bits.toNat_lt, UInt64.ofNat_toNat]
    rfl
  | text s =>
    rw [encodeCell, cons_append, decodeCell, show (3 : UInt8).toNat = 3 from rfl, decodePayload,
      decodeText_encodeText hfits]
    show some (Value.text (String.ofList s.toList), rest) = _
    rw [String.ofList_toList]
    rfl
  | bool b => cases b <;> rfl
  | numeric n =>
    rw [encodeCell, cons_append, decodeCell, show (5 : UInt8).toNat = 5 from rfl, decodePayload,
      decodeText_encodeText hfits]
    show (BigDecimal.parse n.toCanonicalString >>= _) = _
    rw [BigDecimal.Normal.parse_toCanonicalString hv]
    rfl

theorem decodeCells_flatMap (hv : ∀ v ∈ row, v.Valid) (hfits : ∀ v ∈ row, TextFits v)
    (rest : List UInt8) :
    decodeCells row.length (row.flatMap encodeCell ++ rest) = some (row.map Value.padded) := by
  induction row with
  | nil => rfl
  | cons v row ih =>
    obtain ⟨hv, hvs⟩ := forall_mem_cons.mp hv
    obtain ⟨hfit, hfits⟩ := forall_mem_cons.mp hfits
    rw [flatMap_cons, append_assoc, length_cons, decodeCells,
      decodeCell_encodeCell hv hfit]
    show (decodeCells _ _ >>= _) = _
    rw [ih hvs hfits]
    rfl

/-- **A row is read back**, whatever follows it. -/
theorem decodeRow_encodeRow (hv : ∀ v ∈ row, v.Valid) (hfits : ∀ v ∈ row, TextFits v)
    (hlen : row.length < 2 ^ 32) (rest : List UInt8) :
    decodeRow (encodeRow row ++ rest) = some (row.map Value.padded) := by
  rw [decodeRow, encodeRow, append_assoc, getBytes_append (length_le ..)]
  show decodeCells _ _ = _
  rw [ofLe_le hlen, decodeCells_flatMap hv hfits]

/-! ## Prefixes -/

section

variable {p q bs rest : List UInt8}

theorem getBytes_append_of_some {n : Nat} {front : List UInt8}
    (h : getBytes bs n = some (front, rest)) (more : List UInt8) :
    getBytes (bs ++ more) n = some (front, rest ++ more) := by
  rw [getBytes, Option.ite_none_right_eq_some] at h
  obtain ⟨hn, ⟨⟩⟩ := h
  rw [getBytes, if_pos (by rw [length_append]; omega), take_append_of_le_length hn,
    drop_append_of_le_length hn]

theorem decodeText_append_of_some {cs : List Char} (h : decodeText bs = some (cs, rest))
    (more : List UInt8) : decodeText (bs ++ more) = some (cs, rest ++ more) := by
  obtain ⟨⟨len, bs₁⟩, hlen, h⟩ := Option.bind_eq_some_iff.mp h
  obtain ⟨⟨body, bs₂⟩, hbody, h⟩ := Option.bind_eq_some_iff.mp h
  obtain ⟨cs', hcs, ⟨⟩⟩ := Option.bind_eq_some_iff.mp h
  rw [decodeText, getBytes_append_of_some hlen]
  show (getBytes (bs₁ ++ more) _ >>= _) = _
  rw [getBytes_append_of_some hbody]
  show (Utf8.decode body >>= _) = _
  rw [hcs]
  rfl

/-- What follows a cell does not change how it is read. -/
theorem decodeCell_append_of_some (h : decodeCell bs = some (v, rest)) (more : List UInt8) :
    decodeCell (bs ++ more) = some (v, rest ++ more) := by
  rcases bs with _ | ⟨tag, bs⟩
  · cases h
  rw [decodeCell] at h
  rw [cons_append, decodeCell]
  generalize tag.toNat = tag at h ⊢
  unfold decodePayload at h
  split at h
  case h_1 =>
    cases h
    rfl
  case h_2 | h_3 | h_5 =>
    obtain ⟨_, hread, ⟨⟩⟩ := Option.map_eq_some_iff.mp h
    rw [decodePayload, getBytes_append_of_some hread]
    rfl
  case h_4 =>
    obtain ⟨_, hread, ⟨⟩⟩ := Option.map_eq_some_iff.mp h
    rw [decodePayload, decodeText_append_of_some hread]
    rfl
  case h_6 =>
    obtain ⟨_, hread, h⟩ := Option.bind_eq_some_iff.mp h
    obtain ⟨n, hn, ⟨⟩⟩ := Option.bind_eq_some_iff.mp h
    rw [decodePayload, decodeText_append_of_some hread]
    show (BigDecimal.parse _ >>= _) = _
    rw [hn]
    rfl
  case h_7 => cases h

/-- A cut of two parts goes through the first one, or behind it. -/
theorem cut_append {a b : List UInt8} (h : a ++ b = p ++ q) :
    (∃ q', q' ≠ [] ∧ a = p ++ q') ∨ ∃ p', p = a ++ p' ∧ b = p' ++ q := by
  rcases append_eq_append_iff.mp h with hbehind | ⟨q', ha, hq⟩
  · exact .inr hbehind
  · by_cases hq' : q' = []
    · subst hq'
      exact .inr ⟨[], by rw [ha, append_nil, append_nil], hq.symm⟩
    · exact .inl ⟨q', hq', ha⟩

theorem decodeCell_eq_none (hv : v.Valid) (hfits : TextFits v) (hq : q ≠ [])
    (h : encodeCell v = p ++ q) : decodeCell p = none := by
  refine Option.eq_none_iff_forall_ne_some.mpr fun ⟨v', rest⟩ hread => ?_
  -- The whole cell leaves no bytes, but this reading leaves the bytes that were cut off.
  have hwhole := decodeCell_encodeCell hv hfits []
  rw [append_nil, h, decodeCell_append_of_some hread, Option.some_inj, Prod.mk.injEq] at hwhole
  exact hq (append_eq_nil_iff.mp hwhole.2).2

theorem decodeCells_eq_none (hv : ∀ v ∈ row, v.Valid) (hfits : ∀ v ∈ row, TextFits v) (hq : q ≠ [])
    (h : row.flatMap encodeCell = p ++ q) : decodeCells row.length p = none := by
  induction row generalizing p with
  | nil => exact absurd (append_eq_nil_iff.mp h.symm).2 hq
  | cons v row ih =>
    obtain ⟨hv, hvs⟩ := forall_mem_cons.mp hv
    obtain ⟨hfit, hfits⟩ := forall_mem_cons.mp hfits
    rw [flatMap_cons] at h
    rw [length_cons, decodeCells]
    rcases cut_append h with ⟨q', hq', hcell⟩ | ⟨p', rfl, hrow⟩
    · rw [decodeCell_eq_none hv hfit hq' hcell]
      rfl
    · rw [decodeCell_encodeCell hv hfit]
      show (decodeCells _ p' >>= _) = _
      rw [ih hvs hfits hrow]
      rfl

/-- **Rows are a prefix-free code**: a row is read back whatever follows it, and nothing is read
from a part of its bytes. -/
theorem decodeRow_prefixFree (hv : ∀ v ∈ row, v.Valid) (hfits : ∀ v ∈ row, TextFits v)
    (hlen : row.length < 2 ^ 32) :
    (∀ rest, ∃ row', decodeRow (encodeRow row ++ rest) = some row' ∧
      Forall₂ Value.Same row row') ∧
    ∀ p, p <+: encodeRow row → p ≠ encodeRow row → decodeRow p = none := by
  refine ⟨fun rest => ⟨_, decodeRow_encodeRow hv hfits hlen rest, ?_⟩, ?_⟩
  · exact forall₂_map_right_iff.mpr (forall₂_same.mpr fun v _ => .padded v)
  rintro p ⟨q, h⟩ hne
  have hq : q ≠ [] := fun hq => hne (by rw [← h, hq, append_nil])
  rw [decodeRow]
  rcases cut_append h.symm with ⟨q', hq', hcount⟩ | ⟨p', rfl, hcells⟩
  · have hlt := congrArg length hcount
    have hpos := length_pos_iff.mpr hq'
    rw [length_le, length_append] at hlt
    rw [getBytes, if_neg (by omega)]
    rfl
  · rw [getBytes_append (length_le ..)]
    show decodeCells _ p' = none
    rw [ofLe_le hlen, decodeCells_eq_none hv hfits hq hcells]

/-- The row -7, 1.5, 'é', -0.50, NULL, true. -/
def sampleRow : List Value :=
  [.int (-7), .float ⟨0x3FF8000000000000⟩, .text "é", .numeric ⟨true, [5, 0], 2⟩, .null, .bool true]

theorem decodeRow_prefixFree_sample :
    (∀ rest, ∃ row', decodeRow (encodeRow sampleRow ++ rest) = some row' ∧
      Forall₂ Value.Same sampleRow row') ∧
    ∀ p, p <+: encodeRow sampleRow → p ≠ encodeRow sampleRow → decodeRow p = none :=
  decodeRow_prefixFree
    (by
      simp only [sampleRow, forall_mem_cons, Value.Valid, not_mem_nil, false_implies, implies_true]
      decide +kernel)
    (by
      simp only [sampleRow, forall_mem_cons, TextFits, not_mem_nil, false_implies, implies_true]
      decide)
    (by decide)

end

/-! ## Lengths -/

theorem encodeCell_pos (v : Value) : 0 < (encodeCell v).length := by
  cases v <;> exact Nat.succ_pos _

theorem length_encodeCell_lt (h : v ∈ row) : (encodeCell v).length < (encodeRow row).length := by
  obtain ⟨front, back, rfl⟩ := append_of_mem h
  simp only [encodeRow, flatMap_append, flatMap_cons, length_append, length_le]
  omega

theorem length_lt_encodeRow (row : List Value) : row.length < (encodeRow row).length := by
  have h : row.length ≤ (row.flatMap encodeCell).length := by
    induction row with
    | nil => exact le_rfl
    | cons v row ih =>
      have := encodeCell_pos v
      rw [flatMap_cons, length_append, length_cons]
      omega
  rw [encodeRow, length_append, length_le]
  omega

theorem textFits_of_mem (h : (encodeRow row).length < 2 ^ 32) (hv : v ∈ row) : TextFits v := by
  have hlt := (length_encodeCell_lt hv).trans h
  have htext : ∀ cs : List Char, (encodeText cs).length + 1 < 2 ^ 32 →
      (Utf8.utf8 cs).length < 2 ^ 32 := by
    intro cs hcs
    rw [encodeText, length_append] at hcs
    omega
  cases v with
  | text s => exact htext s.toList hlt
  | numeric n => exact htext n.toCanonicalString hlt
  | _ => trivial

end PostgresRs.Disk
