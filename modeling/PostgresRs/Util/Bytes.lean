import Mathlib.Algebra.Order.Ring.Nat

/-!
# Bytes

A number in a fixed number of bytes, the lowest first (`to_le_bytes`, `from_le_bytes`), and buffers
that are written in pieces: `slice` reads a piece, `patch` overwrites one, and `patchAll` does that
with a list of pieces.  Pieces that do not overlap are all there in the end (`slice_patchAll`), and a
buffer of blocks of one size is read and written by blocks (`slice_flatten`, `patch_flatten_set`).
A checksum whose steps can be undone tells buffers apart that differ in one byte (`foldl_ne`).
-/

namespace PostgresRs.Bytes

open List

/-- The lowest `w` bytes of `n`. -/
def le : Nat → Nat → List UInt8
  | 0, _ => []
  | w + 1, n => .ofNat n :: le w (n / 256)

/-- The number with the given bytes. -/
def ofLe (bs : List UInt8) : Nat := bs.foldr (fun b n => b.toNat + 256 * n) 0

@[simp] theorem length_le (w n : Nat) : (le w n).length = w := by
  induction w generalizing n with
  | zero => rfl
  | succ w ih => rw [le, length_cons, ih]

/-- A number that fits is read back. -/
theorem ofLe_le {w n : Nat} (h : n < 256 ^ w) : ofLe (le w n) = n := by
  induction w generalizing n with
  | zero =>
    rw [Nat.pow_zero, Nat.lt_one_iff] at h
    rw [h]
    rfl
  | succ w ih =>
    have hrest : n / 256 < 256 ^ w := by
      rw [Nat.pow_succ] at h
      exact Nat.div_lt_of_lt_mul (by omega)
    show (UInt8.ofNat n).toNat + 256 * ofLe (le w (n / 256)) = n
    rw [ih hrest, UInt8.toNat_ofNat']
    exact Nat.mod_add_div n 256

theorem ofLe_inj {as bs : List UInt8} (hlen : as.length = bs.length) (h : ofLe as = ofLe bs) :
    as = bs := by
  induction as generalizing bs with
  | nil => exact (length_eq_zero_iff.mp hlen.symm).symm
  | cons a as ih =>
    rcases bs with _ | ⟨b, bs⟩
    · cases hlen
    have hab : a.toNat + 256 * ofLe as = b.toNat + 256 * ofLe bs := h
    have ha := a.toNat_lt
    have hb := b.toNat_lt
    rw [ih (Nat.succ.inj hlen) (by omega), UInt8.toNat_inj.mp (show a.toNat = b.toNat by omega)]

/-! ## Pieces of a buffer -/

/-- `len` bytes from `off` on. -/
def slice (buf : List UInt8) (off len : Nat) : List UInt8 := (buf.drop off).take len

/-- Overwrite what is at `off`.  Past the end, the buffer grows, with zeros in a gap. -/
def patch (buf : List UInt8) (off : Nat) (bytes : List UInt8) : List UInt8 :=
  buf.take off ++ List.replicate (off - buf.length) 0 ++ bytes ++ buf.drop (off + bytes.length)

section

variable {buf bytes : List UInt8} {off : Nat}

theorem getElem?_slice (buf : List UInt8) (off len i : Nat) :
    (slice buf off len)[i]? = if i < len then buf[off + i]? else none := by
  rw [slice, getElem?_take, getElem?_drop]

theorem length_patch (h : off + bytes.length ≤ buf.length) : (patch buf off bytes).length = buf.length := by
  simp only [patch, length_append, length_take, length_replicate, length_drop]
  omega

theorem getElem?_patch (h : off + bytes.length ≤ buf.length) (i : Nat) :
    (patch buf off bytes)[i]? =
      if off ≤ i ∧ i < off + bytes.length then bytes[i - off]? else buf[i]? := by
  have hfill : buf.take off ++ List.replicate (off - buf.length) 0 = buf.take off := by
    rw [Nat.sub_eq_zero_of_le (by omega), replicate_zero, append_nil]
  have hlen : (buf.take off).length = off := length_take_of_le (by omega)
  rw [patch, hfill, append_assoc]
  rcases Nat.lt_or_ge i off with hi | hi
  · rw [getElem?_append_left (by omega), getElem?_take_of_lt hi, if_neg (by omega)]
  rw [getElem?_append_right (by omega), hlen]
  rcases Nat.lt_or_ge i (off + bytes.length) with hi' | hi'
  · rw [getElem?_append_left (by omega), if_pos ⟨hi, hi'⟩]
  · rw [getElem?_append_right (by omega), if_neg (by omega), getElem?_drop]
    congr 1
    omega

/-- What was written is read. -/
theorem slice_patch (buf : List UInt8) (off : Nat) (bytes : List UInt8) :
    slice (patch buf off bytes) off bytes.length = bytes := by
  have hlen : (buf.take off ++ List.replicate (off - buf.length) 0).length = off := by
    rw [length_append, length_take, length_replicate]
    omega
  rw [slice, patch, append_assoc (_ ++ _), drop_left' hlen, take_left]

/-- What is elsewhere stays. -/
theorem slice_patch_of_disjoint {off' len : Nat} (h : off + bytes.length ≤ buf.length)
    (hd : off' + len ≤ off ∨ off + bytes.length ≤ off') :
    slice (patch buf off bytes) off' len = slice buf off' len := by
  refine ext_getElem? fun i => ?_
  rw [getElem?_slice, getElem?_slice]
  split
  · rw [getElem?_patch h, if_neg (by omega)]
  · rfl

end

/-- Write pieces, each with its place, one after the other. -/
def patchAll (buf : List UInt8) (pieces : List (Nat × List UInt8)) : List UInt8 :=
  pieces.foldl (fun buf piece => patch buf piece.1 piece.2) buf

/-- Two places with pieces on them do not overlap. -/
def Apart (piece piece' : Nat × List UInt8) : Prop :=
  piece.1 + piece.2.length ≤ piece'.1 ∨ piece'.1 + piece'.2.length ≤ piece.1

section

variable {buf : List UInt8} {pieces : List (Nat × List UInt8)}

variable (h : ∀ piece ∈ pieces, piece.1 + piece.2.length ≤ buf.length)
include h

theorem length_patchAll : (patchAll buf pieces).length = buf.length := by
  induction pieces generalizing buf with
  | nil => rfl
  | cons piece rest ih =>
    obtain ⟨hpiece, hrest⟩ := forall_mem_cons.mp h
    have hlen := length_patch hpiece
    show (patchAll (patch buf piece.1 piece.2) rest).length = _
    rw [ih (fun q hq => (hrest q hq).trans hlen.ge), hlen]

theorem slice_patchAll_of_disjoint {off len : Nat}
    (hd : ∀ piece ∈ pieces, off + len ≤ piece.1 ∨ piece.1 + piece.2.length ≤ off) :
    slice (patchAll buf pieces) off len = slice buf off len := by
  induction pieces generalizing buf with
  | nil => rfl
  | cons piece rest ih =>
    obtain ⟨hpiece, hrest⟩ := forall_mem_cons.mp h
    obtain ⟨hdpiece, hdrest⟩ := forall_mem_cons.mp hd
    show slice (patchAll (patch buf piece.1 piece.2) rest) off len = _
    rw [ih (fun q hq => (hrest q hq).trans (length_patch hpiece).ge) hdrest,
      slice_patch_of_disjoint hpiece hdpiece]

/-- **Pieces that do not overlap** are all there in the end. -/
theorem slice_patchAll
    (hd : pieces.Pairwise Apart) {piece : Nat × List UInt8} (hmem : piece ∈ pieces) :
    slice (patchAll buf pieces) piece.1 piece.2.length = piece.2 := by
  induction pieces generalizing buf with
  | nil => cases hmem
  | cons first rest ih =>
    obtain ⟨hfirst, hrest⟩ := forall_mem_cons.mp h
    obtain ⟨hapart, hdrest⟩ := pairwise_cons.mp hd
    have hrange : ∀ q ∈ rest, q.1 + q.2.length ≤ (patch buf first.1 first.2).length := fun q hq =>
      (hrest q hq).trans (length_patch hfirst).ge
    show slice (patchAll (patch buf first.1 first.2) rest) _ _ = _
    rcases mem_cons.mp hmem with rfl | hmem
    · rw [slice_patchAll_of_disjoint hrange hapart, slice_patch]
    · exact ih hrange hdrest hmem

end

/-! ## Blocks of one size -/

section

variable {blocks : List (List UInt8)} {w : Nat}

theorem length_flatten (h : ∀ b ∈ blocks, b.length = w) : blocks.flatten.length = blocks.length * w := by
  rw [List.length_flatten, map_congr_left h, map_const', sum_replicate_nat]

variable {i : Nat}

/-- What lies before a block, the block, and what lies behind it. -/
theorem flatten_eq (hi : i < blocks.length) :
    blocks.flatten = (blocks.take i).flatten ++ (blocks[i] ++ (blocks.drop (i + 1)).flatten) := by
  conv_lhs => rw [← take_append_drop i blocks, drop_eq_getElem_cons hi]
  rw [flatten_append, flatten_cons]

variable (h : ∀ b ∈ blocks, b.length = w)
include h

theorem length_flatten_take (hi : i ≤ blocks.length) : (blocks.take i).flatten.length = i * w := by
  rw [length_flatten fun b hb => h b (mem_of_mem_take hb), length_take_of_le hi]

theorem slice_flatten (hi : i < blocks.length) : slice blocks.flatten (i * w) w = blocks[i] := by
  rw [slice, flatten_eq hi, drop_left' (length_flatten_take h hi.le),
    take_left' (h _ (getElem_mem hi))]

/-- A block is replaced. -/
theorem patch_flatten_set (hi : i < blocks.length) {block : List UInt8}
    (hblock : block.length = w) :
    patch blocks.flatten (i * w) block = (blocks.set i block).flatten := by
  have hfront := length_flatten_take h hi.le
  have hle : i * w ≤ blocks.flatten.length := by
    rw [length_flatten h]
    exact Nat.mul_le_mul_right w hi.le
  have hset : (blocks.set i block).flatten =
      (blocks.take i).flatten ++ (block ++ (blocks.drop (i + 1)).flatten) := by
    rw [set_eq_take_append_cons_drop, if_pos hi, flatten_append, flatten_cons]
  rw [patch, Nat.sub_eq_zero_of_le hle, replicate_zero, append_nil, hset, hblock,
    flatten_eq hi, take_left' hfront, ← append_assoc _ blocks[i], append_assoc _ block,
    drop_left']
  rw [length_append, hfront, h _ (getElem_mem hi)]

/-- A block is appended. -/
theorem patch_flatten_length (block : List UInt8) :
    patch blocks.flatten (blocks.length * w) block = (blocks ++ [block]).flatten := by
  have hlen := length_flatten h
  rw [patch, ← hlen, take_length, Nat.sub_self, replicate_zero, append_nil,
    drop_eq_nil_of_le (Nat.le_add_right _ _), append_nil, flatten_append,
    flatten_singleton]

end

/-! ## One byte -/

section

variable {front back : List UInt8} {x y : UInt8} {off len : Nat}

theorem slice_of_outside (h : front.length < off ∨ off + len ≤ front.length) :
    slice (front ++ x :: back) off len = slice (front ++ y :: back) off len := by
  refine ext_getElem? fun i => ?_
  rw [getElem?_slice, getElem?_slice]
  split
  · next hi =>
    rw [getElem?_append, getElem?_append, getElem?_cons, getElem?_cons]
    split
    · rfl
    · rw [if_neg (by omega), if_neg (by omega)]
  · rfl

theorem slice_of_inside (hoff : off ≤ front.length) (hlen : front.length < off + len) :
    ∃ back', ∀ x, slice (front ++ x :: back) off len = front.drop off ++ x :: back' := by
  refine ⟨back.take (len - (front.length - off) - 1), fun x => ?_⟩
  have hpos : len - (front.length - off) = len - (front.length - off) - 1 + 1 := by omega
  rw [slice, drop_append_of_le_length hoff, take_append, length_drop,
    take_of_length_le (by rw [length_drop]; omega), hpos, take_succ_cons, Nat.add_sub_cancel]

theorem ofLe_slice_ne (hoff : off ≤ front.length) (hlen : front.length < off + len) (hne : x ≠ y) :
    ofLe (slice (front ++ x :: back) off len) ≠ ofLe (slice (front ++ y :: back) off len) := by
  obtain ⟨back', hslice⟩ := @slice_of_inside front back off len hoff hlen
  rw [hslice, hslice]
  refine fun h => hne ?_
  simpa using ofLe_inj (by simp) h

variable {σ : Type} {f : σ → UInt8 → σ}

/-- A checksum that can be undone step by step sees every change of one byte. -/
theorem foldl_ne (hstate : ∀ b, Function.Injective (f · b)) (hbyte : ∀ s, Function.Injective (f s))
    (hne : x ≠ y) (s : σ) : (front ++ x :: back).foldl f s ≠ (front ++ y :: back).foldl f s := by
  have hback : Function.Injective fun s => back.foldl f s := by
    induction back with
    | nil => exact fun _ _ h => h
    | cons b back ih => exact ih.comp (hstate b)
  rw [foldl_append, foldl_append, foldl_cons, foldl_cons]
  exact hback.ne ((hbyte _).ne hne)

end

end PostgresRs.Bytes
