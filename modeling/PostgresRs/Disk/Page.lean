import PostgresRs.Util.Bytes
import PostgresRs.Util.Fallible
import Mathlib.Data.List.Zip

/-!
# Slotted pages

The page format of `engine/src/disk/page.rs`: 8192 bytes with a header, an array of line pointers that
grows forward, and the tuples, which grow backward from the end.  The main result is
`WellFormed.fromBytes_toBytes`: a page is read back from its bytes.  The bytes are written in pieces
that do not overlap, because the line pointers end where the free space starts and the tuples lie
behind it, each below the one before.
-/

namespace PostgresRs.Disk

open List Bytes

def pageSize : Nat := 8192
def headerSize : Nat := 24
def itemIdSize : Nat := 4

/-- A line pointer.  A dead slot has length 0. -/
structure ItemId where
  offset : Nat
  length : Nat
deriving DecidableEq, Repr

structure PageHeader where
  lsn : Nat
  flags : Nat
  lower : Nat
  upper : Nat
  special : Nat
deriving DecidableEq, Repr

structure Page where
  header : PageHeader
  ids : List ItemId
  tuples : List (List UInt8)
deriving DecidableEq, Repr

inductive PageError where
  | badLength (n : Nat)
  | checksum (stored computed : Nat)
  | malformed
deriving DecidableEq, Repr

/-- The FNV-1a checksum, with the bytes of the checksum itself taken as zero. -/
def pageChecksum (buf : List UInt8) : UInt32 :=
  (buf.mapIdx fun i b => if 8 ≤ i ∧ i < 12 then 0 else b).foldl
    (fun hash b => (hash ^^^ b.toUInt32) * 0x01000193) 0x811c9dc5

namespace Page

def new : Page := ⟨⟨0, 0, headerSize, pageSize, pageSize⟩, [], []⟩

variable (p : Page)

def freeSpace : Nat := p.header.upper - p.header.lower

def canFit (len : Nat) : Bool := decide (len + itemIdSize ≤ p.freeSpace)

/-- The slot of the new tuple and the page with it, if it fits. -/
def insertTuple (data : List UInt8) : Option (Nat × Page) :=
  if p.canFit data.length then
    let newUpper := p.header.upper - data.length
    some (p.ids.length,
      { header := { p.header with upper := newUpper, lower := p.header.lower + itemIdSize }
        ids := p.ids ++ [⟨newUpper, data.length⟩]
        tuples := p.tuples ++ [data] })
  else none

/-- The live tuples with their slots. -/
def iterLive : List (Nat × List UInt8) :=
  (p.ids.zip p.tuples).zipIdx.filterMap fun (e, slot) =>
    if e.1.length = 0 then none else some (slot, e.2)

/-! ## Bytes -/

/-- The fields of the header, but the checksum. -/
def headerPieces : List (Nat × List UInt8) :=
  [(0, Bytes.le 8 p.header.lsn), (12, Bytes.le 2 p.header.flags), (14, Bytes.le 2 p.header.lower),
    (16, Bytes.le 2 p.header.upper), (18, Bytes.le 2 p.header.special),
    (20, Bytes.le 4 p.ids.length)]

/-- The line pointers. -/
def itemPieces : List (Nat × List UInt8) :=
  p.ids.mapIdx fun i id =>
    (headerSize + i * itemIdSize, Bytes.le 2 id.offset ++ Bytes.le 2 id.length)

/-- The live tuples, each at its offset. -/
def tuplePieces : List (Nat × List UInt8) :=
  (p.ids.zip p.tuples).filterMap fun (id, tuple) =>
    if id.length = 0 then none else some (id.offset, tuple)

def pieces : List (Nat × List UInt8) := p.headerPieces ++ (p.itemPieces ++ p.tuplePieces)

def toBytes : List UInt8 :=
  let buf := Bytes.patchAll (List.replicate pageSize 0) p.pieces
  Bytes.patch buf 8 (Bytes.le 4 (pageChecksum buf).toNat)

/-- The line pointer of a slot and its tuple. -/
def readSlot (buf : List UInt8) (i : Nat) : Except PageError (ItemId × List UInt8) :=
  let base := headerSize + i * itemIdSize
  if pageSize < base + itemIdSize then .error .malformed
  else
    let item := Bytes.slice buf base itemIdSize
    let offset := Bytes.ofLe (item.take 2)
    let length := Bytes.ofLe (item.drop 2)
    if length = 0 then .ok (⟨0, 0⟩, [])
    else if pageSize < offset + length ∨ offset < headerSize then .error .malformed
    else .ok (⟨offset, length⟩, Bytes.slice buf offset length)

def fromBytes (buf : List UInt8) : Except PageError Page :=
  if buf.length ≠ pageSize then .error (.badLength buf.length)
  else
    let stored := Bytes.ofLe (Bytes.slice buf 8 4)
    let computed := (pageChecksum buf).toNat
    if stored ≠ computed then .error (.checksum stored computed)
    else do
      let slots ← (List.range (Bytes.ofLe (Bytes.slice buf 20 4))).mapM (readSlot buf)
      .ok {
        header :=
          { lsn := Bytes.ofLe (Bytes.slice buf 0 8), flags := Bytes.ofLe (Bytes.slice buf 12 2)
            lower := Bytes.ofLe (Bytes.slice buf 14 2), upper := Bytes.ofLe (Bytes.slice buf 16 2)
            special := Bytes.ofLe (Bytes.slice buf 18 2) }
        ids := slots.map Prod.fst
        tuples := slots.map Prod.snd }

/-! ## Well-formed pages -/

/-- The line pointers end where the free space starts, and the live tuples lie behind it. -/
structure InBounds (p : Page) : Prop where
  length : p.ids.length = p.tuples.length
  lower : p.header.lower = headerSize + p.ids.length * itemIdSize
  room : p.header.lower ≤ p.header.upper
  upper : p.header.upper ≤ pageSize
  live : ∀ e ∈ p.ids.zip p.tuples, 0 < e.1.length →
    e.1.length = e.2.length ∧ p.header.upper ≤ e.1.offset ∧ e.1.offset + e.1.length ≤ pageSize

/-- A dead slot, or one whose tuple lies behind the free space. -/
def SlotOk (upper : Nat) (e : ItemId × List UInt8) : Prop :=
  e = (⟨0, 0⟩, []) ∨
    0 < e.1.length ∧ e.1.length = e.2.length ∧ upper ≤ e.1.offset ∧ e.1.offset + e.1.length ≤ pageSize

/-- The line pointers end where the free space starts, and the tuples lie behind it, each below the
one before. -/
structure WellFormed (p : Page) : Prop where
  lsn : p.header.lsn < 256 ^ 8
  flags : p.header.flags < 256 ^ 2
  special : p.header.special < 256 ^ 2
  length : p.ids.length = p.tuples.length
  lower : p.header.lower = headerSize + p.ids.length * itemIdSize
  room : p.header.lower ≤ p.header.upper
  upper : p.header.upper ≤ pageSize
  slots : ∀ e ∈ p.ids.zip p.tuples, SlotOk p.header.upper e
  descending : (p.ids.zip p.tuples).Pairwise fun e e' =>
    0 < e.1.length → 0 < e'.1.length → e'.1.offset + e'.1.length ≤ e.1.offset

theorem WellFormed.inBounds {p : Page} (h : p.WellFormed) : p.InBounds where
  length := h.length
  lower := h.lower
  room := h.room
  upper := h.upper
  live e he hlive := by
    rcases h.slots e he with rfl | ⟨-, hrest⟩
    · cases hlive
    · exact hrest

theorem wellFormed_new : new.WellFormed where
  lsn := by decide
  flags := by decide
  special := by decide
  length := rfl
  lower := rfl
  room := by decide
  upper := le_rfl
  slots e he := by cases he
  descending := .nil

theorem canFit_iff {p : Page} {len : Nat} :
    p.canFit len = true ↔ len + itemIdSize ≤ p.header.upper - p.header.lower :=
  decide_eq_true_iff

variable {data : List UInt8} {slot : Nat}

/-- What an insertion does. -/
theorem insertTuple_eq_some {p p' : Page} (h : p.insertTuple data = some (slot, p')) :
    data.length + 4 ≤ p.header.upper - p.header.lower ∧ slot = p.ids.length ∧
      p' = { header := { p.header with
               upper := p.header.upper - data.length, lower := p.header.lower + 4 }
             ids := p.ids ++ [⟨p.header.upper - data.length, data.length⟩]
             tuples := p.tuples ++ [data] } := by
  rw [insertTuple, Option.ite_none_right_eq_some, canFit_iff] at h
  obtain ⟨hfit, ⟨⟩⟩ := h
  exact ⟨hfit, rfl, rfl⟩

theorem InBounds.insertTuple {p p' : Page} (h : p.InBounds)
    (hins : p.insertTuple data = some (slot, p')) : p'.InBounds := by
  obtain ⟨hfit, -, rfl⟩ := insertTuple_eq_some hins
  have hupper := h.upper
  refine ⟨by simp [h.length], ?_, ?_, (Nat.sub_le _ _).trans hupper, fun e he hlive => ?_⟩
  · have hlower := h.lower
    simp only [length_append, length_singleton, itemIdSize] at hlower ⊢
    omega
  · dsimp only
    omega
  · rw [zip_append h.length] at he
    rcases mem_append.mp he with he | he
    · obtain ⟨hlen, hoff, hend⟩ := h.live e he hlive
      exact ⟨hlen, (Nat.sub_le _ _).trans hoff, hend⟩
    · obtain rfl := mem_singleton.mp he
      refine ⟨rfl, le_rfl, ?_⟩
      dsimp only
      omega

/-- A tuple that is not empty keeps a page well-formed. -/
theorem WellFormed.insertTuple {p p' : Page} (h : p.WellFormed) (hdata : data ≠ [])
    (hins : p.insertTuple data = some (slot, p')) : p'.WellFormed := by
  have hb := h.inBounds.insertTuple hins
  obtain ⟨hfit, -, rfl⟩ := insertTuple_eq_some hins
  have hpos : 0 < data.length := length_pos_iff.mpr hdata
  refine ⟨h.lsn, h.flags, h.special, hb.length, hb.lower, hb.room, hb.upper, fun e he => ?_, ?_⟩
  · by_cases hlive : 0 < e.1.length
    · exact .inr ⟨hlive, hb.live e he hlive⟩
    rw [zip_append h.length] at he
    rcases mem_append.mp he with he | he
    · exact .inl ((h.slots e he).resolve_right fun hslot => hlive hslot.1)
    · rw [mem_singleton.mp he] at hlive
      exact absurd hpos hlive
  · rw [zip_append h.length, pairwise_append]
    refine ⟨h.descending, pairwise_singleton _ _, fun e he e' he' hlive _ => ?_⟩
    have hoff := (h.inBounds.live e he hlive).2.1
    rw [mem_singleton.mp he']
    dsimp only
    omega

/-- The new tuple comes behind the live ones. -/
theorem WellFormed.iterLive_insertTuple {p p' : Page} (h : p.WellFormed) (hdata : data ≠ [])
    (hins : p.insertTuple data = some (slot, p')) : p'.iterLive = p.iterLive ++ [(slot, data)] := by
  obtain ⟨-, rfl, rfl⟩ := insertTuple_eq_some hins
  have hpos : data.length ≠ 0 := (length_pos_iff.mpr hdata).ne'
  have hlen : (p.ids.zip p.tuples).length = p.ids.length := by
    rw [length_zip, ← h.length, Nat.min_self]
  rw [iterLive, zip_append h.length, zipIdx_append, hlen]
  simp [iterLive, hpos]

/-! ## The pieces of the bytes -/

theorem headerPieces_lt {p : Page} : ∀ piece ∈ p.headerPieces,
    piece.1 + piece.2.length ≤ headerSize ∧ (piece.1 + piece.2.length ≤ 8 ∨ 12 ≤ piece.1) := by
  simp [headerPieces, headerSize]

namespace InBounds

variable {p : Page} (h : p.InBounds)
include h

theorem itemPieces_lt : ∀ piece ∈ p.itemPieces,
    headerSize ≤ piece.1 ∧ piece.1 + piece.2.length ≤ p.header.lower := by
  intro piece hpiece
  obtain ⟨i, hi, rfl⟩ := mem_mapIdx.mp hpiece
  rw [h.lower, length_append, length_le, length_le]
  simp only [itemIdSize]
  omega

theorem tuplePieces_lt : ∀ piece ∈ p.tuplePieces,
    p.header.upper ≤ piece.1 ∧ piece.1 + piece.2.length ≤ pageSize := by
  intro piece hpiece
  obtain ⟨e, he, hpiece⟩ := mem_filterMap.mp hpiece
  rw [Option.ite_none_left_eq_some, Option.some_inj] at hpiece
  obtain ⟨hlen, hoff, hend⟩ := h.live e he (Nat.pos_of_ne_zero hpiece.1)
  rw [← hpiece.2]
  exact ⟨hoff, hlen ▸ hend⟩

theorem pieces_lt : ∀ piece ∈ p.pieces, piece.1 + piece.2.length ≤ pageSize ∧
    (piece.1 + piece.2.length ≤ 8 ∨ 12 ≤ piece.1) := by
  have hroom := h.room
  have hlower := h.lower
  have hupper := h.upper
  intro piece hpiece
  rcases mem_append.mp hpiece with hpiece | hpiece
  · have := headerPieces_lt piece hpiece
    omega
  · rcases mem_append.mp hpiece with hpiece | hpiece
    · have := h.itemPieces_lt piece hpiece
      simp only [headerSize] at this hlower
      omega
    · have := h.tuplePieces_lt piece hpiece
      simp only [headerSize] at this hlower
      omega

/-- The bytes before the checksum is there. -/
theorem length_image : (Bytes.patchAll (List.replicate pageSize 0) p.pieces).length = pageSize := by
  rw [length_patchAll, length_replicate]
  intro piece hpiece
  rw [length_replicate]
  exact (h.pieces_lt piece hpiece).1

theorem length_toBytes : p.toBytes.length = pageSize := by
  rw [toBytes, length_patch, h.length_image]
  rw [h.length_image, length_le]
  decide

end InBounds

namespace WellFormed

variable {p : Page} (h : p.WellFormed)
include h

theorem pieces_apart : p.pieces.Pairwise Bytes.Apart := by
  have hroom := h.room
  have hlower := h.lower
  rw [pieces, pairwise_append, pairwise_append]
  refine ⟨?_, ⟨?_, ?_, ?_⟩, ?_⟩
  · simp [headerPieces, Bytes.Apart]
  · rw [pairwise_iff_getElem]
    intro i j hi hj hij
    simp only [itemPieces, getElem_mapIdx]
    left
    rw [length_append, length_le, length_le]
    simp only [itemIdSize]
    omega
  · rw [tuplePieces, pairwise_filterMap]
    refine h.descending.imp_of_mem fun {e e'} he he' hdesc piece hpiece piece' hpiece' => ?_
    rcases h.slots e he with rfl | ⟨hlive, -, -, -⟩
    · cases hpiece
    rcases h.slots e' he' with rfl | ⟨hlive', hlen', -, -⟩
    · cases hpiece'
    simp only [if_neg hlive.ne', Option.some.injEq] at hpiece
    simp only [if_neg hlive'.ne', Option.some.injEq] at hpiece'
    right
    rw [← hpiece, ← hpiece', ← hlen']
    exact hdesc hlive hlive'
  · intro piece hpiece piece' hpiece'
    have := h.inBounds.itemPieces_lt piece hpiece
    have := h.inBounds.tuplePieces_lt piece' hpiece'
    left
    omega
  · intro piece hpiece piece' hpiece'
    have hhead := headerPieces_lt piece hpiece
    left
    rcases mem_append.mp hpiece' with hpiece' | hpiece'
    · have := h.inBounds.itemPieces_lt piece' hpiece'
      omega
    · have := h.inBounds.tuplePieces_lt piece' hpiece'
      omega

/-- Each piece is in the bytes. -/
theorem slice_toBytes {off len : Nat} {bytes : List UInt8} (hmem : (off, bytes) ∈ p.pieces)
    (hlen : bytes.length = len) : Bytes.slice p.toBytes off len = bytes := by
  have hplace := (h.inBounds.pieces_lt _ hmem).2
  subst hlen
  rw [toBytes, slice_patch_of_disjoint]
  · refine slice_patchAll (fun piece hpiece => ?_) h.pieces_apart hmem
    rw [length_replicate]
    exact (h.inBounds.pieces_lt piece hpiece).1
  · rw [h.inBounds.length_image, length_le]
    decide
  · exact hplace

end WellFormed

/-! ## Reading back -/

/-- The checksum does not depend on the bytes where it is stored. -/
theorem pageChecksum_patch {buf bytes : List UInt8} (hbuf : 12 ≤ buf.length) (hlen : bytes.length = 4) :
    pageChecksum (Bytes.patch buf 8 bytes) = pageChecksum buf := by
  rw [pageChecksum]
  congr 1
  refine ext_getElem? fun i => ?_
  rw [getElem?_mapIdx, getElem?_mapIdx, getElem?_patch (by omega), hlen]
  split
  · rw [getElem?_eq_getElem (by omega), getElem?_eq_getElem (by omega), Option.map_some,
      Option.map_some]
  · rfl

theorem InBounds.pageChecksum_toBytes {p : Page} (h : p.InBounds) :
    Bytes.ofLe (Bytes.slice p.toBytes 8 4) = (pageChecksum p.toBytes).toNat := by
  have hslice := slice_patch (Bytes.patchAll (List.replicate pageSize 0) p.pieces) 8
    (Bytes.le 4 (pageChecksum (Bytes.patchAll (List.replicate pageSize 0) p.pieces)).toNat)
  rw [length_le] at hslice
  rw [toBytes, hslice, ofLe_le (UInt32.toNat_lt _), pageChecksum_patch _ (length_le ..)]
  rw [h.length_image]
  decide

namespace WellFormed

variable {p : Page} (h : p.WellFormed)
include h

theorem length_le_pageSize : p.ids.length < 2 ^ 11 := by
  have hlower := h.lower
  have hroom := h.room
  have hupper := h.upper
  simp only [headerSize, itemIdSize, pageSize] at hlower hupper
  omega

theorem readSlot_toBytes {i : Nat} (hi : i < (p.ids.zip p.tuples).length) :
    readSlot p.toBytes i = .ok (p.ids.zip p.tuples)[i] := by
  have hids : i < p.ids.length := (length_zip ▸ hi).trans_le (Nat.min_le_left _ _)
  have htuples : i < p.tuples.length := h.length ▸ hids
  have hlower := h.lower
  have hroom := h.room
  have hupper := h.upper
  have hmem : (headerSize + i * itemIdSize,
      Bytes.le 2 p.ids[i].offset ++ Bytes.le 2 p.ids[i].length) ∈ p.pieces :=
    mem_append_right _ (mem_append_left _ (mem_mapIdx.mpr ⟨i, hids, rfl⟩))
  have hitem : Bytes.slice p.toBytes (headerSize + i * itemIdSize) itemIdSize =
      Bytes.le 2 p.ids[i].offset ++ Bytes.le 2 p.ids[i].length :=
    h.slice_toBytes hmem (by rw [length_append]; rfl)
  have hbase : ¬ pageSize < headerSize + i * itemIdSize + itemIdSize := by
    simp only [itemIdSize] at hlower ⊢
    omega
  rw [readSlot]
  simp only [if_neg hbase, hitem, take_left' (length_le 2 _),
    drop_left' (length_le 2 _)]
  have hzip : (p.ids.zip p.tuples)[i] = (p.ids[i], p.tuples[i]) :=
    getElem_zip
  have hslot := h.slots _ (getElem_mem hi)
  rw [hzip] at hslot ⊢
  rcases hslot with hdead | ⟨hlive, hlen, hoff, hend⟩
  · obtain ⟨hid, htuple⟩ := Prod.mk.inj hdead
    rw [hid, htuple]
    rfl
  · dsimp only at hlive hlen hoff hend
    have hoffset : p.ids[i].offset < 256 ^ 2 := by
      simp only [pageSize] at hend
      omega
    have hlength : p.ids[i].length < 256 ^ 2 := by
      simp only [pageSize] at hend
      omega
    rw [ofLe_le hoffset, ofLe_le hlength, if_neg hlive.ne', if_neg (by omega)]
    have htuple : (p.ids[i].offset, p.tuples[i]) ∈ p.pieces := by
      refine mem_append_right _ (mem_append_right _ (mem_filterMap.mpr
        ⟨_, getElem_mem hi, ?_⟩))
      rw [hzip]
      exact if_neg hlive.ne'
    rw [h.slice_toBytes htuple hlen.symm]

/-- **A page is read back from its bytes.** -/
theorem fromBytes_toBytes : fromBytes p.toBytes = .ok p := by
  have hlower := h.lower
  have hroom := h.room
  have hupper := h.upper
  have hcount := h.length_le_pageSize
  have hhead : ∀ {off n len : Nat}, (off, Bytes.le len n) ∈ p.headerPieces → n < 256 ^ len →
      Bytes.ofLe (Bytes.slice p.toBytes off len) = n := by
    intro off n len hmem hn
    rw [h.slice_toBytes (mem_append_left _ hmem) (length_le ..), ofLe_le hn]
  have hslots : (List.range p.ids.length).mapM (readSlot p.toBytes) = .ok (p.ids.zip p.tuples) := by
    have hzip : (p.ids.zip p.tuples).length = p.ids.length := by
      rw [length_zip, ← h.length, Nat.min_self]
    rw [← hzip]
    exact mapM_range_eq_ok fun i hi => h.readSlot_toBytes hi
  simp only [pageSize] at hupper
  rw [fromBytes, if_neg (not_not_intro h.inBounds.length_toBytes),
    if_neg (not_not_intro h.inBounds.pageChecksum_toBytes),
    hhead (n := p.ids.length) (by simp [headerPieces]) (by omega), hslots,
    hhead (n := p.header.lsn) (by simp [headerPieces]) h.lsn,
    hhead (n := p.header.flags) (by simp [headerPieces]) h.flags,
    hhead (n := p.header.lower) (by simp [headerPieces]) (by omega),
    hhead (n := p.header.upper) (by simp [headerPieces]) (by omega),
    hhead (n := p.header.special) (by simp [headerPieces]) h.special]
  show Except.ok (Page.mk _ _ _) = _
  rw [map_fst_zip h.length.le, map_snd_zip h.length.ge]

end WellFormed
end Page
end PostgresRs.Disk
