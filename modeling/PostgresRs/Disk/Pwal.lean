import PostgresRs.Util.Bytes
import PostgresRs.Util.Frames
import PostgresRs.Util.Run

/-!
# The physical log

The page-level log of `engine/src/disk/pwal.rs`: records with a length, a checksum and a log sequence
number (LSN), in a directory of segment files.  `LogDir` is that directory together with the log that
a process may have open on it, and `LogDir.step` the calls of the process and the crashes between and
inside them.

`encodeRecord` and `readRecord` are a `Framing`, so that a segment reads as its whole records as long
as nothing was written behind a part of one.
-/

namespace PostgresRs.Disk

open List Bytes

/-! ## Records -/

inductive RecordKind where
  | pageSlotWrite | pageWrite | checkpoint
deriving DecidableEq, Repr

namespace RecordKind

def toByte : RecordKind → UInt8
  | pageSlotWrite => 1
  | pageWrite => 2
  | checkpoint => 3

def fromByte : UInt8 → Option RecordKind
  | 1 => some pageSlotWrite
  | 2 => some pageWrite
  | 3 => some checkpoint
  | _ => none

@[simp] theorem fromByte_toByte (k : RecordKind) : fromByte k.toByte = some k := by
  cases k <;> rfl

end RecordKind

structure Record where
  lsn : UInt64
  kind : RecordKind
  pageNo : UInt64
  slot : UInt32
  payload : List UInt8
deriving DecidableEq, Repr

/-- One bit of the checksum. -/
def crcStep (crc : UInt32) : UInt32 := (crc >>> 1) ^^^ (0xEDB88320 &&& (0 - (crc &&& 1)))

/-- CRC-32 with the polynomial of IEEE 802.3. -/
def crc32 (data : List UInt8) : UInt32 :=
  ~~~(data.foldl (fun crc b => Nat.repeat crcStep 8 (crc ^^^ b.toUInt32)) 0xFFFFFFFF)

/-- Length of the fields in front of the payload. -/
def bodyHeader : Nat := 8 + 1 + 8 + 4

variable (r : Record)

def encodeBody : List UInt8 :=
  Bytes.le 8 r.lsn.toNat ++ (r.kind.toByte :: (Bytes.le 8 r.pageNo.toNat ++
    (Bytes.le 4 r.slot.toNat ++ r.payload)))

def encodeRecord : List UInt8 :=
  Bytes.le 4 (bodyHeader + r.payload.length) ++
    (Bytes.le 4 (crc32 (encodeBody r)).toNat ++ encodeBody r)

/-- The fields of a body. -/
def decodeBody (body : List UInt8) : Option Record :=
  (RecordKind.fromByte (body.getD 8 0)).map fun kind =>
    { lsn := .ofNat (Bytes.ofLe (body.take 8))
      kind
      pageNo := .ofNat (Bytes.ofLe ((body.drop 9).take 8))
      slot := .ofNat (Bytes.ofLe ((body.drop 17).take 4))
      payload := body.drop 21 }

/-- The record at the front of a segment. -/
def readRecord (bytes : List UInt8) : Option (Record × List UInt8) :=
  if bytes.length < 8 then none
  else
    let bodyLen := Bytes.ofLe (bytes.take 4)
    let crc := Bytes.ofLe ((bytes.drop 4).take 4)
    let rest := bytes.drop 8
    if rest.length < bodyLen ∨ bodyLen < bodyHeader then none
    else
      let body := rest.take bodyLen
      if (crc32 body).toNat ≠ crc then none
      else (decodeBody body).map fun r => (r, rest.drop bodyLen)

/-- The whole records of a segment, up to the first that cannot be read. -/
def readSegment (bytes : List UInt8) : List Record := readFrames readRecord bytes

/-- The length of the record fits its field. -/
def Record.Fits : Prop := bodyHeader + r.payload.length < 2 ^ 32

theorem length_encodeBody : (encodeBody r).length = bodyHeader + r.payload.length := by
  simp only [encodeBody, bodyHeader, length_append, length_cons, length_le]
  omega

theorem length_encodeRecord : (encodeRecord r).length = 8 + (bodyHeader + r.payload.length) := by
  rw [encodeRecord, length_append, length_append, length_le, length_le,
    length_encodeBody]
  omega

/-- The fields of a body are read back. -/
theorem decodeBody_encodeBody : decodeBody (encodeBody r) = some r := by
  have hlsn : Bytes.ofLe (Bytes.le 8 r.lsn.toNat) = r.lsn.toNat := ofLe_le r.lsn.toNat_lt
  have hpage : Bytes.ofLe (Bytes.le 8 r.pageNo.toNat) = r.pageNo.toNat :=
    ofLe_le r.pageNo.toNat_lt
  have hslot : Bytes.ofLe (Bytes.le 4 r.slot.toNat) = r.slot.toNat := ofLe_le r.slot.toNat_lt
  have h8 : (encodeBody r).take 8 = Bytes.le 8 r.lsn.toNat := take_left' (length_le ..)
  have hkind : (encodeBody r).getD 8 0 = r.kind.toByte := by
    simp [encodeBody]
  have h9 : (encodeBody r).drop 9 =
      Bytes.le 8 r.pageNo.toNat ++ (Bytes.le 4 r.slot.toNat ++ r.payload) := by
    simp [encodeBody, drop_append_of_le_length, drop_append]
  have h17 : (encodeBody r).drop 17 = Bytes.le 4 r.slot.toNat ++ r.payload := by
    rw [← drop_drop (i := 8) (j := 9), h9, drop_left' (length_le ..)]
  have h21 : (encodeBody r).drop 21 = r.payload := by
    rw [← drop_drop (i := 4) (j := 17), h17, drop_left' (length_le ..)]
  rw [decodeBody, hkind, RecordKind.fromByte_toByte, h8, h9, h17, h21,
    take_left' (length_le ..), take_left' (length_le ..), hlsn, hpage, hslot]
  simp

/-- A record is read back, and a part of one is not. -/
theorem framing : Framing Record.Fits encodeRecord readRecord where
  ne_nil {r} _ h := by
    have := congrArg List.length h
    rw [length_encodeRecord] at this
    simp at this
  read {r} hr rest := by
    have hlen : Bytes.ofLe (Bytes.le 4 (bodyHeader + r.payload.length)) =
        bodyHeader + r.payload.length := ofLe_le hr
    have hcrc : Bytes.ofLe (Bytes.le 4 (crc32 (encodeBody r)).toNat) =
        (crc32 (encodeBody r)).toNat := ofLe_le (UInt32.toNat_lt _)
    have h4 : (encodeRecord r ++ rest).drop 4 =
        Bytes.le 4 (crc32 (encodeBody r)).toNat ++ (encodeBody r ++ rest) := by
      rw [encodeRecord, append_assoc, drop_left' (length_le ..), append_assoc]
    have h8 : (encodeRecord r ++ rest).drop 8 = encodeBody r ++ rest := by
      rw [← drop_drop (i := 4) (j := 4), h4, drop_left' (length_le ..)]
    have htake : (encodeRecord r ++ rest).take 4 = Bytes.le 4 (bodyHeader + r.payload.length) := by
      rw [encodeRecord, append_assoc, take_left' (length_le ..)]
    rw [readRecord, if_neg (by rw [length_append, length_encodeRecord]; omega)]
    simp only [h8, h4, htake, hlen, take_left' (length_le ..), hcrc,
      take_left' (length_encodeBody r), drop_left' (length_encodeBody r)]
    rw [if_neg (by rw [length_append, length_encodeBody]; omega), if_neg (by simp),
      decodeBody_encodeBody]
    rfl
  torn {r} hr cut hcut := by
    rw [length_encodeRecord] at hcut
    have hlen : Bytes.ofLe (Bytes.le 4 (bodyHeader + r.payload.length)) =
        bodyHeader + r.payload.length := ofLe_le hr
    have hcutLength : ((encodeRecord r).take cut).length = cut := by
      rw [length_take, length_encodeRecord]
      omega
    rw [readRecord]
    split
    · rfl
    -- The length field is there, and asks for more than is left.
    have htake : ((encodeRecord r).take cut).take 4 =
        Bytes.le 4 (bodyHeader + r.payload.length) := by
      rw [take_take, Nat.min_eq_left (by omega), encodeRecord,
        take_left' (length_le ..)]
    rw [htake, if_pos]
    rw [length_drop]
    omega

/-! ## Damage -/

theorem crcStep_eq (c : UInt32) :
    crcStep c = c >>> 1 ^^^ if c.toNat % 2 = 0 then 0 else 0xEDB88320 := by
  have hlow : (c &&& 1).toNat = c.toNat % 2 := by
    rw [UInt32.toNat_and]
    exact Nat.and_one_is_mod _
  rw [crcStep]
  split
  · next h =>
    rw [show c &&& 1 = 0 from UInt32.toNat_inj.mp (hlow.trans h)]
    rfl
  · next h =>
    rw [show c &&& 1 = 1 from UInt32.toNat_inj.mp (hlow.trans (Nat.mod_two_ne_zero.mp h))]
    rfl

/-- A step can be undone: the highest bit tells whether the lowest one was set. -/
theorem injective_crcStep : Function.Injective crcStep := by
  have hhalf : ∀ c : UInt32, (c >>> 1).toNat = c.toNat / 2 := fun c => UInt32.toNat_shiftRight ..
  have htop : ∀ c : UInt32, (crcStep c).toNat.testBit 31 = !decide (c.toNat % 2 = 0) := by
    intro c
    have hlt : (c >>> 1).toNat.testBit 31 = false :=
      Nat.testBit_lt_two_pow (by have := c.toNat_lt; rw [hhalf]; omega)
    rw [crcStep_eq, UInt32.toNat_xor, Nat.testBit_xor, hlt]
    split <;> simp [*]
    decide
  intro a b h
  have hlow : a.toNat % 2 = 0 ↔ b.toNat % 2 = 0 := by
    have hb := htop b
    rw [← h, htop a] at hb
    simpa using hb
  rw [crcStep_eq, crcStep_eq, if_congr hlow rfl rfl, UInt32.xor_left_inj] at h
  have hab := congrArg UInt32.toNat h
  rw [hhalf, hhalf] at hab
  exact UInt32.toNat_inj.mp (by omega)

theorem crc32_ne {front back : List UInt8} {x y : UInt8} (hne : x ≠ y) :
    crc32 (front ++ x :: back) ≠ crc32 (front ++ y :: back) := by
  have hbits : ∀ n, Function.Injective (Nat.repeat crcStep n) := by
    intro n
    induction n with
    | zero => exact fun _ _ h => h
    | succ n ih => exact injective_crcStep.comp ih
  refine fun h => foldl_ne (fun b a a' h => ?_) (fun s a a' h => ?_) hne _ (UInt32.not_inj.mp h)
  · exact (UInt32.xor_left_inj _).mp (hbits 8 h)
  · exact UInt8.toUInt32_inj.mp ((UInt32.xor_right_inj _).mp (hbits 8 h))

theorem readRecord_eq_none {bytes : List UInt8}
    (h : (crc32 (Bytes.slice bytes 8 (Bytes.ofLe (Bytes.slice bytes 0 4)))).toNat ≠
      Bytes.ofLe (Bytes.slice bytes 4 4)) : readRecord bytes = none := by
  rw [readRecord]
  split
  · rfl
  · dsimp only
    split
    · rfl
    · exact if_pos h

/-- A record is not read if a byte behind its length has changed. -/
theorem readRecord_damaged {r : Record} (hr : r.Fits) {front back : List UInt8} {x y : UInt8}
    (h : encodeRecord r = front ++ x :: back) (hfront : 4 ≤ front.length) (hne : x ≠ y)
    (rest : List UInt8) : readRecord (front ++ y :: (back ++ rest)) = none := by
  have hwhole := framing.read hr rest
  have hlen : Bytes.ofLe (Bytes.slice (encodeRecord r ++ rest) 0 4) = bodyHeader + r.payload.length := by
    rw [Bytes.slice, drop_zero, encodeRecord, append_assoc, take_left' (length_le ..), ofLe_le hr]
  have hlt := congrArg length h
  rw [length_encodeRecord, length_append, length_cons] at hlt
  rw [h, append_assoc, cons_append] at hwhole hlen
  have hcrc := not_imp_comm.mp readRecord_eq_none (hwhole ▸ Option.some_ne_none _)
  have hsame : ∀ off len, front.length < off ∨ off + len ≤ front.length →
      Bytes.slice (front ++ y :: (back ++ rest)) off len =
        Bytes.slice (front ++ x :: (back ++ rest)) off len := fun _ _ => slice_of_outside
  rw [hlen] at hcrc
  refine readRecord_eq_none ?_
  rw [hsame 0 4 (.inr hfront), hlen]
  by_cases hfield : front.length < 8
  · rw [hsame 8 _ (.inl hfield), hcrc]
    exact ofLe_slice_ne hfront hfield hne
  · obtain ⟨back', hslice⟩ : ∃ back', ∀ x, Bytes.slice (front ++ x :: (back ++ rest)) 8
        (bodyHeader + r.payload.length) = front.drop 8 ++ x :: back' :=
      slice_of_inside (by omega) (by omega)
    rw [hsame 4 4 (.inr (by omega)), ← hcrc, hslice, hslice]
    exact fun heq => crc32_ne hne (UInt32.toNat_inj.mp heq).symm

/-- **Damage**: a changed byte hides its record and those behind it, and a cut the records that do
not lie before it. -/
theorem readSegment_damaged {rs : List Record} (hrs : ∀ r ∈ rs, r.payload.length < 2 ^ 31) :
    (∀ before r after front x y back, rs = before ++ r :: after →
      encodeRecord r = front ++ x :: back → 4 ≤ front.length → x ≠ y →
      readSegment (before.flatMap encodeRecord ++
        (front ++ y :: back ++ after.flatMap encodeRecord)) = before) ∧
    ∀ n, ∃ k, readSegment ((rs.flatMap encodeRecord).take n) = rs.take k ∧
      ((rs.take k).flatMap encodeRecord).length ≤ n ∧
      (k < rs.length → n < ((rs.take (k + 1)).flatMap encodeRecord).length) := by
  have hfits : ∀ r ∈ rs, r.Fits := fun r hr => by
    have := hrs r hr
    rw [Record.Fits, bodyHeader]
    omega
  constructor
  · rintro before r after front x y back rfl h hfront hne
    obtain ⟨hbefore, hr⟩ := forall_mem_append.mp hfits
    refine framing.readFrames_eq hbefore ?_
    rw [append_assoc, cons_append]
    exact readRecord_damaged (hr r mem_cons_self) h hfront hne _
  · exact framing.exists_take rfl hfits

/-- The last byte of the second record is changed. -/
theorem readSegment_damaged_two :
    let r : Record := ⟨1, .checkpoint, 0, 0, [7]⟩
    readSegment (encodeRecord r ++ ((encodeRecord r).dropLast ++ [8])) = [r] := by
  intro r
  simpa using (@readSegment_damaged [r, r] (by decide)).1 [r] r [] (encodeRecord r).dropLast 7 8 []
    rfl (by decide +kernel) (by decide +kernel) (by decide)

/-! ## The directory of segments -/

def segmentSize : Nat := 2 ^ 20

/-- An open log.  Its current segment is the last file of the directory. -/
structure PhysicalWal where
  currentBytes : Nat
  nextLsn : Nat
deriving DecidableEq, Repr

/-- The segment files, from the first on, how much of the last one has reached the disk, and the log
that is open.  The other fields record what the calls have promised: the LSNs that `append` has
returned, its records, and those of them that were there at the last `sync`. -/
structure LogDir where
  segments : List (List UInt8)
  synced : Nat
  wal : Option PhysicalWal
  returned : List Nat
  appended : List Record
  durable : List Record
deriving DecidableEq, Repr

namespace LogDir

def empty : LogDir := ⟨[], 0, none, [], [], []⟩

/-- The last segment file. -/
def last (d : LogDir) : List UInt8 := d.segments.getLastD []

variable (d : LogDir)

/-- The directory with another last segment. -/
def setLast (bytes : List UInt8) : LogDir :=
  { d with segments := d.segments.dropLast ++ [bytes] }

/-- All records, in the order of `replay`. -/
def replay : List Record := d.segments.flatMap readSegment

def maxLsn : Nat := d.replay.foldl (fun m r => max m r.lsn.toNat) 0

def openWal : LogDir :=
  if d.segments = [] then { d with segments := [[]], wal := some ⟨0, 1⟩ }
  else { d with wal := some ⟨d.last.length, d.maxLsn + 1⟩ }

/-- Whether a record of the given length starts a new segment. -/
def rolls (w : PhysicalWal) (len : Nat) : Bool :=
  decide (0 < w.currentBytes ∧ segmentSize < w.currentBytes + len)

def rollSegment : LogDir := { d with segments := d.segments ++ [[]], synced := 0 }

def append (w : PhysicalWal) (kind : RecordKind) (pageNo : UInt64) (slot : UInt32)
    (payload : List UInt8) : LogDir :=
  let record : Record := ⟨.ofNat w.nextLsn, kind, pageNo, slot, payload⟩
  let bytes := encodeRecord record
  let roll := rolls w bytes.length
  let d' := if roll then d.rollSegment else d
  { d'.setLast (d'.last ++ bytes) with
    wal := some ⟨(if roll then 0 else w.currentBytes) + bytes.length, w.nextLsn + 1⟩
    returned := d.returned ++ [w.nextLsn]
    appended := d.appended ++ [record] }

/-- Remove the segments before the first one with a record from `lsn` on, but never the last. -/
def truncateBefore (lsn : Nat) : LogDir :=
  let kept := d.segments.dropWhile fun seg => !(readSegment seg).any fun r => decide (lsn ≤ r.lsn.toNat)
  { d with segments := if kept = [] then d.segments.drop (d.segments.length - 1) else kept }

/-- A call, or a crash.  A crash can come while `record` is being written, to a new segment if
`rolled`, and leaves the first `cut` bytes of the last segment, at least what has reached the disk. -/
inductive Event where
  | openWal
  | append (kind : RecordKind) (pageNo : UInt64) (slot : UInt32) (payload : List UInt8)
  | sync
  | crash (record : Record) (rolled : Bool) (cut : Nat)

def crash (record : Record) (rolled : Bool) (cut : Nat) : LogDir :=
  let d' := if rolled then d.rollSegment else d
  let bytes := d'.last ++ encodeRecord record
  if d.segments ≠ [] ∧ d'.synced ≤ cut ∧ cut < bytes.length then
    { d'.setLast (bytes.take cut) with synced := cut, wal := none }
  else { d with wal := none }

def step : Event → LogDir
  | .openWal => d.openWal
  | .append kind pageNo slot payload =>
    match d.wal with
    | some w => d.append w kind pageNo slot payload
    | none => d
  | .sync => if d.wal.isSome then { d with synced := d.last.length, durable := d.appended } else d
  | .crash record rolled cut => d.crash record rolled cut

end LogDir

end PostgresRs.Disk
