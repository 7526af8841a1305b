import PostgresRs.Disk.Pwal

/-!
# Crashes of the physical log

What the physical log promises over a whole run of opens, appends, syncs and crashes: the LSNs that
`append` returns increase, and `replay` gives the records that were appended and synced, in the order
of their LSNs (`LogDir.Promises`).

The promise is kept as long as no record is written behind a part of one (`LogDir.promises_run`): each
segment is then a list of whole records and perhaps a part of one, and reads as these records
(`LogDir.Sequenced`).  `open` does not cut off the part that a crash has left, and the next record
goes behind it.  It cannot be read, and its LSN is given out again (`LogDir.not_promises`).
-/

namespace PostgresRs.Disk.LogDir

open List

/-- The LSNs that were returned increase, and an open log replays what was synced, in order. -/
def Promises (d : LogDir) : Prop :=
  d.returned.Pairwise (· < ·) ∧
    (d.wal.isSome → d.durable.Sublist d.replay ∧ d.replay.Pairwise fun a b => a.lsn < b.lsn)

/-- The last segment has nothing behind its last whole record. -/
def LastWhole (d : LogDir) : Prop := (readSegment d.last).flatMap encodeRecord = d.last

instance (d : LogDir) : Decidable d.LastWhole :=
  inferInstanceAs (Decidable ((readSegment d.last).flatMap encodeRecord = d.last))

/-- What the state before a call or crash must satisfy: a record is written behind whole records or
to a new segment, its length and LSN fit their fields, and a crash takes away no record that was
appended. -/
def Regular (d : LogDir) : Event → Prop
  | .openWal | .sync => True
  | .append kind pageNo slot payload => ∀ w, d.wal = some w →
    w.nextLsn + 1 < 2 ^ 64 ∧ bodyHeader + payload.length < 2 ^ 32 ∧
      (d.LastWhole ∨
        rolls w (encodeRecord ⟨.ofNat w.nextLsn, kind, pageNo, slot, payload⟩).length = true)
  | .crash record rolled cut =>
    record.Fits ∧ (rolled = true ∨ cut = d.last.length ∨ d.LastWhole ∧ d.last.length ≤ cut)

/-! ## Segments of whole records -/

/-- A segment of whole records and perhaps a part of one. -/
structure Piece where
  records : List Record
  torn : List UInt8
  fits : ∀ r ∈ records, r.Fits
  unreadable : readRecord torn = none

namespace Piece

def bytes (p : Piece) : List UInt8 := p.records.flatMap encodeRecord ++ p.torn

theorem readSegment_bytes (p : Piece) : readSegment p.bytes = p.records :=
  framing.readFrames_eq p.fits p.unreadable

/-- Whole records only. -/
def whole (records : List Record) (fits : ∀ r ∈ records, r.Fits) : Piece :=
  ⟨records, [], fits, rfl⟩

/-- Whole records and the beginning of `r`. -/
def cut (records : List Record) (fits : ∀ r ∈ records, r.Fits) (r : Record) (hr : r.Fits) (n : Nat)
    (hn : n < (encodeRecord r).length) : Piece :=
  ⟨records, (encodeRecord r).take n, fits, framing.torn hr n hn⟩

end Piece

/-- The segments hold the records that were appended, in the order of their LSNs, and an open log
goes on behind them. -/
structure Sequenced (d : LogDir) : Prop where
  pieces : ∃ ps : List Piece, d.segments = ps.map Piece.bytes ∧ ps.flatMap Piece.records = d.appended
  lsns : d.appended.map (·.lsn.toNat) = d.returned
  increasing : d.returned.Pairwise (· < ·)
  durable : d.durable.Sublist d.appended
  wal : ∀ w, d.wal = some w →
    d.segments ≠ [] ∧ w.currentBytes = d.last.length ∧ ∀ l ∈ d.returned, l < w.nextLsn

variable {d : LogDir}

theorem sequenced_empty : empty.Sequenced where
  pieces := ⟨[], rfl, rfl⟩
  lsns := rfl
  increasing := .nil
  durable := .slnil
  wal _ h := by cases h

theorem foldl_max_le_iff {rs : List Record} {m k : Nat} :
    rs.foldl (fun m r => max m r.lsn.toNat) m ≤ k ↔ m ≤ k ∧ ∀ r ∈ rs, r.lsn.toNat ≤ k := by
  induction rs generalizing m with
  | nil => simp
  | cons r rs ih => rw [foldl_cons, ih, max_le_iff, forall_mem_cons, and_assoc]

theorem le_maxLsn : ∀ r ∈ d.replay, r.lsn.toNat ≤ d.maxLsn := (foldl_max_le_iff.mp le_rfl).2

namespace Sequenced

theorem replay_eq (h : d.Sequenced) : d.replay = d.appended := by
  obtain ⟨ps, hsegments, hrecords⟩ := h.pieces
  rw [replay, hsegments, flatMap_map, ← hrecords]
  exact congrArg (ps.flatMap ·) (funext Piece.readSegment_bytes)

theorem promises (h : d.Sequenced) : d.Promises := by
  refine ⟨h.increasing, fun _ => ?_⟩
  rw [h.replay_eq]
  refine ⟨h.durable, ?_⟩
  have hpair := h.increasing
  rw [← h.lsns, pairwise_map] at hpair
  exact hpair.imp UInt64.lt_iff_toNat_lt.mpr

/-- The last segment, and those before it. -/
theorem split (h : d.Sequenced) (hne : d.segments ≠ []) : ∃ (ps : List Piece) (p : Piece),
    d.segments = ps.map Piece.bytes ++ [p.bytes] ∧
      ps.flatMap Piece.records ++ p.records = d.appended ∧ d.last = p.bytes := by
  obtain ⟨ps, hsegments, hrecords⟩ := h.pieces
  rcases eq_nil_or_concat ps with rfl | ⟨ps', p, rfl⟩
  · exact absurd hsegments hne
  · rw [concat_eq_append, map_append, map_singleton] at hsegments
    rw [concat_eq_append, flatMap_append, flatMap_singleton] at hrecords
    refine ⟨ps', p, hsegments, hrecords, ?_⟩
    rw [last, hsegments, getLastD_concat]

/-- Nothing stands behind the whole records of the last segment. -/
theorem torn_eq_nil {p : Piece} (hlast : d.last = p.bytes) (hwhole : d.LastWhole) : p.torn = [] := by
  rw [LastWhole, hlast, p.readSegment_bytes, Piece.bytes] at hwhole
  exact append_right_eq_self.mp hwhole.symm

theorem openWal (h : d.Sequenced) : d.openWal.Sequenced := by
  rw [LogDir.openWal]
  split
  · next hnil =>
    obtain ⟨ps, hsegments, hrecords⟩ := h.pieces
    obtain rfl : ps = [] := map_eq_nil_iff.mp (hsegments.symm.trans hnil)
    have hreturned : d.returned = [] := by
      rw [← h.lsns, ← hrecords]
      rfl
    refine ⟨⟨[.whole [] (by simp)], rfl, hrecords⟩, h.lsns, h.increasing, h.durable, ?_⟩
    rintro w ⟨⟩
    refine ⟨by simp, rfl, fun l hl => ?_⟩
    rw [show l ∈ d.returned ↔ l ∈ [] by rw [hreturned]] at hl
    cases hl
  · next hne =>
    refine ⟨h.pieces, h.lsns, h.increasing, h.durable, ?_⟩
    rintro w ⟨⟩
    refine ⟨hne, rfl, fun l hl => Nat.lt_succ_of_le ?_⟩
    have hl : l ∈ d.returned := hl
    rw [← h.lsns] at hl
    obtain ⟨r, hr, rfl⟩ := mem_map.mp hl
    exact le_maxLsn r (h.replay_eq.symm ▸ hr)

/-- A record is added to the last segment or to a new one. -/
theorem append {w : PhysicalWal} {kind : RecordKind} {pageNo : UInt64} {slot : UInt32}
    {payload : List UInt8} (h : d.Sequenced) (hw : d.wal = some w)
    (hreg : d.Regular (.append kind pageNo slot payload)) :
    (d.append w kind pageNo slot payload).Sequenced := by
  obtain ⟨hlsn, hfits, hplace⟩ := hreg w hw
  obtain ⟨hne, hbytes, hnext⟩ := h.wal w hw
  obtain ⟨ps, p, hsegments, hrecords, hlast⟩ := h.split hne
  generalize hr : (⟨.ofNat w.nextLsn, kind, pageNo, slot, payload⟩ : Record) = r at hplace
  have hrlsn : r.lsn.toNat = w.nextLsn := by
    rw [← hr]
    exact UInt64.toNat_ofNat_of_lt' (show w.nextLsn < 2 ^ 64 by omega)
  have hrfits : r.Fits := by
    rw [← hr]
    exact hfits
  have hpieces : ∃ ps : List Piece,
      (d.append w kind pageNo slot payload).segments = ps.map Piece.bytes ∧
        ps.flatMap Piece.records = d.appended ++ [r] := by
    rw [LogDir.append, hr]
    cases hroll : rolls w (encodeRecord r).length with
    | true =>
      -- The old segment stays as it is, whatever stands at its end.
      refine ⟨ps ++ [p, .whole [r] (by simpa using hrfits)], ?_, ?_⟩
      · simp [setLast, rollSegment, last, hsegments, Piece.whole, Piece.bytes]
      · simp [← hrecords, Piece.whole]
    | false =>
      have htorn := torn_eq_nil hlast (hplace.resolve_right (by rw [hroll]; decide))
      have hboth : ∀ x ∈ p.records ++ [r], x.Fits := by
        intro x hx
        rcases mem_append.mp hx with hx | hx
        · exact p.fits x hx
        · rw [mem_singleton.mp hx]
          exact hrfits
      refine ⟨ps ++ [.whole (p.records ++ [r]) hboth], ?_, ?_⟩
      · simp [setLast, hlast, hsegments, Piece.whole, Piece.bytes, htorn]
      · simp [← hrecords, Piece.whole]
  refine ⟨?_, ?_, ?_, ?_, ?_⟩
  · rw [show (d.append w kind pageNo slot payload).appended = d.appended ++ [r] from hr ▸ rfl]
    exact hpieces
  · show (d.appended ++ [_]).map _ = d.returned ++ [w.nextLsn]
    rw [hr, map_append, h.lsns, map_singleton, hrlsn]
  · exact pairwise_append.mpr ⟨h.increasing, pairwise_singleton _ _, fun a ha b hb =>
      mem_singleton.mp hb ▸ hnext a ha⟩
  · have hdurable : (d.append w kind pageNo slot payload).durable = d.durable := by
      rw [LogDir.append]
      split <;> rfl
    rw [hdurable]
    exact h.durable.trans (sublist_append_left _ _)
  · rintro w' ⟨⟩
    refine ⟨by simp [LogDir.append, setLast], ?_, fun l hl => ?_⟩
    · rw [LogDir.append]
      split <;> simp [last, setLast, rollSegment, hbytes]
    · rcases mem_append.mp (show l ∈ d.returned ++ [w.nextLsn] from hl) with hl | hl
      · exact (hnext l hl).trans (Nat.lt_succ_self _)
      · rw [mem_singleton.mp hl]
        exact Nat.lt_succ_self _

theorem closed (h : d.Sequenced) : { d with wal := none }.Sequenced :=
  ⟨h.pieces, h.lsns, h.increasing, h.durable, fun w hw => by cases hw⟩

theorem crash {record : Record} {rolled : Bool} {cut : Nat} (h : d.Sequenced)
    (hreg : d.Regular (.crash record rolled cut)) : (d.crash record rolled cut).Sequenced := by
  obtain ⟨hfits, hplace⟩ := hreg
  rw [LogDir.crash]
  cases rolled with
  | true =>
    rw [if_pos rfl]
    split
    · next hcut =>
      obtain ⟨ps, p, hsegments, hrecords, -⟩ := h.split hcut.1
      have hcut : cut < (encodeRecord record).length := by simpa [rollSegment, last] using hcut.2.2
      refine ⟨⟨ps ++ [p, .cut [] (by simp) record hfits cut hcut], ?_, ?_⟩, h.lsns, h.increasing,
        h.durable, fun w hw => by cases hw⟩
      · simp [setLast, rollSegment, last, hsegments, Piece.cut, Piece.bytes]
      · simp [← hrecords, Piece.cut, setLast, rollSegment]
    · exact h.closed
  | false =>
    rw [if_neg Bool.false_ne_true]
    split
    · next hcut =>
      obtain ⟨ps, p, hsegments, hrecords, hlast⟩ := h.split hcut.1
      rw [length_append] at hcut
      refine ⟨?_, h.lsns, h.increasing, h.durable, fun w hw => by cases hw⟩
      rcases hplace.resolve_left (by decide) with rfl | ⟨hwhole, hle⟩
      · refine ⟨ps ++ [p], ?_, ?_⟩
        · simp [setLast, hsegments, hlast]
        · simpa [setLast] using hrecords
      · have htorn := torn_eq_nil hlast hwhole
        have htake : (d.last ++ encodeRecord record).take cut =
            p.records.flatMap encodeRecord ++ (encodeRecord record).take (cut - d.last.length) := by
          rw [take_append, take_of_length_le hle, hlast, Piece.bytes, htorn,
            append_nil]
        refine ⟨ps ++ [.cut p.records p.fits record hfits (cut - d.last.length) (by omega)], ?_, ?_⟩
        · simp [setLast, htake, hsegments, Piece.cut, Piece.bytes]
        · simpa [setLast, Piece.cut] using hrecords
    · exact h.closed

theorem step (h : d.Sequenced) {e : Event} (he : d.Regular e) : (d.step e).Sequenced := by
  cases e with
  | openWal => exact h.openWal
  | append kind pageNo slot payload =>
    rw [LogDir.step]
    split
    · next w hw => exact h.append hw he
    · exact h
  | sync =>
    rw [LogDir.step]
    split
    · exact ⟨h.pieces, h.lsns, h.increasing, .refl _, h.wal⟩
    · exact h
  | crash record rolled cut => exact h.crash he

end Sequenced

/-- **The log keeps its promises** in every run in which no record is written behind a part of one. -/
theorem promises_run (es : List Event) (hes : Machine.Always step Regular empty es) :
    (Machine.run step empty es).Promises := by
  have hsequenced : (Machine.run step empty es).Sequenced :=
    hes.run_induction sequenced_empty fun d e hd he => hd.step he
  exact hsequenced.promises

/-- A run with a crash inside a record that goes to a new segment. -/
theorem promises_run_rolled :
    (Machine.run step empty [.openWal, .append .checkpoint 7 0 [], .sync,
      .crash ⟨2, .checkpoint, 8, 0, []⟩ true 5, .openWal]).Promises := by
  refine promises_run _ ⟨trivial, ?_, trivial, ⟨?_, .inl rfl⟩, trivial, trivial⟩
  · rintro w ⟨⟩
    exact ⟨by decide, by decide, .inl (by decide +kernel)⟩
  · show bodyHeader + 0 < 2 ^ 32
    decide

/-- A record that is appended behind a part of another one is lost, and its LSN is used again. -/
theorem not_promises :
    let es : List Event := [.openWal, .append .checkpoint 7 0 [], .sync,
      .crash ⟨2, .checkpoint, 8, 0, []⟩ false 30, .openWal, .append .checkpoint 9 0 [], .sync, .openWal]
    (¬(Machine.run step empty es).Promises) ∧
      (Machine.run step empty (es ++ [.append .checkpoint 10 0 []])).returned = [1, 2, 2] := by
  refine ⟨fun h => ?_, by decide +kernel⟩
  have hlost := (h.2 (by decide +kernel)).1.subset (mem_of_getElem? (i := 1)
    (show _ = some (⟨2, .checkpoint, 9, 0, []⟩ : Record) by decide +kernel))
  exact absurd hlost (by decide +kernel)

end PostgresRs.Disk.LogDir
