import PostgresRs.Disk.Buffer

/-!
# Failed write-backs

A frame that is evicted leaves the pool before its page is written.  If the write fails, the call
returns in the state in which the write was started, and the page is lost unless the file has it
already (`keeps_failed_iff`).
-/

namespace PostgresRs.Disk.BufferManager

open List

variable {b : BufferManager} {no : Nat} {frame : Frame} {disk pages shown : List Page}

/-- The pages are still seen. -/
def Keeps (b : BufferManager) (pages : List Page) : Prop := ∃ shown, pages <+: shown ∧ b.Shows shown

/-- The frame to be evicted next is clean, or its page is in the file. -/
def VictimSaved (b : BufferManager) (disk : List Page) : Prop :=
  ∀ e, b.pool.entries.argmin (fun e => e.2.used) = some e → e.2.dirty = true →
    disk[e.1]? = some e.2.page

/-- A page goes into a full pool. -/
def Evicts (b : BufferManager) (no : Nat) : Prop := b.capacity ≤ b.pool.entries.length ∧ no ∉ b.pool

/-- The state in which an eviction starts to write. -/
theorem mem_passed_admitPage {page : Page} {dirty : Bool} {x : BufferManager} :
    x ∈ (admitPage no page dirty b).passed ↔ b.Evicts no ∧
      ∃ e, b.pool.entries.argmin (fun e => e.2.used) = some e ∧ e.2.dirty = true ∧
        x = b.dropFrame e.1 := by
  rw [Evicts]
  by_cases hfull : b.capacity ≤ b.pool.entries.length ∧ no ∉ b.pool
  · rcases hvictim : b.pool.entries.argmin (fun e => e.2.used) with _ | ⟨n, frame⟩
    · simp [admitPage, evictOne, bind, Io.get, Io.read, Io.modify, pure, hfull, hvictim]
    · cases hdirty : frame.dirty <;> simp [admitPage, evictOne, bind, Io.get, Io.read, Io.modify,
        Io.write, pure, hfull, hvictim, hdirty]
  · simp [admitPage, bind, Io.get, Io.read, Io.modify, hfull]

theorem passed_newPage : (newPage b).passed = b :: (admitPage b.heap.pageCount Page.new true
    (b.setHeap (b.heap.writePage b.heap.pageCount Page.new))).passed := by
  simp [newPage, bind, Io.get, Io.read, Io.write, pure]
  split <;> simp

section

variable (hb : b.Caches disk shown) (hpre : pages <+: shown)
include hb hpre

theorem keeps_dropFrame_iff (hlt : no < pages.length) (hf : b.pool.lookup no = some frame) :
    (b.dropFrame no).Keeps pages ↔ disk[no]? = some frame.page := by
  have hpage := hb.page_of_lookup hf
  refine ⟨?_, fun hdisk => ⟨shown, hpre, disk, hb.dropFrame (hdisk.trans hpage.symm)⟩⟩
  rintro ⟨-, ⟨rest', rfl⟩, disk', h⟩
  obtain ⟨rest, rfl⟩ := hpre
  have hdisk := getElem?_eq_getElem (hb.lt_of_lookup hf)
  have hsame := (h.page_of_lookup_none (AList.lookup_erase _ _)).symm
  rw [getElem?_append_left hlt] at hpage hsame
  have hread := (hb.holds.readPage hdisk).symm.trans (h.holds.readPage (hsame.trans hpage))
  rw [hdisk, Except.ok.inj hread]

/-- A page comes in; `pages` are those before the call. -/
theorem keeps_admitPage_iff (hpool : ∀ no ∈ b.pool, no < pages.length) (page : Page)
    (dirty : Bool) : (∀ x ∈ (admitPage no page dirty b).passed, x.Keeps pages) ↔
      (b.Evicts no → b.VictimSaved disk) := by
  have hiff : ∀ e, b.pool.entries.argmin (fun e => e.2.used) = some e →
      ((b.dropFrame e.1).Keeps pages ↔ disk[e.1]? = some e.2.page) := fun e he =>
    keeps_dropFrame_iff hb hpre (hpool _ (mem_keys_of_mem (argmin_mem he)))
      (AList.mem_lookup_iff.mpr (argmin_mem he))
  simp only [mem_passed_admitPage]
  constructor
  · exact fun h hfull e he hdirty => (hiff e he).mp (h _ ⟨hfull, e, he, hdirty, rfl⟩)
  · rintro h x ⟨hfull, e, he, hdirty, rfl⟩
    exact (hiff e he).mpr (h hfull e he hdirty)

end

/-- **A write that fails** when a page is read or added loses nothing if and only if no frame is
evicted, or one whose page is in the file already; what is not lost is in the file after a flush. -/
theorem keeps_failed_iff (hb : b.Caches disk pages) :
    (∀ no < pages.length, (∀ x ∈ (getPage no b).passed, x.Keeps pages) ↔
      (b.Evicts no → b.VictimSaved disk)) ∧
    ((∀ x ∈ (newPage b).passed, x.Keeps pages) ↔ (b.Evicts pages.length → b.VictimSaved disk)) ∧
    ∀ x : BufferManager, x.Keeps pages → ∀ order, (flushAll order x).outcome = .ok () ∧
      ∃ shown, pages <+: shown ∧ (flushAll order x).state.heap.Holds shown := by
  have hlt : ∀ no ∈ b.pool, no < pages.length := fun no hmem => by
    obtain ⟨frame, hf⟩ := Option.isSome_iff_exists.mp (AList.lookup_isSome.mpr hmem)
    exact hb.length ▸ hb.lt_of_lookup hf
  refine ⟨fun no hno => ?_, ?_, ?_⟩
  · cases hf : b.pool.lookup no with
    | some frame =>
      have hmem := AList.lookup_isSome.mp (Option.isSome_of_eq_some hf)
      refine iff_of_true ?_ fun h => absurd hmem h.2
      simp [getPage, bind, tick, Io.modify, Io.get, Io.read, hf, pure]
    | none =>
      obtain ⟨page, hdisk⟩ : ∃ page, disk[no]? = some page :=
        ⟨_, getElem?_eq_getElem (hb.length ▸ hno)⟩
      have hpassed : (getPage no b).passed = (admitPage no page false
          { b with clock := b.clock + 1, misses := b.misses + 1 }).passed := by
        simp [getPage, bind, tick, Io.modify, Io.get, Io.read, hf, hb.holds.readPage hdisk, pure]
        split <;> simp
      have hb' : Caches { b with clock := b.clock + 1, misses := b.misses + 1 } disk pages :=
        hb.congr rfl rfl
      rw [hpassed]
      exact keeps_admitPage_iff hb' prefix_rfl hlt page false
  · rw [passed_newPage, forall_mem_cons, and_iff_right ⟨pages, prefix_rfl, disk, hb⟩,
      keeps_admitPage_iff hb.writePage_new (prefix_append _ _) hlt, hb.holds.pageCount,
      hb.length]
    refine imp_congr_right fun _ => forall₂_congr fun e he => imp_congr_right fun _ => ?_
    rw [getElem?_append_left (hb.lt_of_lookup (AList.mem_lookup_iff.mpr (argmin_mem he)))]
  · rintro x ⟨shown, hpre, hx⟩ order
    obtain ⟨⟨⟩, hflush, -, hholds⟩ := (spec_flushAll order).exists_ok hx
    exact ⟨hflush, shown, hpre, hholds⟩

/-- A pool with room for one page, which was read from the file and changed to `page`. -/
def onePage (page : Page) : BufferManager :=
  let b := new (Heap.open Page.new.toBytes) 1
  ((b.setFrame 0 ⟨Page.new, false, 1⟩).putPage 0 page).markDirty 0

theorem caches_onePage {page : Page} (hpage : page.WellFormed) :
    (onePage page).Caches [Page.new] [page] := by
  have hnew : (new (Heap.open Page.new.toBytes) 1).Caches [Page.new] [Page.new] :=
    ⟨Heap.holds_open (by simp) (by simp [Page.wellFormed_new]), rfl, by simp [Page.wellFormed_new],
      fun _ => rfl, fun _ _ h => nomatch h⟩
  have hframe : ((new (Heap.open Page.new.toBytes) 1).setFrame 0 ⟨Page.new, false, 1⟩).Caches
      [Page.new] [Page.new] := hnew.setFrame rfl fun _ => rfl
  exact hframe.putPage_markDirty (AList.lookup_insert _) hpage

theorem keeps_failed_onePage : (onePage Page.new).Caches [Page.new] [Page.new] ∧
    ∀ x ∈ (newPage (onePage Page.new)).passed, x.Keeps [Page.new] := by
  have hb := caches_onePage Page.wellFormed_new
  refine ⟨hb, (keeps_failed_iff hb).2.1.mpr fun _ e he _ => ?_⟩
  obtain rfl := mem_singleton.mp (argmin_mem he)
  rfl

/-- A page whose LSN was set is lost. -/
theorem not_keeps_onePage :
    let page : Page := { Page.new with header := { Page.new.header with lsn := 1 } }
    (onePage page).Caches [Page.new] [page] ∧
      ∃ x ∈ (newPage (onePage page)).passed, ¬x.Keeps [page] := by
  intro page
  have hb : (onePage page).Caches [Page.new] [page] :=
    caches_onePage { Page.wellFormed_new with lsn := by decide }
  refine ⟨hb, _, passed_newPage ▸ mem_cons_of_mem _
    (mem_passed_admitPage.mpr ⟨⟨le_rfl, ?_⟩, ⟨0, page, true, 1⟩, rfl, rfl, rfl⟩), fun h => ?_⟩
  · have hdisk := (keeps_dropFrame_iff hb.writePage_new (prefix_append _ _) (by simp) rfl).mp h
    exact absurd (congrArg (·.map (·.header.lsn)) hdisk) (by decide)
  · rw [hb.holds.pageCount]
    decide

end PostgresRs.Disk.BufferManager
