import PostgresRs.Disk.Heap
import PostgresRs.Util.Io
import Mathlib.Data.List.AList
import Mathlib.Data.List.MinMax

/-!
# The buffer manager

The page cache of `engine/src/disk/buffer.rs` over a heap: a pool of frames, of which the least
recently used one is evicted, and written if it is dirty, when another page has to come in.

`Shows` is the abstraction: which pages a caller sees, wherever they are.  Every operation keeps it
(`spec_getPage`, `spec_newPage`, …), and `spec_flushAll` leaves what is seen in the file.  On top of it
stands `append_via_buffer` of `engine/src/disk/mod.rs` (`spec_appendViaBuffer`).
-/

namespace PostgresRs.Disk

open List AList

structure Frame where
  page : Page
  dirty : Bool
  used : Nat
deriving DecidableEq, Repr

/-- The order in which a hash map is iterated. -/
structure IterOrder where
  order : List Nat → List Nat
  perm : ∀ l, (order l).Perm l

structure BufferManager where
  heap : Heap
  pool : AList fun _ : Nat => Frame
  capacity : Nat
  clock : Nat
  hits : Nat
  misses : Nat

namespace BufferManager

def new (heap : Heap) (capacity : Nat) : BufferManager := ⟨heap, ∅, max capacity 1, 0, 0, 0⟩

variable (b : BufferManager)

def tick : BufferManager := { b with clock := b.clock + 1 }

def setHeap (heap : Heap) : BufferManager := { b with heap }

def setFrame (pageNo : Nat) (frame : Frame) : BufferManager :=
  { b with pool := b.pool.insert pageNo frame }

def dropFrame (pageNo : Nat) : BufferManager :=
  { b with pool := b.pool.erase pageNo }

/-- Evict the frame that was not used for longest. -/
def evictOne : Io BufferManager IoError Unit := do
  let b ← Io.get
  match b.pool.entries.argmin fun e => e.2.used with
  | none => pure ()
  | some ⟨pageNo, frame⟩ =>
    Io.modify fun b => b.dropFrame pageNo
    if frame.dirty then Io.write fun b => b.setHeap (b.heap.writePage pageNo frame.page)

def admitPage (pageNo : Nat) (page : Page) (dirty : Bool) : Io BufferManager IoError Unit := do
  let b ← Io.get
  if b.capacity ≤ b.pool.entries.length ∧ pageNo ∉ b.pool then evictOne
  Io.modify fun b => b.tick.setFrame pageNo ⟨page, dirty, b.tick.clock⟩

/-- Bring a page into the pool. -/
def getPage (pageNo : Nat) : Io BufferManager IoError Page := do
  Io.modify tick
  let b ← Io.get
  match b.pool.lookup pageNo with
  | some frame =>
    Io.modify fun b => { b.setFrame pageNo { frame with used := b.clock } with hits := b.hits + 1 }
    pure frame.page
  | none =>
    Io.modify fun b => { b with misses := b.misses + 1 }
    let page ← Io.read fun b => b.heap.readPage pageNo
    admitPage pageNo page false
    pure page

/-- A new page at the end of the heap. -/
def newPage : Io BufferManager IoError Nat := do
  let b ← Io.get
  let pageNo := b.heap.pageCount
  Io.write fun b => b.setHeap (b.heap.writePage pageNo Page.new)
  admitPage pageNo Page.new true
  pure pageNo

/-- Change a page of the pool in place. -/
def putPage (pageNo : Nat) (page : Page) : BufferManager :=
  match b.pool.lookup pageNo with
  | some frame => b.setFrame pageNo { frame with page }
  | none => b

def markDirty (pageNo : Nat) : BufferManager :=
  match b.pool.lookup pageNo with
  | some frame => b.setFrame pageNo { frame with dirty := true }
  | none => b

/-- Write a frame back. -/
def flush (pageNo : Nat) : Io BufferManager IoError Unit := do
  let b ← Io.get
  match b.pool.lookup pageNo with
  | none => pure ()
  | some frame =>
    Io.write fun b => b.setHeap (b.heap.writePage pageNo frame.page)
    Io.modify fun b => b.setFrame pageNo { frame with dirty := false }

def dirtyPages : List Nat := (b.pool.entries.filter (·.2.dirty)).map (·.1)

def flushAll (order : IterOrder) : Io BufferManager IoError Unit := do
  let b ← Io.get
  (order.order b.dirtyPages).forM flush

/-- Put a tuple into a page, if it fits. -/
def insertInto (pageNo : Nat) (tuple : List UInt8) : Io BufferManager IoError Bool := do
  let page ← getPage pageNo
  match page.insertTuple tuple with
  | some (_, page) =>
    Io.modify fun b => (b.putPage pageNo page).markDirty pageNo
    pure true
  | none => pure false

def appendToNew (tuple : List UInt8) : Io BufferManager IoError Unit := do
  let pageNo ← newPage
  let done ← insertInto pageNo tuple
  if done then pure () else Io.fail .tupleTooLarge

def appendViaBuffer (tuple : List UInt8) : Io BufferManager IoError Unit := do
  let b ← Io.get
  if 0 < b.heap.pageCount then
    let done ← insertInto (b.heap.pageCount - 1) tuple
    if done then pure () else appendToNew tuple
  else appendToNew tuple

/-! ## What is seen through the pool -/

/-- The pages that are seen when `disk` is in the file: a frame of the pool hides the page in the file,
and is the same unless it is dirty. -/
structure Caches (b : BufferManager) (disk pages : List Page) : Prop where
  holds : b.heap.Holds disk
  length : disk.length = pages.length
  wellFormed : ∀ p ∈ pages, p.WellFormed
  view : ∀ no, pages[no]? = ((b.pool.lookup no).map Frame.page).or disk[no]?
  clean : ∀ no frame, b.pool.lookup no = some frame → frame.dirty = false → disk[no]? = some frame.page

/-- The pages that are seen. -/
def Shows (pages : List Page) : Prop := ∃ disk, b.Caches disk pages

theorem shows_new (capacity : Nat) : (new (Heap.open []) capacity).Shows [] :=
  ⟨[], Heap.holds_open rfl nofun, rfl, fun _ hp => absurd hp not_mem_nil, fun _ => rfl,
    fun _ _ h => by cases h⟩

namespace Caches

variable {b b' : BufferManager} {disk pages : List Page} {no : Nat} {frame : Frame}
  (h : b.Caches disk pages)

include h

theorem page_of_lookup (hf : b.pool.lookup no = some frame) : pages[no]? = some frame.page := by
  rw [h.view, hf]
  rfl

theorem page_of_lookup_none (hf : b.pool.lookup no = none) : pages[no]? = disk[no]? := by
  rw [h.view, hf]
  rfl

theorem lt_of_lookup (hf : b.pool.lookup no = some frame) : no < disk.length := by
  rw [h.length]
  exact (List.getElem?_eq_some_iff.mp (h.page_of_lookup hf)).1

/-- Only the pool and the heap matter. -/
theorem congr (hheap : b'.heap = b.heap) (hpool : b'.pool = b.pool) : b'.Caches disk pages where
  holds := hheap ▸ h.holds
  length := h.length
  wellFormed := h.wellFormed
  view := hpool ▸ h.view
  clean := hpool ▸ h.clean

/-- A frame with the page that is seen. -/
theorem setFrame (hpage : pages[no]? = some frame.page)
    (hclean : frame.dirty = false → disk[no]? = some frame.page) :
    (b.setFrame no frame).Caches disk pages where
  holds := h.holds
  length := h.length
  wellFormed := h.wellFormed
  view no' := by
    show _ = (((b.pool.insert no frame).lookup no').map _).or _
    rcases eq_or_ne no' no with rfl | hne
    · rw [lookup_insert, hpage]
      rfl
    · rw [lookup_insert_ne hne, h.view]
  clean no' frame' hf hdirty := by
    change (b.pool.insert no frame).lookup no' = _ at hf
    rcases eq_or_ne no' no with rfl | hne
    · rw [lookup_insert] at hf
      cases hf
      exact hclean hdirty
    · rw [lookup_insert_ne hne] at hf
      exact h.clean no' frame' hf hdirty

/-- A frame whose page is in the file can be dropped. -/
theorem dropFrame (hpage : disk[no]? = pages[no]?) : (b.dropFrame no).Caches disk pages where
  holds := h.holds
  length := h.length
  wellFormed := h.wellFormed
  view no' := by
    show _ = (((b.pool.erase no).lookup no').map _).or _
    rcases eq_or_ne no' no with rfl | hne
    · rw [lookup_erase, hpage]
      rfl
    · rw [lookup_erase_ne hne, h.view]
  clean no' frame' hf hdirty := by
    change (b.pool.erase no).lookup no' = _ at hf
    rcases eq_or_ne no' no with rfl | hne
    · rw [lookup_erase] at hf
      cases hf
    · rw [lookup_erase_ne hne] at hf
      exact h.clean no' frame' hf hdirty

section

variable (hf : b.pool.lookup no = some frame)
include hf

/-- The page of a frame is written to the file. -/
theorem writePage :
    (b.setHeap (b.heap.writePage no frame.page)).Caches (disk.set no frame.page) pages := by
  have hlt := h.lt_of_lookup hf
  have hpage := h.page_of_lookup hf
  have hset : ∀ no', no' ≠ no → (disk.set no frame.page)[no']? = disk[no']? := fun no' hne =>
    getElem?_set_ne hne.symm
  refine ⟨h.holds.writePage_set hlt (h.wellFormed _ (mem_of_getElem? hpage)), ?_, h.wellFormed,
    ?_, ?_⟩
  · rw [length_set, h.length]
  · intro no'
    show _ = ((b.pool.lookup no').map _).or _
    rcases eq_or_ne no' no with rfl | hne
    · rw [hf, hpage]
      rfl
    · rw [hset no' hne, h.view]
  · intro no' frame' hf' hdirty
    change b.pool.lookup no' = _ at hf'
    rcases eq_or_ne no' no with rfl | hne
    · rw [hf] at hf'
      cases hf'
      exact getElem?_set_self hlt
    · rw [hset no' hne]
      exact h.clean no' frame' hf' hdirty

/-- An evicted frame is in the file afterwards. -/
theorem evict :
    (b.dropFrame no |>.setHeap (b.heap.writePage no frame.page)).Caches (disk.set no frame.page)
      pages := by
  refine ((h.writePage hf).dropFrame ?_).congr rfl rfl
  rw [getElem?_set_self (h.lt_of_lookup hf), h.page_of_lookup hf]

/-- A page of the pool is changed and marked. -/
theorem putPage_markDirty {page : Page} (hpage : page.WellFormed) :
    ((b.putPage no page).markDirty no).Caches disk (pages.set no page) := by
  have hlt : no < pages.length := h.length ▸ h.lt_of_lookup hf
  have hput : b.putPage no page = b.setFrame no { frame with page } := by
    rw [putPage, hf]
  have hlookup : (b.putPage no page).pool.lookup no = some { frame with page } := by
    rw [hput]
    exact lookup_insert _
  have hpool : ∀ no', no' ≠ no →
      ((b.putPage no page).markDirty no).pool.lookup no' = b.pool.lookup no' := by
    intro no' hne
    rw [markDirty, hlookup, hput]
    exact (lookup_insert_ne hne).trans (lookup_insert_ne hne)
  have hself : ((b.putPage no page).markDirty no).pool.lookup no =
      some { frame with page, dirty := true } := by
    rw [markDirty, hlookup]
    exact lookup_insert _
  have hheap : ((b.putPage no page).markDirty no).heap = b.heap := by
    rw [markDirty, hlookup, hput]
    rfl
  refine ⟨hheap ▸ h.holds, ?_, ?_, ?_, ?_⟩
  · rw [length_set, h.length]
  · intro p hp
    rcases mem_or_eq_of_mem_set hp with hp | rfl
    · exact h.wellFormed p hp
    · exact hpage
  · intro no'
    rcases eq_or_ne no' no with rfl | hne
    · rw [hself, getElem?_set_self hlt]
      rfl
    · rw [hpool no' hne, getElem?_set_ne hne.symm, h.view]
  · intro no' frame' hf' hdirty
    rcases eq_or_ne no' no with rfl | hne
    · rw [hself] at hf'
      cases hf'
      cases hdirty
    · rw [hpool no' hne] at hf'
      exact h.clean no' frame' hf' hdirty

end

/-- A page is added to the file. -/
theorem writePage_new :
    (b.setHeap (b.heap.writePage b.heap.pageCount Page.new)).Caches (disk ++ [Page.new])
      (pages ++ [Page.new]) := by
  refine ⟨?_, ?_, ?_, ?_, ?_⟩
  · rw [h.holds.pageCount]
    exact h.holds.writePage_length Page.wellFormed_new
  · rw [length_append, length_append, h.length]
  · intro p hp
    rcases mem_append.mp hp with hp | hp
    · exact h.wellFormed p hp
    · exact mem_singleton.mp hp ▸ Page.wellFormed_new
  · intro no'
    show _ = ((b.pool.lookup no').map _).or _
    cases hf : b.pool.lookup no' with
    | some frame =>
      have hlt := h.length ▸ h.lt_of_lookup hf
      rw [getElem?_append_left hlt, h.page_of_lookup hf]
      rfl
    | none =>
      show _ = (disk ++ [Page.new])[no']?
      rw [getElem?_append, getElem?_append, h.page_of_lookup_none hf, h.length]
  · intro no' frame hf hdirty
    rw [getElem?_append_left (h.lt_of_lookup hf)]
    exact h.clean no' frame hf hdirty

end Caches

/-! ## The operations -/

/-- Nothing is asked of the states that are passed, and nothing fails. -/
abbrev Runs {α : Type} (P : BufferManager → Prop) (m : Io BufferManager IoError α)
    (Q : α → BufferManager → Prop) : Prop :=
  Io.Spec P m (fun _ => True) Q (fun _ _ => False)

variable {pages : List Page} {pageNo : Nat}

theorem spec_evictOne {b : BufferManager} (hb : b.Shows pages) :
    Runs (· = b) evictOne (fun _ b' => b'.Shows pages ∧ ∀ no, no ∈ b'.pool → no ∈ b.pool) := by
  obtain ⟨disk, hb⟩ := hb
  refine .get_bind fun b₁ hb₁ => ?_
  subst hb₁
  cases hvictim : b₁.pool.entries.argmin fun e => e.2.used with
  | none =>
    refine .pure fun b' hb' => ?_
    subst hb'
    exact ⟨⟨disk, hb⟩, fun _ h => h⟩
  | some victim =>
    obtain ⟨no, frame⟩ := victim
    have hf : b₁.pool.lookup no = some frame :=
      mem_lookup_iff.mpr (argmin_mem hvictim)
    have hsub : ∀ no', no' ∈ (b₁.dropFrame no).pool → no' ∈ b₁.pool := fun no' h =>
      (mem_erase.mp h).2
    refine .modify_bind ?_
    cases hdirty : frame.dirty with
    | true =>
      refine .write (fun _ _ => trivial) fun b' hb' => ?_
      subst hb'
      exact ⟨⟨_, hb.evict hf⟩, hsub⟩
    | false =>
      refine .pure fun b' hb' => ?_
      subst hb'
      refine ⟨⟨disk, hb.dropFrame ?_⟩, hsub⟩
      rw [hb.clean no frame hf hdirty, hb.page_of_lookup hf]

theorem spec_admitPage {b : BufferManager} (hb : b.Shows pages) {page : Page} (dirty : Bool)
    (hpage : pages[pageNo]? = some page) (hout : pageNo ∉ b.pool) :
    Runs (· = b) (admitPage pageNo page dirty) (fun _ b' => b'.Shows pages ∧ pageNo ∈ b'.pool) := by
  -- The frame goes in once the pool shows the pages without it.
  have hinsert : ∀ b : BufferManager, b.Shows pages → pageNo ∉ b.pool →
      (b.tick.setFrame pageNo ⟨page, dirty, b.tick.clock⟩).Shows pages ∧
        pageNo ∈ (b.tick.setFrame pageNo ⟨page, dirty, b.tick.clock⟩).pool := by
    rintro b ⟨disk, hb⟩ hout
    have hdisk := hb.page_of_lookup_none (lookup_eq_none.mpr hout)
    have htick : b.tick.Caches disk pages := hb.congr rfl rfl
    exact ⟨⟨disk, htick.setFrame hpage fun _ => hdisk.symm.trans hpage⟩,
      (mem_insert _).mpr (.inl rfl)⟩
  refine .get_bind fun b₁ hb₁ => ?_
  subst hb₁
  split
  · refine (spec_evictOne hb).bind fun _ => .modify fun b' hb' => ?_
    exact hinsert b' hb'.1 fun h => hout (hb'.2 _ h)
  · refine .modify fun b' hb' => ?_
    subst hb'
    exact hinsert b' hb hout

theorem spec_getPage (hlt : pageNo < pages.length) :
    Runs (fun b => b.Shows pages) (getPage pageNo)
      (fun page b => b.Shows pages ∧ pages[pageNo]? = some page ∧ pageNo ∈ b.pool) := by
  refine .of_forall fun b hb => .modify_bind (.get_bind fun b₁ hb₁ => ?_)
  obtain ⟨disk, hb⟩ := hb
  replace hb : b₁.Caches disk pages := hb₁ ▸ hb.congr rfl rfl
  cases hf : b₁.pool.lookup pageNo with
  | some frame =>
    refine .modify_bind (.pure fun b' hb' => ?_)
    subst hb'
    have hpage := hb.page_of_lookup hf
    have hframe : (b₁.setFrame pageNo { frame with used := b₁.clock }).Caches disk pages :=
      hb.setFrame hpage (hb.clean pageNo frame hf)
    exact ⟨⟨disk, hframe.congr rfl rfl⟩, hpage, (mem_insert _).mpr (.inl rfl)⟩
  | none =>
    obtain ⟨page, hpage⟩ : ∃ page, pages[pageNo]? = some page := ⟨_, getElem?_eq_getElem hlt⟩
    have hdisk : disk[pageNo]? = some page := (hb.page_of_lookup_none hf).symm.trans hpage
    have hmiss : BufferManager.Shows { b₁ with misses := b₁.misses + 1 } pages :=
      ⟨disk, hb.congr rfl rfl⟩
    refine .modify_bind (.read_bind (hb.holds.readPage hdisk) ?_)
    refine (spec_admitPage hmiss false hpage (lookup_eq_none.mp hf)).bind fun _ =>
      .pure fun b' hb' => ⟨hb'.1, hpage, hb'.2⟩

theorem spec_newPage : Runs (fun b => b.Shows pages) newPage
    (fun no b => no = pages.length ∧ b.Shows (pages ++ [Page.new])) := by
  refine .get_bind fun b hb => ?_
  obtain ⟨disk, hb⟩ := hb
  have hno : b.heap.pageCount = pages.length := hb.holds.pageCount.trans hb.length
  have hnew : (pages ++ [Page.new])[b.heap.pageCount]? = some Page.new := by
    rw [hno, getElem?_concat_length]
  have hout : b.heap.pageCount ∉ b.pool := fun hmem => by
    obtain ⟨frame, hf⟩ := Option.isSome_iff_exists.mp (lookup_isSome.mpr hmem)
    have hlt := hb.lt_of_lookup hf
    rw [hb.length, hno] at hlt
    exact lt_irrefl _ hlt
  refine .write_bind trivial ((spec_admitPage ⟨_, hb.writePage_new⟩ true hnew hout).bind fun _ => ?_)
  exact .pure fun b' hb' => ⟨hno, hb'.1⟩

theorem spec_insertInto {page : Page} (hpage : pages[pageNo]? = some page) {tuple : List UInt8}
    (htuple : tuple ≠ []) : Runs (fun b => b.Shows pages) (insertInto pageNo tuple)
      (fun done b => done = true ∧ (∃ slot page', page.insertTuple tuple = some (slot, page') ∧
          b.Shows (pages.set pageNo page')) ∨
        done = false ∧ page.insertTuple tuple = none ∧ b.Shows pages) := by
  have hlt := (List.getElem?_eq_some_iff.mp hpage).1
  refine (spec_getPage hlt).bind fun page₁ => .of_forall fun b hb => ?_
  obtain ⟨⟨disk, hb⟩, hget, hmem⟩ := hb
  obtain rfl : page = page₁ := Option.some.inj (hpage.symm.trans hget)
  obtain ⟨frame, hf⟩ := Option.isSome_iff_exists.mp (lookup_isSome.mpr hmem)
  cases hins : page.insertTuple tuple with
  | none => exact .pure fun b' hb' => .inr ⟨rfl, rfl, hb' ▸ ⟨disk, hb⟩⟩
  | some res =>
    obtain ⟨slot, page'⟩ := res
    have hwf := (hb.wellFormed page (mem_of_getElem? hpage)).insertTuple htuple hins
    refine .modify_bind (.pure fun b' hb' => ?_)
    subst hb'
    exact .inl ⟨rfl, slot, page', rfl, disk, hb.putPage_markDirty hf hwf⟩

/-! ## Tuples -/

/-- The tuples that are seen. -/
def Stores (b : BufferManager) (tuples : List (List UInt8)) : Prop :=
  ∃ pages, b.Shows pages ∧ Heap.tuplesOf pages = tuples

/-- A tuple with which a page of its own is too small. -/
def TooLarge (tuple : List UInt8) : Prop := pageSize < headerSize + itemIdSize + tuple.length

theorem insertTuple_new_eq_none {tuple : List UInt8} :
    Page.new.insertTuple tuple = none ↔ TooLarge tuple := by
  rw [Page.insertTuple, TooLarge]
  split
  · next hfit =>
    rw [Page.canFit_iff] at hfit
    simp only [Page.new, itemIdSize] at hfit ⊢
    simp only [reduceCtorEq, false_iff]
    omega
  · next hfit =>
    rw [Page.canFit_iff] at hfit
    simp only [Page.new] at hfit ⊢
    simp only [true_iff]
    omega

/-- A tuple put into the last page comes last. -/
theorem tuplesOf_append_insertTuple {front : List Page} {page page' : Page} {tuple : List UInt8}
    {slot : Nat} (hwf : page.WellFormed) (htuple : tuple ≠ [])
    (hins : page.insertTuple tuple = some (slot, page')) :
    Heap.tuplesOf (front ++ [page']) = Heap.tuplesOf (front ++ [page]) ++ [tuple] := by
  rw [Heap.tuplesOf, Heap.tuplesOf, flatMap_append, flatMap_append, flatMap_singleton,
    flatMap_singleton, hwf.iterLive_insertTuple htuple hins, map_append, append_assoc]
  rfl

variable {tuples : List (List UInt8)} {tuple : List UInt8}

theorem spec_appendToNew (htuple : tuple ≠ []) (hpages : Heap.tuplesOf pages = tuples) :
    Io.Spec (fun b => b.Shows pages) (appendToNew tuple) (fun _ => True)
      (fun _ b => b.Stores (tuples ++ [tuple])) (fun e _ => e = .tupleTooLarge ∧ TooLarge tuple) := by
  refine (spec_newPage.imp (fun _ h => h) (fun _ h => h) (fun _ _ h => h) (fun _ _ h => h.elim)).bind
    fun no => .of_imp fun hno => ?_
  subst hno
  have hget : (pages ++ [Page.new])[pages.length]? = some Page.new := getElem?_concat_length
  refine ((spec_insertInto hget htuple).imp (fun _ h => h) (fun _ h => h) (fun _ _ h => h)
    (fun _ _ h => h.elim)).bind fun done => ?_
  cases done with
  | true =>
    refine .pure fun b hb => ?_
    obtain ⟨-, slot, page', hins, hb⟩ | ⟨hfalse, -⟩ := hb
    · refine ⟨_, hb, ?_⟩
      rw [set_append_right _ _ le_rfl, Nat.sub_self, ← hpages]
      show Heap.tuplesOf (pages ++ [page']) = _
      rw [tuplesOf_append_insertTuple Page.wellFormed_new htuple hins, Heap.tuplesOf,
        flatMap_append]
      show _ ++ [] ++ _ = _
      rw [append_nil]
      rfl
    · cases hfalse
  | false =>
    refine .fail fun b hb => ?_
    obtain ⟨htrue, -⟩ | ⟨-, hins, -⟩ := hb
    · cases htrue
    · exact ⟨rfl, insertTuple_new_eq_none.mp hins⟩

/-- **A tuple is appended**, unless it is too large for a page. -/
theorem spec_appendViaBuffer (htuple : tuple ≠ []) : Io.Spec (fun b => b.Stores tuples)
    (appendViaBuffer tuple) (fun _ => True) (fun _ b => b.Stores (tuples ++ [tuple]))
    (fun e _ => e = .tupleTooLarge ∧ TooLarge tuple) := by
  refine .get_bind fun b hb => ?_
  obtain ⟨pages, ⟨disk, hb⟩, htuples⟩ := hb
  have hcount : b.heap.pageCount = pages.length := hb.holds.pageCount.trans hb.length
  have hshows : ∀ b', b' = b → b'.Shows pages := fun b' h => h ▸ ⟨disk, hb⟩
  split
  · next hpos =>
    -- The last page, and those before it.
    obtain ⟨front, page, rfl⟩ : ∃ front page, pages = front ++ [page] :=
      (eq_nil_or_concat' pages).resolve_left
        (ne_nil_of_length_pos (hcount ▸ hpos))
    rw [length_append, length_singleton] at hcount
    have hget : (front ++ [page])[b.heap.pageCount - 1]? = some page := by
      rw [hcount, Nat.add_sub_cancel, getElem?_concat_length]
    have hwf := hb.wellFormed page (mem_append_right _ (mem_singleton_self _))
    refine ((spec_insertInto hget htuple).imp hshows (fun _ h => h) (fun _ _ h => h)
      (fun _ _ h => h.elim)).bind fun done => ?_
    cases done with
    | true =>
      refine .pure fun b' hb' => ?_
      obtain ⟨-, slot, page', hins, hb'⟩ | ⟨hfalse, -⟩ := hb'
      · refine ⟨_, hb', ?_⟩
        rw [hcount, Nat.add_sub_cancel, set_append_right _ _ le_rfl, Nat.sub_self, ← htuples]
        exact tuplesOf_append_insertTuple hwf htuple hins
      · cases hfalse
    | false =>
      refine (spec_appendToNew htuple htuples).pre fun b' hb' => ?_
      obtain ⟨htrue, -⟩ | ⟨-, -, hb'⟩ := hb'
      · cases htrue
      · exact hb'
  · exact (spec_appendToNew htuple htuples).pre hshows

/-! ## Flushing -/

theorem spec_flush {rest : List Nat} : Runs
    (fun b => b.Shows pages ∧ ∀ no frame, b.pool.lookup no = some frame → frame.dirty = true →
      no ∈ pageNo :: rest) (flush pageNo)
    (fun _ b => b.Shows pages ∧ ∀ no frame, b.pool.lookup no = some frame → frame.dirty = true →
      no ∈ rest) := by
  refine .get_bind fun b hb => ?_
  obtain ⟨⟨disk, hb⟩, hdirty⟩ := hb
  cases hf : b.pool.lookup pageNo with
  | none =>
    refine .pure fun b' hb' => ?_
    subst hb'
    refine ⟨⟨disk, hb⟩, fun no frame hno hd => ?_⟩
    rcases mem_cons.mp (hdirty no frame hno hd) with rfl | hmem
    · rw [hf] at hno
      cases hno
    · exact hmem
  | some frame =>
    refine .write_bind trivial (.modify fun b' hb' => ?_)
    subst hb'
    have hlt := hb.lt_of_lookup hf
    have hpage := hb.page_of_lookup hf
    refine ⟨⟨_, (hb.writePage hf).setFrame hpage fun _ => getElem?_set_self hlt⟩,
      fun no frame' hno hd => ?_⟩
    change (b.pool.insert pageNo _).lookup no = _ at hno
    rcases eq_or_ne no pageNo with rfl | hne
    · rw [lookup_insert] at hno
      cases hno
      cases hd
    · rw [lookup_insert_ne hne] at hno
      exact mem_of_ne_of_mem hne (hdirty no frame' hno hd)

/-- **What is seen is in the file** after all is flushed. -/
theorem spec_flushAll (order : IterOrder) :
    Runs (fun b => b.Shows pages) (flushAll order)
      (fun _ b => b.Shows pages ∧ b.heap.Holds pages) := by
  refine .get_bind fun b hb => ?_
  have hdirty : ∀ no frame, b.pool.lookup no = some frame → frame.dirty = true →
      no ∈ order.order b.dirtyPages := by
    intro no frame hf hd
    refine (order.perm _).mem_iff.mpr (mem_map.mpr ⟨⟨no, frame⟩, ?_, rfl⟩)
    exact mem_filter.mpr ⟨mem_lookup_iff.mp hf, hd⟩
  refine (Io.Spec.forM (R := fun rest b => b.Shows pages ∧ ∀ no frame,
    b.pool.lookup no = some frame → frame.dirty = true → no ∈ rest) fun no rest _ => spec_flush).imp
    (fun b' hb' => by subst hb'; exact ⟨hb, hdirty⟩) (fun _ h => h) ?_ (fun _ _ h => h)
  rintro _ b' ⟨⟨disk, hb'⟩, hclean⟩
  -- Without dirty frames, what is seen is what is in the file.
  have hdisk : disk = pages := by
    refine ext_getElem? fun no => ?_
    cases hf : b'.pool.lookup no with
    | none => exact (hb'.page_of_lookup_none hf).symm
    | some frame =>
      have hfalse : frame.dirty = false := Bool.eq_false_iff.mpr fun hd =>
        not_mem_nil (hclean no frame hf hd)
      rw [hb'.clean no frame hf hfalse, hb'.page_of_lookup hf]
  exact ⟨⟨disk, hb'⟩, hdisk ▸ hb'.holds⟩

end BufferManager
end PostgresRs.Disk
