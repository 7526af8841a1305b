import PostgresRs.Disk.Page

/-!
# Heap files

A heap file of `engine/src/disk/heap.rs` is a sequence of pages in one file.  `Heap.Holds` says which
pages a file has; they are read and written one at a time, and `Holds.iterTuples` lists their tuples.
Errors of the operating system are left out.
-/

namespace PostgresRs.Disk

open List

/-- The errors of `io::Error` that the code makes itself. -/
inductive IoError where
  | outOfRange (pageNo pageCount : Nat)
  | unexpectedEof
  | invalidData (e : PageError)
  | invalidUtf8
  | tupleTooLarge
deriving DecidableEq, Repr

/-- An open heap: the contents of the file and the number of its pages. -/
structure Heap where
  file : List UInt8
  pageCount : Nat
deriving DecidableEq, Repr

namespace Heap

def «open» (file : List UInt8) : Heap := ⟨file, file.length / pageSize⟩

def readPage (h : Heap) (pageNo : Nat) : Except IoError Page :=
  if h.pageCount ≤ pageNo then .error (.outOfRange pageNo h.pageCount)
  else
    let buf := Bytes.slice h.file (pageNo * pageSize) pageSize
    if buf.length < pageSize then .error .unexpectedEof
    else
      match Page.fromBytes buf with
      | .ok p => .ok p
      | .error e => .error (.invalidData e)

/-- Write a page, extending the file if needed. -/
def writePage (h : Heap) (pageNo : Nat) (p : Page) : Heap where
  file := Bytes.patch h.file (pageNo * pageSize) p.toBytes
  pageCount := if h.pageCount ≤ pageNo then pageNo + 1 else h.pageCount

/-- The live tuples of a page, with its number. -/
def pageTuples (pageNo : Nat) (p : Page) : List (Nat × Nat × List UInt8) :=
  p.iterLive.map fun (slot, bytes) => (pageNo, slot, bytes)

/-- Every live tuple with its page and slot. -/
def iterTuples (h : Heap) : Except IoError (List (Nat × Nat × List UInt8)) := do
  let pages ← (List.range h.pageCount).mapM fun pageNo => do
    let p ← h.readPage pageNo
    .ok (pageTuples pageNo p)
  .ok pages.flatten

/-! ## The pages of a file -/

/-- A heap with the given pages. -/
structure Holds (h : Heap) (pages : List Page) : Prop where
  file : h.file = (pages.map Page.toBytes).flatten
  pageCount : h.pageCount = pages.length
  wellFormed : ∀ p ∈ pages, p.WellFormed

/-- The live tuples of some pages. -/
def tuplesOf (pages : List Page) : List (List UInt8) :=
  pages.flatMap fun p => p.iterLive.map Prod.snd

theorem pageSize_pos : 0 < pageSize := by decide

theorem length_of_mem_map {pages : List Page} (h : ∀ p ∈ pages, p.WellFormed) :
    ∀ b ∈ pages.map Page.toBytes, b.length = pageSize := by
  intro b hb
  obtain ⟨p, hp, rfl⟩ := mem_map.mp hb
  exact (h p hp).inBounds.length_toBytes

/-- A tuple is not larger than a page. -/
theorem length_of_mem_tuplesOf {pages : List Page} (h : ∀ p ∈ pages, p.WellFormed) {tuple : List UInt8}
    (ht : tuple ∈ tuplesOf pages) : tuple.length ≤ pageSize := by
  obtain ⟨p, hp, ht⟩ := mem_flatMap.mp ht
  obtain ⟨e, he, rfl⟩ := mem_map.mp ht
  obtain ⟨⟨slot, i⟩, hslot, he⟩ := mem_filterMap.mp he
  have hmem : slot ∈ p.ids.zip p.tuples := by
    rw [← zipIdx_map_fst 0 (p.ids.zip p.tuples)]
    exact mem_map.mpr ⟨_, hslot, rfl⟩
  rcases (h p hp).slots slot hmem with rfl | ⟨hlive, hlen, -, hend⟩
  · cases he
  · simp only [if_neg hlive.ne', Option.some.injEq] at he
    rw [← he, ← hlen]
    omega

theorem holds_open {file : List UInt8} {pages : List Page}
    (hfile : file = (pages.map Page.toBytes).flatten) (hwf : ∀ p ∈ pages, p.WellFormed) :
    («open» file).Holds pages := by
  refine ⟨hfile, ?_, hwf⟩
  show file.length / pageSize = _
  rw [hfile, Bytes.length_flatten (length_of_mem_map hwf), length_map,
    Nat.mul_div_cancel _ pageSize_pos]

namespace Holds

variable {h : Heap} {pages : List Page}

variable (hh : h.Holds pages)
include hh

theorem readPage {i : Nat} {p : Page} (hi : pages[i]? = some p) : h.readPage i = .ok p := by
  obtain ⟨hlt, hget⟩ := List.getElem?_eq_some_iff.mp hi
  have hp : p.WellFormed := hh.wellFormed p (mem_of_getElem? hi)
  have hslice : Bytes.slice h.file (i * pageSize) pageSize = p.toBytes := by
    rw [hh.file, Bytes.slice_flatten (length_of_mem_map hh.wellFormed)
      (by rwa [length_map]), getElem_map, hget]
  rw [Heap.readPage, if_neg (by rw [hh.pageCount]; omega), hslice,
    if_neg (by rw [hp.inBounds.length_toBytes]; exact lt_irrefl _), hp.fromBytes_toBytes]

/-- A page is written back. -/
theorem writePage_set {i : Nat} {p : Page} (hi : i < pages.length)
    (hp : p.WellFormed) : (h.writePage i p).Holds (pages.set i p) where
  file := by
    show Bytes.patch h.file _ _ = _
    rw [hh.file, Bytes.patch_flatten_set (length_of_mem_map hh.wellFormed) (by rwa [length_map])
      hp.inBounds.length_toBytes, map_set]
  pageCount := by
    show (if h.pageCount ≤ i then i + 1 else h.pageCount) = _
    rw [hh.pageCount, if_neg (by omega), length_set]
  wellFormed q hq := by
    rcases mem_or_eq_of_mem_set hq with hq | rfl
    · exact hh.wellFormed q hq
    · exact hp

/-- A page is added. -/
theorem writePage_length {p : Page} (hp : p.WellFormed) :
    (h.writePage pages.length p).Holds (pages ++ [p]) where
  file := by
    have hpatch := Bytes.patch_flatten_length (length_of_mem_map hh.wellFormed) p.toBytes
    rw [length_map] at hpatch
    show Bytes.patch h.file _ _ = _
    rw [hh.file, hpatch, map_append, map_singleton]
  pageCount := by
    show (if h.pageCount ≤ pages.length then pages.length + 1 else h.pageCount) = _
    rw [hh.pageCount, if_pos le_rfl, length_append, length_singleton]
  wellFormed q hq := by
    rcases mem_append.mp hq with hq | hq
    · exact hh.wellFormed q hq
    · exact mem_singleton.mp hq ▸ hp

/-- **The tuples of a heap** are those of its pages. -/
theorem iterTuples :
    ∃ entries, h.iterTuples = .ok entries ∧ entries.map (fun e => e.2.2) = tuplesOf pages := by
  have hread : (List.range pages.length).mapM (fun pageNo => do
      let p ← h.readPage pageNo
      .ok (pageTuples pageNo p)) = (.ok (pages.mapIdx pageTuples) : Except IoError _) := by
    rw [← length_mapIdx (f := pageTuples)]
    refine mapM_range_eq_ok fun i hi => ?_
    rw [length_mapIdx] at hi
    rw [hh.readPage (getElem?_eq_getElem hi), getElem_mapIdx]
    rfl
  refine ⟨(pages.mapIdx pageTuples).flatten, ?_, ?_⟩
  · rw [Heap.iterTuples, hh.pageCount, hread]
    rfl
  · rw [map_flatten]
    congr 1
    refine ext_getElem? fun i => ?_
    rw [getElem?_map, getElem?_mapIdx, getElem?_map, Option.map_map]
    congr 1
    funext p
    show (p.iterLive.map _).map _ = _
    rw [map_map]
    rfl

end Holds
end Heap
end PostgresRs.Disk
