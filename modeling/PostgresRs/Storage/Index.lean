import PostgresRs.Sql.Statement
import PostgresRs.Storage.Keys
import Mathlib.Data.List.Dedup
import Mathlib.Data.List.Sort

/-!
# Secondary indexes

The indexes of `engine/src/index.rs`: the four layouts of an index, and how an entry goes in and out.
A B-tree and a hash map are both `Buckets`; the first is ordered by `keyCmp`, which is an order on
some sets of keys only, the others by a plain order of texts or numbers, which stands in for the
iteration order of a hash map.

`Store.Holds id key` and `Store.Lacks id` say that a store has exactly one entry of a row, under a
key, and that it has none.  `insert` and `remove` lead from one to the other and leave all other rows
alone.
-/

namespace PostgresRs.Storage

open List

abbrev RowId := Nat

open IndexKey

/-! ## Elements of arrays -/

/-- The element read so far goes out, unless it is an unquoted `NULL`. -/
def ginPush (cur : List Char) (wasQuoted : Bool) : List (List Char) :=
  if !wasQuoted && cur.map Char.toLower == "null".toList then [] else [cur]

/-- The elements between the braces of an array text. -/
def ginScan (cur : List Char) (quoted wasQuoted escape : Bool) : List Char → List (List Char)
  | [] => ginPush cur wasQuoted
  | ch :: cs =>
    if escape then ginScan (cur ++ [ch]) quoted wasQuoted false cs
    else if quoted then
      if ch = '\\' then ginScan cur true wasQuoted true cs
      else if ch = '"' then ginScan cur false wasQuoted false cs
      else ginScan (cur ++ [ch]) true wasQuoted false cs
    else if ch = '"' then ginScan cur true true false cs
    else if ch = ',' then ginPush cur wasQuoted ++ ginScan [] false false false cs
    else ginScan (cur ++ [ch]) false wasQuoted false cs

/-- The elements of an array text, the whole text if it is not one. -/
def ginTokens (value : Value) : List (List Char) :=
  match value.toText with
  | none => []
  | some text =>
    if text.head? ≠ some '\x7b' ∨ text.getLast? ≠ some '\x7d' then [text]
    else if text.length = 2 then []
    else ginScan [] false false false (text.drop 1).dropLast

/-- `sort` and then `dedup`. -/
def sortDedup (tokens : List (List Char)) : List (List Char) :=
  (tokens.insertionSort fun a b => compare a b ≠ .gt).dedup

/-! ## Stores -/

/-- Number of rows that one range of a BRIN index summarises. -/
def brinRangeSize : Nat := 16

/-- What an index keeps. -/
inductive Store where
  | btree (tree : Buckets (List Value) RowId)
  | hash (map : Buckets (List Char) RowId)
  | brin (ranges : Buckets Nat (RowId × Value))
  | gin (postings : Buckets (List Char) RowId) (all : List RowId)

namespace Store

def empty : IndexMethod → Store
  | .btree | .gist | .spGist => btree []
  | .hash => hash []
  | .brin => brin []
  | .gin => gin [] []

/-- The one value of a key that BRIN and GIN look at. -/
def firstValue (key : List Value) : Value := key.head?.getD .null

/-- The elements of a key under which GIN posts a row. -/
def tokens (key : List Value) : List (List Char) := sortDedup (ginTokens (firstValue key))

def insert (key : List Value) (id : RowId) : Store → Store
  | btree tree => btree (tree.push keyCmp key id)
  | hash map => if keyHasNull key then hash map else hash (map.push compare (hashKey key) id)
  | brin ranges => brin (ranges.push compare (id / brinRangeSize) (id, firstValue key))
  | gin postings all =>
    gin ((tokens key).foldl (fun m tok => m.push compare tok id) postings) (all ++ [id])

def remove (key : List Value) (id : RowId) : Store → Store
  | btree tree => btree (tree.remove keyCmp key (· == id))
  | hash map =>
    if keyHasNull key then hash map else hash (map.remove compare (hashKey key) (· == id))
  | brin ranges => brin (ranges.remove compare (id / brinRangeSize) (·.1 == id))
  | gin postings all =>
    gin ((tokens key).foldl (fun m tok => m.remove compare tok (· == id)) postings)
      (Buckets.swapRemove (· == id) all)

end Store

/-! ## What a store holds -/

namespace Store

/-- The store has no entry of the row `id`. -/
def Lacks (id : RowId) : Store → Prop
  | btree tree => tree.held (· == id) = []
  | hash map => map.held (· == id) = []
  | brin ranges => ranges.held (·.1 == id) = []
  | gin postings all => postings.held (· == id) = [] ∧ all.count id = 0

/-- The store has exactly one entry of the row `id`, and that is under `key`. -/
def Holds (id : RowId) (key : List Value) : Store → Prop
  | btree tree => ∃ k, keyCmp key k = .eq ∧ tree.held (· == id) = [k]
  | hash map => map.held (· == id) = [hashKey key]
  | brin ranges =>
    ranges.held (·.1 == id) = [id / brinRangeSize] ∧
      ranges.held (· == (id, firstValue key)) = [id / brinRangeSize]
  | gin postings all => (postings.held (· == id)).Perm (tokens key) ∧ all.count id = 1

/-- The entries of the row `id` are what its key asks for, if it has one. -/
def HoldsOnly (id : RowId) : Option (List Value) → Store → Prop
  | none, s => s.Lacks id
  | some key, s => s.Holds id key

/-- The layout can keep `key`: a B-tree if the order is one on `K`, a hash map if no part is `NULL`. -/
def Accepts (K : List Value → Prop) (key : List Value) : Store → Prop
  | btree _ => K key
  | hash _ => keyHasNull key = false
  | brin _ | gin _ _ => True

/-- The maps of the store are sorted. -/
def Lawful (K : List Value → Prop) : Store → Prop
  | btree tree => tree.Lawful K keyCmp
  | hash map => map.Lawful (fun _ => True) compare
  | brin ranges => ranges.Lawful (fun _ => True) compare
  | gin postings _ => postings.Lawful (fun _ => True) compare

/-- The two stores have the same entries of the row `id`. -/
def SameFor (id : RowId) : Store → Store → Prop
  | btree tree, btree tree' => tree'.held (· == id) = tree.held (· == id)
  | hash map, hash map' => map'.held (· == id) = map.held (· == id)
  | brin ranges, brin ranges' =>
    ranges'.held (·.1 == id) = ranges.held (·.1 == id) ∧
      ∀ v, ranges'.held (· == (id, v)) = ranges.held (· == (id, v))
  | gin postings all, gin postings' all' =>
    postings'.held (· == id) = postings.held (· == id) ∧ all'.count id = all.count id
  | _, _ => False

variable {K : List Value → Prop} {key : List Value} {id id' : RowId} {o : Option (List Value)}
  {s s' : Store}

theorem SameFor.holdsOnly (h : SameFor id s s') (hs : s.HoldsOnly id o) : s'.HoldsOnly id o := by
  cases s <;> cases s' <;> cases o <;> simp_all [SameFor, HoldsOnly, Lacks, Holds]

theorem lacks_empty (method : IndexMethod) : (empty method).Lacks id := by
  cases method <;> simp [empty, Lacks]

theorem lawful_empty (method : IndexMethod) : (empty method).Lawful K := by
  cases method <;> exact .nil

/-! ### The postings of an array -/

section Postings

variable {m : Buckets (List Char) RowId}

theorem held_foldl_push (toks : List (List Char)) :
    (Buckets.held (· == id) (toks.foldl (fun m tok => m.push compare tok id) m)).Perm
      (toks ++ m.held (· == id)) := by
  induction toks generalizing m with
  | nil => exact .refl _
  | cons tok toks ih =>
    have hperm : (Buckets.held (· == id) (m.push compare tok id)).Perm (tok :: m.held (· == id)) := by
      refine Buckets.held_push_of_lawfulEq ?_
      exact beq_self_eq_true id
    exact ih.trans ((hperm.append_left toks).trans perm_middle)

variable (hm : m.Lawful (fun _ => True) compare)
include hm

theorem held_foldl_remove {toks : List (List Char)} (h : (m.held (· == id)).Perm toks) :
    Buckets.held (· == id) (toks.foldl (fun m tok => m.remove compare tok (· == id)) m) = [] := by
  induction toks generalizing m with
  | nil => exact h.eq_nil
  | cons tok toks ih =>
    have hmem : tok ∈ m.held (· == id) := h.symm.subset (.head _)
    have hperm := hm.held_remove .of_transCmp trivial hmem Std.ReflOrd.compare_self
    exact ih (hm.remove tok _) ((hperm.symm.trans h).cons_inv)

end Postings

/-! ### Insertion -/

theorem Lawful.insert (h : s.Lawful K) (hord : Buckets.OrderOn K keyCmp) (hkey : s.Accepts K key) :
    (s.insert key id).Lawful K := by
  cases s with
  | btree tree => exact Buckets.Lawful.push h hord hkey id
  | hash map =>
    rw [Store.insert]
    split
    · exact h
    · exact Buckets.Lawful.push h .of_transCmp trivial id
  | brin ranges => exact Buckets.Lawful.push h .of_transCmp trivial _
  | gin postings all => exact foldlRecOn _ _ h fun _ hm _ _ => hm.push .of_transCmp trivial id

/-- Inserting a row leaves the entries of the others. -/
theorem sameFor_insert (h : id' ≠ id) : SameFor id' s (s.insert key id) := by
  have hid : (id == id') = false := beq_false_of_ne h.symm
  cases s with
  | btree tree => exact Buckets.held_push_of_not hid
  | hash map =>
    rw [Store.insert]
    split
    · exact rfl
    · exact Buckets.held_push_of_not hid
  | brin ranges =>
    refine ⟨Buckets.held_push_of_not hid, fun v => Buckets.held_push_of_not ?_⟩
    exact beq_false_of_ne fun heq => h (congrArg Prod.fst heq).symm
  | gin postings all =>
    refine ⟨foldlRecOn (motive := fun m => Buckets.held (· == id') m = postings.held _) _ _ rfl
      fun _ hm _ _ => (Buckets.held_push_of_not (q := (· == id')) hid).trans hm, ?_⟩
    rw [count_append, count_singleton, hid]
    rfl

theorem holds_insert (hs : s.Lacks id) (hord : Buckets.OrderOn K keyCmp)
    (hkey : s.Accepts K key) : (s.insert key id).Holds id key := by
  have hid : (id == id) = true := beq_self_eq_true id
  cases s with
  | btree tree =>
    obtain ⟨k, hk, hperm⟩ := @Buckets.held_push _ _ keyCmp key id (· == id) tree hid
    rw [show tree.held (· == id) = [] from hs] at hperm
    refine ⟨k, ?_, perm_singleton.mp hperm⟩
    rcases hk with rfl | hk
    · exact hord.refl hkey
    · exact hk
  | hash map =>
    rw [Store.insert, show keyHasNull key = false from hkey]
    exact Buckets.held_push_eq_singleton hs hid
  | brin ranges =>
    have hrow : ranges.held (· == (id, firstValue key)) = [] := by
      refine Buckets.held_eq_nil_of_imp (fun e he => ?_) hs
      rw [beq_iff_eq.mp he]
      exact hid
    exact ⟨Buckets.held_push_eq_singleton hs hid,
      Buckets.held_push_eq_singleton hrow (beq_self_eq_true (id, firstValue key))⟩
  | gin postings all =>
    refine ⟨(held_foldl_push _).trans ?_, ?_⟩
    · rw [hs.1, append_nil]
    · rw [count_append, hs.2, count_singleton_self]

/-! ### Removal -/

theorem Lawful.remove (h : s.Lawful K) : (s.remove key id).Lawful K := by
  cases s with
  | btree tree => exact Buckets.Lawful.remove h key _
  | hash map =>
    rw [Store.remove]
    split
    · exact h
    · exact Buckets.Lawful.remove h _ _
  | brin ranges => exact Buckets.Lawful.remove h _ _
  | gin postings all => exact foldlRecOn _ _ h fun _ hm tok _ => hm.remove tok _

/-- Removing a row leaves the entries of the others. -/
theorem sameFor_remove (h : id' ≠ id) : SameFor id' s (s.remove key id) := by
  have hid : ∀ x : RowId, (x == id') = true → (x == id) = false := fun x hx => by
    rw [beq_iff_eq.mp hx]
    exact beq_false_of_ne h
  cases s with
  | btree tree => exact Buckets.held_remove_of_not hid
  | hash map =>
    rw [Store.remove]
    split
    · exact rfl
    · exact Buckets.held_remove_of_not hid
  | brin ranges =>
    refine ⟨Buckets.held_remove_of_not fun e => hid e.1, fun v => Buckets.held_remove_of_not ?_⟩
    rintro e he
    rw [beq_iff_eq.mp he]
    exact hid id' (beq_self_eq_true id')
  | gin postings all =>
    exact ⟨foldlRecOn (motive := fun m => Buckets.held (· == id') m = postings.held _) _ _ rfl
      fun _ hm _ _ => (Buckets.held_remove_of_not hid).trans hm,
      Buckets.countP_swapRemove_of_disjoint hid all⟩

theorem lacks_remove (hs : s.Holds id key) (hl : s.Lawful K) (hord : Buckets.OrderOn K keyCmp)
    (hkey : s.Accepts K key) : (s.remove key id).Lacks id := by
  cases s with
  | btree tree =>
    obtain ⟨k, hk, hheld⟩ := hs
    exact Buckets.Lawful.held_remove_eq_nil hl hord hkey hheld hk
  | hash map =>
    rw [Store.remove, show keyHasNull key = false from hkey]
    exact Buckets.Lawful.held_remove_eq_nil hl .of_transCmp trivial hs Std.ReflCmp.compare_self
  | brin ranges =>
    exact Buckets.Lawful.held_remove_eq_nil hl .of_transCmp trivial hs.1 Std.ReflCmp.compare_self
  | gin postings all =>
    refine ⟨held_foldl_remove hl hs.1, ?_⟩
    have hall := hs.2
    have hmem : id ∈ all := count_pos_iff.mp (by rw [hall]; exact Nat.one_pos)
    have hcount : all.countP (· == id) = (Buckets.swapRemove (· == id) all).countP (· == id) + 1 := by
      refine Buckets.countP_swapRemove ⟨id, hmem, ?_⟩
      exact beq_self_eq_true id
    rw [count_eq_countP] at hall ⊢
    omega

end Store

/-! ## Indexes -/

structure Index where
  name : String
  columns : List Nat
  expr : Option Expr
  predicate : Option Expr
  «include» : List Nat
  unique : Bool
  method : IndexMethod
  store : Store

namespace Index

def newMulti (name : String) (columns : List Nat) (unique : Bool) (method : IndexMethod) : Index :=
  { name, columns, expr := none, predicate := none, «include» := [], unique, method,
    store := Store.empty method }

def new (name : String) (column : Nat) (unique : Bool) : Index := newMulti name [column] unique .btree

def insert (idx : Index) (key : List Value) (id : RowId) : Index :=
  { idx with store := idx.store.insert key id }

def remove (idx : Index) (key : List Value) (id : RowId) : Index :=
  { idx with store := idx.store.remove key id }

def clear (idx : Index) : Index := { idx with store := Store.empty idx.method }

end Index

end PostgresRs.Storage
