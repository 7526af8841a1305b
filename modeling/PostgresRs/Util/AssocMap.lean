import Mathlib.Data.List.AList

/-!
# Hash maps with a default value

A hash map is modelled by Mathlib's `AList`, a list of entries with distinct keys; the order of the
list is one iteration order of the map.  Two operations of hash maps that `AList` does not have are
added for maps whose absent keys stand for a default value.

* `AList.get s k` — the value of `k`, the default where `k` is absent.
* `AList.retainMap f s` — `retain` with a closure that rewrites the values it keeps.
-/

namespace AList

variable {κ : Type*} {ν : Type*} [DecidableEq κ]

/-- The value of `k`, or the default value. -/
def get [Inhabited ν] (s : AList (fun _ : κ => ν)) (k : κ) : ν :=
  (s.lookup k).getD default

section get

variable [Inhabited ν] {s : AList (fun _ : κ => ν)} {k k' : κ} {v : ν}

@[simp] theorem get_empty : (∅ : AList (fun _ : κ => ν)).get k = default := by
  simp [get]

theorem get_insert : (s.insert k v).get k' = if k' = k then v else s.get k' := by
  unfold get
  split
  · next h => subst h; simp
  · next h => rw [lookup_insert_ne h]

theorem get_erase : (s.erase k).get k' = if k' = k then default else s.get k' := by
  unfold get
  split
  · next h => subst h; simp
  · next h => rw [lookup_erase_ne h]

/-- What every entry satisfies is, up to the default value, what every key's value satisfies. -/
theorem exists_mem_entries {P : κ → ν → Prop} (hd : ∀ k, ¬ P k default) :
    (∃ a ∈ s.entries, P a.1 a.2) ↔ ∃ k, P k (s.get k) := by
  constructor
  · rintro ⟨⟨k, v⟩, hmem, hP⟩
    refine ⟨k, ?_⟩
    have : s.lookup k = some v := mem_lookup_iff.2 hmem
    simpa [get, this] using hP
  · rintro ⟨k, hP⟩
    cases hk : s.lookup k with
    | none => exact absurd (by simpa [get, hk] using hP) (hd k)
    | some v => exact ⟨⟨k, v⟩, mem_lookup_iff.1 hk, by simpa [get, hk] using hP⟩

end get

/-- One entry of `retainMap`: its key stays, its value is rewritten, or it is dropped. -/
def retainEntry (f : ν → Option ν) (a : Sigma fun _ : κ => ν) : Option (Sigma fun _ : κ => ν) :=
  (f a.2).map (Sigma.mk a.1)

omit [DecidableEq κ] in
theorem keys_retainEntry_sublist (f : ν → Option ν) (l : List (Sigma fun _ : κ => ν)) :
    (l.filterMap (retainEntry f)).keys.Sublist l.keys := by
  induction l with
  | nil => simp
  | cons a l ih =>
    cases h : f a.2 with
    | none => simpa [retainEntry, h] using ih.cons a.1
    | some v => simpa [retainEntry, h] using ih

/-- Rewrite every value by `f` and drop the entries on which `f` gives nothing. -/
def retainMap (f : ν → Option ν) (s : AList (fun _ : κ => ν)) : AList (fun _ : κ => ν) where
  entries := s.entries.filterMap (retainEntry f)
  nodupKeys := (keys_retainEntry_sublist f s.entries).nodup s.nodupKeys

theorem lookup_retainMap (f : ν → Option ν) (s : AList (fun _ : κ => ν)) (k : κ) :
    (s.retainMap f).lookup k = (s.lookup k).bind f := by
  ext v
  rw [← Option.mem_def, mem_lookup_iff]
  constructor
  · intro h
    obtain ⟨⟨k', v'⟩, hmem, hv⟩ := List.mem_filterMap.1 h
    obtain ⟨v'', hf, hk⟩ := Option.map_eq_some_iff.1 hv
    cases hk
    have : s.lookup k' = some v' := mem_lookup_iff.2 hmem
    simpa [this] using hf
  · intro h
    obtain ⟨v', hl, hf⟩ := Option.bind_eq_some_iff.1 h
    exact List.mem_filterMap.2 ⟨⟨k, v'⟩, mem_lookup_iff.1 hl, by simp [retainEntry, hf]⟩

end AList
