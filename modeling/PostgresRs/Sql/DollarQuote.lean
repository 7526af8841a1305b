import Mathlib.Data.Nat.Find
import PostgresRs.Sql.Scan

/-!
# Dollar quotes

`dollar_quote` of `sql/src/serialize.rs` puts the body of a function between two delimiters that do
not occur in it.  The lexer reads it back unless the end of the body makes a delimiter with the
first `$` of the closing one (`tokenize_dollarQuote_iff`).
-/

namespace PostgresRs.Lexer

open Utf8 List

variable {tag body s r bs : List UInt8} {cs : List Char}

/-- A tag between two `$`. -/
def delimiterOf (tag : List UInt8) : List UInt8 := byte '$' :: tag ++ [byte '$']

/-- `str::contains`. -/
def contains (s needle : List UInt8) : Bool := (splitAt needle s).isSome

def bodyTag (n : Nat) : List UInt8 := ("body".toList ++ Nat.toDigits 10 n).map byte

theorem exists_freeTag (body : List UInt8) :
    ∃ n, contains body (delimiterOf (bodyTag n)) = false := by
  refine ⟨10 ^ (body.length + 1), Bool.eq_false_iff.mpr fun h => ?_⟩
  -- A delimiter that is longer than the body does not occur in it.
  obtain ⟨found, hfound⟩ := Option.isSome_iff_exists.mp h
  have hlen := congrArg List.length (eq_append_of_splitAt hfound)
  have hdigits := mt (Nat.length_toDigits_le_iff (n := 10 ^ (body.length + 1)) (b := 10) (by decide)
    body.length.succ_pos).mp (lt_irrefl _)
  simp [delimiterOf, bodyTag] at hlen hdigits
  omega

/-- The tag that is chosen: none, or the first free one. -/
def chosenTag (body : List UInt8) : List UInt8 :=
  if !contains body (delimiterOf []) then [] else bodyTag (Nat.find (exists_freeTag body))

def dollarQuote (body : List UInt8) : List UInt8 :=
  delimiterOf (chosenTag body) ++ body ++ delimiterOf (chosenTag body)

theorem splitAt_chosenTag (body : List UInt8) :
    splitAt (delimiterOf (chosenTag body)) body = none := by
  have hfree : contains body (delimiterOf (chosenTag body)) = false := by
    rw [chosenTag]
    split
    · next h => simpa using h
    · exact Nat.find_spec (exists_freeTag body)
  simpa [contains] using hfree

/-! ## The closing delimiter -/

/-- The delimiter is first found behind a body without one, unless the body ends in all of it but
the last `$`. -/
theorem splitAt_delimiterOf_iff (htag : byte '$' ∉ tag)
    (hbody : splitAt (delimiterOf tag) body = none) :
    splitAt (delimiterOf tag) (body ++ delimiterOf tag) = some (body, []) ↔
      ¬(byte '$' :: tag) <:+ body := by
  induction body with
  | nil => simp [delimiterOf, splitAt]
  | cons c body ih =>
    rw [splitAt] at hbody
    split at hbody
    · cases hbody
    next hp =>
    rw [cons_append, splitAt]
    split
    · next hp' =>
      -- The delimiter ends with the first `$` of the closing one.
      obtain ⟨r, hr⟩ := isPrefixOf_iff_prefix.mp hp'
      rcases append_eq_append_iff.mp (hr.trans (cons_append ..).symm) with
        ⟨e, he, -⟩ | ⟨_ | ⟨x, e⟩, he, he'⟩
      · exact (hp <| isPrefixOf_iff_prefix.mpr ⟨e, he.symm⟩).elim
      · rw [append_nil] at he
        exact (hp <| isPrefixOf_iff_prefix.mpr ⟨[], (append_nil _).trans he⟩).elim
      · obtain ⟨rfl, -⟩ := List.cons.inj he'
        obtain ⟨rfl, htail⟩ := List.cons.inj he
        obtain ⟨rfl, -⟩ := (append_cons_inj_of_notMem htag not_mem_nil).mp htail
        simp
    · next hp' =>
      have hne : byte '$' :: tag ≠ c :: body := by
        rintro ⟨⟩
        refine hp' <| isPrefixOf_iff_prefix.mpr ⟨tag ++ [byte '$'], ?_⟩
        simp [delimiterOf]
      rw [suffix_cons_iff, or_iff_right hne, ← ih (Option.map_eq_none_iff.mp hbody)]
      simp

/-! ## Lexing -/

/-- A tag as the lexer knows it. -/
structure IsTag (tag : List UInt8) : Prop where
  noDollar : byte '$' ∉ tag
  starts : ∀ s, startsDollarQuote true (tag ++ byte '$' :: s) = true

theorem startsDollarQuote_tag (htag : ∀ c ∈ tag, isAlphanumeric c = true) (s : List UInt8) :
    startsDollarQuote false (tag ++ byte '$' :: s) = true := by
  induction tag with
  | nil => simp [startsDollarQuote]
  | cons c tag ih =>
    rw [forall_mem_cons] at htag
    simp [startsDollarQuote, htag.1, ih htag.2]

theorem isTag_chosenTag (body : List UInt8) : IsTag (chosenTag body) := by
  rw [chosenTag]
  split
  · exact ⟨not_mem_nil, fun s => rfl⟩
  have hall : ∀ c ∈ bodyTag (Nat.find (exists_freeTag body)), isAlphanumeric c = true := by
    rw [bodyTag, map_append]
    refine forall_mem_append.mpr ⟨all_eq_true.mp rfl, ?_⟩
    refine forall_mem_map.mpr fun c hc => ?_
    have hbounds : 48 ≤ c.toNat ∧ c.toNat ≤ 57 := by
      simpa [Char.isDigit, UInt32.le_iff_toNat_le] using
        Nat.isDigit_of_mem_toDigits (by decide) (by decide) hc
    have hbyte : (byte c).toNat = c.toNat := toNat_ofNat_byte (by omega)
    simp only [isAlphanumeric, isDigit, UInt8.le_iff_toNat_le, hbyte, Bool.or_eq_true,
      Bool.and_eq_true, decide_eq_true_eq]
    exact .inr hbounds
  refine ⟨fun h => absurd (hall _ h) (by decide), fun s => ?_⟩
  exact startsDollarQuote_tag (fun c hc => hall c (mem_cons_of_mem _ hc)) s

theorem run_stringToken_iff {message : String} :
    (stringToken bs message).run s = .ok (.stringLit (String.ofList cs), r) ↔
      bs = utf8 cs ∧ s = r := by
  rw [stringToken, decode]
  by_cases hbs : utf8 (decodeLossy bs) = bs
  · rw [if_pos hbs]
    show Except.ok _ = _ ↔ _
    rw [Except.ok.injEq, Prod.mk.injEq, Token.stringLit.injEq, String.ofList_inj]
    exact and_congr_left' ⟨fun h => h ▸ hbs.symm, fun h => h ▸ decodeLossy_utf8_self cs⟩
  · rw [if_neg hbs]
    exact ⟨nofun, fun h => absurd (by rw [h.1, decodeLossy_utf8_self]) hbs⟩

theorem readToken_dollar_iff (htag : IsTag tag) :
    readToken (byte '$') (tag ++ byte '$' :: s) = .ok (.stringLit (String.ofList cs), r) ↔
      splitAt (delimiterOf tag) s = some (utf8 cs, r) := by
  have hne : ∀ c ∈ tag, (c != byte '$') = true := fun c hc =>
    bne_iff_ne.mpr (ne_of_mem_of_not_mem hc htag.noDollar)
  have htake : (tag ++ byte '$' :: s).takeWhile (· != byte '$') = tag := by
    simp [takeWhile_append_of_pos hne]
  have hdrop : (tag ++ byte '$' :: s).drop (tag.length + 1) = s := by simp [drop_append]
  have hbytes : dollarBytes.run (tag ++ byte '$' :: s) = (splitAt (delimiterOf tag) s).elim
      (.error "unterminated dollar-quoted string literal") .ok := by
    simp only [StateT.run, dollarBytes, htake, hdrop]
    show _ = (splitAt (byte '$' :: tag ++ [byte '$']) s).elim _ _
    cases splitAt (byte '$' :: tag ++ [byte '$']) s <;> rfl
  rw [readToken, if_neg fun h => absurd h.1 (by decide), if_neg (by decide),
    if_neg fun h => absurd (h.imp_right And.left) (by decide), if_neg (by decide),
    if_neg (by decide), if_pos ⟨rfl, htag.starts s⟩, readDollarString, StateT.run_bind, hbytes]
  rcases splitAt (delimiterOf tag) s with _ | ⟨bs, r'⟩
  · exact iff_of_false (fun h => by cases h) fun h => by cases h
  · rw [Option.some_inj, Prod.mk.injEq]
    exact run_stringToken_iff

theorem tokenize_quoted_iff (htag : IsTag tag)
    (hfree : splitAt (delimiterOf tag) (utf8 cs) = none) :
    tokenize (delimiterOf tag ++ utf8 cs ++ delimiterOf tag) = .ok [.stringLit (String.ofList cs)] ↔
      ¬(byte '$' :: tag) <:+ utf8 cs := by
  have hskip : skipTrivia .blank (delimiterOf tag ++ utf8 cs ++ delimiterOf tag) =
      (.blank, byte '$' :: (tag ++ byte '$' :: (utf8 cs ++ delimiterOf tag))) := by
    cases tag <;> simp [delimiterOf] <;> rfl
  rw [← splitAt_delimiterOf_iff htag.noDollar hfree, tokenize]
  constructor
  · intro h
    obtain ⟨⟨ts, mode⟩, hscan, hts⟩ := of_map_eq_ok h
    obtain rfl : ts = _ := hts
    rcases scanAll_ok hscan with ⟨-, ⟨⟩⟩ | ⟨m, c, s', t, r, us, hskip', ht, -, ⟨⟩⟩
    cases hskip.symm.trans hskip'
    have hsplit := (readToken_dollar_iff htag).mp ht
    rw [hsplit, self_eq_append_right.mp (eq_append_of_splitAt hsplit)]
  · intro hsplit
    rw [scanAll_of_token hskip ((readToken_dollar_iff htag).mpr hsplit)]
    rfl

/-- **A body is read back** if and only if it does not end in the delimiter without its last `$`. -/
theorem tokenize_dollarQuote_iff (body : List Char) :
    tokenize (dollarQuote (utf8 body)) = .ok [.stringLit (String.ofList body)] ↔
      ¬(byte '$' :: chosenTag (utf8 body)) <:+ utf8 body :=
  tokenize_quoted_iff (isTag_chosenTag _) (splitAt_chosenTag _)

/-- A body that is a `$`. -/
theorem tokenize_dollarQuote_dollar :
    tokenize (dollarQuote (utf8 ['$'])) = .error (unexpected '$') := by
  have hquote : dollarQuote (utf8 ['$']) = "$$$$$".toList.map byte := by
    rw [dollarQuote, chosenTag, if_pos (by decide)]
    rfl
  rw [hquote]
  decide +kernel

end PostgresRs.Lexer
