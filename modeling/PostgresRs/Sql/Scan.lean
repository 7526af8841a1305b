import PostgresRs.Sql.Lexer
import PostgresRs.Util.Text

/-!
# Lexing a text that is followed by a semicolon

The log puts a `;` after every statement and reads the whole file back in one go.  So the lexer should
find in a text the same tokens whether it ends there or goes on with `;`.  All readers of tokens have
this property (`readToken_append`), and the only thing that can go wrong is that the text ends inside
a comment, which then swallows the `;`: `scanAll_append`.
-/

namespace PostgresRs.Lexer

open Reader List

variable {s r rest : List UInt8} {c : UInt8} {t : Token} {mode : Trivia} {ts : List Token}

/-- The byte that ends a statement. -/
def semi : UInt8 := byte ';'

/-! ## White space and comments -/

theorem skipTrivia_whitespace (hc : isWhitespace c = true) (s : List UInt8) :
    skipTrivia .blank (c :: s) = skipTrivia .blank s := by
  rw [skipTrivia.eq_def]
  simp only [hc, if_true]

theorem length_skipTrivia (mode : Trivia) (s : List UInt8) :
    (skipTrivia mode s).2.length ≤ s.length := by
  fun_induction skipTrivia mode s <;> simp_all <;> omega

/-- Something is left only outside comments. -/
theorem skipTrivia_token {m : Trivia} (h : skipTrivia mode s = (m, c :: r)) : m = .blank := by
  fun_induction skipTrivia mode s <;> simp_all

/-- A scan that ends outside comments ends at the same place when a `;` follows. -/
theorem skipTrivia_append (h : skipTrivia mode s = (.blank, r)) (rest : List UInt8) :
    skipTrivia mode (s ++ semi :: rest) = (.blank, r ++ semi :: rest) := by
  fun_induction skipTrivia mode s with
  | case1 mode =>
    cases h
    cases rest <;> rfl
  | case2 c s hw ih =>
    rw [cons_append, skipTrivia_whitespace hw]
    exact ih h
  | case3 c hw =>
    cases h
    have hsemi : semi ≠ byte '-' ∧ semi ≠ byte '*' := by decide
    rw [cons_append, nil_append, skipTrivia, if_neg hw, if_neg fun h => hsemi.1 h.2,
      if_neg fun h => hsemi.2 h.2]
  | case4 c hw d s hline ih =>
    rw [cons_append, cons_append, skipTrivia, if_neg hw, if_pos hline]
    exact ih h
  | case5 c hw d s hline hblock ih =>
    rw [cons_append, cons_append, skipTrivia, if_neg hw, if_neg hline, if_pos hblock]
    exact ih h
  | case6 c hw d s hline hblock =>
    cases h
    rw [cons_append, cons_append, skipTrivia, if_neg hw, if_neg hline, if_neg hblock]
  | case7 s ih =>
    exact ih h
  | case8 c s hc ih =>
    rw [cons_append, skipTrivia, if_neg hc]
    exact ih h
  | case9 => cases h
  | case10 depth c d s hopen ih =>
    rw [cons_append, cons_append, skipTrivia, if_pos hopen]
    exact ih h
  | case11 depth c d s hopen hclose ih =>
    rw [cons_append, cons_append, skipTrivia, if_neg hopen, if_pos hclose]
    exact ih h
  | case12 depth c d s hopen hclose ih =>
    rw [cons_append, cons_append, skipTrivia, if_neg hopen, if_neg hclose]
    exact ih h

/-! ## The readers of tokens -/

theorem stopsAt_eat {c : Char} (hc : (semi == byte c) = false) : StopsAt semi (eat c) :=
  .eatIf hc

theorem stopsAt_readWord : StopsAt semi readWord :=
  .bind (.takeWhile (by decide)) fun _ => .pure _

theorem stopsAt_readParam : StopsAt semi readParam :=
  .bind (.takeWhile (by decide)) fun _ => .pure _

theorem stopsAt_readOperator (c : Char) : StopsAt semi (readOperator c) := by
  unfold readOperator
  split <;> repeat' first
    | exact .pure _
    | exact .throw _
    | refine .bind (stopsAt_eat (by decide)) fun _ => ?_
    | refine .ite ?_ ?_

theorem length_numberBytes (seenDot seenExp : Bool) (s : List UInt8) :
    (numberBytes seenDot seenExp s).2.length ≤ s.length := by
  fun_induction numberBytes seenDot seenExp s <;> simp_all <;> omega

theorem numberBytes_append (seenDot seenExp : Bool) (s rest : List UInt8) :
    numberBytes seenDot seenExp (s ++ semi :: rest) =
      ((numberBytes seenDot seenExp s).1, (numberBytes seenDot seenExp s).2 ++ semi :: rest) := by
  fun_induction numberBytes seenDot seenExp s with
  | case1 seenDot seenExp =>
    rw [numberBytes.eq_def]
    simp [show isDigit semi = false by decide, show semi ≠ byte '.' by decide,
      show semi ≠ byte 'e' by decide, show semi ≠ byte 'E' by decide]
  | case2 seenDot seenExp c s hd n r hn ih =>
    rw [hn] at ih
    rw [cons_append, numberBytes.eq_def]
    simp only [hd, if_true, ih]
  | case3 seenDot seenExp c s hd hdot n r hn ih =>
    rw [hn] at ih
    rw [cons_append, numberBytes.eq_def]
    simp only [if_neg hd, if_pos hdot, ih]
  | case4 seenDot seenExp c hd hdot hexp =>
    have hsemi : ¬(semi = byte '+' ∨ semi = byte '-') := by decide
    rw [cons_append, nil_append, numberBytes, if_neg hd, if_neg hdot, if_pos hexp,
      if_neg hsemi, numberBytes.eq_def]
    simp [show isDigit semi = false by decide, show semi ≠ byte '.' by decide,
      show semi ≠ byte 'e' by decide, show semi ≠ byte 'E' by decide]
  | case5 seenDot seenExp c hd hdot hexp d s hsign n r hn ih =>
    rw [hn] at ih
    rw [cons_append, cons_append, numberBytes, if_neg hd, if_neg hdot, if_pos hexp,
      if_pos hsign, ih]
  | case6 seenDot seenExp c hd hdot hexp d s hsign n r hn ih =>
    rw [hn, cons_append] at ih
    rw [cons_append, cons_append, numberBytes, if_neg hd, if_neg hdot, if_pos hexp,
      if_neg hsign, ih]
  | case7 seenDot seenExp c s hd hdot hexp =>
    rw [cons_append, numberBytes.eq_def]
    simp only [hd, hdot, hexp]
    simp

theorem stopsAt_readNumber : StopsAt semi readNumber := by
  refine .of_forall ?_
  rintro s _ _ ⟨⟩
  refine ⟨length_numberBytes false false s, fun rest => ?_⟩
  change Except.ok (Token.number (latin1 (numberBytes false false (s ++ semi :: rest)).1),
    (numberBytes false false (s ++ semi :: rest)).2) = _
  rw [numberBytes_append]

theorem stopsAt_quotedChars : StopsAt semi quotedChars := by
  refine .of_forall fun s cs r h => ?_
  simp only [StateT.run] at h ⊢
  fun_induction quotedChars s generalizing cs r with
  | case1 => cases h
  | case2 =>
    cases h
    refine ⟨Nat.zero_le _, fun rest => ?_⟩
    rw [cons_append, nil_append, quotedChars, if_pos rfl, if_neg (by decide)]
  | case3 s ih =>
    refine StopsOn.map (u := [_, _]) ih (fun s' => ?_) h
    exact (quotedChars.eq_def _).trans ((if_pos rfl).trans (if_pos rfl))
  | case4 d s hd =>
    cases h
    refine ⟨Nat.le_succ _, fun rest => ?_⟩
    rw [cons_append, cons_append, quotedChars, if_pos rfl, if_neg hd]
  | case5 c s hc ih =>
    refine StopsOn.map (u := [_]) ih (fun s' => ?_) h
    exact (quotedChars.eq_def _).trans (if_neg hc)

theorem stopsAt_stringBytes (escapes : Bool) : StopsAt semi (stringBytes escapes) := by
  refine .of_forall fun s bs r h => ?_
  simp only [StateT.run] at h ⊢
  fun_induction stringBytes escapes s generalizing bs r with
  | case1 | case5 => cases h
  | case2 =>
    cases h
    refine ⟨Nat.zero_le _, fun rest => ?_⟩
    rw [cons_append, nil_append, stringBytes, if_pos rfl, if_neg (by decide)]
  | case3 s ih =>
    refine StopsOn.map (u := [_, _]) ih (fun s' => ?_) h
    exact (stringBytes.eq_def _ _).trans ((if_pos rfl).trans (if_pos rfl))
  | case4 d s hd =>
    cases h
    refine ⟨Nat.le_succ _, fun rest => ?_⟩
    rw [cons_append, cons_append, stringBytes, if_pos rfl, if_neg hd]
  | case6 c hc hesc d s ih =>
    refine StopsOn.map (u := [_, _]) ih (fun s' => ?_) h
    exact (stringBytes.eq_def _ _).trans ((if_neg hc).trans (if_pos hesc))
  | case7 c s hc hesc ih =>
    refine StopsOn.map (u := [_]) ih (fun s' => ?_) h
    exact (stringBytes.eq_def _ _).trans ((if_neg hc).trans (if_neg hesc))

theorem eq_append_of_splitAt {delimiter bs : List UInt8}
    (h : splitAt delimiter s = some (bs, r)) : s = bs ++ delimiter ++ r := by
  fun_induction splitAt delimiter s generalizing bs with
  | case1 hp =>
    cases h
    simpa using hp
  | case2 => cases h
  | case3 c s hp =>
    cases h
    obtain ⟨t, ht⟩ := isPrefixOf_iff_prefix.mp hp
    rw [← ht, drop_left, nil_append]
  | case4 c s hp ih =>
    obtain ⟨⟨bs', r'⟩, hs, ⟨⟩⟩ := Option.map_eq_some_iff.mp h
    rw [ih hs]
    rfl

theorem splitAt_append {delimiter bs : List UInt8} (h : splitAt delimiter s = some (bs, r))
    (rest : List UInt8) : splitAt delimiter (s ++ rest) = some (bs, r ++ rest) := by
  induction s generalizing bs with
  | nil =>
    have := eq_append_of_splitAt h
    simp at this
    obtain ⟨rfl, rfl, rfl⟩ := this
    cases rest <;> simp [splitAt]
  | cons c s ih =>
    rw [splitAt] at h
    rw [cons_append, splitAt]
    split at h
    · next hp =>
      obtain ⟨t, ht⟩ := isPrefixOf_iff_prefix.mp hp
      cases h
      rw [← cons_append, ← ht, append_assoc, drop_left, drop_left, if_pos]
      exact isPrefixOf_iff_prefix.mpr ⟨_, rfl⟩
    · next hp =>
      obtain ⟨⟨bs', r'⟩, hs, ⟨⟩⟩ := Option.map_eq_some_iff.mp h
      have hlen := congrArg List.length (eq_append_of_splitAt hs)
      rw [if_neg, ih hs]
      · rfl
      intro hp'
      have hprefix := isPrefixOf_iff_prefix.mp hp'
      refine hp <| isPrefixOf_iff_prefix.mpr ?_
      refine prefix_of_prefix_length_le hprefix (prefix_append (c :: s) rest) ?_
      simp at hlen ⊢
      omega

theorem stopsAt_dollarBytes : StopsAt semi dollarBytes := by
  refine .of_forall fun s bs r h => ?_
  simp only [StateT.run, dollarBytes] at h ⊢
  split at h
  · next found hfound =>
    cases h
    have hlen := congrArg List.length (eq_append_of_splitAt hfound)
    simp only [length_append, length_drop, length_cons] at hlen
    refine ⟨by omega, fun rest => ?_⟩
    rw [takeWhile_append, if_neg (by omega), drop_append_of_le_length (by omega),
      splitAt_append hfound]
  · cases h

theorem startsDollarQuote_append (first : Bool) (s rest : List UInt8) :
    startsDollarQuote first (s ++ semi :: rest) = startsDollarQuote first s := by
  induction s generalizing first with
  | nil => cases first <;> rfl
  | cons c s ih => simp only [cons_append, startsDollarQuote, ih]

theorem stopsAt_stringToken (bs : List UInt8) (message : String) :
    StopsAt semi (stringToken bs message) := by
  unfold stringToken
  split
  · exact .pure _
  · exact .throw _

theorem stopsAt_readQuotedIdent : StopsAt semi readQuotedIdent :=
  .bind stopsAt_quotedChars fun _ => .pure _

theorem stopsAt_readString (escapes : Bool) : StopsAt semi (readString escapes) :=
  .bind (stopsAt_stringBytes escapes) fun _ => stopsAt_stringToken _ _

theorem stopsAt_readDollarString : StopsAt semi readDollarString :=
  .bind stopsAt_dollarBytes fun _ => stopsAt_stringToken _ _

theorem head_any_append {f : UInt8 → Bool} (hf : f semi = false) (s rest : List UInt8) :
    (s ++ semi :: rest).head?.any f = s.head?.any f := by
  cases s with
  | nil => simp [hf]
  | cons c s => rfl

theorem nextIs_append {c : Char} (hc : semi ≠ byte c) (s rest : List UInt8) :
    nextIs c (s ++ semi :: rest) = nextIs c s := by
  cases s with
  | nil => simp [nextIs, hc]
  | cons d s => rfl

theorem length_readWord (hc : c = byte '_' ∨ isAlphabetic c = true)
    (h : readWord.run (c :: s) = .ok (t, r)) : r.length ≤ s.length := by
  have hw : isWordByte c = true := by
    rcases hc with rfl | hc
    · rfl
    · simp [isWordByte, isAlphanumeric, hc]
  cases h
  rw [dropWhile_cons, if_pos hw]
  exact (dropWhile_suffix _).length_le

theorem length_readNumber (hc : isDigit c = true ∨ c = byte '.' ∧ s.head?.any isDigit = true)
    (h : readNumber.run (c :: s) = .ok (t, r)) : r.length ≤ s.length := by
  cases h
  rw [numberBytes.eq_def]
  rcases hc with hc | ⟨rfl, -⟩
  · simpa only [hc, if_true] using length_numberBytes false false s
  · exact length_numberBytes true false s

/-- A token is read from an input and from the same input followed by `;` alike, and it takes at
least its first byte. -/
theorem readToken_append (h : readToken c s = .ok (t, r)) :
    r.length ≤ s.length ∧ ∀ rest, readToken c (s ++ semi :: rest) = .ok (t, r ++ semi :: rest) := by
  have hquote : semi ≠ byte '\'' := by decide
  have hdigit : isDigit semi = false := by decide
  simp only [readToken, nextIs_append hquote, head_any_append hdigit, startsDollarQuote_append]
    at h ⊢
  split at h
  · next hescape =>
    simp only [if_pos hescape]
    cases s with
    | nil => exact absurd hescape.2 (by simp [nextIs])
    | cons d s =>
      have hstop := stopsAt_readString true
      exact ⟨Nat.le_succ_of_le (hstop.consumes h), hstop.stops h⟩
  · next hescape =>
    simp only [if_neg hescape]
    split at h
    · next hword =>
      simp only [if_pos hword]
      exact ⟨length_readWord hword h, stopsAt_readWord.stops h⟩
    · next hword =>
      simp only [if_neg hword]
      split at h
      · next hnum =>
        simp only [if_pos hnum]
        exact ⟨length_readNumber hnum h, stopsAt_readNumber.stops h⟩
      · split_ifs at h ⊢
        · exact ⟨stopsAt_readQuotedIdent.consumes h, stopsAt_readQuotedIdent.stops h⟩
        · exact ⟨(stopsAt_readString false).consumes h, (stopsAt_readString false).stops h⟩
        · exact ⟨stopsAt_readDollarString.consumes h, stopsAt_readDollarString.stops h⟩
        · exact ⟨stopsAt_readParam.consumes h, stopsAt_readParam.stops h⟩
        · exact ⟨(stopsAt_readOperator _).consumes h, (stopsAt_readOperator _).stops h⟩

/-! ## The scan -/

theorem scan_fuel {n m : Nat} (hn : s.length < n) (hm : s.length < m) : scan n s = scan m s := by
  induction n generalizing s m with
  | zero => omega
  | succ n ih =>
    obtain ⟨m, rfl⟩ : ∃ k, m = k + 1 := ⟨m - 1, by omega⟩
    have hlen := length_skipTrivia .blank s
    simp only [scan]
    split
    · rfl
    next mode c s' hskip =>
    rw [hskip, length_cons] at hlen
    cases ht : readToken c s' with
    | error e => rfl
    | ok v =>
      have htok := (readToken_append ht).1
      have hrest : scan n v.2 = scan m v.2 := ih (by omega) (by omega)
      simp only [bind, Except.bind, hrest]

theorem scan_eq_scanAll {n : Nat} (hn : s.length < n) : scan n s = scanAll s :=
  scan_fuel hn (Nat.lt_succ_self _)

theorem scanAll_whitespace (hc : isWhitespace c = true) (s : List UInt8) :
    scanAll (c :: s) = scanAll s := by
  have hstep : scan (s.length + 2) (c :: s) = scan (s.length + 2) s := by
    rw [scan, skipTrivia_whitespace hc, scan]
  rw [scanAll, length_cons, hstep]
  exact scan_eq_scanAll (by omega)

theorem scanAll_of_end (h : skipTrivia .blank s = (mode, [])) : scanAll s = .ok ([], mode) := by
  rw [scanAll, scan, h]

theorem scanAll_of_token {s' : List UInt8} (hskip : skipTrivia .blank s = (mode, c :: s'))
    (ht : readToken c s' = .ok (t, r)) :
    scanAll s = (scanAll r).map fun (ts, mode) => (t :: ts, mode) := by
  have hlen := length_skipTrivia .blank s
  have htok := (readToken_append ht).1
  rw [hskip, length_cons] at hlen
  have hrest : scan s.length r = scanAll r := scan_eq_scanAll (by omega)
  rw [← hrest, scanAll, scan, hskip]
  simp only [ht, bind, Except.bind]
  cases scan s.length r <;> rfl

/-- A scan that succeeds finds the end of the input, or a token and then scans what follows it. -/
theorem scanAll_ok (h : scanAll s = .ok (ts, mode)) :
    (skipTrivia .blank s = (mode, []) ∧ ts = []) ∨
      ∃ m c s' t r us, skipTrivia .blank s = (m, c :: s') ∧ readToken c s' = .ok (t, r) ∧
        scanAll r = .ok (us, mode) ∧ ts = t :: us := by
  rcases hskip : skipTrivia .blank s with ⟨m, _ | ⟨c, s'⟩⟩
  · rw [scanAll_of_end hskip] at h
    cases h
    exact .inl ⟨rfl, rfl⟩
  · rcases ht : readToken c s' with e | ⟨t, r⟩
    · simp only [scanAll, scan, hskip, ht] at h
      cases h
    · rw [scanAll_of_token hskip ht] at h
      obtain ⟨⟨us, m'⟩, hr, ⟨⟩⟩ := of_map_eq_ok h
      exact .inr ⟨m, c, s', t, r, us, rfl, ht, hr, rfl⟩

/-- **Texts in a row.**  A text that does not end inside a comment can be followed by `;` and anything
else: the tokens are its own, a semicolon, and those of the rest. -/
theorem scanAll_append (h : scanAll s = .ok (ts, .blank)) (rest : List UInt8) :
    scanAll (s ++ semi :: rest) =
      (scanAll rest).map fun (us, mode) => (ts ++ .semicolon :: us, mode) := by
  -- By induction on the tokens; the white space before each of them ends outside comments.
  induction ts generalizing s with
  | nil =>
    rcases scanAll_ok h with ⟨hskip, -⟩ | ⟨m, c, s', t, r, us, -, -, -, ⟨⟩⟩
    exact scanAll_of_token (skipTrivia_append hskip rest) rfl
  | cons t ts ih =>
    rcases scanAll_ok h with ⟨-, ⟨⟩⟩ | ⟨m, c, s', t, r, us, hskip, ht, hr, ⟨⟩⟩
    obtain rfl := skipTrivia_token hskip
    rw [scanAll_of_token (skipTrivia_append hskip rest) ((readToken_append ht).2 rest), ih hr]
    cases scanAll rest <;> rfl

/-! ## Bytes that start no token -/

/-- A vertical tab, or a byte outside ASCII. -/
def isForeign (n : Nat) : Prop := n = 0x0B ∨ 0x80 ≤ n

theorem ne_byte (hc : isForeign c.toNat) {d : Char} (hd : d.toNat < 0x80 ∧ d.toNat ≠ 0x0B) :
    c ≠ byte d := by
  rintro rfl
  rw [byte, Utf8.toNat_ofNat_byte (by omega)] at hc
  exact hc.elim hd.2 (Nat.not_le_of_lt hd.1)

theorem readOperator_of_foreign {d : Char} (hd : isForeign d.toNat) :
    readOperator d = throw (unexpected d) := by
  unfold readOperator
  split
  case h_22 => rfl
  all_goals exact absurd hd (by unfold isForeign; decide)

theorem readToken_of_foreign (hc : isForeign c.toNat) (s : List UInt8) :
    readToken c s = .error (unexpected (Char.ofNat c.toNat)) := by
  have hlt := c.toNat_lt
  have hchar : (Char.ofNat c.toNat).toNat = c.toNat := by
    rw [Char.ofNat, dif_pos (Or.inl (by omega))]
    rfl
  have halpha : isAlphabetic c = false := by
    simp [isAlphabetic, UInt8.le_iff_toNat_le, byte]
    unfold isForeign at hc
    omega
  have hdigit : isDigit c = false := by
    simp [isDigit, UInt8.le_iff_toNat_le, byte]
    unfold isForeign at hc
    omega
  rw [readToken, if_neg fun h => h.1.elim (ne_byte hc (by decide)) (ne_byte hc (by decide)),
    if_neg fun h => h.elim (ne_byte hc (by decide)) (by simp [halpha]),
    if_neg fun h => h.elim (by simp [hdigit]) fun h => ne_byte hc (by decide) h.1,
    if_neg (ne_byte hc (by decide)), if_neg (ne_byte hc (by decide)),
    if_neg fun h => ne_byte hc (by decide) h.1, if_neg fun h => ne_byte hc (by decide) h.1,
    readOperator_of_foreign (by rwa [hchar])]
  rfl

theorem scanAll_of_foreign (hc : isForeign c.toNat) (s : List UInt8) :
    scanAll (c :: s) = .error (unexpected (Char.ofNat c.toNat)) := by
  have hw : ¬ isWhitespace c = true := by
    simp [isWhitespace, ne_byte hc (d := ' ') (by decide), ne_byte hc (d := '\t') (by decide),
      ne_byte hc (d := '\n') (by decide), ne_byte hc (d := '\r') (by decide)]
    rintro rfl
    exact absurd hc (by unfold isForeign; decide)
  have hskip : skipTrivia .blank (c :: s) = (.blank, c :: s) := by
    cases s with
    | nil => rw [skipTrivia, if_neg hw]
    | cons d s =>
      rw [skipTrivia, if_neg hw, if_neg fun h => ne_byte hc (by decide) h.1,
        if_neg fun h => ne_byte hc (by decide) h.1]
  rw [scanAll, scan, hskip]
  simp only [readToken_of_foreign hc]
  rfl

open Utf8 in
/-- White space alone has no tokens: the lexer skips it, or it fails at white space that is not
ASCII. -/
theorem scanAll_blank {cs : List Char} (h : ∀ c ∈ cs, Text.isWhitespace c = true)
    (hs : scanAll (utf8 cs) = .ok (ts, mode)) : ts = [] := by
  induction cs with
  | nil =>
    cases hs
    rfl
  | cons c cs ih =>
    have hc := h c List.mem_cons_self
    have hrest := ih fun d hd => h d (List.mem_cons_of_mem _ hd)
    rw [utf8_cons] at hs
    rcases Nat.lt_or_ge c.toNat 0x80 with hlt | hge
    · have hbyte := toNat_ofNat_byte (n := c.toNat) (by omega)
      rw [encodeChar, if_pos hlt] at hs
      by_cases hvt : c.toNat = 0x0B
      · rw [List.cons_append, scanAll_of_foreign (.inl (by rw [hbyte, hvt]))] at hs
        cases hs
      · have hw : isWhitespace (.ofNat c.toNat) = true := by
          simp [Text.isWhitespace] at hc
          obtain h | h | h | h | h : c.toNat = 9 ∨ c.toNat = 10 ∨ c.toNat = 12 ∨ c.toNat = 13 ∨
              c.toNat = 32 := by omega
          all_goals
            rw [h]
            rfl
        rw [List.cons_append, scanAll_whitespace hw] at hs
        exact hrest hs
    · obtain ⟨b, bs, hb, hle⟩ := encodeChar_of_le hge
      rw [hb, List.cons_append, scanAll_of_foreign (.inr hle)] at hs
      cases hs

end PostgresRs.Lexer
