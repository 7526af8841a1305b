import Mathlib.Data.List.Basic

/-!
# UTF-8

Encoding of characters, and the decoder that puts U+FFFD in the place of what is not UTF-8.  The
decoder replaces a maximal prefix of a well-formed sequence by one character, as the Unicode standard
recommends.  Decoding an encoded text gives the text back, whatever follows it (`decodeLossy_utf8`).
-/

namespace PostgresRs.Utf8

open List

/-- The bytes of a character. -/
def encodeChar (c : Char) : List UInt8 :=
  let n := c.toNat
  if n < 0x80 then [.ofNat n]
  else if n < 0x800 then [.ofNat (0xC0 + n / 64), .ofNat (0x80 + n % 64)]
  else if n < 0x10000 then
    [.ofNat (0xE0 + n / 4096), .ofNat (0x80 + n / 64 % 64), .ofNat (0x80 + n % 64)]
  else
    [.ofNat (0xF0 + n / 262144), .ofNat (0x80 + n / 4096 % 64), .ofNat (0x80 + n / 64 % 64),
      .ofNat (0x80 + n % 64)]

/-- The bytes of a text. -/
def utf8 (cs : List Char) : List UInt8 :=
  cs.flatMap encodeChar

/-- The replacement character. -/
def replacement : Char := Char.ofNat 0xFFFD

/-- A continuation byte. -/
def isCont (b : UInt8) : Bool :=
  0x80 ≤ b.toNat && b.toNat < 0xC0

/-- Whether `b` can follow the first byte `a` of a sequence of three or four. -/
def isSecond (a b : UInt8) : Bool :=
  isCont b &&
    (if a.toNat = 0xE0 then 0xA0 ≤ b.toNat
      else if a.toNat = 0xED then b.toNat < 0xA0
      else if a.toNat = 0xF0 then 0x90 ≤ b.toNat
      else if a.toNat = 0xF4 then b.toNat < 0x90
      else true)

/-- `String::from_utf8_lossy`. -/
def decodeLossy : List UInt8 → List Char
  | [] => []
  | a :: bs =>
    if a.toNat < 0x80 then Char.ofNat a.toNat :: decodeLossy bs
    else if 0xC2 ≤ a.toNat && a.toNat < 0xE0 then
      match bs with
      | [] => [replacement]
      | b :: cs =>
        if isCont b then
          Char.ofNat ((a.toNat - 0xC0) * 64 + (b.toNat - 0x80)) :: decodeLossy cs
        else replacement :: decodeLossy (b :: cs)
    else if 0xE0 ≤ a.toNat && a.toNat < 0xF0 then
      match bs with
      | [] => [replacement]
      | b :: cs =>
        if isSecond a b then
          match cs with
          | [] => [replacement]
          | c :: ds =>
            if isCont c then
              Char.ofNat ((a.toNat - 0xE0) * 4096 + (b.toNat - 0x80) * 64 + (c.toNat - 0x80)) ::
                decodeLossy ds
            else replacement :: decodeLossy (c :: ds)
        else replacement :: decodeLossy (b :: cs)
    else if 0xF0 ≤ a.toNat && a.toNat < 0xF5 then
      match bs with
      | [] => [replacement]
      | b :: cs =>
        if isSecond a b then
          match cs with
          | [] => [replacement]
          | c :: ds =>
            if isCont c then
              match ds with
              | [] => [replacement]
              | d :: es =>
                if isCont d then
                  Char.ofNat ((a.toNat - 0xF0) * 262144 + (b.toNat - 0x80) * 4096 +
                    (c.toNat - 0x80) * 64 + (d.toNat - 0x80)) :: decodeLossy es
                else replacement :: decodeLossy (d :: es)
            else replacement :: decodeLossy (c :: ds)
        else replacement :: decodeLossy (b :: cs)
    else replacement :: decodeLossy bs

/-- `String::from_utf8`: nothing if the bytes are not those of a text. -/
def decode (bs : List UInt8) : Option (List Char) :=
  let cs := decodeLossy bs
  if utf8 cs = bs then some cs else none

@[simp] theorem utf8_nil : utf8 [] = [] := rfl

@[simp] theorem utf8_cons (c : Char) (cs : List Char) : utf8 (c :: cs) = encodeChar c ++ utf8 cs :=
  rfl

@[simp] theorem utf8_append (cs ds : List Char) : utf8 (cs ++ ds) = utf8 cs ++ utf8 ds :=
  flatMap_append

@[simp] theorem decodeLossy_nil : decodeLossy [] = [] := rfl

theorem toNat_ofNat_byte {n : Nat} (h : n < 256) : (UInt8.ofNat n).toNat = n := by
  rw [UInt8.toNat_ofNat']
  exact Nat.mod_eq_of_lt h

theorem isCont_ofNat {n : Nat} (h : n < 64) : isCont (.ofNat (0x80 + n)) = true := by
  rw [isCont, toNat_ofNat_byte (by omega)]
  simp only [Bool.and_eq_true, decide_eq_true_eq]
  omega

/-- Outside ASCII no byte of a sequence is ASCII; here, the first. -/
theorem encodeChar_of_le {c : Char} (hc : 0x80 ≤ c.toNat) :
    ∃ b bs, encodeChar c = b :: bs ∧ 0x80 ≤ b.toNat := by
  have hvalid : c.toNat < 0xD800 ∨ 0xDFFF < c.toNat ∧ c.toNat < 0x110000 := c.valid
  rw [encodeChar]
  split_ifs <;> exact ⟨_, _, rfl, by rw [toNat_ofNat_byte (by omega)]; omega⟩

/-- The byte sequences of characters, as the decoder recognises them. -/
inductive WellFormed : Char → List UInt8 → Prop where
  | one {a : UInt8} (ha : a.toNat < 0x80) : WellFormed (Char.ofNat a.toNat) [a]
  | two {a b : UInt8} (ha : 0xC2 ≤ a.toNat) (ha' : a.toNat < 0xE0) (hb : isCont b = true) :
      WellFormed (Char.ofNat ((a.toNat - 0xC0) * 64 + (b.toNat - 0x80))) [a, b]
  | three {a b c : UInt8} (ha : 0xE0 ≤ a.toNat) (ha' : a.toNat < 0xF0)
      (hb : isSecond a b = true) (hc : isCont c = true) :
      WellFormed (Char.ofNat
        ((a.toNat - 0xE0) * 4096 + (b.toNat - 0x80) * 64 + (c.toNat - 0x80))) [a, b, c]
  | four {a b c d : UInt8} (ha : 0xF0 ≤ a.toNat) (ha' : a.toNat < 0xF5)
      (hb : isSecond a b = true) (hc : isCont c = true) (hd : isCont d = true) :
      WellFormed (Char.ofNat ((a.toNat - 0xF0) * 262144 + (b.toNat - 0x80) * 4096 +
        (c.toNat - 0x80) * 64 + (d.toNat - 0x80))) [a, b, c, d]

theorem wellFormed_encodeChar (c : Char) : WellFormed c (encodeChar c) := by
  have hvalid : c.toNat < 0xD800 ∨ 0xDFFF < c.toNat ∧ c.toNat < 0x110000 := c.valid
  have hchar : ∀ n bs, WellFormed (Char.ofNat n) bs → n = c.toNat → WellFormed c bs := by
    rintro n bs h rfl
    rwa [Char.ofNat_toNat] at h
  rw [encodeChar]
  generalize c.toNat = n at hvalid hchar
  split
  · next h1 =>
    have ha := toNat_ofNat_byte (n := n) (by omega)
    exact hchar _ _ (.one (by omega)) ha
  · next h1 =>
    split
    · next h2 =>
      have ha := toNat_ofNat_byte (n := 0xC0 + n / 64) (by omega)
      have hb := toNat_ofNat_byte (n := 0x80 + n % 64) (by omega)
      exact hchar _ _ (.two (by omega) (by omega) (isCont_ofNat (by omega))) (by omega)
    · next h2 =>
      split
      · next h3 =>
        have ha := toNat_ofNat_byte (n := 0xE0 + n / 4096) (by omega)
        have hb := toNat_ofNat_byte (n := 0x80 + n / 64 % 64) (by omega)
        have hc := toNat_ofNat_byte (n := 0x80 + n % 64) (by omega)
        have hcont := isCont_ofNat (n := n / 64 % 64) (by omega)
        have hsecond : isSecond (.ofNat (0xE0 + n / 4096)) (.ofNat (0x80 + n / 64 % 64)) = true := by
          rw [isSecond, hcont, ha, hb]
          split_ifs <;> simp <;> omega
        exact hchar _ _ (.three (by omega) (by omega) hsecond (isCont_ofNat (by omega))) (by omega)
      · next h3 =>
        have ha := toNat_ofNat_byte (n := 0xF0 + n / 262144) (by omega)
        have hb := toNat_ofNat_byte (n := 0x80 + n / 4096 % 64) (by omega)
        have hc := toNat_ofNat_byte (n := 0x80 + n / 64 % 64) (by omega)
        have hd := toNat_ofNat_byte (n := 0x80 + n % 64) (by omega)
        have hcont := isCont_ofNat (n := n / 4096 % 64) (by omega)
        have hsecond : isSecond (.ofNat (0xF0 + n / 262144)) (.ofNat (0x80 + n / 4096 % 64)) =
            true := by
          rw [isSecond, hcont, ha, hb]
          split_ifs <;> simp <;> omega
        exact hchar _ _ (.four (by omega) (by omega) hsecond (isCont_ofNat (by omega))
          (isCont_ofNat (by omega))) (by omega)

namespace WellFormed

variable {c : Char} {bs : List UInt8}

theorem decodeLossy_append (h : WellFormed c bs) (rest : List UInt8) :
    decodeLossy (bs ++ rest) = c :: decodeLossy rest := by
  rw [decodeLossy.eq_def]
  cases h with
  | one ha => simp [ha]
  | @two a b ha ha' hb =>
    have h1 : ¬ a.toNat < 0x80 := by omega
    simp [h1, ha, ha', hb]
  | @three a b c ha ha' hb hc =>
    have h1 : ¬ a.toNat < 0x80 := by omega
    have h2 : ¬ a.toNat < 0xE0 := by omega
    simp [h1, h2, ha', hb, hc]
  | @four a b c d ha ha' hb hc hd =>
    have h1 : ¬ a.toNat < 0x80 := by omega
    have h2 : ¬ a.toNat < 0xE0 := by omega
    have h3 : ¬ a.toNat < 0xF0 := by omega
    simp [h1, h2, h3, ha', hb, hc, hd]

end WellFormed

/-- **Decoding an encoded text gives it back**, whatever bytes follow. -/
theorem decodeLossy_utf8 (cs : List Char) (rest : List UInt8) :
    decodeLossy (utf8 cs ++ rest) = cs ++ decodeLossy rest := by
  induction cs with
  | nil => rfl
  | cons c cs ih =>
    rw [utf8_cons, append_assoc, (wellFormed_encodeChar c).decodeLossy_append, ih,
      cons_append]

theorem decodeLossy_utf8_self (cs : List Char) : decodeLossy (utf8 cs) = cs := by
  simpa using decodeLossy_utf8 cs []

example : decodeLossy [0xE2, 0x82, 0x41, 0xF0, 0x9F, 0x98] = [replacement, 'A', replacement] := by decide +kernel

end PostgresRs.Utf8
