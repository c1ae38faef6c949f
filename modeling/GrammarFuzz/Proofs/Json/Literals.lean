import GrammarFuzz.Json.Printer
import GrammarFuzz.Json.Reader

/-!
# Reading strings and integers back

The printer escapes a character if a string must not contain it, and the scanner undoes
each escape.  The numeral of a 64-bit integer, signed or unsigned, is read as this
integer again, provided that the text goes on with something else than a numeral.
-/

namespace GrammarFuzz
namespace Json

/-!
## Strings
-/

theorem hexValue?_hexDigit : ∀ n < 16, hexValue? (hexDigit n) = some n := by
  decide

theorem readStringFrom_cons {place place' : StringPlace} {sofar sofar' : Word} {c : Char}
    (h : stringStep place sofar c = some (place', sofar')) (hc : place = .plain → c ≠ '"')
    (rest : Word) :
    readStringFrom place sofar (c :: rest) = readStringFrom place' sofar' rest := by
  cases place with
  | plain => rw [readStringFrom, if_neg (hc rfl), h]
  | escape => rw [readStringFrom, h]; exact nofun
  | unicode high left value => rw [readStringFrom, h]; exact nofun
  | afterHigh high => rw [readStringFrom, h]; exact nofun
  | pairEscape high => rw [readStringFrom, h]; exact nofun

theorem readStringFrom_escape {c d : Char} (h : escaped? d = some c) (hd : d ≠ 'u')
    (sofar rest : Word) : readStringFrom .plain sofar ('\\' :: d :: rest) =
      readStringFrom .plain (c :: sofar) rest := by
  have hstep : stringStep .escape sofar d = some (.plain, c :: sofar) := by
    rw [stringStep, if_neg hd, h]
    rfl
  have hescape : stringStep .plain sofar '\\' = some (.escape, sofar) := rfl
  rw [readStringFrom_cons hescape fun _ => by decide, readStringFrom_cons hstep nofun]

theorem readStringFrom_control {c : Char} (h : c.toNat < 32) (sofar rest : Word) :
    readStringFrom .plain sofar ('\\' :: 'u' :: '0' :: '0' :: hexDigit (c.toNat / 16) ::
        hexDigit (c.toNat % 16) :: rest) = readStringFrom .plain (c :: sofar) rest := by
  have hfirst := hexValue?_hexDigit (c.toNat / 16) (by omega)
  have hsecond := hexValue?_hexDigit (c.toNat % 16) (by omega)
  have hescape : stringStep .plain sofar '\\' = some (.escape, sofar) := rfl
  have hunicode : stringStep .escape sofar 'u' = some (.unicode none 3 0, sofar) := rfl
  have hzero : stringStep (.unicode none 3 0) sofar '0' = some (.unicode none 2 0, sofar) := rfl
  have hzero' : stringStep (.unicode none 2 0) sofar '0' = some (.unicode none 1 0, sofar) := rfl
  have hhigh : stringStep (.unicode none 1 0) sofar (hexDigit (c.toNat / 16)) =
      some (.unicode none 0 (c.toNat / 16), sofar) := by
    simp [stringStep, hfirst]
  have hlow : stringStep (.unicode none 0 (c.toNat / 16)) sofar (hexDigit (c.toNat % 16)) =
      some (.plain, c :: sofar) := by
    have hvalue : c.toNat / 16 * 16 + c.toNat % 16 = c.toNat := by omega
    have hsurrogate : isHighSurrogate c.toNat = false ∧ isLowSurrogate c.toNat = false := by
      simp only [isHighSurrogate, isLowSurrogate, Bool.and_eq_false_iff, decide_eq_false_iff_not]
      omega
    simp [stringStep, hsecond, hvalue, unicodeEscape, hsurrogate.1, hsurrogate.2]
  rw [readStringFrom_cons hescape fun _ => by decide, readStringFrom_cons hunicode nofun,
    readStringFrom_cons hzero nofun, readStringFrom_cons hzero' nofun,
    readStringFrom_cons hhigh nofun, readStringFrom_cons hlow nofun]

inductive Escapes : Char → Word → Prop
  | plain {c : Char} : c ≠ '"' → c ≠ '\\' → 32 ≤ c.toNat → Escapes c [c]
  | short {c d : Char} : escaped? d = some c → d ≠ 'u' → Escapes c ['\\', d]
  | control {c : Char} : c.toNat < 32 →
      Escapes c ['\\', 'u', '0', '0', hexDigit (c.toNat / 16), hexDigit (c.toNat % 16)]

theorem escapes_escapeChar (c : Char) : Escapes c (escapeChar c) := by
  have hcode : ∀ n, c.toNat = n → c = Char.ofNat n := by
    intro n hn
    rw [← hn, Char.ofNat_toNat]
  unfold escapeChar
  by_cases hquote : c = '"'
  · rw [if_pos hquote, hquote]
    exact .short rfl (by decide)
  rw [if_neg hquote]
  by_cases hbackslash : c = '\\'
  · rw [if_pos hbackslash, hbackslash]
    exact .short rfl (by decide)
  rw [if_neg hbackslash]
  by_cases hfeed : c = '\n'
  · rw [if_pos hfeed, hfeed]
    exact .short rfl (by decide)
  rw [if_neg hfeed]
  by_cases hreturn : c = '\r'
  · rw [if_pos hreturn, hreturn]
    exact .short rfl (by decide)
  rw [if_neg hreturn]
  by_cases htab : c = '\t'
  · rw [if_pos htab, htab]
    exact .short rfl (by decide)
  rw [if_neg htab]
  by_cases hback : c.toNat = 8
  · rw [if_pos hback, hcode 8 hback]
    exact .short rfl (by decide)
  rw [if_neg hback]
  by_cases hform : c.toNat = 12
  · rw [if_pos hform, hcode 12 hform]
    exact .short rfl (by decide)
  rw [if_neg hform]
  by_cases hcontrol : c.toNat < 32
  · rw [if_pos hcontrol]
    exact .control hcontrol
  · rw [if_neg hcontrol]
    exact .plain hquote hbackslash (by omega)

theorem readStringFrom_escapeChar (c : Char) (sofar rest : Word) :
    readStringFrom .plain sofar (escapeChar c ++ rest) =
      readStringFrom .plain (c :: sofar) rest := by
  have hescapes := escapes_escapeChar c
  generalize escapeChar c = text at hescapes
  cases hescapes with
  | plain hquote hbackslash hcode =>
      have hstep : stringStep .plain sofar c = some (.plain, c :: sofar) := by
        rw [stringStep, if_neg hbackslash, if_neg (by omega)]
      exact readStringFrom_cons hstep (fun _ => hquote) rest
  | short hescaped hunicode => exact readStringFrom_escape hescaped hunicode sofar rest
  | control hcode => exact readStringFrom_control hcode sofar rest

theorem readString_quote (w rest : Word) :
    readString (w.flatMap escapeChar ++ '"' :: rest) = some (w, rest) := by
  have hread : ∀ sofar, readStringFrom .plain sofar (w.flatMap escapeChar ++ '"' :: rest) =
      some (sofar.reverse ++ w, rest) := by
    induction w with
    | nil =>
        intro sofar
        rw [List.flatMap_nil, List.nil_append, readStringFrom, if_pos rfl, List.append_nil]
    | cons c w ih =>
        intro sofar
        rw [List.flatMap_cons, List.append_assoc, readStringFrom_escapeChar, ih,
          List.reverse_cons, List.append_assoc, List.singleton_append]
  exact hread []

/-!
## Integers
-/

/-- What may follow a value inside a printed text. -/
def Follows (rest : Word) : Prop :=
  ∀ c ∈ rest.head?, c = ',' ∨ c = ']' ∨ c = '\x7d' ∨ c = '\n'

theorem Follows.ne {c : Char} {rest : Word} (h : Follows (c :: rest)) {d : Char}
    (hd : d ≠ ',' ∧ d ≠ ']' ∧ d ≠ '\x7d' ∧ d ≠ '\n') : c ≠ d := by
  rintro rfl
  rcases h c rfl with heq | heq | heq | heq
  · exact hd.1 heq
  · exact hd.2.1 heq
  · exact hd.2.2.1 heq
  · exact hd.2.2.2 heq

theorem Follows.isDigit_eq_false {c : Char} {rest : Word} (h : Follows (c :: rest)) :
    c.isDigit = false := by
  rcases h c rfl with rfl | rfl | rfl | rfl
  · rfl
  · rfl
  · rfl
  · rfl

namespace Numeral

theorem spanDigits_append {digits rest : Word} (hdigits : ∀ c ∈ digits, c.isDigit = true)
    (hrest : Follows rest) : spanDigits (digits ++ rest) = (digits, rest) := by
  have hnone : rest.takeWhile Char.isDigit = [] ∧ rest.dropWhile Char.isDigit = rest := by
    cases rest with
    | nil => exact ⟨rfl, rfl⟩
    | cons c rest => simp [hrest.isDigit_eq_false]
  rw [spanDigits, List.takeWhile_append_of_pos hdigits, List.dropWhile_append_of_pos hdigits,
    hnone.1, hnone.2, List.append_nil]

theorem isDigit_of_mem_ofNat {n : Nat} {c : Char} (h : c ∈ Word.ofNat n) : c.isDigit = true :=
  Nat.isDigit_of_mem_toDigits (by decide) (by decide) h

theorem head?_ofNat_ne {n : Nat} (hn : 0 < n) : (Word.ofNat n).head? ≠ some '0' := by
  induction n using Nat.strongRecOn with
  | ind n ih =>
      by_cases hsmall : n < 10
      · have hdigit : ∀ d < 10, 0 < d → d.digitChar ≠ '0' := by decide
        rw [Word.ofNat, Nat.toDigits_of_lt_base hsmall]
        simpa using hdigit n hsmall hn
      · have hsplit : Word.ofNat n = Word.ofNat (n / 10) ++ Word.ofNat (n % 10) := by
          have happend := @Nat.toDigits_append_toDigits 10 (n / 10) (n % 10) (by decide) (by omega)
            (by omega)
          rw [Word.ofNat, Word.ofNat, Word.ofNat, happend]
          congr 1
          omega
        have hne : Word.ofNat (n / 10) ≠ [] := List.ne_nil_of_length_pos Nat.length_toDigits_pos
        have hhead := ih (n / 10) (by omega) (by omega)
        rcases List.exists_cons_of_ne_nil hne with ⟨c, digits, hdigits⟩
        rw [hdigits] at hhead
        rw [hsplit, hdigits]
        exact hhead

theorem readWhole_ofNat (n : Nat) {rest : Word} (hrest : Follows rest) :
    readWhole (Word.ofNat n ++ rest) = some (Word.ofNat n, rest) := by
  have hspan := spanDigits_append (fun c hc => @isDigit_of_mem_ofNat n c hc) hrest
  have hne : Word.ofNat n ≠ [] := List.ne_nil_of_length_pos Nat.length_toDigits_pos
  have hzero : ∀ d ds, Word.ofNat n ≠ '0' :: d :: ds := by
    intro d ds heq
    cases n with
    | zero => cases heq
    | succ n => exact head?_ofNat_ne (Nat.succ_pos n) (by rw [heq]; rfl)
  rw [readWhole, hspan]
  split
  · rename_i heq
    exact absurd (congrArg Prod.fst heq) hne
  · rename_i heq
    exact absurd (congrArg Prod.fst heq) (hzero _ _)
  · rename_i heq
    cases heq
    rfl

theorem natValue_ofNat (n : Nat) : natValue (Word.ofNat n) = n := by
  have hvalue : natValue (Word.ofNat n) = Nat.ofDigitChars 10 (Word.ofNat n) 0 := by
    rw [natValue, Nat.ofDigitChars]
    congr 1
    funext sofar d
    rw [Nat.mul_comm]
    rfl
  rw [hvalue]
  exact Nat.ofDigitChars_ten_toDigits

theorem readFraction_of_follows {rest : Word} (h : Follows rest) :
    readFraction rest = some (none, rest) := by
  cases rest with
  | nil => rfl
  | cons c rest =>
      have hc : c ≠ '.' := h.ne (by decide)
      rw [readFraction]
      exact fun rest' heq => hc (List.cons.inj heq).1

theorem readExponent_of_follows {rest : Word} (h : Follows rest) :
    readExponent rest = some (none, rest) := by
  cases rest with
  | nil => rfl
  | cons c rest =>
      have hsmall : c ≠ 'e' := h.ne (by decide)
      have hlarge : c ≠ 'E' := h.ne (by decide)
      simp [readExponent, hsmall, hlarge]

theorem read_ofNat (n : Nat) {rest : Word} (hrest : Follows rest) :
    read (Word.ofNat n ++ rest) = some (⟨false, Word.ofNat n, none, none⟩, rest) := by
  have hne : Word.ofNat n ≠ [] := List.ne_nil_of_length_pos Nat.length_toDigits_pos
  rcases List.exists_cons_of_ne_nil hne with ⟨c, digits, hdigits⟩
  have hsign : c ≠ '-' := by
    rintro rfl
    have hdigit := @isDigit_of_mem_ofNat n '-' (by rw [hdigits]; exact List.mem_cons_self)
    cases hdigit
  have hwhole := readWhole_ofNat n hrest
  rw [hdigits, List.cons_append] at hwhole ⊢
  unfold read
  split
  rename_i hmatch
  split at hmatch
  · rename_i heq
    exact absurd (List.cons.inj heq).1 hsign
  · cases hmatch
    simp [hwhole, readFraction_of_follows hrest, readExponent_of_follows hrest]

theorem read_minus_ofNat (n : Nat) {rest : Word} (hrest : Follows rest) :
    read ('-' :: (Word.ofNat n ++ rest)) = some (⟨true, Word.ofNat n, none, none⟩, rest) := by
  simp [read, readWhole_ofNat n hrest, readFraction_of_follows hrest,
    readExponent_of_follows hrest]

end Numeral

def isWord (n : Int) : Bool :=
  -0x8000000000000000 ≤ n && n ≤ Numeral.maxWord

theorem readNumber_renderInt {n : Int} (hn : isWord n = true) {rest : Word}
    (hrest : Follows rest) : readNumber (renderInt n ++ rest) = some (.int n, rest) := by
  simp only [isWord, Bool.and_eq_true, decide_eq_true_eq] at hn
  by_cases hneg : n < 0
  · have hvalue : Numeral.value ⟨true, Word.ofNat n.natAbs, none, none⟩ = some (.int n) := by
      simp only [Numeral.value, Numeral.intValue?, Numeral.natValue_ofNat, if_true]
      rw [if_pos (by omega)]
      simp only [Option.some.injEq, int.injEq]
      omega
    rw [renderInt, if_pos hneg, List.cons_append, readNumber, Numeral.read_minus_ofNat _ hrest]
    simp [hvalue]
  · have hvalue : Numeral.value ⟨false, Word.ofNat n.natAbs, none, none⟩ = some (.int n) := by
      simp only [Numeral.value, Numeral.intValue?, Numeral.natValue_ofNat, Bool.false_eq_true,
        if_false]
      rw [if_pos (by omega)]
      simp only [Option.some.injEq, int.injEq]
      omega
    rw [renderInt, if_neg hneg, readNumber, Numeral.read_ofNat _ hrest]
    simp [hvalue]

end Json
end GrammarFuzz
