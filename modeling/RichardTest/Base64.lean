import Mathlib.Data.List.GetD

namespace RichardTest.Base64

-- Base64 with padding, three bytes to four characters.

abbrev Byte := BitVec 8

def alphabet : List Char := "ABCDEFGHIJKLMNOPQRSTUVWXYZabcdefghijklmnopqrstuvwxyz0123456789+/".toList

def digit (n : Nat) : Char := alphabet.getD n '='

def value? (c : Char) : Option Nat := alphabet.idxOf? c

def encode : List Byte → List Char
  | [] => []
  | [a] => [digit (a.toNat / 4), digit (a.toNat % 4 * 16), '=', '=']
  | [a, b] =>
      [digit (a.toNat / 4), digit (a.toNat % 4 * 16 + b.toNat / 16), digit (b.toNat % 16 * 4), '=']
  | a :: b :: c :: rest =>
      digit (a.toNat / 4) :: digit (a.toNat % 4 * 16 + b.toNat / 16) ::
        digit (b.toNat % 16 * 4 + c.toNat / 64) :: digit (c.toNat % 64) :: encode rest

def byte (n : Nat) : Byte := BitVec.ofNat 8 n

def decode : List Char → Option (List Byte)
  | [] => some []
  | w :: x :: y :: z :: rest => do
      let w ← value? w
      let x ← value? x
      if y = '=' then
        if z = '=' ∧ rest = [] then some [byte (w * 4 + x / 16)] else none
      else do
        let y ← value? y
        if z = '=' then
          if rest = [] then some [byte (w * 4 + x / 16), byte (x * 16 + y / 4)] else none
        else do
          let z ← value? z
          let tail ← decode rest
          some (byte (w * 4 + x / 16) :: byte (x * 16 + y / 4) :: byte (y * 64 + z) :: tail)
  | _ => none

theorem value?_digit {n : Nat} (h : n < 64) : value? (digit n) = some n := by
  revert n
  decide +kernel

theorem digit_ne_pad {n : Nat} (h : n < 64) : digit n ≠ '=' := by
  have hpad : value? '=' = none := by decide
  intro heq
  rw [← heq, value?_digit h] at hpad
  cases hpad

theorem byte_eq {n : Nat} {a : Byte} (h : n % 256 = a.toNat) : byte n = a := by
  apply BitVec.eq_of_toNat_eq
  rw [byte, BitVec.toNat_ofNat]
  exact h

theorem decode_encode (bytes : List Byte) : decode (encode bytes) = some bytes := by
  induction bytes using encode.induct with
  | case1 => rfl
  | case2 a =>
      have ha := a.isLt
      rw [encode, decode, value?_digit (by omega), value?_digit (by omega)]
      simp only [Option.bind_eq_bind, Option.bind_some, and_self, if_true]
      rw [byte_eq (a := a) (by omega)]
  | case3 a b =>
      have ha := a.isLt
      have hb := b.isLt
      rw [encode, decode, value?_digit (by omega), value?_digit (by omega), value?_digit (by omega)]
      simp only [Option.bind_eq_bind, Option.bind_some, if_true]
      rw [if_neg (digit_ne_pad (by omega)), byte_eq (a := a) (by omega), byte_eq (a := b) (by omega)]
  | case4 a b c rest ih =>
      have ha := a.isLt
      have hb := b.isLt
      have hc := c.isLt
      rw [encode, decode, value?_digit (by omega), value?_digit (by omega), value?_digit (by omega),
        value?_digit (by omega), ih]
      simp only [Option.bind_eq_bind, Option.bind_some]
      rw [if_neg (digit_ne_pad (by omega)), if_neg (digit_ne_pad (by omega)), byte_eq (a := a) (by omega),
        byte_eq (a := b) (by omega), byte_eq (a := c) (by omega)]

theorem mem_encode {bytes : List Byte} {x : Char} (hx : x ∈ encode bytes) : x ∈ alphabet ∨ x = '=' := by
  have hdigit {n : Nat} (h : n < 64) : digit n ∈ alphabet := by
    rw [digit, List.getD_eq_getElem _ _ h]
    exact List.getElem_mem h
  induction bytes using encode.induct with
  | case1 => cases hx
  | case2 a =>
      have ha := a.isLt
      simp only [encode, List.mem_cons, List.not_mem_nil, or_false] at hx
      rcases hx with rfl | rfl | rfl | rfl
      · exact .inl (hdigit (by omega))
      · exact .inl (hdigit (by omega))
      · exact .inr rfl
      · exact .inr rfl
  | case3 a b =>
      have ha := a.isLt
      have hb := b.isLt
      simp only [encode, List.mem_cons, List.not_mem_nil, or_false] at hx
      rcases hx with rfl | rfl | rfl | rfl
      · exact .inl (hdigit (by omega))
      · exact .inl (hdigit (by omega))
      · exact .inl (hdigit (by omega))
      · exact .inr rfl
  | case4 a b c rest ih =>
      have ha := a.isLt
      have hb := b.isLt
      have hc := c.isLt
      simp only [encode, List.mem_cons] at hx
      rcases hx with rfl | rfl | rfl | rfl | hx
      · exact .inl (hdigit (by omega))
      · exact .inl (hdigit (by omega))
      · exact .inl (hdigit (by omega))
      · exact .inl (hdigit (by omega))
      · exact ih hx

end RichardTest.Base64
