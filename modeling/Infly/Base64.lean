import Mathlib.Data.Nat.Notation

/-! # Base64

The standard alphabet with padding. Different bytes have different encodings.
-/
namespace Base64

def digit (n : ℕ) : Char :=
  "ABCDEFGHIJKLMNOPQRSTUVWXYZabcdefghijklmnopqrstuvwxyz0123456789+/".toList.getD n '='

def b64encode : List UInt8 → List Char
  | [] => []
  | [a] => [digit (a.toNat / 4), digit (a.toNat % 4 * 16), '=', '=']
  | [a, b] => [digit (a.toNat / 4), digit (a.toNat % 4 * 16 + b.toNat / 16),
      digit (b.toNat % 16 * 4), '=']
  | a :: b :: c :: rest =>
    digit (a.toNat / 4) :: digit (a.toNat % 4 * 16 + b.toNat / 16) ::
      digit (b.toNat % 16 * 4 + c.toNat / 64) :: digit (c.toNat % 64) :: b64encode rest

theorem digit_injective : ∀ {m : ℕ}, m < 64 → ∀ {n : ℕ}, n < 64 → digit m = digit n → m = n := by
  decide +kernel

theorem digit_no_padding : ∀ {n : ℕ}, n < 64 → digit n ≠ '=' := by decide +kernel

theorem first_digit (a : UInt8) : a.toNat / 4 < 64 := by
  have h := a.toNat_lt
  omega

theorem second_digit (a b : UInt8) : a.toNat % 4 * 16 + b.toNat / 16 < 64 := by
  have h := b.toNat_lt
  omega

theorem third_digit (b c : UInt8) : b.toNat % 16 * 4 + c.toNat / 64 < 64 := by
  have h := c.toNat_lt
  omega

theorem last_digit (c : UInt8) : c.toNat % 64 < 64 := Nat.mod_lt _ (by decide)

theorem b64encode_injective : ∀ {xs ys : List UInt8}, b64encode xs = b64encode ys → xs = ys := by
  intro xs
  fun_induction b64encode xs with
  | case1 =>
    intro ys h
    fun_cases b64encode ys <;> simp_all [b64encode]
  | case2 a =>
    intro ys h
    fun_cases b64encode ys with
    | case1 => simp [b64encode] at h
    | case2 b =>
      simp only [b64encode, List.cons.injEq, and_true] at h
      have high := digit_injective (first_digit a) (first_digit b) h.1
      have low := digit_injective (by omega) (by omega) h.2
      rw [UInt8.toNat_inj.mp (show a.toNat = b.toNat by omega)]
    | case3 b c =>
      simp only [b64encode, List.cons.injEq] at h
      exact absurd h.2.2.1.symm (digit_no_padding (by omega))
    | case4 b c d rest =>
      simp only [b64encode, List.cons.injEq] at h
      exact absurd h.2.2.1.symm (digit_no_padding (third_digit c d))
  | case3 a b =>
    intro ys h
    fun_cases b64encode ys with
    | case1 => simp [b64encode] at h
    | case2 c =>
      simp only [b64encode, List.cons.injEq] at h
      exact absurd h.2.2.1 (digit_no_padding (by omega))
    | case3 c d =>
      simp only [b64encode, List.cons.injEq, and_true] at h
      have one := digit_injective (first_digit a) (first_digit c) h.1
      have two := digit_injective (second_digit a b) (second_digit c d) h.2.1
      have three := digit_injective (by omega) (by omega) h.2.2
      have hb := b.toNat_lt
      have hd := d.toNat_lt
      rw [UInt8.toNat_inj.mp (show a.toNat = c.toNat by omega),
        UInt8.toNat_inj.mp (show b.toNat = d.toNat by omega)]
    | case4 c d e rest =>
      simp only [b64encode, List.cons.injEq] at h
      exact absurd h.2.2.2.1.symm (digit_no_padding (last_digit e))
  | case4 a b c rest ih =>
    intro ys h
    fun_cases b64encode ys with
    | case1 => simp [b64encode] at h
    | case2 d =>
      simp only [b64encode, List.cons.injEq] at h
      exact absurd h.2.2.1 (digit_no_padding (third_digit b c))
    | case3 d e =>
      simp only [b64encode, List.cons.injEq] at h
      exact absurd h.2.2.2.1 (digit_no_padding (last_digit c))
    | case4 d e f more =>
      simp only [b64encode, List.cons.injEq] at h
      have one := digit_injective (first_digit a) (first_digit d) h.1
      have two := digit_injective (second_digit a b) (second_digit d e) h.2.1
      have three := digit_injective (third_digit b c) (third_digit e f) h.2.2.1
      have four := digit_injective (last_digit c) (last_digit f) h.2.2.2.1
      have hb := b.toNat_lt
      have hc := c.toNat_lt
      have he := e.toNat_lt
      have hf := f.toNat_lt
      rw [ih h.2.2.2.2, UInt8.toNat_inj.mp (show a.toNat = d.toNat by omega),
        UInt8.toNat_inj.mp (show b.toNat = e.toNat by omega),
        UInt8.toNat_inj.mp (show c.toNat = f.toNat by omega)]

end Base64
