import Mathlib.Tactic.Ring
import Mathlib.Data.List.Basic

/-!
# RoundRobin.Lib.BigEndian — fixed-width big-endian numbers

`beBytes w n` are the `w` low bytes of `n`, most significant first; `ofBe` reads a byte list back.
The two are inverse up to `% 256 ^ w` (`ofBe_beBytes`) and on the nose on byte lists of width `w`
(`beBytes_ofBe`).
-/

namespace RoundRobin.BigEndian

/-- The `w` low bytes of `n`, most significant first. -/
def beBytes : ℕ → ℕ → List UInt8
  | 0, _ => []
  | w + 1, n => UInt8.ofNat (n / 256 ^ w) :: beBytes w n

/-- The number written by a list of bytes, most significant first. -/
def ofBe : List UInt8 → ℕ
  | [] => 0
  | b :: l => b.toNat * 256 ^ l.length + ofBe l

@[simp] theorem length_beBytes (w n : ℕ) : (beBytes w n).length = w := by
  induction w with
  | zero => rfl
  | succ w ih => simp [beBytes, ih]

theorem ofBe_lt (l : List UInt8) : ofBe l < 256 ^ l.length := by
  induction l with
  | nil => simp [ofBe]
  | cons b l ih =>
    have hb : b.toNat + 1 ≤ 256 := b.toNat_lt
    calc ofBe (b :: l) < b.toNat * 256 ^ l.length + 256 ^ l.length := by simp only [ofBe]; omega
      _ = (b.toNat + 1) * 256 ^ l.length := by ring
      _ ≤ 256 * 256 ^ l.length := Nat.mul_le_mul_right _ hb
      _ = 256 ^ (b :: l).length := by rw [List.length_cons, pow_succ]; ring

theorem ofBe_beBytes (w n : ℕ) : ofBe (beBytes w n) = n % 256 ^ w := by
  induction w with
  | zero => simp [beBytes, ofBe, Nat.mod_one]
  | succ w ih =>
    have hb : (UInt8.ofNat (n / 256 ^ w)).toNat = n / 256 ^ w % 256 := by simp
    simp only [beBytes, ofBe, length_beBytes, ih, hb]
    rw [pow_succ, Nat.mod_mul]
    ring

theorem ofBe_beBytes_of_lt {w n : ℕ} (h : n < 256 ^ w) : ofBe (beBytes w n) = n := by
  rw [ofBe_beBytes, Nat.mod_eq_of_lt h]

/-- Only the low `w` bytes matter. -/
theorem beBytes_add_mul (w n k : ℕ) : beBytes w (n + k * 256 ^ w) = beBytes w n := by
  induction w generalizing k with
  | zero => rfl
  | succ w ih =>
    have hpow : k * 256 ^ (w + 1) = 256 * k * 256 ^ w := by rw [pow_succ]; ring
    have hdiv : (n + k * 256 ^ (w + 1)) / 256 ^ w = n / 256 ^ w + 256 * k := by
      rw [hpow, Nat.add_mul_div_right _ _ (Nat.pow_pos (by norm_num))]
    have hhead : UInt8.ofNat (n / 256 ^ w + 256 * k) = UInt8.ofNat (n / 256 ^ w) := by
      apply UInt8.toNat_inj.mp
      simp
    simp only [beBytes]
    rw [hdiv, hhead, hpow, ih]

theorem beBytes_ofBe (l : List UInt8) : beBytes l.length (ofBe l) = l := by
  induction l with
  | nil => rfl
  | cons b l ih =>
    have hlt := ofBe_lt l
    have hdiv : (b.toNat * 256 ^ l.length + ofBe l) / 256 ^ l.length = b.toNat := by
      rw [Nat.add_comm, Nat.add_mul_div_right _ _ (Nat.pow_pos (by norm_num)), Nat.div_eq_of_lt hlt,
        Nat.zero_add]
    simp only [List.length_cons, beBytes, ofBe]
    rw [hdiv, Nat.add_comm, beBytes_add_mul, ih]
    simp

end RoundRobin.BigEndian
