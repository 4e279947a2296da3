import Mathlib.Data.List.Basic
import Mathlib.Tactic.Ring

namespace RocTui.Lib.Words

/-- The `n` low bytes of a number, least significant first. -/
def leBytes : Nat → Nat → List UInt8
  | 0, _ => []
  | n + 1, w => UInt8.ofNat w :: leBytes n (w / 256)

def ofLe : List UInt8 → Nat
  | [] => 0
  | b :: bs => b.toNat + 256 * ofLe bs

@[simp] theorem length_leBytes (n w : Nat) : (leBytes n w).length = n := by
  induction n generalizing w with
  | zero => rfl
  | succ n ih => simp [leBytes, ih]

theorem ofLe_leBytes (n w : Nat) : ofLe (leBytes n w) = w % 256 ^ n := by
  induction n generalizing w with
  | zero => simp [leBytes, ofLe, Nat.mod_one]
  | succ n ih =>
    have low : (UInt8.ofNat w).toNat = w % 256 := UInt8.toNat_ofNat'
    rw [leBytes, ofLe, ih, low, Nat.pow_succ, Nat.mul_comm (256 ^ n) 256, Nat.mod_mul]

theorem ofLe_leBytes_of_lt {n w : Nat} (h : w < 256 ^ n) : ofLe (leBytes n w) = w := by
  rw [ofLe_leBytes, Nat.mod_eq_of_lt h]

theorem ofLe_lt (bs : List UInt8) : ofLe bs < 256 ^ bs.length := by
  induction bs with
  | nil => simp [ofLe]
  | cons b bs ih =>
    have hb := b.toNat_lt
    rw [ofLe, List.length_cons, Nat.pow_succ]
    omega

theorem leBytes_ofLe (bs : List UInt8) : leBytes bs.length (ofLe bs) = bs := by
  induction bs with
  | nil => rfl
  | cons b bs ih =>
    have hb := b.toNat_lt
    have high : (b.toNat + 256 * ofLe bs) / 256 = ofLe bs := by omega
    have low : UInt8.ofNat (b.toNat + 256 * ofLe bs) = b := by
      apply UInt8.toNat.inj
      rw [UInt8.toNat_ofNat']
      omega
    rw [List.length_cons, ofLe, leBytes, high, low, ih]

theorem ofLe_append (xs ys : List UInt8) :
    ofLe (xs ++ ys) = ofLe xs + 256 ^ xs.length * ofLe ys := by
  induction xs with
  | nil => simp [ofLe]
  | cons x xs ih =>
    rw [List.cons_append, ofLe, ih, ofLe, List.length_cons, Nat.pow_succ]
    ring

end RocTui.Lib.Words
