namespace RocTui.Lib

/-- A writer and an echo, with bounded room between them both ways: what is left to write, the
room towards the echo, what the echo holds, and how much the writer's side can still take back. -/
structure Ring where
  left : Nat
  room : Nat
  held : Nat
  drain : Nat

namespace Ring

inductive Move : Ring → Ring → Prop
  | write : k ≤ r.left → k ≤ r.room → Move r { r with left := r.left - k, room := r.room - k }
  | take : r.held = 0 → Move r { r with room := r.room + k, held := k }
  | give : k ≤ r.held → k ≤ r.drain → Move r { r with held := r.held - k, drain := r.drain - k }
  | ease : fewer ≤ r.left → r.drain ≤ more → Move r { r with left := fewer, drain := more }
  | done : r'.left = 0 → Move r r'

/-- What is left fits, even if the writer's side takes back no more than it must. -/
def Fits (r : Ring) : Prop := r.left ≤ r.room + (r.drain + 1 - r.held)

instance (r : Ring) : Decidable (Fits r) := inferInstanceAs (Decidable (_ ≤ _))

structure Jammed (r : Ring) : Prop where
  left : 0 < r.left
  room : r.room = 0
  held : 0 < r.held
  drain : r.drain = 0

variable {r r' : Ring}

theorem Fits.move (h : Fits r) (hm : Move r r') : Fits r' := by
  cases hm with
  | write hleft hroom =>
    simp only [Fits] at h ⊢
    omega
  | take hheld =>
    simp only [Fits] at h ⊢
    omega
  | give hheld hdrain =>
    simp only [Fits] at h ⊢
    omega
  | ease hleft hdrain =>
    simp only [Fits] at h ⊢
    omega
  | done hleft =>
    rw [Fits, hleft]
    exact Nat.zero_le _

theorem Fits.not_jammed (h : Fits r) : ¬Jammed r := by
  intro hj
  have := hj.left
  have := hj.held
  rw [Fits, hj.room, hj.drain] at h
  omega

end Ring

end RocTui.Lib
