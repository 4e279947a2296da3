import Mathlib.Data.List.Basic

universe u

namespace RocTui.Lib.BufRead

variable {β : Type u}

/-- How many items a buffered reader asks its source for: none while it has some left, else as
many as its buffer takes, or directly as many as the caller has room for when that is more. -/
def request (capacity room : Nat) (buffer : List β) : Option Nat :=
  if buffer = [] then
    if capacity ≤ room then some room else some capacity
  else none

def answer (capacity room : Nat) (buffer chunk : List β) : List β × List β :=
  if buffer = [] then
    if capacity ≤ room then (chunk, []) else (chunk.take room, chunk.drop room)
  else (buffer.take room, buffer.drop room)

theorem answer_length (capacity room : Nat) {buffer chunk : List β}
    (h : ∀ n, request capacity room buffer = some n → chunk.length ≤ n) :
    (answer capacity room buffer chunk).1.length ≤ room := by
  by_cases hempty : buffer = []
  · by_cases hdirect : capacity ≤ room
    · simpa [answer, hempty, hdirect] using h room (by simp [request, hempty, hdirect])
    · rw [answer, if_pos hempty, if_neg hdirect, List.length_take]
      exact Nat.min_le_left _ _
  · rw [answer, if_neg hempty, List.length_take]
    exact Nat.min_le_left _ _

/-- A caller with at least the buffer's capacity of room never leaves anything in it. -/
theorem answer_direct {capacity room : Nat} (h : capacity ≤ room) (chunk : List β) :
    answer capacity room [] chunk = (chunk, []) := by
  simp [answer, h]

theorem request_direct {capacity room : Nat} (h : capacity ≤ room) :
    request capacity room ([] : List β) = some room := by
  simp [request, h]

end RocTui.Lib.BufRead
