import Mathlib.Data.List.Basic

/-!
# Binary input streams

An input stream over a byte string that is read with `read(p, n)`: a read that finds fewer than `n` bytes takes what
is left and puts the stream into its failed state, in which every further read takes nothing.
-/

namespace Kvdb

/-- The unread bytes, and whether no read has failed. -/
structure IStream where
  rest : List UInt8
  good : Bool := true
  deriving DecidableEq, Repr

namespace IStream

/-- `read(p, n)`: the bytes put at `p`, and the stream after it. -/
def read (f : IStream) (n : Nat) : List UInt8 × IStream :=
  if f.good then
    if n ≤ f.rest.length then (f.rest.take n, ⟨f.rest.drop n, true⟩) else (f.rest, ⟨[], false⟩)
  else ([], f)

theorem read_append {bs : List UInt8} {n : Nat} (h : bs.length = n) (rest : List UInt8) :
    read ⟨bs ++ rest, true⟩ n = (bs, ⟨rest, true⟩) := by
  subst h
  simp [read]

/-- A stream that has failed stays as it is. -/
theorem read_bad {f : IStream} (h : f.good = false) (n : Nat) : f.read n = ([], f) := by simp [read, h]

theorem read_zero (f : IStream) : f.read 0 = ([], f) := by
  obtain ⟨rest, _ | _⟩ := f <;> simp [read]

/-- A read of nothing can be left out. -/
theorem ite_read (f : IStream) (n : Nat) : (if n > 0 then f.read n else ([], f)) = f.read n := by
  split
  · rfl
  · obtain rfl : n = 0 := by omega
    exact (read_zero f).symm

/-- A read takes nothing but the front of what is left. -/
theorem length_read (f : IStream) (n : Nat) : (f.read n).2.rest.length ≤ f.rest.length := by
  unfold read
  split
  · split
    · simp
    · simp
  · exact Nat.le_refl _

theorem eq_of_good {f : IStream} (h : f.good = true) : f = ⟨f.rest, true⟩ := by
  obtain ⟨rest, good⟩ := f
  cases h
  rfl

/-- A read that leaves the stream good has taken exactly the bytes asked for. -/
theorem read_good {f : IStream} {n : Nat} (h : (f.read n).2.good = true) :
    f.good = true ∧ (f.read n).1.length = n ∧ f.rest = (f.read n).1 ++ (f.read n).2.rest := by
  unfold read at h ⊢
  split
  · rename_i hg
    rw [if_pos hg] at h
    split
    · rename_i hn
      exact ⟨hg, by simp [hn], (List.take_append_drop n f.rest).symm⟩
    · rename_i hn
      rw [if_neg hn] at h
      cases h
  · rename_i hg
    rw [if_neg hg] at h
    exact absurd h hg

theorem length_read_good {f : IStream} {n : Nat} (h : (f.read n).2.good = true) :
    f.rest.length = n + (f.read n).2.rest.length := by
  obtain ⟨-, hlen, hrest⟩ := read_good h
  conv_lhs => rw [hrest, List.length_append, hlen]

end IStream

end Kvdb
