import Mathlib.Data.Nat.Bitwise
import Mathlib.Tactic.Ring

/-!
# Little-endian numbers

`leBytes w n` are the `w` low bytes of `n`, least significant first; `leVal` reads such bytes back. The two are
inverse up to the width (`leVal_leBytes`, `leBytes_leVal`). `shiftBytes` is the loop that shifts and masks, which
yields the same bytes (`shiftBytes_eq`), and a loop that shifts and ors reads them back (`foldl_or_eq`).
-/

namespace Kvdb

/-- The `w` low bytes of `n`, least significant first. -/
def leBytes : Nat → Nat → List UInt8
  | 0, _ => []
  | w + 1, n => UInt8.ofNat n :: leBytes w (n / 256)

/-- The number a byte string spells, least significant byte first. -/
def leVal : List UInt8 → Nat
  | [] => 0
  | b :: bs => b.toNat + 256 * leVal bs

@[simp] theorem length_leBytes : ∀ w n : Nat, (leBytes w n).length = w
  | 0, _ => rfl
  | w + 1, n => by simp [leBytes, length_leBytes w]

theorem leVal_leBytes : ∀ w n : Nat, leVal (leBytes w n) = n % 256 ^ w
  | 0, n => by simp [leBytes, leVal, Nat.mod_one]
  | w + 1, n => by
    have hpow : 256 ^ (w + 1) = 256 * 256 ^ w := by rw [Nat.pow_succ, Nat.mul_comm]
    rw [leBytes, leVal, leVal_leBytes w, UInt8.toNat_ofNat', hpow, Nat.mod_mul]

theorem leVal_leBytes_of_lt {w n : Nat} (h : n < 256 ^ w) : leVal (leBytes w n) = n := by
  rw [leVal_leBytes, Nat.mod_eq_of_lt h]

theorem leVal_lt : ∀ bs : List UInt8, leVal bs < 256 ^ bs.length
  | [] => by simp [leVal]
  | b :: bs => by
    have hb := b.toNat_lt
    have ih := leVal_lt bs
    simp only [leVal, List.length_cons, Nat.pow_succ]
    omega

theorem leBytes_leVal : ∀ bs : List UInt8, leBytes bs.length (leVal bs) = bs
  | [] => rfl
  | b :: bs => by
    have hb := b.toNat_lt
    have hhead : UInt8.ofNat (b.toNat + 256 * leVal bs) = b := by
      apply UInt8.toNat_inj.mp
      rw [UInt8.toNat_ofNat']
      omega
    have htail : (b.toNat + 256 * leVal bs) / 256 = leVal bs := by omega
    rw [List.length_cons, leVal, leBytes, hhead, htail, leBytes_leVal bs]

/-- Two byte strings of one length that spell the same number are equal. -/
theorem leVal_inj {bs cs : List UInt8} (hl : bs.length = cs.length) (h : leVal bs = leVal cs) : bs = cs := by
  rw [← leBytes_leVal bs, ← leBytes_leVal cs, hl, h]

/-- Only the low bytes of a number are written. -/
theorem leBytes_mod (w n : Nat) : leBytes w (n % 256 ^ w) = leBytes w n :=
  leVal_inj (by simp) (by rw [leVal_leBytes, leVal_leBytes, Nat.mod_mod])

theorem leVal_append (bs cs : List UInt8) : leVal (bs ++ cs) = leVal bs + 256 ^ bs.length * leVal cs := by
  induction bs with
  | nil => simp [leVal]
  | cons b bs ih =>
    rw [List.cons_append, leVal, ih, leVal, List.length_cons, Nat.pow_succ]
    ring

/-! ## Shifting and masking -/

/-- The bytes a loop `for i < w` pushes that shifts `n` right by `8 * i` and masks a byte. -/
def shiftBytes (w n : Nat) : List UInt8 := (List.range w).map fun i => UInt8.ofNat ((n >>> (8 * i)) &&& 0xFF)

theorem ofNat_mask (n : Nat) : UInt8.ofNat (n &&& 0xFF) = UInt8.ofNat n := by
  apply UInt8.toNat_inj.mp
  rw [UInt8.toNat_ofNat', UInt8.toNat_ofNat', show (0xFF : Nat) = 2 ^ 8 - 1 from rfl, Nat.and_two_pow_sub_one_eq_mod]
  omega

theorem shiftBytes_eq : ∀ w n : Nat, shiftBytes w n = leBytes w n
  | 0, _ => rfl
  | w + 1, n => by
    have hshift : ∀ i : Nat, n >>> (8 * (i + 1)) = (n / 256) >>> (8 * i) := by
      intro i
      rw [show 8 * (i + 1) = 8 + 8 * i by ring, Nat.shiftRight_add, Nat.shiftRight_eq_div_pow n 8]
    rw [leBytes, ← shiftBytes_eq w (n / 256)]
    simp only [shiftBytes, List.range_succ_eq_map, List.map_cons, List.map_map, Function.comp_def,
      Nat.succ_eq_add_one, hshift, ofNat_mask]
    simp

/-- The number a loop `for i < w` builds that shifts the `i`-th byte left by `8 * i` and ors it in. -/
theorem foldl_or_eq (bs : List UInt8) : ∀ w ≤ bs.length,
    (List.range w).foldl (fun n i => n ||| ((bs.getD i 0).toNat <<< (8 * i))) 0 = leVal (bs.take w)
  | 0, _ => by simp [leVal]
  | w + 1, hw => by
    have ih := foldl_or_eq bs w (by omega)
    have hlt : leVal (bs.take w) < 2 ^ (8 * w) := by
      have h := leVal_lt (bs.take w)
      rwa [List.length_take, min_eq_left (by omega), show 256 = 2 ^ 8 from rfl, ← Nat.pow_mul] at h
    rw [List.range_succ, List.foldl_append, ih, List.foldl_cons, List.foldl_nil, Nat.or_comm,
      ← Nat.shiftLeft_add_eq_or_of_lt hlt, Nat.shiftLeft_eq, List.take_succ_eq_append_getElem (by omega), leVal_append,
      List.length_take, min_eq_left (by omega), List.getD_eq_getElem _ _ (by omega), Nat.pow_mul]
    simp only [leVal]
    ring

end Kvdb
