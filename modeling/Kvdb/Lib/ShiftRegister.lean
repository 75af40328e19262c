import Kvdb.Lib.LittleEndian
import Mathlib.Logic.Function.Iterate

/-!
# Shift registers with feedback

The register behind a bitwise CRC: `shift P` moves it by one bit and adds the polynomial `P` when the bit that falls out
is set; `absorb P` lets a byte go through it.

- `shift_injective`: no step forgets anything if the polynomial has its top bit set;
- `foldl_absorb`: a word goes through byte by byte as it does at once;
- `foldl_absorb_injective`, `foldl_absorb_state`: what the register holds at the end tells two words apart, short ones
  included, and two states at the beginning.
-/

namespace Kvdb.ShiftRegister

variable {w : Nat} {P : BitVec w}

/-- One step of the register with feedback polynomial `P`. -/
def shift (P x : BitVec w) : BitVec w := if x.getLsbD 0 then (x >>> 1) ^^^ P else x >>> 1

theorem getLsbD_shift (P x : BitVec w) (i : Nat) :
    (shift P x).getLsbD i = (x.getLsbD (i + 1) ^^ (x.getLsbD 0 && P.getLsbD i)) := by
  unfold shift
  cases h : x.getLsbD 0 <;> simp [Nat.add_comm]

theorem shift_injective (hP : P.getLsbD (w - 1) = true) : Function.Injective (shift P) := by
  intro x y h
  have hbit : ∀ i, (x.getLsbD (i + 1) ^^ (x.getLsbD 0 && P.getLsbD i)) =
      (y.getLsbD (i + 1) ^^ (y.getLsbD 0 && P.getLsbD i)) := by
    intro i
    rw [← getLsbD_shift, ← getLsbD_shift, h]
  -- the top bit of the result is the bit that was shifted out
  have hzero : x.getLsbD 0 = y.getLsbD 0 := by
    have htop := hbit (w - 1)
    rw [hP, BitVec.getLsbD_of_ge x _ (by omega), BitVec.getLsbD_of_ge y _ (by omega)] at htop
    simpa using htop
  refine BitVec.eq_of_getLsbD_eq fun i _ => ?_
  cases i with
  | zero => exact hzero
  | succ i =>
    have := hbit i
    rw [hzero] at this
    simpa using this

/-- A difference that does not fall out is moved. -/
theorem shift_xor {d : BitVec w} (h : d.getLsbD 0 = false) (x : BitVec w) :
    shift P (x ^^^ d) = shift P x ^^^ (d >>> 1) := by
  refine BitVec.eq_of_getLsbD_eq fun i _ => ?_
  simp only [getLsbD_shift, BitVec.getLsbD_xor, h, Bool.xor_false, BitVec.getLsbD_ushiftRight]
  rw [Nat.add_comm 1 i]
  cases x.getLsbD (i + 1) <;> cases d.getLsbD (i + 1) <;> simp

theorem iterate_shift_xor {n : Nat} {d : BitVec w} (h : ∀ i < n, d.getLsbD i = false) (x : BitVec w) :
    (shift P)^[n] (x ^^^ d) = (shift P)^[n] x ^^^ (d >>> n) := by
  induction n generalizing x d with
  | zero => simp
  | succ n ih =>
    have hd : ∀ i < n, (d >>> 1).getLsbD i = false := by
      intro i hi
      rw [BitVec.getLsbD_ushiftRight]
      exact h _ (by omega)
    rw [Function.iterate_succ_apply, Function.iterate_succ_apply, shift_xor (h 0 (by omega)), ih hd,
      ← BitVec.shiftRight_add, Nat.add_comm]

/-- A byte goes through the register. -/
def absorb (P x : BitVec w) (b : UInt8) : BitVec w := (shift P)^[8] (x ^^^ b.toBitVec.setWidth w)

/-- The lowest byte of a word goes through first, and leaves the others. -/
theorem iterate_shift_word (x v : BitVec w) :
    (shift P)^[8] (x ^^^ v) = absorb P x (UInt8.ofNat v.toNat) ^^^ (v >>> 8) := by
  let b : BitVec w := (UInt8.ofNat v.toNat).toBitVec.setWidth w
  have hb : ∀ i, b.getLsbD i = (decide (i < 8) && v.getLsbD i) := by
    intro i
    have hbyte : (UInt8.ofNat v.toNat).toBitVec.getLsbD i = (decide (i < 8) && v.getLsbD i) := by
      rw [UInt8.toBitVec_ofNat', BitVec.getLsbD_ofNat, BitVec.testBit_toNat]
    rw [BitVec.getLsbD_setWidth, hbyte]
    by_cases hi : i < w
    · simp [hi]
    · simp [BitVec.getLsbD_of_ge v i (Nat.le_of_not_lt hi)]
  have hsplit : x ^^^ v = (x ^^^ b) ^^^ (v ^^^ b) := by
    rw [BitVec.xor_comm v b, BitVec.xor_assoc, ← BitVec.xor_assoc b, BitVec.xor_self, BitVec.zero_xor]
  have hlow : ∀ i < 8, (v ^^^ b).getLsbD i = false := by
    intro i hi
    rw [BitVec.getLsbD_xor, hb]
    simp [hi]
  have hshift : (v ^^^ b) >>> 8 = v >>> 8 := by
    refine BitVec.eq_of_getLsbD_eq fun i _ => ?_
    rw [BitVec.getLsbD_ushiftRight, BitVec.getLsbD_ushiftRight, BitVec.getLsbD_xor, hb]
    simp
  rw [hsplit, iterate_shift_xor hlow, hshift]
  rfl

/-- **A word goes through the register byte by byte.** -/
theorem foldl_absorb (k : Nat) (x v : BitVec w) :
    (shift P)^[8 * k] (x ^^^ v) = (leBytes k v.toNat).foldl (absorb P) x ^^^ (v >>> (8 * k)) := by
  induction k generalizing x v with
  | zero => simp [leBytes]
  | succ k ih =>
    have hdiv : (v >>> 8).toNat = v.toNat / 256 := by
      rw [BitVec.toNat_ushiftRight, Nat.shiftRight_eq_div_pow]
    rw [Nat.mul_succ, Function.iterate_add_apply, iterate_shift_word, ih, hdiv, ← BitVec.shiftRight_add,
      Nat.add_comm 8, leBytes, List.foldl_cons]

theorem foldl_absorb_state (hP : P.getLsbD (w - 1) = true) (bs : List UInt8) {x y : BitVec w}
    (h : bs.foldl (absorb P) x = bs.foldl (absorb P) y) : x = y := by
  induction bs generalizing x y with
  | nil => exact h
  | cons b bs ih => exact (BitVec.xor_left_inj _).mp ((shift_injective hP).iterate 8 (ih h))

/-- As many bytes as fit the register leave it in a state that tells them apart. -/
theorem foldl_absorb_injective (hP : P.getLsbD (w - 1) = true) (x : BitVec w) {us vs : List UInt8}
    (hlen : us.length = vs.length) (hw : 8 * us.length ≤ w) (h : us.foldl (absorb P) x = vs.foldl (absorb P) x) :
    us = vs := by
  have hpow : ∀ n : Nat, 256 ^ n = 2 ^ (8 * n) := fun n => by rw [Nat.pow_mul]
  -- the bytes are those of a number below the width, of which nothing is left after they have gone through
  have hnat : ∀ {bs : List UInt8}, 8 * bs.length ≤ w → (BitVec.ofNat w (leVal bs)).toNat = leVal bs := by
    intro bs hbs
    have hlt : leVal bs < 2 ^ (8 * bs.length) := hpow _ ▸ leVal_lt bs
    rw [BitVec.toNat_ofNat, Nat.mod_eq_of_lt (Nat.lt_of_lt_of_le hlt (Nat.pow_le_pow_right (by decide) hbs))]
  have hall : ∀ {bs : List UInt8}, 8 * bs.length ≤ w →
      (shift P)^[8 * bs.length] (x ^^^ BitVec.ofNat w (leVal bs)) = bs.foldl (absorb P) x := by
    intro bs hbs
    have hlt : leVal bs < 2 ^ (8 * bs.length) := hpow _ ▸ leVal_lt bs
    have hzero : BitVec.ofNat w (leVal bs) >>> (8 * bs.length) = 0#w := by
      apply BitVec.eq_of_toNat_eq
      rw [BitVec.toNat_ushiftRight, hnat hbs, Nat.shiftRight_eq_div_pow, Nat.div_eq_of_lt hlt, BitVec.toNat_zero]
    rw [foldl_absorb, hnat hbs, leBytes_leVal, hzero, BitVec.xor_zero]
  have hw' : 8 * vs.length ≤ w := hlen ▸ hw
  rw [← hall hw, ← hall hw', hlen] at h
  have hword : BitVec.ofNat w (leVal us) = BitVec.ofNat w (leVal vs) :=
    (BitVec.xor_right_inj x).mp ((shift_injective hP).iterate _ h)
  refine leVal_inj hlen ?_
  rw [← hnat hw, ← hnat hw', hword]

end Kvdb.ShiftRegister
