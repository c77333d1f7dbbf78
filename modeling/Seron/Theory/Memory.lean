import Mathlib.Data.BitVec

/-! # Byte memory

Memory over integer addresses, with little-endian reads and writes of up to eight bytes. An
address is an ideal integer: the stack never reaches the end of the address space. -/

namespace Memory

/-- The `n` bytes from `a` on, the one at `a` being the least significant. -/
def readBytes (mem : Int → BitVec 8) (a : Int) : Nat → BitVec 64
  | 0 => 0
  | n + 1 => (readBytes mem (a + 1) n <<< 8) ||| (mem a).setWidth 64

/-- Stores the low `n` bytes of `v` at `a`. -/
def writeBytes (mem : Int → BitVec 8) (a : Int) (n : Nat) (v : BitVec 64) : Int → BitVec 8 :=
  fun x => if a ≤ x ∧ x < a + n then (v >>> (8 * (x - a).toNat)).setWidth 8 else mem x

variable {mem mem' : Int → BitVec 8} {a b : Int} {n k : Nat} {v : BitVec 64}

theorem writeBytes_outside {x : Int} (h : x < a ∨ a + n ≤ x) :
    writeBytes mem a n v x = mem x := by
  simp only [writeBytes]
  rw [if_neg (by omega)]

theorem readBytes_congr (h : ∀ x, a ≤ x → x < a + n → mem x = mem' x) :
    readBytes mem a n = readBytes mem' a n := by
  induction n generalizing a with
  | zero => rfl
  | succ n ih =>
    simp only [readBytes]
    rw [h a (by omega) (by omega), ih fun x hx hxn => h x (by omega) (by omega)]

/-- A write leaves the bytes of a disjoint range as they are. -/
theorem readBytes_writeBytes_disjoint (h : b + k ≤ a ∨ a + n ≤ b) :
    readBytes (writeBytes mem a n v) b k = readBytes mem b k :=
  readBytes_congr fun x hx hxk => writeBytes_outside (by omega)

/-- Bit `i` of a read is bit `i % 8` of byte `i / 8`. -/
theorem getLsbD_readBytes (i : Nat) (hi : i < 64) :
    (readBytes mem a n).getLsbD i = (decide (i < 8 * n) && (mem (a + i / 8)).getLsbD (i % 8)) := by
  induction n generalizing a i with
  | zero => simp [readBytes]
  | succ n ih =>
    simp only [readBytes, BitVec.getLsbD_or, BitVec.getLsbD_shiftLeft, BitVec.getLsbD_setWidth, hi]
    by_cases h8 : i < 8
    · have hd : ((i : Int) / 8) = 0 := by omega
      have hm : i % 8 = i := Nat.mod_eq_of_lt h8
      simp [h8, hd, hm, show i < 8 * (n + 1) by omega]
    · have hd : a + 1 + ((i - 8 : Nat) : Int) / 8 = a + (i : Int) / 8 := by omega
      have hm : (i - 8) % 8 = i % 8 := by omega
      have hlt : (i - 8 < 8 * n) = (i < 8 * (n + 1)) := by apply propext; omega
      rw [ih (i - 8) (by omega), hd, hm]
      simp [h8, hlt, BitVec.getLsbD_of_ge (mem a) i (by omega)]

/-- Reading back what was written gives the part of the value that was stored. -/
theorem readBytes_writeBytes :
    readBytes (writeBytes mem a n v) a n = (v.setWidth (8 * n)).setWidth 64 := by
  apply BitVec.eq_of_getLsbD_eq
  intro i hi
  rw [getLsbD_readBytes i hi]
  by_cases h : i < 8 * n
  · have hin : a ≤ a + (i : Int) / 8 ∧ a + (i : Int) / 8 < a + n := by omega
    have hbit : 8 * ((i : Int) / 8).toNat + i % 8 = i := by omega
    simp [writeBytes, hin, h, hi, hbit, Nat.mod_lt]
  · simp [h]

/-- The first bytes of a read are its low part. -/
theorem readBytes_low (h : k ≤ n) :
    readBytes mem a k = ((readBytes mem a n).setWidth (8 * k)).setWidth 64 := by
  apply BitVec.eq_of_getLsbD_eq
  intro i hi
  rw [getLsbD_readBytes i hi, BitVec.getLsbD_setWidth, BitVec.getLsbD_setWidth,
    getLsbD_readBytes i hi]
  by_cases hk : i < 8 * k
  · simp [hk, hi, show i < 8 * n by omega]
  · simp [hk]

end Memory
