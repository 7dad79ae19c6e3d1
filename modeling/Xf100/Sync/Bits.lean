/-
  File:      Xf100/Sync/Bits.lean
  Subject:   Single-bit nets and buses: replicated gates, buses assigned bit by bit.

  * `{n{b}} & x` is `BitVec.fill n b &&& x`; `fill_and` reads it as "x if b, else 0";
  * a bus assigned one bit at a time is `bus n bits`, bit 0 first; `getLsbD_bus` reads a
    bit back;
  * `extractLsb'_append_above` reads a slice of a joined bus, `bytes_append` the bytes of a word
    joined from four;
  * `eq_of_signExtend_eq` takes an extension back, `fill_append_eq_signExtend` and the two after
    it read a hand-written one;
  * `or_eq_right_iff` says when a bus survives being ORed with another, `or_bit_eq_iff` when
    the other is a single bit;
  * `ushiftRight_double` takes a word apart from the top, one bit at a time.
-/
import Mathlib.Data.BitVec

namespace Sync

/-- A bus of width `n` assigned bit by bit, bit 0 first. -/
def bus (n : Nat) (bits : List Bool) : BitVec n := (BitVec.ofBoolListLE bits).setWidth n

@[simp] theorem getLsbD_bus (n : Nat) (bits : List Bool) (i : Nat) :
    (bus n bits).getLsbD i = (decide (i < n) && bits.getD i false) := by
  unfold bus
  rw [BitVec.getLsbD_setWidth, BitVec.getLsbD_ofBoolListLE]

/-- **The replicated gate**: it passes `x` or holds the bus at 0. -/
theorem fill_and {n : Nat} (b : Bool) (x : BitVec n) :
    BitVec.fill n b &&& x = if b then x else 0#n := by
  apply BitVec.eq_of_getLsbD_eq
  intro i hi
  cases b <;> simp [hi]

/-- A sign extension has all of what it extends. -/
theorem eq_of_signExtend_eq {n m : Nat} (hn : n ≤ m) {a b : BitVec n}
    (h : a.signExtend m = b.signExtend m) : a = b := by
  apply BitVec.eq_of_toInt_eq
  rw [← BitVec.toInt_signExtend_of_le hn, h, BitVec.toInt_signExtend_of_le hn]

/-- Sign extension written as a replicated top bit. -/
theorem fill_append_eq_signExtend {n m : Nat} (x : BitVec n) :
    BitVec.fill m (x.getLsbD (n - 1)) ++ x = x.signExtend (m + n) := by
  apply BitVec.eq_of_getLsbD_eq
  intro i hi
  rw [BitVec.getLsbD_append, BitVec.getLsbD_signExtend, BitVec.getLsbD_fill,
    BitVec.msb_eq_getLsbD_last]
  by_cases h : i < n
  · simp [h, hi]
  · simp [h, hi, show i - n < m by omega]

/-- Sign extension across two bytes. -/
theorem fill_append_append_eq_signExtend {m : Nat} (x y : BitVec 8) :
    BitVec.fill m (x.getLsbD 7) ++ x ++ y = (x ++ y).signExtend (m + 8 + 8) := by
  apply BitVec.eq_of_getLsbD_eq
  intro i hi
  rw [BitVec.getLsbD_signExtend, BitVec.msb_eq_getLsbD_last]
  simp only [BitVec.getLsbD_append, BitVec.getLsbD_fill]
  grind

/-- Zero extension across two bytes. -/
theorem zero_append_append_eq_setWidth {m : Nat} (x y : BitVec 8) :
    0#m ++ x ++ y = (x ++ y).setWidth (m + 8 + 8) := by
  apply BitVec.eq_of_getLsbD_eq
  intro i hi
  rw [BitVec.getLsbD_setWidth]
  simp only [BitVec.getLsbD_append, BitVec.getLsbD_zero]
  grind

/-- Four bytes joined, bit by bit. -/
theorem getLsbD_bytes (a b c d : BitVec 8) (i : Nat) : (a ++ b ++ c ++ d).getLsbD i =
    if i < 8 then d.getLsbD i else if i < 16 then c.getLsbD (i - 8)
    else if i < 24 then b.getLsbD (i - 16) else a.getLsbD (i - 24) := by
  show (a ++ b ++ c ++ d : BitVec (8 + 8 + 8 + 8)).getLsbD i = _
  simp only [BitVec.getLsbD_append]
  grind

/-- A slice that starts above the lower part of a joined bus is a slice of the upper part. -/
theorem extractLsb'_append_above {n m : Nat} (x : BitVec n) (y : BitVec m) (lo len : Nat) :
    (x ++ y).extractLsb' (m + lo) len = x.extractLsb' lo len := by
  rw [BitVec.extractLsb'_append_eq_of_le (Nat.le_add_right m lo), Nat.add_sub_cancel_left]

/-- Four bytes joined and taken apart. -/
theorem bytes_append (a b c d : BitVec 8) :
    (a ++ b ++ c ++ d).extractLsb 31 24 = a ∧ (a ++ b ++ c ++ d).extractLsb 23 16 = b ∧
      (a ++ b ++ c ++ d).extractLsb 15 8 = c ∧ (a ++ b ++ c ++ d).extractLsb 7 0 = d := by
  have above_d (lo len : Nat) := extractLsb'_append_above (a ++ b ++ c) d lo len
  have above_c (lo len : Nat) := extractLsb'_append_above (a ++ b) c lo len
  refine ⟨?_, ?_, ?_, ?_⟩
  · exact (above_d 16 8).trans ((above_c 8 8).trans BitVec.extractLsb'_append_eq_left)
  · exact (above_d 8 8).trans ((above_c 0 8).trans BitVec.extractLsb'_append_eq_right)
  · exact (above_d 0 8).trans BitVec.extractLsb'_append_eq_right
  · exact BitVec.extractLsb'_append_eq_right

/-- A bus ORed with `x` is what it was exactly when `x` has no bit outside it. -/
theorem or_eq_right_iff {n : Nat} (x y : BitVec n) : x ||| y = y ↔ x &&& ~~~y = 0#n := by
  have bits : ∀ i, i < n → ((x ||| y).getLsbD i = y.getLsbD i ↔
      (x &&& ~~~y).getLsbD i = (0#n).getLsbD i) := by
    intro i hi
    cases hx : x.getLsbD i <;> cases hy : y.getLsbD i <;> simp_all
  constructor
  · intro h
    apply BitVec.eq_of_getLsbD_eq
    intro i hi
    exact (bits i hi).mp (by rw [h])
  · intro h
    apply BitVec.eq_of_getLsbD_eq
    intro i hi
    exact (bits i hi).mpr (by rw [h])

/-- A value ORed with a single bit shows the bit alone exactly when it is 0, or the bit itself. -/
theorem or_bit_eq_iff {n : Nat} (d : BitVec n) (b : Bool) :
    d ||| (if b then 1#n else 0#n) = (if b then 1#n else 0#n) ↔
      d = 0#n ∨ (b = true ∧ d = 1#n) := by
  cases b with
  | false => simp
  | true =>
      rw [if_pos rfl, or_eq_right_iff]
      constructor
      · intro h
        have hd : d = if d.getLsbD 0 then 1#n else 0#n := by
          apply BitVec.eq_of_getLsbD_eq
          intro i hi
          have hbit := congrArg (fun v => v.getLsbD i) h
          simp only [BitVec.getLsbD_and, BitVec.getLsbD_not, BitVec.getLsbD_one,
            BitVec.getLsbD_zero] at hbit
          by_cases hi0 : i = 0
          · subst hi0
            cases h0 : d.getLsbD 0 <;> simp [hi]
          · have hoff : d.getLsbD i = false := by
              simpa [-BitVec.getLsbD_eq_getElem, hi, hi0] using hbit
            rw [hoff]
            split <;> simp [hi0]
        rw [hd]
        split
        · exact Or.inr ⟨rfl, rfl⟩
        · exact Or.inl rfl
      · intro h
        rcases h with h | ⟨-, h⟩ <;> rw [h] <;> simp

/-- **Doubling and adding**: the bits of a word from `k` up are twice those above and bit `k`. -/
theorem ushiftRight_double {n : Nat} (v : BitVec n) (k : Nat) :
    v >>> k = v >>> (k + 1) + v >>> (k + 1) + (if v.getLsbD k then 1#n else 0#n) := by
  have hlt : v.toNat >>> k < 2 ^ n :=
    lt_of_le_of_lt (by rw [Nat.shiftRight_eq_div_pow]; exact Nat.div_le_self _ _) v.isLt
  have hbit : v.getLsbD k = decide (v.toNat >>> k % 2 = 1) := by
    unfold BitVec.getLsbD
    rw [Nat.testBit_eq_decide_div_mod_eq, Nat.shiftRight_eq_div_pow]
  apply BitVec.eq_of_toNat_eq
  rw [hbit, BitVec.toNat_add, BitVec.toNat_add, BitVec.toNat_ushiftRight,
    BitVec.toNat_ushiftRight, Nat.shiftRight_succ]
  generalize v.toNat >>> k = a at hlt ⊢
  rw [Nat.mod_eq_of_lt (show a / 2 + a / 2 < 2 ^ n by omega)]
  by_cases h : a % 2 = 1
  · -- the bit is 1, so there is room for it
    have hone : (1 : Nat) % 2 ^ n = 1 := Nat.mod_eq_of_lt (by omega)
    rw [if_pos (decide_eq_true h), BitVec.toNat_ofNat, hone, Nat.mod_eq_of_lt (by omega)]
    omega
  · rw [if_neg (fun e => h (of_decide_eq_true e)), BitVec.toNat_zero, Nat.mod_eq_of_lt (by omega)]
    omega

end Sync
