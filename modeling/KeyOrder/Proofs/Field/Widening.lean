import KeyOrder.Proofs.Field.FloatBits

/-!
# KeyOrder.Proofs.Field.Widening

Widening keeps the order. A finite 32-bit magnitude widens to the one of the same number, whose
units are `2^925` times smaller (`units_widenMagnitude`), and infinity and what is above it to
infinity and what is above it (`widenMagnitude_infinite`); the sign stays (`widen_order`).
-/

namespace KeyOrder

theorem FloatFormat.units_pack (F : FloatFormat) {exponent fraction : Nat}
    (he : exponent ≠ 0) (hf : fraction < 2 ^ F.fractionBits) :
    F.units (exponent * 2 ^ F.fractionBits + fraction) =
      (2 ^ F.fractionBits + fraction) * 2 ^ (exponent - 1) := by
  have hpos : 0 < 2 ^ F.fractionBits := Nat.two_pow_pos _
  have hdiv : (exponent * 2 ^ F.fractionBits + fraction) / 2 ^ F.fractionBits = exponent := by
    rw [Nat.add_comm, Nat.add_mul_div_right _ _ hpos, Nat.div_eq_of_lt hf, Nat.zero_add]
  have hmod : (exponent * 2 ^ F.fractionBits + fraction) % 2 ^ F.fractionBits = fraction := by
    rw [Nat.add_comm, Nat.add_mul_mod_self_right, Nat.mod_eq_of_lt hf]
  unfold units
  simp only [hdiv, hmod, he, if_false]

namespace FloatBits

open FloatFormat (single double)

/-- Two fields side by side in a word. -/
theorem toNat_pack {exponent fraction : UInt64} {e f : Nat} (he : exponent.toNat = e)
    (hf : fraction.toNat = f) (hfits : e < 2 ^ 12) (hf52 : f < 2 ^ 52) :
    ((exponent <<< 52) ||| fraction).toNat = e * 2 ^ 52 + f := by
  have hshift : (exponent <<< 52).toNat = e * 2 ^ 52 := by
    rw [← he]
    apply toNat_shiftLeft_of_lt (by decide)
    show exponent.toNat * 2 ^ 52 < 2 ^ 64
    omega
  rw [toNat_or_of_lt hshift (hf ▸ hf52), hf]

/-- What is left of a fraction below its leading digit, moved up to the implicit one. -/
theorem normalized_lt {f t : Nat} (hle : 2 ^ t ≤ f) (hlt : f < 2 ^ (t + 1)) (ht : t ≤ 52) :
    (f - 2 ^ t) * 2 ^ (52 - t) < 2 ^ 52 := by
  rw [pow_succ] at hlt
  calc (f - 2 ^ t) * 2 ^ (52 - t) < 2 ^ t * 2 ^ (52 - t) :=
        Nat.mul_lt_mul_of_pos_right (by omega) (Nat.two_pow_pos _)
    _ = 2 ^ 52 := by
        rw [← pow_add]
        congr 1
        omega

theorem toNat_widenSubnormal {fraction : UInt64} {f : Nat} (hf : fraction.toNat = f)
    (hpos : 0 < f) (hlt : f < 2 ^ 23) :
    (widenSubnormal fraction).toNat =
      (f.log2 + 874) * 2 ^ 52 + (f - 2 ^ f.log2) * 2 ^ (52 - f.log2) := by
  have htop : f.log2 < 23 := (Nat.log2_lt hpos.ne').mpr hlt
  have hle : 2 ^ f.log2 ≤ f := Nat.log2_self_le hpos.ne'
  have hnormalized := normalized_lt hle Nat.lt_log2_self (by omega)
  generalize ht : f.log2 = t at htop hle hnormalized ⊢
  have hlog : fraction.log2.toNat = t := by
    rw [← ht, ← hf]
    rfl
  have hexponent : (fraction.log2 + 874).toNat = t + 874 := by
    rw [UInt64.toNat_add, hlog]
    exact Nat.mod_eq_of_lt (show t + 874 < 2 ^ 64 by omega)
  have hone : ((1 : UInt64) <<< fraction.log2).toNat = 2 ^ t := by
    have hpow : 2 ^ t < 2 ^ 64 := Nat.pow_lt_pow_right (by omega) (by omega)
    rw [toNat_shiftLeft_of_lt, hlog]
    · exact Nat.one_mul _
    · omega
    · rw [hlog]
      exact (Nat.one_mul _).trans_lt hpow
  have hbelow : (fraction - (1 <<< fraction.log2)).toNat = f - 2 ^ t := by
    rw [UInt64.toNat_sub_of_le, hf, hone]
    rw [UInt64.le_iff_toNat_le, hf, hone]
    exact hle
  have hamount : (52 - fraction.log2).toNat = 52 - t := by
    rw [UInt64.toNat_sub_of_le, hlog]
    · rfl
    · rw [UInt64.le_iff_toNat_le, hlog]
      show t ≤ 52
      omega
  have hmoved : ((fraction - (1 <<< fraction.log2)) <<< (52 - fraction.log2)).toNat =
      (f - 2 ^ t) * 2 ^ (52 - t) := by
    rw [toNat_shiftLeft_of_lt, hbelow, hamount]
    · rw [hamount]
      omega
    · rw [hbelow, hamount]
      omega
  exact toNat_pack hexponent hmoved (by omega) hnormalized

theorem toNat_exponent (m : UInt64) : (m >>> 23).toNat = m.toNat / 2 ^ 23 :=
  (UInt64.toNat_shiftRight _ _).trans (Nat.shiftRight_eq_div_pow _ _)

theorem toNat_fraction (m : UInt64) : (m &&& 0x7fffff).toNat = m.toNat % 2 ^ 23 :=
  (UInt64.toNat_and _ _).trans (Nat.and_two_pow_sub_one_eq_mod m.toNat 23)

theorem toNat_fraction_shiftLeft (m : UInt64) :
    ((m &&& 0x7fffff) <<< 29).toNat = m.toNat % 2 ^ 23 * 2 ^ 29 := by
  have hlt : m.toNat % 2 ^ 23 < 2 ^ 23 := Nat.mod_lt _ (by decide)
  rw [← toNat_fraction] at hlt ⊢
  apply toNat_shiftLeft_of_lt (by decide)
  show (m &&& 0x7fffff).toNat * 2 ^ 29 < 2 ^ 64
  omega

theorem single_units (m : Nat) :
    single.units m =
      if m / 2 ^ 23 = 0 then m % 2 ^ 23 else (2 ^ 23 + m % 2 ^ 23) * 2 ^ (m / 2 ^ 23 - 1) := rfl

theorem exponent_eq_iff (m : UInt64) {word : UInt64} :
    m >>> 23 = word ↔ m.toNat / 2 ^ 23 = word.toNat := by
  rw [← UInt64.toNat_inj, toNat_exponent]

theorem infinity_eq : double.infinity = 2047 * 2 ^ 52 := rfl

theorem units_widenSubnormal {fraction : UInt64} {f k : Nat} (hf : fraction.toNat = f)
    (hpos : 0 < f) (hlt : f < 2 ^ 23) (hk : k = 925) :
    (widenSubnormal fraction).toNat < double.infinity ∧
      double.units (widenSubnormal fraction).toNat = f * 2 ^ k := by
  have htop : f.log2 < 23 := (Nat.log2_lt hpos.ne').mpr hlt
  have hle : 2 ^ f.log2 ≤ f := Nat.log2_self_le hpos.ne'
  have hnormalized := normalized_lt hle Nat.lt_log2_self (by omega)
  rw [toNat_widenSubnormal hf hpos hlt]
  generalize f.log2 = t at htop hle hnormalized ⊢
  have hpack := double.units_pack (show t + 874 ≠ 0 by omega) hnormalized
  refine ⟨?_, ?_⟩
  · rw [infinity_eq]
    omega
  · have hsplit : 2 ^ 52 + (f - 2 ^ t) * 2 ^ (52 - t) = f * 2 ^ (52 - t) := by
      have hpow : 2 ^ t * 2 ^ (52 - t) = 2 ^ 52 := by
        rw [← pow_add]
        congr 1
        omega
      rw [← hpow, ← Nat.add_mul, Nat.add_sub_cancel' hle]
    have hscale : f * 2 ^ (52 - t) * 2 ^ (t + 874 - 1) = f * 2 ^ k := by
      rw [Nat.mul_assoc, ← pow_add]
      congr 2
      omega
    rw [← hscale, ← hsplit]
    exact hpack

theorem moved_lt {e f : Nat} (he : e < 255) (hf : f < 2 ^ 23) :
    f * 2 ^ 29 < 2 ^ 52 ∧ (e + 896) * 2 ^ 52 + f * 2 ^ 29 < 2047 * 2 ^ 52 := by
  omega

theorem units_moved {e f k : Nat} (he : e ≠ 0) (hf : f < 2 ^ 23) (hk : k = 925) :
    double.units ((e + 896) * 2 ^ 52 + f * 2 ^ 29) = (2 ^ 23 + f) * 2 ^ (e - 1) * 2 ^ k := by
  have hmoved : f * 2 ^ 29 < 2 ^ 52 := by omega
  have hscale : (2 ^ 52 + f * 2 ^ 29) * 2 ^ (e + 896 - 1) = (2 ^ 23 + f) * 2 ^ (e - 1) * 2 ^ k := by
    rw [show 2 ^ 52 + f * 2 ^ 29 = (2 ^ 23 + f) * 2 ^ 29 by omega, Nat.mul_assoc, Nat.mul_assoc,
      ← pow_add, ← pow_add]
    congr 2
    omega
  rw [← hscale]
  exact double.units_pack (Nat.succ_ne_zero _) hmoved

theorem units_widenMagnitude {m : UInt64} {k : Nat} (h : m.toNat < single.infinity)
    (hk : k = 925) :
    (widenMagnitude m).toNat < double.infinity ∧
      double.units (widenMagnitude m).toNat = single.units m.toNat * 2 ^ k := by
  have hexponent : m.toNat / 2 ^ 23 < 255 := Nat.div_lt_of_lt_mul (by rw [Nat.mul_comm]; exact h)
  have hfraction : m.toNat % 2 ^ 23 < 2 ^ 23 := Nat.mod_lt _ (by decide)
  obtain ⟨hmoved, hlt⟩ := moved_lt hexponent hfraction
  rw [single_units]
  unfold widenMagnitude
  by_cases hzero : m.toNat / 2 ^ 23 = 0
  · have hfield : m >>> 23 = 0 := (exponent_eq_iff m).mpr hzero
    simp only [hfield, if_true, hzero]
    by_cases hf : m &&& 0x7fffff = 0
    · have hf0 : m.toNat % 2 ^ 23 = 0 := by
        rw [← toNat_fraction, hf]
        rfl
      rw [if_pos hf, hf0, Nat.zero_mul]
      exact ⟨by decide, by decide⟩
    · rw [if_neg hf]
      have hpos : 0 < m.toNat % 2 ^ 23 := by
        rw [← toNat_fraction]
        exact Nat.pos_of_ne_zero fun h0 => hf (UInt64.toNat_inj.mp h0)
      exact units_widenSubnormal (toNat_fraction m) hpos hfraction hk
  · have hne : ¬m >>> 23 = 0 := fun h0 => hzero ((exponent_eq_iff m).mp h0)
    have hne255 : ¬m >>> 23 = 255 := by
      intro h255
      have h255' : m.toNat / 2 ^ 23 = 255 := (exponent_eq_iff m).mp h255
      omega
    simp only [hne, hne255, hzero, if_false]
    have hfield : (m >>> 23 + 896).toNat = m.toNat / 2 ^ 23 + 896 := by
      rw [UInt64.toNat_add, toNat_exponent]
      exact Nat.mod_eq_of_lt (show m.toNat / 2 ^ 23 + 896 < 2 ^ 64 by omega)
    rw [toNat_pack hfield (toNat_fraction_shiftLeft m) (by omega) hmoved]
    exact ⟨hlt, units_moved hzero hfraction hk⟩

theorem widenMagnitude_infinite {m : UInt64} (h : single.infinity ≤ m.toNat)
    (hlt : m.toNat < 2 ^ 31) :
    (widenMagnitude m).toNat = double.infinity + (m.toNat - single.infinity) * 2 ^ 29 := by
  have hsingle : single.infinity = 255 * 2 ^ 23 := rfl
  rw [hsingle] at h ⊢
  have hexponent : m.toNat / 2 ^ 23 = 255 := by omega
  have hfraction : m.toNat % 2 ^ 23 = m.toNat - 255 * 2 ^ 23 := by omega
  have hmoved := toNat_fraction_shiftLeft m
  have hinfinity : infinity.toNat = 2047 * 2 ^ 52 := by decide
  have hfield : m >>> 23 = 255 := (exponent_eq_iff m).mpr hexponent
  have hzero : ¬(255 : UInt64) = 0 := by decide
  unfold widenMagnitude
  simp only [hfield, hzero, if_true, if_false]
  rw [toNat_or_of_lt hinfinity (by omega), hmoved, hfraction]
  rfl

theorem widenMagnitude_lt {m : UInt64} (hlt : m.toNat < 2 ^ 31) :
    (widenMagnitude m).toNat < 2 ^ 63 := by
  have hdouble : double.infinity = 2047 * 2 ^ 52 := rfl
  have hsingle : single.infinity = 255 * 2 ^ 23 := rfl
  by_cases h : m.toNat < single.infinity
  · have hfinite := (units_widenMagnitude h rfl).1
    rw [hdouble] at hfinite
    omega
  · rw [widenMagnitude_infinite (not_lt.mp h) hlt, hdouble, hsingle]
    omega

theorem unit_widen {k : Nat} (hk : k = 925) : 2 ^ k * double.unit = single.unit := by
  have hexponent : 1 - double.bias - double.fractionBits = -1074 := by decide
  have hexponent' : 1 - single.bias - single.fractionBits = -149 := by decide
  rw [FloatFormat.unit, FloatFormat.unit, hexponent, hexponent', ← zpow_natCast,
    ← zpow_add₀ (by norm_num)]
  congr 1
  omega

theorem size_widenMagnitude {m : UInt64} (h : m.toNat ≤ single.infinity)
    (hlt : m.toNat < 2 ^ 31) :
    double.size (widenMagnitude m).toNat = single.size m.toNat := by
  unfold FloatFormat.size
  rcases lt_or_eq_of_le h with hfinite | htop
  · obtain ⟨k, hk⟩ : ∃ k, k = 925 := ⟨_, rfl⟩
    obtain ⟨hdouble, hunits⟩ := units_widenMagnitude hfinite hk
    rw [if_neg hdouble.ne, if_neg hfinite.ne, hunits, ← unit_widen hk]
    push_cast
    rw [mul_assoc]
  · have hinfinite := widenMagnitude_infinite htop.ge hlt
    rw [htop, Nat.sub_self, Nat.zero_mul, Nat.add_zero] at hinfinite
    rw [if_pos hinfinite, if_pos htop]

/-! ## The sign -/

theorem toNat_unsigned (bits : UInt32) :
    (bits &&& 0x7fffffff).toUInt64.toNat = single.magnitude bits.toNat :=
  (UInt32.toNat_and _ _).trans (Nat.and_two_pow_sub_one_eq_mod bits.toNat 31)

theorem magnitude_lt (n : Nat) : single.magnitude n < 2 ^ 31 := Nat.mod_lt _ (by decide)

theorem toNat_widen (bits : UInt32) :
    (widen bits).toNat = (if single.negative bits.toNat then 1 else 0) * 2 ^ 63 +
      (widenMagnitude (bits &&& 0x7fffffff).toUInt64).toNat := by
  have hbits : bits.toNat < 2 ^ 32 := bits.toNat_lt
  have hlt := widenMagnitude_lt (toNat_unsigned bits ▸ magnitude_lt bits.toNat)
  have hsign : (bits >>> 31).toUInt64.toNat = if single.negative bits.toNat then 1 else 0 := by
    have hshift : (bits >>> 31).toUInt64.toNat = bits.toNat / 2 ^ 31 :=
      (UInt32.toNat_shiftRight _ _).trans (Nat.shiftRight_eq_div_pow _ _)
    have hnegative : single.negative bits.toNat = decide (2 ^ 31 ≤ bits.toNat) := rfl
    rw [hshift, hnegative]
    by_cases h : 2 ^ 31 ≤ bits.toNat
    · rw [decide_eq_true h, if_pos rfl]
      omega
    · rw [decide_eq_false h, if_neg Bool.false_ne_true]
      omega
  have hmoved : ((bits >>> 31).toUInt64 <<< 63).toNat =
      (if single.negative bits.toNat then 1 else 0) * 2 ^ 63 := by
    rw [← hsign]
    apply toNat_shiftLeft_of_lt (by decide)
    rw [hsign]
    split <;> decide
  exact toNat_or_of_lt hmoved hlt

theorem widen_spec (bits : UInt32) :
    double.negative (widen bits).toNat = single.negative bits.toNat ∧
      double.magnitude (widen bits).toNat =
        (widenMagnitude (bits &&& 0x7fffffff).toUInt64).toNat := by
  have hlt := widenMagnitude_lt (toNat_unsigned bits ▸ magnitude_lt bits.toNat)
  rw [toNat_widen]
  generalize (widenMagnitude (bits &&& 0x7fffffff).toUInt64).toNat = w at hlt ⊢
  have hnegative : ∀ n, double.negative n = decide (2 ^ 63 ≤ n) := fun _ => rfl
  have hmagnitude : ∀ n, double.magnitude n = n % 2 ^ 63 := fun _ => rfl
  rw [hnegative, hmagnitude]
  cases single.negative bits.toNat with
  | true =>
    rw [if_pos rfl, decide_eq_true_eq]
    omega
  | false =>
    rw [if_neg Bool.false_ne_true, decide_eq_false_iff_not]
    omega

theorem isNaN_widen (bits : UInt32) :
    double.isNaN (widen bits).toNat = single.isNaN bits.toNat := by
  have hunsigned := toNat_unsigned bits
  have hlt := magnitude_lt bits.toNat
  unfold FloatFormat.isNaN
  rw [(widen_spec bits).2, ← hunsigned]
  rw [← hunsigned] at hlt
  apply decide_eq_decide.mpr
  by_cases h : (bits &&& 0x7fffffff).toUInt64.toNat < single.infinity
  · have hfinite := (units_widenMagnitude h rfl).1
    exact ⟨fun h' => absurd h' (not_lt_of_gt hfinite), fun h' => absurd h' (not_lt_of_gt h)⟩
  · rw [widenMagnitude_infinite (not_lt.mp h) hlt]
    generalize double.infinity = top
    omega

theorem number_widen {bits : UInt32} (h : single.isNaN bits.toNat = false) :
    double.number (widen bits).toNat = single.number bits.toNat := by
  have hunsigned := toNat_unsigned bits
  have hlt := magnitude_lt bits.toNat
  have hle : single.magnitude bits.toNat ≤ single.infinity :=
    not_lt.mp (of_decide_eq_false h)
  rw [← hunsigned] at hlt hle
  unfold FloatFormat.number
  rw [(widen_spec bits).1, (widen_spec bits).2, size_widenMagnitude hle hlt, hunsigned]

theorem widen_order (a b : UInt32) :
    double.order (widen a).toNat (widen b).toNat = single.order a.toNat b.toNat := by
  unfold FloatFormat.order
  rw [isNaN_widen, isNaN_widen, (widen_spec a).1, (widen_spec b).1]
  cases ha : single.isNaN a.toNat with
  | true => cases single.isNaN b.toNat <;> rfl
  | false =>
    cases hb : single.isNaN b.toNat with
    | true => rfl
    | false => rw [number_widen ha, number_widen hb]

end FloatBits
end KeyOrder
