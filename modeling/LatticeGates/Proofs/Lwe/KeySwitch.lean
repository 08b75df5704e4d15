import LatticeGates.Lwe.SwitchingKey
import LatticeGates.Proofs.Lwe.ModulusSwitch

/-!
# Key switching

Main statements: switching a ciphertext under the source secret gives one under the target secret with the
same phase, less the error of the entry that each digit of each coordinate picks. With a modulus switch before
and one after it, the phase is scaled, and the errors are scaled with it.
-/

namespace LatticeGates.Lwe

open Finset

theorem abs_cast_le {e : ℤ} {b : ℕ} (h : e.natAbs ≤ b) : |(e : ℚ)| ≤ b := by
  rw [← Int.cast_abs, Int.abs_eq_natAbs]
  exact_mod_cast h

private theorem switch_error {t k q out switched scaled x e k₁ k₂ k₃ a b c : ℚ} (hk : 0 < k)
    (hq : 0 < q) (ht : 0 ≤ t) (hswitched : switched = scaled + e + k * k₂)
    (hscaled : |scaled - k / q * x - k * k₁| ≤ a) (hout : |out - t / k * switched - t * k₃| ≤ b)
    (he : |e| ≤ c) :
    |out - t / q * x - t * (k₁ + k₂ + k₃)| ≤ t / k * (a + c) + b := by
  have hsplit : out - t / q * x - t * (k₁ + k₂ + k₃) =
      t / k * ((scaled - k / q * x - k * k₁) + e) + (out - t / k * switched - t * k₃) := by
    rw [hswitched]
    field_simp
    ring
  have htk : 0 ≤ t / k := div_nonneg ht hk.le
  rw [hsplit]
  refine (abs_add_le _ _).trans (add_le_add ?_ hout)
  rw [abs_mul, abs_of_nonneg htk]
  gcongr
  exact (abs_add_le _ _).trans (add_le_add hscaled he)

def Sample.toCiphertext (q : Modulus) (entry : Sample) : Ciphertext :=
  ⟨entry.mask, entry.body, q.value⟩

structure Sample.Encrypts (q : Modulus) (s : Secret) (bound : ℕ) (m : ℤ) (entry : Sample) : Prop where
  shaped : (entry.toCiphertext q).Shaped q s.dimension
  phase : ∃ e : ℤ, e.natAbs ≤ bound ∧
    (entry.toCiphertext q).integerPhase s.coefficient ≡ m + e [ZMOD q.value]

/-- The errors of the entries that the digits of `x` pick, where `e j v` is that of the digit `v` at the place
`j`. The digit zero picks none. -/
def pickedErrors (base : ℕ) (e : ℕ → ℕ → ℤ) (x : ℕ) : ℤ :=
  ((Nat.digits base x).mapIdx fun j v => if v = 0 then 0 else e j v).sum

@[simp]
theorem pickedErrors_zero (base : ℕ) (e : ℕ → ℕ → ℤ) : pickedErrors base e 0 = 0 := by
  simp [pickedErrors]

theorem pickedErrors_eq {base : ℕ} (hbase : 2 ≤ base) (e : ℕ → ℕ → ℤ) (x : ℕ) :
    pickedErrors base e x = (if x % base = 0 then 0 else e 0 (x % base)) +
      pickedErrors base (fun j => e (j + 1)) (x / base) := by
  rcases Nat.eq_zero_or_pos x with rfl | hx
  · simp
  · rw [pickedErrors, Nat.digits_def' hbase hx, List.mapIdx_cons, List.sum_cons]
    rfl

/-- Each place has at most one error. -/
theorem natAbs_pickedErrors_le {base bound : ℕ} (hbase : 2 ≤ base) (count : ℕ) :
    ∀ {e : ℕ → ℕ → ℤ} {x : ℕ}, (∀ j v, (e j v).natAbs ≤ bound) → x < base ^ count →
      (pickedErrors base e x).natAbs ≤ count * bound := by
  induction count with
  | zero =>
    intro e x _ hx
    obtain rfl : x = 0 := by simpa using hx
    simp
  | succ count ih =>
    intro e x he hx
    have hrest := ih (fun j => he (j + 1)) (Nat.div_lt_of_lt_mul (pow_succ' base count ▸ hx))
    have hlowest : (if x % base = 0 then 0 else e 0 (x % base)).natAbs ≤ bound := by
      split
      · exact Nat.zero_le _
      · exact he _ _
    rw [pickedErrors_eq hbase, add_one_mul]
    omega

namespace SwitchingKey

/-- A switching key of the shape that is made for its secrets. -/
structure Made (q : Modulus) (z s : Secret) (key : SwitchingKey) : Prop where
  modulus_eq : key.modulus = q.value
  shape : ∃ entries, zero z.dimension s.dimension key.base key.modulus = .ok { key with entries }

/-- A switching key whose entries encrypt the multiples of the places of the source secret with given errors. -/
structure EncryptsWith (q : Modulus) (z s : Secret) (e : ℕ → ℕ → ℕ → ℤ) (key : SwitchingKey) : Prop extends
    key.Made q z s where
  entry : ∀ i < key.source, ∀ j < key.digits, ∀ v, 0 < v → v < key.base →
    ∃ entry, key.entries[key.position i j v]? = some entry ∧
      (entry.toCiphertext q).Shaped q s.dimension ∧
      (entry.toCiphertext q).integerPhase s.coefficient ≡
        v * z.coefficient i * key.base ^ j + e i j v [ZMOD q.value]

/-- A switching key of the shape that is made for its secrets, whose entries encrypt the multiples of the
places of the source secret. -/
structure Encrypts (q : Modulus) (z s : Secret) (bound : ℕ) (key : SwitchingKey) : Prop where
  modulus_eq : key.modulus = q.value
  shape : ∃ entries, zero z.dimension s.dimension key.base key.modulus = .ok { key with entries }
  entry : ∀ i < key.source, ∀ j < key.digits, ∀ v, 0 < v → v < key.base →
    ∃ entry, key.entries[key.position i j v]? = some entry ∧
      entry.Encrypts q s bound (v * z.coefficient i * key.base ^ j)

theorem modulus_le_digitsFrom {base modulus power : ℕ} (hbase : 2 ≤ base) (hpower : 0 < power) :
    modulus ≤ power * base ^ digitsFrom base modulus power := by
  induction power using digitsFrom.induct base modulus with
  | case1 power h ih =>
    rw [digitsFrom, dif_pos h, pow_succ', ← mul_assoc]
    exact ih (Nat.mul_pos hpower (by omega))
  | case2 power h =>
    rw [digitsFrom, dif_neg h, pow_zero, mul_one]
    omega

theorem digitsFrom_le {base modulus : ℕ} {power d : ℕ} (h : modulus ≤ power * base ^ d) :
    digitsFrom base modulus power ≤ d := by
  induction power using digitsFrom.induct base modulus generalizing d with
  | case1 power hlt ih =>
    rw [digitsFrom, dif_pos hlt]
    cases d with
    | zero =>
      rw [pow_zero, mul_one] at h
      omega
    | succ d =>
      rw [pow_succ', ← mul_assoc] at h
      exact Nat.succ_le_succ (ih h)
  | case2 power hlt =>
    rw [digitsFrom, dif_neg hlt]
    exact Nat.zero_le d

theorem pow_lt_of_base_lt_two {base modulus : ℕ} (hbase : base < 2) (hone : 1 < modulus) (d : ℕ) :
    base ^ d < modulus :=
  calc base ^ d ≤ 1 ^ d := Nat.pow_le_pow_left (by omega) d
    _ < modulus := by rwa [one_pow]

/-- The search for the number of digits ends with the least one for which the powers reach the modulus. -/
theorem digitCount_eq_ok_iff {base modulus d : ℕ} :
    digitCount base modulus = .ok d ↔ IsLeast {k | modulus ≤ base ^ k} d := by
  unfold digitCount
  split
  · rename_i h
    refine iff_of_false (fun hok => nomatch hok) fun hleast => ?_
    exact (pow_lt_of_base_lt_two h.1 h.2 d).not_ge hleast.1
  · rename_i h
    have hreached : modulus ≤ base ^ digitsFrom base modulus 1 := by
      by_cases hbase : 2 ≤ base
      · simpa using modulus_le_digitsFrom hbase one_pos
      · rw [digitsFrom, dif_neg (by omega), pow_zero]
        omega
    have hleast : IsLeast {k | modulus ≤ base ^ k} (digitsFrom base modulus 1) :=
      ⟨hreached, fun k hk => digitsFrom_le (by rwa [one_mul])⟩
    constructor
    · rintro hok
      cases hok
      exact hleast
    · exact fun hd => congrArg _ (hleast.unique hd)

/-- It does not end when no power reaches the modulus. -/
theorem digitCount_eq_error_iff {base modulus : ℕ} {e : Fault} :
    digitCount base modulus = .error e ↔ e = .exhausted ∧ ∀ k, base ^ k < modulus := by
  constructor
  · intro herror
    unfold digitCount at herror
    split at herror
    · rename_i h
      cases herror
      exact ⟨rfl, pow_lt_of_base_lt_two h.1 h.2⟩
    · cases herror
  · rintro ⟨rfl, h⟩
    cases hcount : digitCount base modulus with
    | ok d => exact ((digitCount_eq_ok_iff.1 hcount).1.not_gt (h d)).elim
    | error e =>
      unfold digitCount at hcount
      split at hcount <;> cases hcount
      rfl

variable {q : Modulus} {z s : Secret} {bound : ℕ} {e : ℕ → ℕ → ℕ → ℤ} {key : SwitchingKey}

theorem position_lt {i j v : ℕ} (hi : i < key.source) (hj : j < key.digits) (hpos : 0 < v)
    (hv : v < key.base) : key.position i j v < key.source * key.digits * (key.base - 1) := by
  have hplace : i * key.digits + j < key.source * key.digits :=
    calc i * key.digits + j < i * key.digits + key.digits := Nat.add_lt_add_left hj _
      _ = (i + 1) * key.digits := (Nat.succ_mul _ _).symm
      _ ≤ key.source * key.digits := Nat.mul_le_mul_right _ hi
  calc key.position i j v
      < (i * key.digits + j) * (key.base - 1) + (key.base - 1) := by
        rw [position]
        omega
    _ = (i * key.digits + j + 1) * (key.base - 1) := (Nat.succ_mul _ _).symm
    _ ≤ key.source * key.digits * (key.base - 1) := Nat.mul_le_mul_right _ hplace

theorem eq_of_zero {source target base modulus : ℕ} (h : zero source target base modulus = .ok key) :
    key = ⟨base, digitsFrom base modulus 1, source, target, modulus, Array.ofFn fun _ :
        Fin (source * digitsFrom base modulus 1 * (base - 1)) => ⟨0, Array.replicate target 0⟩⟩ ∧
      (2 ≤ base ∨ modulus ≤ 1) ∧
      8 * (source * digitsFrom base modulus 1 * (base - 1) * (target + 1)) < 0x8000000000000000 := by
  obtain ⟨digits, hdigits, h⟩ := Checked.bind_eq_ok.1 h
  obtain ⟨places, hplaces, h⟩ := Checked.bind_eq_ok.1 h
  obtain ⟨less, hless, h⟩ := Checked.bind_eq_ok.1 h
  obtain ⟨entries, hentries, h⟩ := Checked.bind_eq_ok.1 h
  obtain ⟨width, hwidth, h⟩ := Checked.bind_eq_ok.1 h
  obtain ⟨words, hwords, h⟩ := Checked.bind_eq_ok.1 h
  obtain ⟨_, hlength, h⟩ := Checked.bind_eq_ok.1 h
  cases h
  obtain ⟨rfl, -⟩ := Word.mul_eq_ok.1 hplaces
  obtain ⟨-, rfl⟩ := Word.sub_eq_ok.1 hless
  obtain ⟨rfl, -⟩ := Word.mul_eq_ok.1 hentries
  obtain ⟨rfl, -⟩ := Word.check_eq_ok.1 hwidth
  obtain ⟨rfl, -⟩ := Word.mul_eq_ok.1 hwords
  rw [Word.checkLength, Word.checkBytes, ensure_eq_ok, decide_eq_true_eq] at hlength
  rw [digitCount] at hdigits
  split at hdigits
  · cases hdigits
  · cases hdigits
    exact ⟨rfl, by omega, hlength⟩

theorem zero_eq_ok {source target base modulus : ℕ}
    (h : zero source target base modulus = .ok key) :
    key.source = source ∧ key.target = target ∧ key.digits = digitsFrom base modulus 1 ∧
      (2 ≤ base ∨ modulus ≤ 1) ∧
      8 * (source * key.digits * (base - 1) * (target + 1)) < 0x8000000000000000 := by
  obtain ⟨rfl, hbase, hlength⟩ := eq_of_zero h
  exact ⟨rfl, rfl, rfl, hbase, hlength⟩

namespace Made

theorem two_le_base (hkey : key.Made q z s) : 2 ≤ key.base := by
  obtain ⟨entries, h⟩ := hkey.shape
  obtain ⟨-, -, -, hbase, -⟩ := zero_eq_ok h
  have := q.one_lt
  rw [hkey.modulus_eq] at hbase
  omega

theorem source_eq (hkey : key.Made q z s) : key.source = z.dimension := by
  obtain ⟨entries, h⟩ := hkey.shape
  exact (zero_eq_ok h).1

theorem target_eq (hkey : key.Made q z s) : key.target = s.dimension := by
  obtain ⟨entries, h⟩ := hkey.shape
  exact (zero_eq_ok h).2.1

theorem modulus_le (hkey : key.Made q z s) : q.value ≤ key.base ^ key.digits := by
  obtain ⟨entries, h⟩ := hkey.shape
  have hdigits : key.digits = digitsFrom key.base key.modulus 1 := (zero_eq_ok h).2.2.1
  have h : key.modulus ≤ 1 * key.base ^ digitsFrom key.base key.modulus 1 :=
    modulus_le_digitsFrom hkey.two_le_base one_pos
  rwa [one_mul, ← hdigits, hkey.modulus_eq] at h

theorem checkLength_target (hkey : key.Made q z s) (hz : 0 < z.dimension) :
    Word.checkLength key.target = .ok () := by
  obtain ⟨entries, h⟩ := hkey.shape
  obtain ⟨hsource, htarget, hdigits, -, hlength⟩ := zero_eq_ok h
  have hbase := hkey.two_le_base
  have hpos : 0 < key.digits := by
    rcases Nat.eq_zero_or_pos key.digits with h0 | h0
    · have hle := hkey.modulus_le
      have hone := q.one_lt
      rw [h0, pow_zero] at hle
      omega
    · exact h0
  have hblock : 1 ≤ z.dimension * key.digits * (key.base - 1) :=
    Nat.mul_pos (Nat.mul_pos hz hpos) (by omega)
  have := Nat.mul_le_mul_right (s.dimension + 1) hblock
  apply Word.checkLength_of_lt
  change key.target = s.dimension at htarget
  change 8 * (z.dimension * key.digits * (key.base - 1) * (s.dimension + 1)) < _ at hlength
  omega

end Made

namespace EncryptsWith

private theorem exists_addSample {n : ℕ} {acc entry : Sample} {s : ℕ → ℤ}
    (hacc : (acc.toCiphertext q).Shaped q n) (hentry : (entry.toCiphertext q).Shaped q n) :
    ∃ body mask, q.add acc.body entry.body = .ok body ∧ q.addVector acc.mask entry.mask = .ok mask ∧
      (Sample.toCiphertext q ⟨body, mask⟩).Shaped q n ∧
      (Sample.toCiphertext q ⟨body, mask⟩).integerPhase s ≡
        (acc.toCiphertext q).integerPhase s + (entry.toCiphertext q).integerPhase s
        [ZMOD q.value] := by
  obtain ⟨mask, hmask, hred, hentries⟩ := Modulus.exists_addVector hacc.mask hentry.mask
  obtain ⟨body, hbody, hlt, hcast⟩ := Modulus.exists_add hacc.body_lt hentry.body_lt
  refine ⟨body, mask, hbody, hmask, ⟨rfl, hred, hlt⟩, Ciphertext.modEq_of_cast_eq ?_⟩
  have hsum : ∑ i ∈ range n, q.entries mask i * s i =
      ∑ i ∈ range n, q.entries acc.mask i * s i + ∑ i ∈ range n, q.entries entry.mask i * s i := by
    rw [← sum_add_distrib]
    exact sum_congr rfl fun i hi => by
      rw [hentries i (mem_range.1 hi)]
      exact add_mul _ _ _
  rw [Int.cast_add, Ciphertext.cast_integerPhase q hred.size_eq,
    Ciphertext.cast_integerPhase q hacc.mask.size_eq,
    Ciphertext.cast_integerPhase q hentry.mask.size_eq]
  exact (congrArg₂ (· - ·) hcast hsum).trans (add_sub_add_comm _ _ _ _)

private theorem exists_pick_succ (hkey : key.EncryptsWith q z s e) {i j x : ℕ} {acc : Sample}
    (hi : i < key.source) (hj : j < key.digits) (hacc : (acc.toCiphertext q).Shaped q s.dimension) :
    ∃ next : Sample, (∀ count, key.pick q i (count + 1) j x acc =
        key.pick q i count (j + 1) (x / key.base) next) ∧
      (next.toCiphertext q).Shaped q s.dimension ∧
      (next.toCiphertext q).integerPhase s.coefficient ≡
        (acc.toCiphertext q).integerPhase s.coefficient +
          ((x % key.base : ℕ) * z.coefficient i * key.base ^ j +
            if x % key.base = 0 then 0 else e i j (x % key.base)) [ZMOD q.value] := by
  have hbase := hkey.two_le_base
  have hmod : Word.mod x key.base = .ok (x % key.base) := Word.mod_of_pos (by omega)
  by_cases hzero : x % key.base = 0
  · refine ⟨acc, fun count => ?_, hacc, by simp [hzero]⟩
    simp [pick, hmod, hzero]
  · obtain ⟨entry, hget, hshaped, hphase⟩ := hkey.entry i hi j hj (x % key.base)
      (Nat.pos_of_ne_zero hzero) (Nat.mod_lt _ (by omega))
    obtain ⟨body, mask, hbody, hmask, hnext, hsum⟩ := exists_addSample hacc hshaped
    refine ⟨⟨body, mask⟩, fun count => ?_, hnext, ?_⟩
    · simp [pick, hmod, hzero, hget, hbody, hmask]
    · rw [if_neg hzero]
      exact hsum.trans (hphase.add_left _)

/-- The digits of a mask entry pick encryptions that add up to the product with its coordinate. -/
theorem exists_pick (hkey : key.EncryptsWith q z s e) {i : ℕ} (hi : i < key.source) (count : ℕ) :
    ∀ {j x : ℕ} {acc : Sample}, j + count ≤ key.digits → x < key.base ^ count →
      (acc.toCiphertext q).Shaped q s.dimension →
      ∃ r, key.pick q i count j x acc = .ok r ∧ (r.toCiphertext q).Shaped q s.dimension ∧
        (r.toCiphertext q).integerPhase s.coefficient ≡
          (acc.toCiphertext q).integerPhase s.coefficient +
            (x * z.coefficient i * key.base ^ j + pickedErrors key.base (fun k => e i (k + j)) x)
          [ZMOD q.value] := by
  induction count with
  | zero =>
    intro j x acc _ hx hacc
    obtain rfl : x = 0 := by simpa using hx
    exact ⟨acc, rfl, hacc, by simp⟩
  | succ c ih =>
    intro j x acc hj hx hacc
    obtain ⟨next, hnext, hshaped, hphase⟩ := hkey.exists_pick_succ (j := j) (x := x) hi (by omega) hacc
    obtain ⟨r, hr, hrshaped, hrphase⟩ := ih (j := j + 1) (x := x / key.base) (by omega)
      (Nat.div_lt_of_lt_mul (pow_succ' key.base c ▸ hx)) hshaped
    refine ⟨r, by rw [hnext, hr], hrshaped, ?_⟩
    have hdigit : (x : ℤ) = (x % key.base : ℕ) + key.base * (x / key.base : ℕ) := by
      exact_mod_cast (Nat.mod_add_div x key.base).symm
    have hpicked := pickedErrors_eq hkey.two_le_base (fun k => e i (k + j)) x
    simp only [Nat.zero_add, Nat.add_assoc, Nat.add_comm 1 j] at hpicked
    convert hrphase.trans (hphase.add_right _) using 1
    rw [hpicked, hdigit]
    ring

private theorem exists_pickAll (hkey : key.EncryptsWith q z s e) {ct : Ciphertext}
    (hct : ct.Shaped q z.dimension) :
    ∃ total, ct.mask.size.foldM
        (fun i _ acc => key.pick q i key.digits 0 ct.mask[i] acc) ⟨0, Array.replicate key.target 0⟩ =
          .ok total ∧ (total.toCiphertext q).Shaped q s.dimension ∧
      (total.toCiphertext q).integerPhase s.coefficient ≡
        ∑ i ∈ range ct.mask.size, (ct.mask.getD i 0 * z.coefficient i +
          pickedErrors key.base (e i) (ct.mask.getD i 0)) [ZMOD q.value] := by
  have hsource := hkey.source_eq
  have htarget := hkey.target_eq
  -- The entries picked so far encrypt the inner product up to the coordinate reached.
  refine foldM_ok (fun n (total : Sample) => (total.toCiphertext q).Shaped q s.dimension ∧
    (total.toCiphertext q).integerPhase s.coefficient ≡
      ∑ i ∈ range n, (ct.mask.getD i 0 * z.coefficient i +
        pickedErrors key.base (e i) (ct.mask.getD i 0)) [ZMOD q.value]) ?_ ?_
  · refine ⟨⟨rfl, ?_, q.pos⟩, ?_⟩
    · rw [← htarget]
      exact Modulus.reduced_replicate
    · refine Ciphertext.modEq_of_cast_eq ?_
      rw [Ciphertext.cast_integerPhase q (n := key.target) Array.size_replicate]
      simp [Sample.toCiphertext]
  · rintro i hi total ⟨hshaped, hphase⟩
    have hlt := hct.mask.getElem_lt hi
    obtain ⟨r, hr, hrshaped, hrphase⟩ := hkey.exists_pick (i := i) (j := 0) (x := ct.mask[i])
      (by rw [hsource, ← hct.mask.size_eq]; exact hi) key.digits (by omega)
      (hlt.trans_le hkey.modulus_le) hshaped
    rw [pow_zero, mul_one, Array.getElem_eq_getD 0] at hrphase
    refine ⟨r, hr, hrshaped, ?_⟩
    rw [sum_range_succ]
    exact hrphase.trans (hphase.add_right _)

/-- Switching keeps the phase, less the errors of the entries that are picked. -/
theorem exists_switch (hkey : key.EncryptsWith q z s e)
    (hlength : Word.checkLength key.target = .ok ()) {ct : Ciphertext} (hct : ct.Shaped q z.dimension) :
    ∃ r, key.switch ct = .ok r ∧ r.Shaped q s.dimension ∧
      r.integerPhase s.coefficient ≡ ct.integerPhase z.coefficient -
        ∑ i ∈ range z.dimension, pickedErrors key.base (e i) (ct.mask.getD i 0) [ZMOD q.value] := by
  obtain ⟨total, htotal, hshaped, hphase⟩ := hkey.exists_pickAll hct
  obtain ⟨mask, hmask, hmask_red, hmask_entries⟩ := Modulus.exists_negVector hshaped.mask
  obtain ⟨body, hbody, hlt, hcast⟩ := Modulus.exists_sub hct.body_lt hshaped.body_lt
  refine ⟨⟨mask, body, q.value⟩, ?_, ⟨rfl, hmask_red, hlt⟩, Ciphertext.modEq_of_cast_eq ?_⟩
  · have hsize : ct.dimension = key.source := hct.mask.size_eq.trans hkey.source_eq.symm
    have hmodulus : ct.modulus = key.modulus := hct.modulus_eq.trans hkey.modulus_eq.symm
    have hcheck : Modulus.check key.modulus = .ok q := hmodulus ▸ hct.check
    simp only [Sample.toCiphertext] at hmask hbody
    simp [switch, hsize, hmodulus, hcheck, hlength, htotal, hmask, hbody]
  · have htotal_cast := (ZMod.intCast_eq_intCast_iff _ _ q.value).2 hphase
    rw [Ciphertext.cast_integerPhase q hshaped.mask.size_eq, sum_add_distrib] at htotal_cast
    have hsum : ∑ i ∈ range s.dimension, q.entries mask i * s.coefficient i =
        -∑ i ∈ range s.dimension, q.entries (total.toCiphertext q).mask i * s.coefficient i := by
      rw [← sum_neg_distrib]
      exact sum_congr rfl fun i hi => by rw [hmask_entries i (mem_range.1 hi), neg_mul]
    rw [Ciphertext.cast_integerPhase q hmask_red.size_eq, Ciphertext.integerPhase, ← hct.mask.size_eq]
    push_cast at htotal_cast ⊢
    linear_combination hcast - hsum - htotal_cast

end EncryptsWith

namespace Encrypts

theorem made (hkey : key.Encrypts q z s bound) : key.Made q z s := ⟨hkey.modulus_eq, hkey.shape⟩

theorem source_eq (hkey : key.Encrypts q z s bound) : key.source = z.dimension := hkey.made.source_eq

private theorem exists_errors (hkey : key.Encrypts q z s bound) :
    ∃ e, (∀ i j v, (e i j v : ℤ).natAbs ≤ bound) ∧ key.EncryptsWith q z s e := by
  have herror (i j v : ℕ) : ∃ e : ℤ, e.natAbs ≤ bound ∧
      (i < key.source → j < key.digits → 0 < v → v < key.base →
        ∃ entry, key.entries[key.position i j v]? = some entry ∧
          (entry.toCiphertext q).Shaped q s.dimension ∧
          (entry.toCiphertext q).integerPhase s.coefficient ≡
            v * z.coefficient i * key.base ^ j + e [ZMOD q.value]) := by
    by_cases h : i < key.source ∧ j < key.digits ∧ 0 < v ∧ v < key.base
    · obtain ⟨entry, hget, hshaped, e, he, hphase⟩ := hkey.entry i h.1 j h.2.1 v h.2.2.1 h.2.2.2
      exact ⟨e, he, fun _ _ _ _ => ⟨entry, hget, hshaped, hphase⟩⟩
    · exact ⟨0, Nat.zero_le _, fun hi hj hpos hv => (h ⟨hi, hj, hpos, hv⟩).elim⟩
  choose e hbound hentry using herror
  exact ⟨e, hbound, hkey.made, fun i hi j hj v hpos hv => hentry i j v hi hj hpos hv⟩

/-- Switching keeps the phase, up to one error of an entry for each digit of each coordinate. -/
theorem exists_switch (hkey : key.Encrypts q z s bound)
    (hlength : Word.checkLength key.target = .ok ()) {ct : Ciphertext} (hct : ct.Shaped q z.dimension) :
    ∃ r, key.switch ct = .ok r ∧ r.Shaped q s.dimension ∧
      ∃ e : ℤ, e.natAbs ≤ z.dimension * (key.digits * bound) ∧
        r.integerPhase s.coefficient ≡ ct.integerPhase z.coefficient + e [ZMOD q.value] := by
  obtain ⟨e, hbound, hwith⟩ := hkey.exists_errors
  obtain ⟨r, hr, hshaped, hphase⟩ := hwith.exists_switch hlength hct
  refine ⟨r, hr, hshaped, -∑ i ∈ range z.dimension, pickedErrors key.base (e i) (ct.mask.getD i 0), ?_,
    by rwa [← sub_eq_add_neg]⟩
  rw [Int.natAbs_neg]
  have hpicked (i : ℕ) (hi : i ∈ range z.dimension) :
      (pickedErrors key.base (e i) (ct.mask.getD i 0)).natAbs ≤ key.digits * bound :=
    natAbs_pickedErrors_le hwith.two_le_base _ (hbound i)
      ((hct.mask.getD_lt _).trans_le hwith.modulus_le)
  calc (∑ i ∈ range z.dimension, pickedErrors key.base (e i) (ct.mask.getD i 0)).natAbs
      ≤ ∑ i ∈ range z.dimension, (pickedErrors key.base (e i) (ct.mask.getD i 0)).natAbs :=
        Int.natAbs_sum_le _ _
    _ ≤ z.dimension * (key.digits * bound) := by
        simpa using sum_le_card_nsmul _ _ _ hpicked

/-- A switch to the modulus of the key, the key switch and a switch to the target modulus scale the
phase. -/
theorem exists_switchDown (hkey : key.Encrypts q z s bound) (hz : 0 < z.dimension) {m : Modulus}
    {ct : Ciphertext} (hct : ct.Shaped m z.dimension) {target : ℕ} (htarget : 0 < target) :
    ∃ scaled switched out, ct.switchModulus key.modulus = .ok scaled ∧
      key.switch scaled = .ok switched ∧ switched.switchModulus target = .ok out ∧
      out.modulus = target ∧ out.dimension = s.dimension ∧ out.WellFormed ∧ ∃ k : ℤ,
        |(out.integerPhase s.coefficient : ℚ) - target / m.value * ct.integerPhase z.coefficient -
            target * k| ≤
          target / q.value * ((1 + ∑ i ∈ range z.dimension, |(z.coefficient i : ℚ)|) / 2 +
            z.dimension * key.digits * bound) +
          (1 + ∑ i ∈ range s.dimension, |(s.coefficient i : ℚ)|) / 2 := by
  have hct_pos : 0 < ct.modulus := by
    rw [hct.modulus_eq]
    exact m.pos
  have hkey_pos : 0 < key.modulus := by
    rw [hkey.modulus_eq]
    exact q.pos
  obtain ⟨scaled, hscaled, hscaled_modulus, hscaled_size, hscaled_wf, hscaled_error⟩ :=
    Ciphertext.exists_switchModulus hct_pos hkey_pos
  obtain ⟨k₁, hk₁⟩ := hscaled_error z.coefficient
  have hscaled_shaped : scaled.Shaped q z.dimension :=
    Ciphertext.shaped_iff.2 ⟨hscaled_modulus.trans hkey.modulus_eq,
      hscaled_size.trans hct.mask.size_eq, hscaled_wf⟩
  obtain ⟨switched, hswitched, hswitch_shaped, e, he, hswitch_phase⟩ :=
    hkey.exists_switch (hkey.made.checkLength_target hz) hscaled_shaped
  obtain ⟨k₂, hk₂⟩ := hswitch_phase.symm.dvd
  have hswitch_pos : 0 < switched.modulus := by
    rw [hswitch_shaped.modulus_eq]
    exact q.pos
  obtain ⟨out, hout, hout_modulus, hout_size, hout_wf, hout_error⟩ :=
    Ciphertext.exists_switchModulus hswitch_pos htarget
  obtain ⟨k₃, hk₃⟩ := hout_error s.coefficient
  refine ⟨scaled, switched, out, hscaled, hswitched, hout, hout_modulus,
    hout_size.trans hswitch_shaped.mask.size_eq, hout_wf, k₁ + k₂ + k₃, ?_⟩
  rw [hct.modulus_eq, hkey.modulus_eq, hct.mask.size_eq] at hk₁
  rw [hswitch_shaped.modulus_eq, hswitch_shaped.mask.size_eq] at hk₃
  have hswitch_eq : (switched.integerPhase s.coefficient : ℚ) =
      scaled.integerPhase z.coefficient + e + q.value * k₂ := by
    have := eq_add_of_sub_eq' hk₂
    exact_mod_cast this
  have hbound := switch_error (Nat.cast_pos.2 q.pos) (Nat.cast_pos.2 m.pos) (Nat.cast_nonneg target)
    hswitch_eq hk₁ hk₃ (abs_cast_le he)
  push_cast at hbound ⊢
  rwa [← mul_assoc (z.dimension : ℚ)] at hbound

end Encrypts

end SwitchingKey

end LatticeGates.Lwe
