import LatticeGates.KeyStore
import LatticeGates.Proofs.BlindRotation.Bootstrap

/-!
# The bootstrap does not fault

Main statement: with keys of the shape in which they are made, whatever they hold, every ciphertext that
goes with them is bootstrapped to a well-formed one. The digits need not reach every residue for this, and
the entries need not encrypt anything.
-/

namespace LatticeGates

open Modulus

def Rgsw.Fits (g : Gadget) (x : Rgsw) : Prop := x.rows.size = 2 * g.digits

theorem Rgsw.exists_digitValues_of_reduced {ring : NegacyclicRing} {g : Gadget} {a : Poly}
    (hr : ring.Runs) (hpos : 0 < g.logBase) (hlt : g.logBase < 63) (hm : g.modulus = ring.modulus)
    (ha : ring.modulus.Reduced ring.degree a) :
    ∃ rows, digitValues ring g g.digits a = .ok rows ∧ rows.size = g.digits := by
  obtain ⟨digits, hdigits, hsize, e, -, hdigit, -⟩ := Gadget.exists_decompose hpos hlt (hm ▸ ha)
  rw [hm] at hdigit
  obtain ⟨rows, hrows, hrows_size, -⟩ := exists_digitValues_of_decompose hr.evaluates ha.size_eq hdigits
    fun l hl => (hdigit l hl).1
  exact ⟨rows, hrows, hrows_size.trans hsize⟩

namespace BlindRotation

variable {ring : NegacyclicRing} {g : Gadget}

/-- A rotation key of a gadget over the ring, with gadget ciphertexts of its number of digits. -/
structure Key.Fits (ring : NegacyclicRing) (key : Key) : Prop where
  modulus_eq : key.gadget.modulus = ring.modulus
  logBase_pos : 0 < key.gadget.logBase
  logBase_lt : key.gadget.logBase < 63
  dimension_ne : key.dimension ≠ 0
  pair : ∀ block ∈ key.blocks, ∀ pair ∈ block,
    pair.plus.Fits key.gadget ∧ pair.minus.Fits key.gadget

section Rotate

variable {key : Key} {ct : Lwe.Ciphertext} {tab : Table}

private theorem exists_combine {x : Rgsw} (hx : x.Fits g) {maskDigits bodyDigits : Array Poly}
    (hmask : maskDigits.size = g.digits) (hbody : bodyDigits.size = g.digits) :
    ∃ r, Rgsw.combine ring x maskDigits bodyDigits = .ok r ∧ r.Reduced ring := by
  have hd : x.digits = g.digits := by
    rw [Rgsw.digits, hx]
    omega
  have hle : decide (x.digits ≤ maskDigits.size ∧ x.digits ≤ bodyDigits.size) = true :=
    decide_eq_true (by omega)
  obtain ⟨r, hr⟩ : ∃ r, Rgsw.combine ring x maskDigits bodyDigits = .ok r := by
    rw [Rgsw.combine, hle, ensure_true, Checked.ok_bind]
    exact ⟨_, rfl⟩
  exact ⟨r, hr, reduced_of_combine hr⟩

private theorem exists_update (hr : ring.Runs) {r a : Poly}
    (hred : ring.modulus.Reduced ring.degree r) (ha : ring.modulus.Reduced ring.degree a) (k : ℕ) :
    ∃ b s, ring.backward a = .ok b ∧ ring.addMonomialMinusOne r b k = .ok s ∧
      ring.modulus.Reduced ring.degree s := by
  obtain ⟨b, hb, hb_red, -⟩ := hr.exists_backward ha
  obtain ⟨s, hs, hs_red, -⟩ := NegacyclicRing.exists_addMonomialMinusOne hred hb_red k
  exact ⟨b, s, hb, hs, hs_red⟩

private theorem Key.Fits.exists_rotateStep (hkey : key.Fits ring) (hr : ring.Runs) {pair : Pair}
    (hplus : pair.plus.Fits key.gadget) (hminus : pair.minus.Fits key.gadget) (a : ℕ)
    {acc : Rlwe.Ciphertext} (hacc : acc.Reduced ring) :
    ∃ acc', rotateStep ring key.gadget pair a acc = .ok acc' ∧ acc'.Reduced ring := by
  obtain ⟨maskDigits, hmd, hmsize⟩ := Rgsw.exists_digitValues_of_reduced hr hkey.logBase_pos
    hkey.logBase_lt hkey.modulus_eq hacc.mask
  obtain ⟨bodyDigits, hbd, hbsize⟩ := Rgsw.exists_digitValues_of_reduced hr hkey.logBase_pos
    hkey.logBase_lt hkey.modulus_eq hacc.body
  obtain ⟨plus, hplus, hplus_red⟩ := exists_combine hplus hmsize hbsize
  obtain ⟨minus, hminus, hminus_red⟩ := exists_combine hminus hmsize hbsize
  obtain ⟨pm, mask₁, hpm, hmask₁, hmask₁_red⟩ := exists_update hr hacc.mask hplus_red.mask a
  obtain ⟨mm, mask₂, hmm, hmask₂, hmask₂_red⟩ :=
    exists_update hr hmask₁_red hminus_red.mask (2 * ring.degree - a)
  obtain ⟨pb, body₁, hpb, hbody₁, hbody₁_red⟩ := exists_update hr hacc.body hplus_red.body a
  obtain ⟨mb, body₂, hmb, hbody₂, hbody₂_red⟩ :=
    exists_update hr hbody₁_red hminus_red.body (2 * ring.degree - a)
  refine ⟨⟨mask₂, body₂⟩, ?_, hmask₂_red, hbody₂_red⟩
  simp [rotateStep, hmd, hbd, hplus, hminus, hpm, hpb, hmm, hmb, hmask₁, hmask₂, hbody₁, hbody₂]

private theorem Key.Fits.exists_rotateBlock (hkey : key.Fits ring) (hr : ring.Runs)
    {block : Array Pair} (hblock : block ∈ key.blocks) {factor : ℕ} {mask : Array ℕ}
    (hword : ∀ y ∈ mask, y * factor < Word.bound) {acc : Rlwe.Ciphertext} (hacc : acc.Reduced ring) :
    ∃ acc', rotateBlock ring key.gadget factor mask block acc = .ok acc' ∧ acc'.Reduced ring := by
  refine foldM_ok (fun _ (acc : Rlwe.Ciphertext) => acc.Reduced ring) hacc ?_
  intro i hi acc hacc
  have him : i < mask.size := by omega
  have hib : i < block.size := by omega
  simp only [Word.mul_of_lt (hword _ (Array.getElem_mem him)), Checked.ok_bind]
  split
  · exact ⟨acc, rfl, hacc⟩
  · obtain ⟨hplus, hminus⟩ := hkey.pair block hblock block[i] (Array.getElem_mem hib)
    exact hkey.exists_rotateStep hr hplus hminus _ hacc

private theorem Key.Fits.exists_rotate (hkey : key.Fits ring) (hr : ring.Runs)
    (hword : 2 * ring.degree < Word.bound) (htable : ring.modulus.Reduced ring.degree tab.data)
    (hct : ct.WellFormed) (hsize : ct.dimension = key.dimension) (hdomain : tab.domain = ct.modulus)
    (hdvd : ct.modulus ∣ 2 * ring.degree) :
    ∃ acc, rotate ring key tab ct = .ok acc ∧ acc.Reduced ring := by
  obtain ⟨body, hbody, hred, -⟩ := NegacyclicRing.exists_rotateInto htable
    ((2 * ring.degree - ct.body * (2 * ring.degree / ct.modulus)) % (2 * ring.degree))
  rw [rotate_eq hword hkey.dimension_ne hct hsize hdomain hdvd hbody]
  exact foldM_ok (fun _ (acc : Rlwe.Ciphertext) => acc.Reduced ring) ⟨NegacyclicRing.reduced_zero, hred⟩
    fun k hk acc hacc => hkey.exists_rotateBlock hr (Array.getElem_mem hk)
      (fun y hy => (scaled_lt hdvd (hct.1 y hy)).trans hword) hacc

end Rotate

end BlindRotation

namespace Lwe

def Secret.zero (n : ℕ) : Secret := ⟨Array.replicate n 0, .ternary⟩

@[simp] theorem Secret.dimension_zero (n : ℕ) : (Secret.zero n).dimension = n :=
  Array.size_replicate

@[simp] theorem Secret.coefficient_zero (n i : ℕ) : (Secret.zero n).coefficient i = 0 :=
  Modulus.getD_replicate _ _ _

/-- A switching key of the shape that is made for two dimensions. -/
structure SwitchingKey.Fits (q : Modulus) (source target : ℕ) (key : SwitchingKey) : Prop where
  modulus_eq : key.modulus = q.value
  shape : ∃ entries, zero source target key.base key.modulus = .ok { key with entries }
  size_eq : key.entries.size = key.source * key.digits * (key.base - 1)
  entry : ∀ entry ∈ key.entries, (entry.toCiphertext q).Shaped q target

theorem SwitchingKey.Fits.exists_entry {q : Modulus} {source target : ℕ} {key : SwitchingKey}
    (hkey : key.Fits q source target) {i j v : ℕ} (hi : i < key.source) (hj : j < key.digits)
    (hpos : 0 < v) (hv : v < key.base) :
    ∃ entry, key.entries[key.position i j v]? = some entry ∧ entry ∈ key.entries := by
  have hlt : key.position i j v < key.entries.size := hkey.size_eq ▸ position_lt hi hj hpos hv
  exact ⟨_, Array.getElem?_eq_getElem hlt, Array.getElem_mem hlt⟩

/-- Between zero secrets every entry is an encryption of zero, with its own body as error. -/
theorem SwitchingKey.Fits.encrypts_zero {q : Modulus} {source target : ℕ} {key : SwitchingKey}
    (hkey : key.Fits q source target) :
    key.Encrypts q (Secret.zero source) (Secret.zero target) q.value := by
  refine ⟨hkey.modulus_eq, by simpa using hkey.shape, fun i hi j hj v hpos hv => ?_⟩
  obtain ⟨entry, hget, hmem⟩ := hkey.exists_entry hi hj hpos hv
  have hentry := hkey.entry entry hmem
  refine ⟨entry, hget, by simpa using hentry, entry.body, ?_, ?_⟩
  · rw [Int.natAbs_natCast]
    exact hentry.body_lt.le
  · simp [Ciphertext.integerPhase, Sample.toCiphertext]

end Lwe

/-- The keys go with the ring and with ciphertexts of a dimension. -/
structure BootstrapKey.Fits (ring : NegacyclicRing) (n : ℕ) (key : BootstrapKey) : Prop where
  rotation : key.rotation.Fits ring
  dimension_eq : key.rotation.dimension = n
  switching : ∃ middle, key.switching.Fits middle ring.degree n

namespace BlindRotation

variable {ring : NegacyclicRing} {key : BootstrapKey} {n target : ℕ} {ct : Lwe.Ciphertext}
  {tab : Table}

/-- Every function is tabulated for the divisors of the number of places, and the table has its residues
for the phases of the lower half. -/
theorem Table.exists_ofFn {m : ℕ} (hm : 2 ≤ m) (hdvd : m ∣ 2 * ring.degree) (f : ℕ → ℕ) :
    ∃ tab, Table.ofFn ring m f = .ok tab ∧ tab.domain = m ∧
      ring.modulus.Reduced ring.degree tab.data ∧ ∀ x < m, tab.read (2 * ring.degree) m x =
        if x < m / 2 then ((f x % ring.modulus.value : ℕ) : ℤ)
        else -(f (x - m / 2) % ring.modulus.value : ℕ) := by
  have hrest : Word.mod (2 * ring.degree) m = .ok 0 := by
    rw [Word.mod_of_pos (Nat.zero_lt_of_lt hm), Nat.mod_eq_zero_of_dvd hdvd]
  obtain ⟨h, c, hpos, hh, hdegree, hplace⟩ := exists_places hm hdvd
  have hstep : 2 * ring.degree / m = c := by simpa using hplace 1
  have hentry : ∀ y < h, (Array.ofFn fun j : Fin ring.degree =>
      f (j / c) % ring.modulus.value).getD (y * c) 0 = f y % ring.modulus.value := by
    intro y hy
    have hlt : y * c < ring.degree := hdegree ▸ Nat.mul_lt_mul_of_pos_right hy hpos
    rw [Array.getD_eq_getD_getElem?, Array.getElem?_ofFn, dif_pos hlt, Option.getD_some,
      Nat.mul_div_cancel _ hpos]
  refine ⟨⟨m, Array.ofFn fun j : Fin ring.degree => f (j / c) % ring.modulus.value⟩, ?_, rfl,
    reduced_ofFn fun j => Nat.mod_lt _ ring.modulus.pos, fun x hx => ?_⟩
  · simp [Table.ofFn, hrest, hstep]
  · rw [Table.read, hplace, hplace]
    split
    · rw [hentry x (by omega)]
    · rw [hentry _ (by omega)]

theorem exists_bootstrap_of_fits (hr : ring.Runs) (hword : 2 * ring.degree < Word.bound)
    {rotation : Key} {switching : Lwe.SwitchingKey} {middle : Modulus} (hrotation : rotation.Fits ring)
    (hswitching : switching.Fits middle ring.degree n)
    (htable : ring.modulus.Reduced ring.degree tab.data) (hct : ct.WellFormed)
    (hsize : ct.dimension = rotation.dimension) (hdomain : tab.domain = ct.modulus)
    (hdvd : ct.modulus ∣ 2 * ring.degree) (offset : ℕ) (htarget : 0 < target) :
    ∃ out, bootstrap ring rotation switching ct tab offset target = .ok out ∧
      out.modulus = target ∧ out.dimension = n ∧ out.WellFormed := by
  have hzero : (Lwe.Secret.zero ring.degree).dimension = ring.degree := Lwe.Secret.dimension_zero _
  obtain ⟨acc, hacc, hred⟩ := hrotation.exists_rotate hr hword htable hct hsize hdomain hdvd
  obtain ⟨extracted, hextracted, hext_shaped, -⟩ := Rlwe.Ciphertext.exists_extracted hred
  obtain ⟨shifted, hshifted, hshift_shaped, -⟩ :=
    Lwe.Ciphertext.exists_addConstant hext_shaped offset fun _ => 0
  -- the switch does not look at the secrets: any key that fits is one of zero secrets, with some errors
  rw [← hzero] at hshift_shaped
  obtain ⟨scaled, switched, out, hscaled, hswitched, hout, hout_modulus, hout_dim, hout_wf, -⟩ :=
    hswitching.encrypts_zero.exists_switchDown (by rw [hzero]; exact NeZero.pos _) hshift_shaped
      htarget
  refine ⟨out, ?_, hout_modulus, by simpa using hout_dim, hout_wf⟩
  simp [bootstrap, hacc, hextracted, hshifted, hscaled, hswitched, hout]

/-- A bootstrap with keys that go with its input returns a well-formed ciphertext. -/
theorem exists_bootstrap (hr : ring.Runs) (hword : 2 * ring.degree < Word.bound)
    (hkey : key.Fits ring n) (htable : ring.modulus.Reduced ring.degree tab.data)
    (hct : ct.WellFormed) (hsize : ct.dimension = n) (hdomain : tab.domain = ct.modulus)
    (hdvd : ct.modulus ∣ 2 * ring.degree) (offset : ℕ) (htarget : 0 < target) :
    ∃ out, bootstrap ring key.rotation key.switching ct tab offset target = .ok out ∧
      out.modulus = target ∧ out.dimension = n ∧ out.WellFormed := by
  obtain ⟨middle, hswitching⟩ := hkey.switching
  exact exists_bootstrap_of_fits hr hword hkey.rotation hswitching htable hct
    (hsize.trans hkey.dimension_eq.symm) hdomain hdvd offset htarget

end BlindRotation

end LatticeGates
