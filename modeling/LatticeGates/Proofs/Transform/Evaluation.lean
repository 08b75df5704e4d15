import LatticeGates.Proofs.Modulus.Residues
import LatticeGates.Transform

/-!
# The transform as evaluation

Every node of the tree stands for a value of `X ^ (2 ^ depth)`: `-1` at the top, and the two square
roots of a node's value at its children. Main statements: splitting down to the leaves evaluates a
polynomial at the values of the leaves, and joining finds a polynomial with given values.
-/

namespace LatticeGates

open Finset Modulus

/-- A factor that carries its companion. -/
def Modulus.IsFactor (q : Modulus) (f : Factor) : Prop := ∃ w < q.value, f = q.factor w

section Factor

variable {q : Modulus} {f : Factor}

theorem Modulus.toNat_factor {w : ℕ} (hw : w < q.value) : (q.factor w).value.toNat = w := by
  have hb : w < 18446744073709551616 := hw.trans q.lt_word
  simpa [factor] using hb

theorem Modulus.IsFactor.times_eq (hf : q.IsFactor f) (a : ℕ) :
    q.times f a = a % Word.bound * f.value.toNat % q.value := by
  obtain ⟨w, hw, rfl⟩ := hf
  have ha : a.toUInt64 = (a % Word.bound).toUInt64 := by
    apply UInt64.toNat_inj.1
    simp [Word.bound]
  rw [toNat_factor hw, ← times_factor hw (Nat.mod_lt a (by decide)), times, times, ha]

theorem Modulus.IsFactor.times_lt (hf : q.IsFactor f) (a : ℕ) : q.times f a < q.value := by
  rw [hf.times_eq]
  exact Nat.mod_lt _ q.pos

theorem Modulus.IsFactor.cast_times (hf : q.IsFactor f) {a : ℕ} (ha : a < q.value) :
    (q.times f a : ZMod q.value) = a * f.value.toNat := by
  rw [hf.times_eq, Nat.mod_eq_of_lt (ha.trans q.lt_word)]
  simp

end Factor

/-- The value at `x` of the polynomial with the first `n` coefficients of a sequence. -/
def evaluate {q : ℕ} (n : ℕ) (c : ℕ → ZMod q) (x : ZMod q) : ZMod q := ∑ i ∈ range n, c i * x ^ i

theorem evaluate_congr {q n : ℕ} {c d : ℕ → ZMod q} (h : ∀ i < n, c i = d i) (x : ZMod q) :
    evaluate n c x = evaluate n d x :=
  sum_congr rfl fun i hi => by rw [h i (mem_range.1 hi)]

theorem evaluate_mul {q n : ℕ} (k : ZMod q) (c : ℕ → ZMod q) (x : ZMod q) :
    evaluate n (fun i => k * c i) x = k * evaluate n c x := by
  rw [evaluate, evaluate, mul_sum]
  exact sum_congr rfl fun i _ => mul_assoc _ _ _

theorem evaluate_add {q n m : ℕ} (c : ℕ → ZMod q) (x : ZMod q) :
    evaluate (n + m) c x = evaluate n c x + x ^ n * evaluate m (fun i => c (n + i)) x := by
  rw [evaluate, sum_range_add, evaluate, evaluate, mul_sum]
  congr 1
  apply sum_congr rfl
  intro i _
  ring

namespace Transform

variable (t : Transform)

/-- The power of the root that is stored under a node. -/
def root (m : ℕ) : ZMod t.modulus.value := (t.powers.getD m (t.modulus.factor 0)).value.toNat

def inverseRoot (m : ℕ) : ZMod t.modulus.value :=
  (t.inversePowers.getD m (t.modulus.factor 0)).value.toNat

/-- The value of a node: one square root of the value of its parent for each child. -/
def point (m : ℕ) : ZMod t.modulus.value := if m % 2 = 0 then t.root (m / 2) else -t.root (m / 2)

/-- What the tables of a transform have to satisfy. -/
structure Valid : Prop where
  powers_factor : ∀ m, t.modulus.IsFactor (t.powers.getD m (t.modulus.factor 0))
  inversePowers_factor : ∀ m, t.modulus.IsFactor (t.inversePowers.getD m (t.modulus.factor 0))
  sizeInverse_factor : t.modulus.IsFactor t.sizeInverse
  root_zero : t.root 0 = 1
  root_sq : ∀ m, 0 < m → m < t.size → t.root m ^ 2 = t.point m
  root_mul_inverseRoot : ∀ m, 0 < m → m < t.size → t.root m * t.inverseRoot m = 1
  size_mul_sizeInverse : (t.size : ZMod t.modulus.value) * t.sizeInverse.value.toNat = 1

/-- What the tables have to satisfy for the transform alone, whether or not it can be undone. -/
structure Evaluates : Prop where
  powers_factor : ∀ m, t.modulus.IsFactor (t.powers.getD m (t.modulus.factor 0))
  root_zero : t.root 0 = 1
  root_sq : ∀ m, 0 < m → m < t.size → t.root m ^ 2 = t.point m

/-- What the tables have to satisfy for both transforms to be computed, whether or not they undo each
other. -/
structure Runs : Prop extends t.Evaluates where
  inversePowers_factor : ∀ m, t.modulus.IsFactor (t.inversePowers.getD m (t.modulus.factor 0))
  sizeInverse_factor : t.modulus.IsFactor t.sizeInverse

variable {t}

theorem Valid.runs (ht : t.Valid) : t.Runs :=
  ⟨⟨ht.powers_factor, ht.root_zero, ht.root_sq⟩, ht.inversePowers_factor, ht.sizeInverse_factor⟩

theorem size_eq : t.size = 2 ^ t.logSize := Nat.one_shiftLeft _

@[simp] theorem point_double (m : ℕ) : t.point (2 * m) = t.root m := by
  simp [point]

@[simp] theorem point_double_succ (m : ℕ) : t.point (2 * m + 1) = -t.root m := by
  have h : (2 * m + 1) / 2 = m := by omega
  simp [point, h]

theorem Evaluates.point_pow (ht : t.Evaluates) (depth : ℕ) :
    ∀ {node j : ℕ}, 0 < node → (node + 1) * 2 ^ depth ≤ 2 * t.size → j < 2 ^ depth →
      t.point (node * 2 ^ depth + j) ^ 2 ^ depth = t.point node := by
  induction depth with
  | zero =>
    intro node j _ _ hj
    simp [show j = 0 by simpa using hj]
  | succ d ih =>
    intro node j hpos hnode hj
    have hsq : t.root node ^ 2 = t.point node := by
      refine ht.root_sq node hpos ?_
      have : 1 ≤ 2 ^ d := Nat.one_le_two_pow
      rw [pow_succ] at hnode
      nlinarith
    rw [pow_succ] at hnode hj
    rw [pow_succ, pow_mul]
    by_cases hlow : j < 2 ^ d
    · have hleaf : node * (2 ^ d * 2) + j = 2 * node * 2 ^ d + j := by ring
      rw [hleaf, ih (by omega) (by linarith [Nat.one_le_two_pow (n := d)]) hlow, point_double, hsq]
    · have hleaf : node * (2 ^ d * 2) + j = (2 * node + 1) * 2 ^ d + (j - 2 ^ d) := by
        obtain ⟨k, rfl⟩ := Nat.exists_eq_add_of_le (not_lt.1 hlow)
        rw [Nat.add_sub_cancel_left]
        ring
      rw [hleaf, ih (by omega) (by linarith) (by omega), point_double_succ, neg_sq, hsq]

private theorem node_lt_size {depth node : ℕ} (h : (node + 1) * 2 ^ (depth + 1) ≤ 2 * t.size) :
    node < t.size := by
  have : 1 ≤ 2 ^ depth := Nat.one_le_two_pow
  rw [pow_succ] at h
  nlinarith

private theorem left_le {depth node bound : ℕ} (h : (node + 1) * 2 ^ (depth + 1) ≤ bound) :
    (2 * node + 1) * 2 ^ depth ≤ bound := by
  refine le_trans ?_ h
  rw [pow_succ', ← mul_assoc]
  exact Nat.mul_le_mul_right _ (by omega)

private theorem right_le {depth node bound : ℕ} (h : (node + 1) * 2 ^ (depth + 1) ≤ bound) :
    (2 * node + 1 + 1) * 2 ^ depth ≤ bound := by
  refine le_trans ?_ h
  rw [pow_succ', ← mul_assoc]
  exact Nat.mul_le_mul_right _ (by omega)

private theorem left_leaf (depth node j : ℕ) :
    node * 2 ^ (depth + 1) + j = 2 * node * 2 ^ depth + j := by
  ring

private theorem right_leaf (depth node j : ℕ) :
    node * 2 ^ (depth + 1) + (2 ^ depth + j) = (2 * node + 1) * 2 ^ depth + j := by
  ring

private theorem exists_split {h : ℕ} {f : Factor} (hf : t.modulus.IsFactor f) {a : Poly}
    (ha : t.modulus.Reduced (h + h) a) :
    ∃ left right,
      zipChecked t.modulus.add (a.extract 0 h) ((a.extract h (h + h)).map (t.modulus.times f)) =
        .ok left ∧
      zipChecked t.modulus.sub (a.extract 0 h) ((a.extract h (h + h)).map (t.modulus.times f)) =
        .ok right ∧
      t.modulus.Reduced h left ∧ t.modulus.Reduced h right ∧
      (∀ i < h, t.modulus.entries left i =
        t.modulus.entries a i + f.value.toNat * t.modulus.entries a (h + i)) ∧
      ∀ i < h, t.modulus.entries right i =
        t.modulus.entries a i + -f.value.toNat * t.modulus.entries a (h + i) := by
  have hlow : t.modulus.Reduced h (a.extract 0 h) := by
    simpa using ha.extract (l := 0) (Nat.le_add_left h h)
  have hex := ha.extract (l := h) le_rfl
  rw [Nat.add_sub_cancel] at hex
  have hhigh : t.modulus.Reduced h ((a.extract h (h + h)).map (t.modulus.times f)) :=
    Reduced.map hex.size_eq fun x _ => hf.times_lt x
  have hlow_entries : ∀ i < h, t.modulus.entries (a.extract 0 h) i = t.modulus.entries a i := by
    intro i hi
    rw [ha.entries_extract (by omega) (by omega), Nat.zero_add]
  have hhigh_entries : ∀ i < h,
      t.modulus.entries ((a.extract h (h + h)).map (t.modulus.times f)) i =
        f.value.toNat * t.modulus.entries a (h + i) := by
    intro i hi
    have hie : i < (a.extract h (h + h)).size := by rwa [hex.size_eq]
    rw [entries_map hie, hf.cast_times (hex.getElem_lt hie), ← entries_of_lt hie,
      ha.entries_extract le_rfl (by omega), mul_comm]
  obtain ⟨left, hleft, hleft_red, hleft_entries⟩ := exists_zipChecked exists_add hlow hhigh
  obtain ⟨right, hright, hright_red, hright_entries⟩ := exists_zipChecked exists_sub hlow hhigh
  refine ⟨left, right, hleft, hright, hleft_red, hright_red, fun i hi => ?_, fun i hi => ?_⟩
  · rw [hleft_entries i hi, hlow_entries i hi, hhigh_entries i hi]
  · rw [hright_entries i hi, hlow_entries i hi, hhigh_entries i hi]
    ring

private theorem evaluate_halves {q h : ℕ} {c : ℕ → ZMod q} {x w : ZMod q} (hx : x ^ h = w) :
    evaluate (h + h) c x = evaluate h (fun i => c i + w * c (h + i)) x := by
  rw [evaluate_add, hx, evaluate, evaluate, evaluate, mul_sum, ← sum_add_distrib]
  apply sum_congr rfl
  intro i _
  ring

/-- Splitting the residue at a node gives its values at the leaves below the node. -/
theorem Evaluates.exists_descend (ht : t.Evaluates) (depth : ℕ) :
    ∀ {node : ℕ} {a : Poly}, 0 < node → (node + 1) * 2 ^ depth ≤ 2 * t.size →
      t.modulus.Reduced (2 ^ depth) a →
      ∃ r, t.descend depth node a = .ok r ∧ t.modulus.Reduced (2 ^ depth) r ∧
        ∀ j < 2 ^ depth, t.modulus.entries r j =
          evaluate (2 ^ depth) (t.modulus.entries a) (t.point (node * 2 ^ depth + j)) := by
  induction depth with
  | zero =>
    intro node a _ _ ha
    refine ⟨a, rfl, ha, fun j hj => ?_⟩
    simp [evaluate, show j = 0 by simpa using hj]
  | succ d ih =>
    intro node a hpos hnode ha
    have hhalves : 2 ^ (d + 1) = 2 ^ d + 2 ^ d := by rw [pow_succ, mul_two]
    rw [hhalves] at ha
    have hleft_node := left_le hnode
    have hright_node := right_le hnode
    obtain ⟨low, high, hlow, hhigh, hlow_red, hhigh_red, hlow_entries, hhigh_entries⟩ :=
      exists_split (ht.powers_factor node) ha
    obtain ⟨left, hleft, hleft_red, hleft_entries⟩ := ih (by omega) hleft_node hlow_red
    obtain ⟨right, hright, hright_red, hright_entries⟩ := ih (Nat.succ_pos _) hright_node hhigh_red
    refine ⟨left ++ right, ?_, ?_, ?_⟩
    · simp only [descend, Nat.one_shiftLeft, ha.size_eq, hlow, hhigh, hleft, hright,
        Checked.ok_bind, Checked.pure_eq]
    · rw [hhalves]
      exact hleft_red.append hright_red
    · intro j hj
      by_cases hlt : j < 2 ^ d
      · have hpow := ht.point_pow d (by omega) hleft_node hlt
        rw [point_double] at hpow
        rw [hleft_red.entries_append_left hlt, hleft_entries j hlt, left_leaf, hhalves,
          evaluate_halves hpow, evaluate_congr hlow_entries]
        rfl
      · obtain ⟨k, rfl⟩ := Nat.exists_eq_add_of_le (not_lt.1 hlt)
        have hk : k < 2 ^ d := by omega
        have hpow := ht.point_pow d (Nat.succ_pos _) hright_node hk
        rw [point_double_succ] at hpow
        rw [hleft_red.entries_append_right hright_red hk, hright_entries k hk, right_leaf, hhalves,
          evaluate_halves hpow, evaluate_congr hhigh_entries]
        rfl

private theorem exists_join {h : ℕ} {f : Factor} (hf : t.modulus.IsFactor f) {a b : Poly}
    (ha : t.modulus.Reduced h a) (hb : t.modulus.Reduced h b) :
    ∃ low high, zipChecked t.modulus.add a b = .ok low ∧ zipChecked t.modulus.sub a b = .ok high ∧
      t.modulus.Reduced (h + h) (low ++ high.map (t.modulus.times f)) ∧
      (∀ i < h, t.modulus.entries (low ++ high.map (t.modulus.times f)) i =
        t.modulus.entries a i + t.modulus.entries b i) ∧
      ∀ i < h, t.modulus.entries (low ++ high.map (t.modulus.times f)) (h + i) =
        f.value.toNat * (t.modulus.entries a i - t.modulus.entries b i) := by
  obtain ⟨low, hlow, hlow_red, hlow_entries⟩ := exists_zipChecked exists_add ha hb
  obtain ⟨high, hhigh, hhigh_red, hhigh_entries⟩ := exists_zipChecked exists_sub ha hb
  have hmap : t.modulus.Reduced h (high.map (t.modulus.times f)) :=
    Reduced.map hhigh_red.size_eq fun x _ => hf.times_lt x
  refine ⟨low, high, hlow, hhigh, hlow_red.append hmap, fun i hi => ?_, fun i hi => ?_⟩
  · rw [hlow_red.entries_append_left hi, hlow_entries i hi]
  · have hih : i < high.size := by rwa [hhigh_red.size_eq]
    rw [hlow_red.entries_append_right hmap hi, entries_map hih,
      hf.cast_times (hhigh_red.getElem_lt hih), ← entries_of_lt hih, hhigh_entries i hi, mul_comm]

private theorem evaluate_join {q h : ℕ} {c l r : ℕ → ZMod q} {x w v : ZMod q}
    (hsum : ∀ i < h, c i = l i + r i) (hdiff : ∀ i < h, c (h + i) = v * (l i - r i))
    (hwv : w * v = 1) (hx : x ^ h = w) : evaluate (h + h) c x = 2 * evaluate h l x := by
  rw [evaluate_halves hx, ← evaluate_mul]
  apply evaluate_congr
  intro i hi
  rw [hsum i hi, hdiff i hi]
  linear_combination (l i - r i) * hwv

/-- Joining the residues below a node gives a polynomial. If the tables are valid, it has these values at the
leaves, up to a factor of two for each level. -/
theorem Runs.exists_ascend (ht : t.Runs) (depth : ℕ) :
    ∀ {node : ℕ} {a : Poly}, 0 < node → (node + 1) * 2 ^ depth ≤ 2 * t.size →
      t.modulus.Reduced (2 ^ depth) a →
      ∃ r, t.ascend depth node a = .ok r ∧ t.modulus.Reduced (2 ^ depth) r ∧
        (t.Valid → ∀ j < 2 ^ depth,
          evaluate (2 ^ depth) (t.modulus.entries r) (t.point (node * 2 ^ depth + j)) =
            2 ^ depth * t.modulus.entries a j) := by
  induction depth with
  | zero =>
    intro node a _ _ ha
    refine ⟨a, rfl, ha, fun _ j hj => ?_⟩
    simp [evaluate, show j = 0 by simpa using hj]
  | succ d ih =>
    intro node a hpos hnode ha
    have hhalves : 2 ^ (d + 1) = 2 ^ d + 2 ^ d := by rw [pow_succ, mul_two]
    rw [hhalves] at ha
    have hlow : t.modulus.Reduced (2 ^ d) (a.extract 0 (2 ^ d)) := by
      simpa using ha.extract (l := 0) (Nat.le_add_left (2 ^ d) (2 ^ d))
    have hhigh := ha.extract (l := 2 ^ d) le_rfl
    rw [Nat.add_sub_cancel] at hhigh
    have hleft_node := left_le hnode
    have hright_node := right_le hnode
    obtain ⟨left, hleft, hleft_red, hleft_values⟩ := ih (by omega) hleft_node hlow
    obtain ⟨right, hright, hright_red, hright_values⟩ := ih (Nat.succ_pos _) hright_node hhigh
    obtain ⟨sum, diff, hsum, hdiff, hred, hsum_entries, hdiff_entries⟩ :=
      exists_join (ht.inversePowers_factor node) hleft_red hright_red
    refine ⟨_, ?_, hhalves ▸ hred, ?_⟩
    · simp only [ascend, Nat.one_shiftLeft, ha.size_eq, hleft, hright, hsum, hdiff,
        Checked.ok_bind, Checked.pure_eq]
    · intro hvalid j hj
      have hroots := hvalid.root_mul_inverseRoot node hpos (node_lt_size hnode)
      by_cases hlt : j < 2 ^ d
      · have hpow := ht.point_pow d (by omega) hleft_node hlt
        rw [point_double] at hpow
        rw [left_leaf, hhalves, evaluate_join hsum_entries hdiff_entries hroots hpow,
          hleft_values hvalid j hlt, ha.entries_extract (by omega) (by omega), Nat.zero_add]
        ring
      · obtain ⟨k, rfl⟩ := Nat.exists_eq_add_of_le (not_lt.1 hlt)
        have hk : k < 2 ^ d := by omega
        have hpow := ht.point_pow d (Nat.succ_pos _) hright_node hk
        rw [point_double_succ] at hpow
        have hneg : -t.root node * -t.inverseRoot node = 1 := by rw [neg_mul_neg, hroots]
        have hsum_right : ∀ i < 2 ^ d, _ = t.modulus.entries right i + t.modulus.entries left i :=
          fun i hi => (hsum_entries i hi).trans (add_comm _ _)
        have hdiff_right : ∀ i < 2 ^ d, _ = -t.inverseRoot node *
            (t.modulus.entries right i - t.modulus.entries left i) :=
          fun i hi => (hdiff_entries i hi).trans (by rw [inverseRoot]; ring)
        rw [right_leaf, hhalves, evaluate_join hsum_right hdiff_right hneg hpow,
          hright_values hvalid k hk, ha.entries_extract le_rfl (by omega)]
        ring

variable (t) in
def leaf (j : ℕ) : ZMod t.modulus.value := t.point (t.size + j)

theorem Evaluates.leaf_pow (ht : t.Evaluates) {j : ℕ} (hj : j < t.size) : t.leaf j ^ t.size = -1 := by
  have hspan : (1 + 1) * 2 ^ t.logSize ≤ 2 * t.size := by rw [size_eq]
  have hpow := ht.point_pow t.logSize Nat.one_pos hspan (by rwa [← size_eq])
  rw [← size_eq, one_mul] at hpow
  rw [leaf, hpow]
  simp [point, ht.root_zero]

theorem Evaluates.exists_forward (ht : t.Evaluates) {a : Poly} (ha : t.modulus.Reduced t.size a) :
    ∃ r, t.forward a = .ok r ∧ t.modulus.Reduced t.size r ∧
      ∀ j < t.size, t.modulus.entries r j = evaluate t.size (t.modulus.entries a) (t.leaf j) := by
  have hsize := ha.size_eq
  simp only [size_eq] at ha
  obtain ⟨r, hr, hred, hvalues⟩ :=
    ht.exists_descend t.logSize Nat.one_pos (by rw [size_eq]) ha
  refine ⟨r, ?_, by rwa [size_eq], ?_⟩
  · simp [forward, hsize, hr]
  · simpa [leaf, size_eq] using hvalues

theorem Runs.exists_backward (ht : t.Runs) {a : Poly} (ha : t.modulus.Reduced t.size a) :
    ∃ r, t.backward a = .ok r ∧ t.modulus.Reduced t.size r ∧ (t.Valid →
      ∀ j < t.size, evaluate t.size (t.modulus.entries r) (t.leaf j) = t.modulus.entries a j) := by
  have hsize := ha.size_eq
  simp only [size_eq] at ha
  obtain ⟨r, hr, hred, hvalues⟩ :=
    ht.exists_ascend t.logSize Nat.one_pos (by rw [size_eq]) ha
  refine ⟨r.map (t.modulus.times t.sizeInverse), ?_, ?_, ?_⟩
  · simp [backward, hsize, hr]
  · rw [size_eq]
    exact Reduced.map hred.size_eq fun x _ => ht.sizeInverse_factor.times_lt x
  · intro hvalid j hj
    have hinverse := hvalid.size_mul_sizeInverse
    have hscale : ∀ i < t.size, t.modulus.entries (r.map (t.modulus.times t.sizeInverse)) i =
        t.sizeInverse.value.toNat * t.modulus.entries r i := by
      intro i hi
      have hir : i < r.size := by rwa [hred.size_eq, ← size_eq]
      rw [entries_map hir, ht.sizeInverse_factor.cast_times (hred.getElem_lt hir),
        ← entries_of_lt hir, mul_comm]
    have hvalue := hvalues hvalid j (by rwa [← size_eq])
    rw [one_mul, ← size_eq] at hvalue
    rw [evaluate_congr hscale, evaluate_mul, leaf, hvalue, ← mul_assoc]
    rw [size_eq] at hinverse
    push_cast at hinverse
    rw [mul_comm _ (2 ^ t.logSize : ZMod t.modulus.value), hinverse, one_mul]

end Transform

end LatticeGates
