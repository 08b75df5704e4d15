import LatticeGates.Modulus.Power
import LatticeGates.Modulus.Vector
import LatticeGates.Proofs.Checked
import LatticeGates.Stream.Uniform

/-!
# Vectors of residues

The checked operations on residues, read modulo `q`: on reduced operands none of them faults, and each
is the operation of `ZMod q`. Vectors are read as sequences that vanish beyond their end.
-/

namespace LatticeGates.Modulus

variable {q : Modulus} {n : ℕ}

instance (q : Modulus) : NeZero q.value := ⟨q.pos.ne'⟩

theorem check_eq_ok {n : ℕ} {q : Modulus} : check n = .ok q ↔ q.value = n := by
  constructor
  · intro h
    unfold check at h
    split at h
    · cases h
      rfl
    · cases h
  · rintro rfl
    exact check_value q

theorem value_injective : Function.Injective value := by
  intro p q h
  cases p
  cases q
  simpa using h

theorem exists_add {a b : ℕ} (ha : a < q.value) (hb : b < q.value) :
    ∃ r, q.add a b = .ok r ∧ r < q.value ∧ (r : ZMod q.value) = a + b :=
  ⟨_, add_of_lt ha hb, Nat.mod_lt _ q.pos, by simp⟩

theorem exists_sub {a b : ℕ} (ha : a < q.value) (hb : b < q.value) :
    ∃ r, q.sub a b = .ok r ∧ r < q.value ∧ (r : ZMod q.value) = a - b :=
  ⟨_, sub_of_lt ha hb, Nat.mod_lt _ q.pos, by simp [Nat.cast_sub hb.le, sub_eq_add_neg]⟩

theorem exists_neg {a : ℕ} (ha : a < q.value) :
    ∃ r, q.neg a = .ok r ∧ r < q.value ∧ (r : ZMod q.value) = -a :=
  ⟨_, neg_of_lt ha, Nat.mod_lt _ q.pos, by simp [Nat.cast_sub ha.le]⟩

@[simp] theorem cast_mul (a b : ℕ) : (q.mul a b : ZMod q.value) = a * b := by simp [mul]

@[simp] theorem cast_pow (a e : ℕ) : (q.pow a e : ZMod q.value) = a ^ e := by simp [pow_eq]

theorem pow_lt (a e : ℕ) : q.pow a e < q.value := by
  rw [pow_eq]
  exact Nat.mod_lt _ q.pos

@[simp] theorem cast_ofInt (x : ℤ) : (q.ofInt x : ZMod q.value) = x := by
  have hq : (q.value : ℤ) ≠ 0 := by exact_mod_cast q.pos.ne'
  have h : ((q.ofInt x : ℕ) : ℤ) = x % q.value := Int.toNat_of_nonneg (Int.emod_nonneg x hq)
  rw [← Int.cast_natCast, h, ZMod.intCast_mod]

theorem eq_of_cast_eq {a b : ℕ} (ha : a < q.value) (hb : b < q.value)
    (h : (a : ZMod q.value) = b) : a = b := by
  rw [ZMod.natCast_eq_natCast_iff', Nat.mod_eq_of_lt ha, Nat.mod_eq_of_lt hb] at h
  exact h

/-- The centred representative of a residue. -/
def centered (q : Modulus) (a : ℕ) : ℤ := if q.value / 2 < a then a - q.value else a

theorem center_of_lt {a : ℕ} (ha : a < q.value) : q.center a = .ok (q.centered a) := by
  have hbound := q.lt_bound
  unfold center centered
  split
  · have hword : Signed.ofWord a = a := if_pos (by omega)
    rw [hword, Signed.check_of_range (by omega) (by omega)]
  · rfl

theorem natAbs_centered_le {a : ℕ} (ha : a < q.value) : (q.centered a).natAbs ≤ q.value / 2 := by
  unfold centered
  split <;> omega

@[simp] theorem cast_centered (a : ℕ) : (q.centered a : ZMod q.value) = a := by
  unfold centered
  split <;> simp

private theorem powers_fold (w c : ℕ) (n : ℕ) :
    n.fold (fun _ _ (acc : Array ℕ × ℕ) => (acc.1.push acc.2, q.mul acc.2 w))
        (Array.emptyWithCapacity c, 1) =
      ((Array.range n).map (w ^ · % q.value), w ^ n % q.value) := by
  induction n with
  | zero => simp [Nat.mod_eq_of_lt q.one_lt]
  | succ n ih =>
    rw [Nat.fold_succ, ih, Array.range_succ]
    simp [mul, pow_succ]

theorem powers_eq (w n : ℕ) : q.powers w n = (Array.range n).map (w ^ · % q.value) := by
  rw [powers, powers_fold]

theorem powers_getD {w n i : ℕ} (hi : i < n) : (q.powers w n).getD i 0 = w ^ i % q.value := by
  simp [powers_eq, Array.getD_eq_getD_getElem?, hi]

structure Reduced (q : Modulus) (n : ℕ) (a : Array ℕ) : Prop where
  size_eq : a.size = n
  lt : ∀ x ∈ a, x < q.value

theorem reduced_of_residues {a : Array ℕ} {s t : Stream} (h : Stream.residues q n s = .ok (a, t)) :
    q.Reduced n a :=
  ⟨(Stream.residues_entries h).1, (Stream.residues_entries h).2⟩

theorem reduced_of_replicate {k : ℕ} {rows : Array (Array ℕ)} {s t : Stream}
    (h : Stream.replicate k (Stream.residues q n) s = .ok (rows, t)) :
    rows.size = k ∧ ∀ row ∈ rows, q.Reduced n row :=
  Stream.replicate_entries (fun _ _ _ => reduced_of_residues) h

def entries (q : Modulus) (a : Array ℕ) (i : ℕ) : ZMod q.value := (a.getD i 0 : ℕ)

theorem Reduced.getElem_lt {a : Array ℕ} (ha : q.Reduced n a) {i : ℕ} (hi : i < a.size) :
    a[i] < q.value :=
  ha.lt _ (Array.getElem_mem hi)

theorem Reduced.getD_lt {a : Array ℕ} (ha : q.Reduced n a) (i : ℕ) : a.getD i 0 < q.value := by
  by_cases hi : i < a.size
  · rw [← Array.getElem_eq_getD (h := hi)]
    exact ha.getElem_lt hi
  · rw [Array.getD_eq_getD_getElem?, Array.getElem?_eq_none (by omega)]
    exact q.pos

theorem Reduced.of_getElem {a : Array ℕ} (hsize : a.size = n)
    (h : ∀ (i : ℕ) (hi : i < a.size), a[i] < q.value) : q.Reduced n a := by
  refine ⟨hsize, fun x hx => ?_⟩
  obtain ⟨i, hi, rfl⟩ := Array.mem_iff_getElem.1 hx
  exact h i hi

theorem entries_of_lt {a : Array ℕ} {i : ℕ} (hi : i < a.size) : q.entries a i = (a[i] : ℕ) := by
  rw [entries, ← Array.getElem_eq_getD (h := hi)]

theorem entries_of_le {a : Array ℕ} {i : ℕ} (hi : a.size ≤ i) : q.entries a i = 0 := by
  rw [entries, Array.getD_eq_getD_getElem?, Array.getElem?_eq_none hi]
  simp

theorem Reduced.ext {a b : Array ℕ} (ha : q.Reduced n a) (hb : q.Reduced n b)
    (h : ∀ i < n, q.entries a i = q.entries b i) : a = b := by
  apply Array.ext
  · rw [ha.size_eq, hb.size_eq]
  · intro i hia hib
    have he := h i (ha.size_eq ▸ hia)
    rw [entries_of_lt hia, entries_of_lt hib] at he
    exact eq_of_cast_eq (ha.getElem_lt hia) (hb.getElem_lt hib) he

theorem reduced_ofFn {f : Fin n → ℕ} (h : ∀ i, f i < q.value) : q.Reduced n (Array.ofFn f) :=
  .of_getElem Array.size_ofFn fun i hi => by simpa using h _

theorem entries_ofFn {f : Fin n → ℕ} {i : ℕ} (hi : i < n) :
    q.entries (Array.ofFn f) i = (f ⟨i, hi⟩ : ℕ) := by
  rw [entries_of_lt (by simpa using hi), Array.getElem_ofFn]

theorem getD_replicate {α : Type} (n : ℕ) (a : α) (i : ℕ) :
    (Array.replicate n a).getD i a = a := by
  rw [Array.getD_eq_getD_getElem?, Array.getElem?_replicate]
  split <;> rfl

theorem reduced_replicate : q.Reduced n (Array.replicate n 0) :=
  .of_getElem Array.size_replicate fun i hi => by simpa using q.pos

@[simp] theorem entries_replicate (i : ℕ) : q.entries (Array.replicate n 0) i = 0 := by
  rw [entries, getD_replicate, Nat.cast_zero]

section Entrywise

variable {a b : Array ℕ}

theorem exists_tabulate_residues {m : ℕ} {f : (i : ℕ) → i < m → Checked ℕ} {v : ℕ → ZMod q.value}
    (hm : m = n) (hf : ∀ i hi, ∃ r, f i hi = .ok r ∧ r < q.value ∧ (r : ZMod q.value) = v i) :
    ∃ r, tabulate m f = .ok r ∧ q.Reduced n r ∧ ∀ i < n, q.entries r i = v i := by
  obtain ⟨r, hr, hsize, h⟩ := exists_tabulate hf
  rw [hm] at hsize
  refine ⟨r, hr, .of_getElem hsize fun i hi => (h i hi).1, fun i hi => ?_⟩
  rw [entries_of_lt (hsize ▸ hi)]
  exact (h i (hsize ▸ hi)).2

theorem exists_zipChecked {f : ℕ → ℕ → Checked ℕ} {g : ZMod q.value → ZMod q.value → ZMod q.value}
    (hf : ∀ {x y : ℕ}, x < q.value → y < q.value →
      ∃ r, f x y = .ok r ∧ r < q.value ∧ (r : ZMod q.value) = g x y)
    (ha : q.Reduced n a) (hb : q.Reduced n b) :
    ∃ r, zipChecked f a b = .ok r ∧ q.Reduced n r ∧
      ∀ i < n, q.entries r i = g (q.entries a i) (q.entries b i) := by
  have hsize : min a.size b.size = n := by rw [ha.size_eq, hb.size_eq, min_self]
  refine exists_tabulate_residues hsize fun i hi => ?_
  rw [entries_of_lt (by omega), entries_of_lt (by omega)]
  exact hf (ha.getElem_lt _) (hb.getElem_lt _)

theorem exists_zipInto {f : ℕ → ℕ → Checked ℕ} {g : ZMod q.value → ZMod q.value → ZMod q.value}
    (hf : ∀ {x y : ℕ}, x < q.value → y < q.value →
      ∃ r, f x y = .ok r ∧ r < q.value ∧ (r : ZMod q.value) = g x y)
    (ha : q.Reduced n a) (hb : q.Reduced n b) :
    ∃ r, zipInto f a b = .ok r ∧ q.Reduced n r ∧
      ∀ i < n, q.entries r i = g (q.entries a i) (q.entries b i) := by
  refine exists_tabulate_residues ha.size_eq fun i hi => ?_
  have hib : i < b.size := by
    rw [hb.size_eq, ← ha.size_eq]
    exact hi
  rw [dif_pos hib, entries_of_lt hi, entries_of_lt hib]
  exact hf (ha.getElem_lt _) (hb.getElem_lt _)

theorem exists_mapChecked {f : ℕ → Checked ℕ} {g : ZMod q.value → ZMod q.value}
    (hf : ∀ {x : ℕ}, x < q.value → ∃ r, f x = .ok r ∧ r < q.value ∧ (r : ZMod q.value) = g x)
    (ha : q.Reduced n a) :
    ∃ r, mapChecked f a = .ok r ∧ q.Reduced n r ∧ ∀ i < n, q.entries r i = g (q.entries a i) := by
  refine exists_tabulate_residues ha.size_eq fun i hi => ?_
  rw [entries_of_lt hi]
  exact hf (ha.getElem_lt hi)

theorem Reduced.map {β : Type} {b : Array β} {f : β → ℕ} (hsize : b.size = n)
    (hf : ∀ x ∈ b, f x < q.value) : q.Reduced n (b.map f) := by
  refine ⟨by simpa using hsize, fun x hx => ?_⟩
  obtain ⟨y, hy, rfl⟩ := Array.mem_map.1 hx
  exact hf y hy

theorem entries_map {β : Type} {b : Array β} {f : β → ℕ} {i : ℕ} (hi : i < b.size) :
    q.entries (b.map f) i = (f b[i] : ℕ) := by
  rw [entries_of_lt (by simpa using hi), Array.getElem_map]

theorem Reduced.extract (ha : q.Reduced n a) {l u : ℕ} (hu : u ≤ n) :
    q.Reduced (u - l) (a.extract l u) := by
  refine .of_getElem ?_ fun i hi => ?_
  · rw [Array.size_extract, ha.size_eq, min_eq_left hu]
  · rw [Array.getElem_extract]
    exact ha.getElem_lt _

theorem Reduced.entries_extract (ha : q.Reduced n a) {l u i : ℕ} (hu : u ≤ n) (hi : l + i < u) :
    q.entries (a.extract l u) i = q.entries a (l + i) := by
  have hsize := (ha.extract (l := l) hu).size_eq
  rw [entries_of_lt (by omega), Array.getElem_extract, entries_of_lt]

theorem Reduced.append {m : ℕ} (ha : q.Reduced n a) (hb : q.Reduced m b) :
    q.Reduced (n + m) (a ++ b) := by
  refine ⟨by rw [Array.size_append, ha.size_eq, hb.size_eq], fun x hx => ?_⟩
  rcases Array.mem_append.1 hx with hx | hx
  · exact ha.lt x hx
  · exact hb.lt x hx

theorem Reduced.entries_append_left (ha : q.Reduced n a) {i : ℕ} (hi : i < n) :
    q.entries (a ++ b) i = q.entries a i := by
  have hia : i < a.size := ha.size_eq ▸ hi
  rw [entries_of_lt (by rw [Array.size_append]; omega), entries_of_lt hia,
    Array.getElem_append_left hia]

theorem Reduced.entries_append_right {m : ℕ} (ha : q.Reduced n a) (hb : q.Reduced m b) {i : ℕ}
    (hi : i < m) : q.entries (a ++ b) (n + i) = q.entries b i := by
  have hsize := ha.size_eq
  have hib : i < b.size := hb.size_eq ▸ hi
  rw [entries_of_lt (by rw [Array.size_append]; omega), entries_of_lt hib,
    Array.getElem_append_right (by omega)]
  simp only [hsize, Nat.add_sub_cancel_left]

theorem exists_addVector (ha : q.Reduced n a) (hb : q.Reduced n b) :
    ∃ r, q.addVector a b = .ok r ∧ q.Reduced n r ∧
      ∀ i < n, q.entries r i = q.entries a i + q.entries b i :=
  exists_zipInto exists_add ha hb

theorem exists_subVector (ha : q.Reduced n a) (hb : q.Reduced n b) :
    ∃ r, q.subVector a b = .ok r ∧ q.Reduced n r ∧
      ∀ i < n, q.entries r i = q.entries a i - q.entries b i :=
  exists_zipInto exists_sub ha hb

theorem exists_addSigned {e : Array ℤ} (ha : q.Reduced n a) (he : e.size = n) :
    ∃ r, q.addSigned a e = .ok r ∧ q.Reduced n r ∧
      ∀ i < n, q.entries r i = q.entries a i + (e.getD i 0 : ℤ) := by
  refine exists_tabulate_residues ha.size_eq fun i hi => ?_
  have hie : i < e.size := by
    rw [he, ← ha.size_eq]
    exact hi
  obtain ⟨r, hr, hlt, hcast⟩ := exists_add (ha.getElem_lt hi) (ofInt_lt (q := q) e[i])
  refine ⟨r, ?_, hlt, ?_⟩
  · rw [dif_pos hie]
    exact hr
  · rw [hcast, cast_ofInt, entries_of_lt hi, ← Array.getElem_eq_getD (h := hie) 0]

theorem exists_negVector (ha : q.Reduced n a) :
    ∃ r, q.negVector a = .ok r ∧ q.Reduced n r ∧ ∀ i < n, q.entries r i = -q.entries a i :=
  exists_mapChecked exists_neg ha

end Entrywise

end LatticeGates.Modulus
