import LatticeGates.Proofs.Lwe.KeySwitch
import LatticeGates.Proofs.Lwe.PublicKey

/-!
# Shares of a switching key

Main statement: adding the share of a pair of secrets to a switching key adds to every entry the inner product
of its mask with the target secret, the multiple of a coordinate of the source secret that stands there, and an
error. The masks stay.
-/

namespace LatticeGates.Lwe

open Finset

theorem exists_shareEntry {q : Modulus} {entry : Sample} {s : Secret} {message : ℤ}
    (hsize : entry.mask.size = s.dimension) (hbody : entry.body < q.value) (hrange : s.InRange entry.mask)
    (hmessage : -2 ^ 127 ≤ message ∧ message < 2 ^ 127) (error : ℤ) :
    ∃ body, SwitchingKey.shareEntry entry s q message error = .ok ⟨body, entry.mask⟩ ∧ body < q.value ∧
      (body : ZMod q.value) = entry.body +
        (∑ i ∈ range s.dimension, q.entries entry.mask i * s.coefficient i + message + error) := by
  obtain ⟨first, hfirst, hfirstLt, hfirstCast⟩ := Modulus.exists_add hbody
    (Modulus.ofInt_lt (q := q) (∑ i ∈ range s.dimension, entry.mask.getD i 0 * s.coefficient i))
  obtain ⟨second, hsecond, hsecondLt, hsecondCast⟩ := Modulus.exists_add hfirstLt
    (Modulus.ofInt_lt (q := q) message)
  obtain ⟨third, hthird, hthirdLt, hthirdCast⟩ := Modulus.exists_add hsecondLt
    (Modulus.ofInt_lt (q := q) error)
  refine ⟨third, ?_, hthirdLt, ?_⟩
  · have hwide : Signed.checkWide message = .ok message :=
      Signed.checkWide_of_range (by simpa using hmessage.1) (by simpa using hmessage.2)
    simp only [SwitchingKey.shareEntry, hwide, hrange.dot_eq hsize, Checked.ok_bind, hfirst, hsecond, hthird]
    rfl
  · rw [hthirdCast, hsecondCast, hfirstCast]
    simp only [Modulus.cast_ofInt, Modulus.entries]
    push_cast
    ring

namespace SwitchingKey

variable {q : Modulus} {n m base : ℕ} {masks : Array (Array ℕ)} {key key' : SwitchingKey}
  {b : ℕ → ZMod q.value} {z s : Secret}

def count (q : Modulus) (n base : ℕ) : ℕ := n * digitsFrom base q.value 1 * (base - 1)

def ofEntries (q : Modulus) (n m base : ℕ) (entries : Array Sample) : SwitchingKey :=
  ⟨base, digitsFrom base q.value 1, n, m, q.value, entries⟩

theorem exists_zero (hbase : 2 ≤ base) (hwidth : m + 1 < Word.bound)
    (hcapacity : 8 * (count q n base * (m + 1)) < 0x8000000000000000) :
    zero n m base q.value = .ok (ofEntries q n m base
      (Array.ofFn fun _ : Fin (count q n base) => ⟨0, Array.replicate m 0⟩)) := by
  have hdigits : digitCount base q.value = .ok (digitsFrom base q.value 1) := if_neg (by omega)
  have hcount : count q n base ≤ count q n base * (m + 1) := Nat.le_mul_of_pos_right _ (Nat.succ_pos m)
  have hplaces : n * digitsFrom base q.value 1 ≤ count q n base :=
    Nat.le_mul_of_pos_right _ (by omega)
  unfold Word.bound at hwidth
  have hbound : Word.bound = 0x10000000000000000 := rfl
  unfold zero
  rw [hdigits, Checked.ok_bind, Word.mul_of_lt (by omega), Checked.ok_bind, Word.sub_of_le (by omega),
    Checked.ok_bind]
  change Word.mul _ _ >>= _ = _
  rw [Word.mul_of_lt (show _ * _ < _ by change count q n base < _; omega), Checked.ok_bind,
    Word.add_of_lt (by omega), Checked.ok_bind]
  change Word.mul (count q n base) _ >>= _ = _
  rw [Word.mul_of_lt (by omega), Checked.ok_bind, Word.checkLength_of_lt (by omega)]
  rfl

structure Masks (q : Modulus) (n m base : ℕ) (masks : Array (Array ℕ)) : Prop where
  size_eq : masks.size = count q n base
  reduced : ∀ mask ∈ masks, q.Reduced m mask

/-- A key with given masks, whose bodies are known modulo `q`. -/
structure Sums (q : Modulus) (n m base : ℕ) (masks : Array (Array ℕ)) (key : SwitchingKey)
    (b : ℕ → ZMod q.value) : Prop where
  shape : ∃ entries, key = ofEntries q n m base entries
  masks_eq : key.entries.map (·.mask) = masks
  body : ∀ (k : ℕ) (hk : k < key.entries.size),
    key.entries[k].body < q.value ∧ (key.entries[k].body : ZMod q.value) = b k

theorem Sums.size_eq (h : Sums q n m base masks key b) : key.entries.size = masks.size := by
  rw [← h.masks_eq, Array.size_map]

theorem Sums.mask_eq (h : Sums q n m base masks key b) {k : ℕ} (hk : k < key.entries.size) :
    key.entries[k].mask = masks.getD k #[] := by
  rw [← h.masks_eq, Array.getD_eq_getD_getElem?, Array.getElem?_map, Array.getElem?_eq_getElem hk]
  rfl

theorem Sums.mask_mem (h : Sums q n m base masks key b) {k : ℕ} (hk : k < key.entries.size) :
    key.entries[k].mask ∈ masks := by
  rw [← h.masks_eq]
  exact Array.mem_map.2 ⟨_, Array.getElem_mem hk, rfl⟩

theorem Sums.ext (h : Sums q n m base masks key b) (h' : Sums q n m base masks key' b) :
    key = key' := by
  have hentries : key.entries = key'.entries := by
    apply Array.ext
    · exact h.size_eq.trans h'.size_eq.symm
    · intro k hk hk'
      have hmask := (h.mask_eq hk).trans (h'.mask_eq hk').symm
      have hbody := Modulus.eq_of_cast_eq (h.body k hk).1 (h'.body k hk').1
        ((h.body k hk).2.trans (h'.body k hk').2.symm)
      generalize key.entries[k] = x at hmask hbody ⊢
      generalize key'.entries[k] = y at hmask hbody ⊢
      cases x
      cases y
      exact congrArg₂ Sample.mk hbody hmask
  obtain ⟨entries, rfl⟩ := h.shape
  obtain ⟨entries', rfl⟩ := h'.shape
  exact congrArg (ofEntries q n m base) hentries

/-- The multiple of a coordinate of a secret that stands at place `k`. -/
def message (q : Modulus) (base : ℕ) (z : ℕ → ℤ) (k : ℕ) : ℤ :=
  (k % (base - 1) + 1 : ℕ) * z (k / (base - 1) / digitsFrom base q.value 1) *
    (base ^ (k / (base - 1) % digitsFrom base q.value 1) % q.value : ℕ)

def share (q : Modulus) (n m base : ℕ) (masks : Array (Array ℕ)) (z s : Secret)
    (e : Noise (count q n base)) (k : ℕ) : ZMod q.value :=
  ∑ i ∈ range m, q.entries (masks.getD k #[]) i * s.coefficient i + message q base z.coefficient k + e.at k

/-- The multiples of a secret that entries hold can be computed. -/
def MessagesInRange (q : Modulus) (n base : ℕ) (z : Secret) : Prop :=
  ∀ i < n, ∀ j < digitsFrom base q.value 1, ∀ v : ℕ, 0 < v → v < base →
    -2 ^ 127 ≤ v * z.coefficient i * (base ^ j % q.value : ℕ) ∧
      v * z.coefficient i * (base ^ j % q.value : ℕ) < 2 ^ 127

theorem messagesInRange_of_ternary (hz : z.Ternary) (hbase : base ≤ 2 ^ 64) :
    MessagesInRange q n base z := by
  intro i _ j _ v _ hv
  have hbound : (v * z.coefficient i * (base ^ j % q.value : ℕ)).natAbs ≤ 2 ^ 64 * 1 * 2 ^ 62 := by
    rw [Int.natAbs_mul, Int.natAbs_mul, Int.natAbs_natCast, Int.natAbs_natCast]
    exact Nat.mul_le_mul (Nat.mul_le_mul (hv.le.trans hbase) (hz.natAbs_le i))
      ((Nat.mod_lt _ q.pos).trans q.lt_bound).le
  omega

private theorem place_lt {k : ℕ} (hbase : 2 ≤ base) (hk : k < count q n base) :
    k / (base - 1) / digitsFrom base q.value 1 < n ∧
      k / (base - 1) % digitsFrom base q.value 1 < digitsFrom base q.value 1 := by
  have hplace : k / (base - 1) < n * digitsFrom base q.value 1 :=
    (Nat.div_lt_iff_lt_mul (by omega)).2 hk
  have hpos : 0 < digitsFrom base q.value 1 :=
    Nat.pos_of_ne_zero fun h0 => by simp [h0] at hplace
  exact ⟨(Nat.div_lt_iff_lt_mul hpos).2 hplace, Nat.mod_lt _ hpos⟩

private theorem messageAt_eq (entries : Array Sample) (z : Secret) {k : ℕ} (hbase : 2 ≤ base)
    (hk : k < count q n base) :
    (ofEntries q n m base entries).messageAt z
      (q.powers (base % q.value) (digitsFrom base q.value 1)) k = message q base z.coefficient k := by
  have hpower := Modulus.powers_getD (q := q) (w := base % q.value) (place_lt hbase hk).2
  rw [← Nat.pow_mod] at hpower
  rw [message, ← hpower]
  rfl

private theorem MessagesInRange.message (h : MessagesInRange q n base z) {k : ℕ} (hbase : 2 ≤ base)
    (hk : k < count q n base) :
    -2 ^ 127 ≤ message q base z.coefficient k ∧ message q base z.coefficient k < 2 ^ 127 := by
  have hdigit := Nat.mod_lt k (show 0 < base - 1 by omega)
  exact h _ (place_lt hbase hk).1 _ (place_lt hbase hk).2 _ (Nat.succ_pos _) (by omega)

theorem Sums.exists_accumulate (h : Sums q n m base masks key b) (hmasks : Masks q n m base masks)
    (hbase : 2 ≤ base) (hz : z.dimension = n) (hs : s.dimension = m)
    (hrange : ∀ mask ∈ masks, s.InRange mask) (hmessages : MessagesInRange q n base z)
    (e : Noise (count q n base)) :
    ∃ key', key.accumulate z s e.sigma e.source = .ok (key', e.rest) ∧
      Sums q n m base masks key' (b + share q n m base masks z s e) := by
  have hcount : key.entries.size = count q n base := h.size_eq.trans hmasks.size_eq
  obtain ⟨entries, rfl⟩ := h.shape
  have hentry : ∀ k (hk : k < entries.size), ∃ entry,
      shareEntry entries[k] s q ((ofEntries q n m base entries).messageAt z
        (q.powers (base % q.value) (digitsFrom base q.value 1)) k) (e.at k) = .ok entry ∧
      entry.mask = masks.getD k #[] ∧ entry.body < q.value ∧
        (entry.body : ZMod q.value) = b k + share q n m base masks z s e k := by
    intro k hk
    have hmask := h.mask_eq hk
    have hmem := h.mask_mem hk
    have hk' : k < count q n base := hcount ▸ hk
    obtain ⟨body, hbody, hlt, hcast⟩ := exists_shareEntry ((hmasks.reduced _ hmem).size_eq.trans hs.symm)
      (h.body k hk).1 (hrange _ hmem) (hmessages.message hbase hk') (e.at k)
    rw [messageAt_eq entries z hbase hk']
    refine ⟨_, hbody, hmask, hlt, ?_⟩
    rw [hcast, (h.body k hk).2, share, ← hmask, hs]
  obtain ⟨next, hnext, hnextSize, hnextEntry⟩ := exists_tabulate hentry
  refine ⟨ofEntries q n m base next, ?_, ⟨next, rfl⟩, ?_, fun k hk => (hnextEntry k hk).2⟩
  · have haddShare : addShare (ofEntries q n m base entries) q z s e.errors =
        .ok (ofEntries q n m base next) := Checked.bind_eq_ok.2 ⟨next, hnext, rfl⟩
    have hdims : (z.dimension == n && s.dimension == m) = true := by
      rw [hz, hs, beq_self_eq_true, beq_self_eq_true, Bool.and_self]
    change (do ensure (z.dimension == n && s.dimension == m) .shapeMismatch
               let r ← Modulus.check q.value
               let drawn ← Stream.gaussians e.sigma entries.size e.source
               return (← addShare (ofEntries q n m base entries) r z s drawn.1, drawn.2)) = _
    have hsize : entries.size = count q n base := hcount
    simp only [hdims, ensure_true, Modulus.check_value, hsize, e.drawn, Checked.ok_bind, haddShare]
    rfl
  · apply Array.ext
    · rw [Array.size_map, ← h.size_eq]
      exact hnextSize
    · intro k hk hk'
      rw [Array.getElem_map, Array.getElem_eq_getD #[]]
      exact (hnextEntry k _).1

/-- The draw of an entry that has no body yet. -/
def drawEntry (q : Modulus) (m : ℕ) : Draw Sample := fun s => do
  let (mask, s) ← Stream.residues q m s
  return (⟨0, mask⟩, s)

section Drawn

variable {masks rest : Stream} {samples : Array Sample}

theorem mask_of_drawEntry {s t : Stream} {entry : Sample} (h : drawEntry q m s = .ok (entry, t)) :
    entry.body = 0 ∧ q.Reduced m entry.mask := by
  obtain ⟨⟨mask, _⟩, hmask, h⟩ := Checked.bind_eq_ok.1 h
  cases h
  exact ⟨rfl, Modulus.reduced_of_residues hmask⟩

theorem masks_of_replicate
    (h : Stream.replicate (count q n base) (drawEntry q m) masks = .ok (samples, rest)) :
    Masks q n m base (samples.map (·.mask)) := by
  obtain ⟨hsize, hentries⟩ := Stream.replicate_entries (fun _ _ _ => mask_of_drawEntry) h
  refine ⟨by rw [Array.size_map, hsize], fun mask hmask => ?_⟩
  obtain ⟨entry, hentry, rfl⟩ := Array.mem_map.1 hmask
  exact (hentries entry hentry).2

theorem sums_of_replicate
    (h : Stream.replicate (count q n base) (drawEntry q m) masks = .ok (samples, rest)) :
    Sums q n m base (samples.map (·.mask)) (ofEntries q n m base samples) 0 := by
  obtain ⟨-, hentries⟩ := Stream.replicate_entries (fun _ _ _ => mask_of_drawEntry) h
  refine ⟨⟨samples, rfl⟩, rfl, fun k hk => ?_⟩
  have hbody := (hentries _ (Array.getElem_mem hk)).1
  rw [hbody]
  exact ⟨q.pos, Nat.cast_zero⟩

/-- Where there is room for a key, its entries are drawn and the share of its secrets is added to them. -/
theorem generate_eq (hbase : 2 ≤ base) (hwidth : m + 1 < Word.bound)
    (hcapacity : 8 * (count q n base * (m + 1)) < 0x8000000000000000) (hz : z.dimension = n)
    (hs : s.dimension = m) (sigma : Float) (masks errors : Stream) :
    generate z s base q.value sigma masks errors = do
      let drawn ← Stream.replicate (count q n base) (drawEntry q m) masks
      let made ← accumulate (ofEntries q n m base drawn.1) z s sigma errors
      return (made.1, drawn.2, made.2) := by
  have hzero : zero z.dimension s.dimension base q.value = .ok (ofEntries q n m base
      (Array.ofFn fun _ : Fin (count q n base) => ⟨0, Array.replicate m 0⟩)) := by
    rw [hz, hs]
    exact exists_zero hbase hwidth hcapacity
  rw [generate, hzero, Checked.ok_bind, Modulus.check_value, Checked.ok_bind]
  change (Stream.replicate (Array.ofFn fun _ : Fin (count q n base) =>
      (⟨0, Array.replicate m 0⟩ : Sample)).size (drawEntry q m) masks >>= fun drawn => do
    let made ← accumulate (ofEntries q n m base drawn.1) z s sigma errors
    return (made.1, drawn.2, made.2)) = _
  rw [Array.size_ofFn]

theorem exists_generate (hbase : 2 ≤ base) (hwidth : m + 1 < Word.bound)
    (hcapacity : 8 * (count q n base * (m + 1)) < 0x8000000000000000)
    (hdrawn : Stream.replicate (count q n base) (drawEntry q m) masks = .ok (samples, rest))
    (hz : z.dimension = n) (hs : s.dimension = m) (hrange : ∀ mask ∈ samples.map (·.mask), s.InRange mask)
    (hmessages : MessagesInRange q n base z) (e : Noise (count q n base)) :
    ∃ key, generate z s base q.value e.sigma masks e.source = .ok (key, rest, e.rest) ∧
      Sums q n m base (samples.map (·.mask)) key
        (share q n m base (samples.map (·.mask)) z s e) := by
  obtain ⟨key, hkey, hsums⟩ := (sums_of_replicate hdrawn).exists_accumulate (masks_of_replicate hdrawn)
    hbase hz hs hrange hmessages e
  rw [zero_add] at hsums
  refine ⟨key, ?_, hsums⟩
  rw [generate_eq hbase hwidth hcapacity hz hs, hdrawn, Checked.ok_bind, hkey]
  rfl

end Drawn

theorem message_position (entries : Array Sample) (z : ℕ → ℤ) {i j v : ℕ} (hj : j < digitsFrom base q.value 1)
    (hpos : 0 < v) (hv : v < base) :
    message q base z ((ofEntries q n m base entries).position i j v) =
      v * z i * (base ^ j % q.value : ℕ) := by
  have hposition : (ofEntries q n m base entries).position i j v =
      (v - 1) + (i * digitsFrom base q.value 1 + j) * (base - 1) := Nat.add_comm _ _
  have hdigit : ((v - 1) + (i * digitsFrom base q.value 1 + j) * (base - 1)) % (base - 1) + 1 = v := by
    rw [Nat.add_mul_mod_self_right, Nat.mod_eq_of_lt (by omega)]
    omega
  have hplace : ((v - 1) + (i * digitsFrom base q.value 1 + j) * (base - 1)) / (base - 1) =
      j + i * digitsFrom base q.value 1 := by
    rw [Nat.add_mul_div_right _ _ (by omega), Nat.div_eq_of_lt (by omega), Nat.zero_add, Nat.add_comm]
  rw [message, hposition, hdigit, hplace, Nat.add_mul_div_right _ _ (by omega), Nat.div_eq_of_lt hj,
    Nat.zero_add, Nat.add_mul_mod_self_right, Nat.mod_eq_of_lt hj]

end SwitchingKey

end LatticeGates.Lwe
