import LatticeGates.Proofs.Eval.Noise
import LatticeGates.Proofs.Eval.Table

/-!
# Functions on encrypted messages

A phase is moved by the offset into the interval of its message and read there, directly or after a fold.
Main statement: where the noise and the errors of the bootstraps stay below the offset, the result encrypts
the output of the function, whichever way the class of the table asks for.
-/

namespace LatticeGates.Context

/-- The bootstrap that tells the half circle of a phase, by a quarter of the circle. -/
def foldCall (m : ℕ) (shifted : Lwe.Ciphertext) : TableCall := ⟨shifted, m, fun _ => m - m / 4⟩

def tableCall (table : Array ℕ) (q : ℕ) (ct : Lwe.Ciphertext) : TableCall :=
  ⟨ct, q, fun x => table.getD x 0 % q⟩

/-- The ciphertext that is folded before the table is read. -/
inductive Folds (table : Array ℕ) (ct : Lwe.Ciphertext) : Lwe.Ciphertext → Prop
  | periodic : TableClass.ofTable table ct.modulus = .ok .periodic → Folds table ct ct
  | arbitrary {lifted} : TableClass.ofTable table ct.modulus = .ok .arbitrary →
      ct.lift (2 * ct.modulus) = .ok lifted → Folds table ct lifted

/-- The bootstraps that the evaluation of a table makes. -/
inductive FunctionCall (ctx : Context) (key : BootstrapKey) (table : Array ℕ) (ct : Lwe.Ciphertext) :
    TableCall → Prop
  | direct {shifted} : TableClass.ofTable table ct.modulus = .ok .negacyclic →
      ct.addConstant beta = .ok shifted → FunctionCall ctx key table ct (tableCall table ct.modulus shifted)
  | fold {x shifted} : Folds table ct x → x.addConstant beta = .ok shifted →
      FunctionCall ctx key table ct (foldCall x.modulus shifted)
  | folded {x folded} : Folds table ct x → ctx.foldPhase key x = .ok folded →
      FunctionCall ctx key table ct (tableCall table ct.modulus folded)

variable {ctx : Context} {key : BootstrapKey} {s : Lwe.Secret} {q : Modulus} {η : ℕ}
  {ct : Lwe.Ciphertext} {table : Array ℕ}

section Fold

theorem foldCall_run (m : ℕ) (shifted : Lwe.Ciphertext) : (foldCall m shifted).run ctx key =
    ctx.bootstrapTable key shifted 0 m fun _ =>
      Modulus.round (m - m / 4) m ctx.params.lwe.ringModulus := rfl

theorem foldPhase_eq {shifted side moved back : Lwe.Ciphertext} (hpos : 0 < ct.modulus)
    (hring : 0 < ctx.params.lwe.ringModulus) (hshifted : ct.addConstant beta = .ok shifted)
    (hside : (foldCall ct.modulus shifted).run ctx key = .ok side) (hmoved : ct.sub side = .ok moved)
    (hback : moved.addConstant beta = .ok back) :
    ctx.foldPhase key ct = back.subConstant (ct.modulus / 4) := by
  rw [foldCall_run, ← bootstrapChecked_move hpos hring (Nat.div_le_self _ 4)] at hside
  rw [foldPhase, hshifted, Checked.ok_bind, hside, Checked.ok_bind, hmoved, Checked.ok_bind, hback,
    Checked.ok_bind]

private theorem fold_modEq {w u : ℕ} {φ b e : ℤ} (h : φ + b ≡ u [ZMOD (4 * w : ℕ)]) :
    φ - ((if u < 4 * w / 2 then ((4 * w - 4 * w / 4 : ℕ) : ℤ) else -(4 * w - 4 * w / 4 : ℕ)) + e) + b -
        (4 * w / 4 : ℕ) ≡
      (if u < 4 * w / 2 then (u : ℤ) else u - (4 * w / 2 : ℕ)) - e [ZMOD (4 * w : ℕ)] := by
  obtain ⟨k, hk⟩ := h.dvd
  have hquarter : 4 * w / 4 = w := by omega
  have hhalf : 4 * w / 2 = 2 * w := by omega
  have hrest : 4 * w - w = 3 * w := by omega
  rw [hquarter, hhalf, hrest]
  split
  · refine Int.modEq_iff_dvd.2 ⟨k + 1, ?_⟩
    push_cast at hk ⊢
    linear_combination hk
  · refine Int.modEq_iff_dvd.2 ⟨k - 1, ?_⟩
    push_cast at hk ⊢
    linear_combination hk

/-- A phase in the upper half is moved down by half a turn, and every phase by the error of the fold. -/
theorem Operates.exists_foldPhase (h : ctx.Operates key s) {u : ℕ} (hct : ct.Shaped q s.dimension)
    (hdvd : q.value ∣ 2 * ctx.ring.degree) (hfour : 4 ∣ q.value) (hu : u < q.value)
    (hphase : ct.integerPhase s.coefficient + beta ≡ u [ZMOD q.value])
    (hread : ∀ shifted, ct.addConstant beta = .ok shifted →
      (foldCall ct.modulus shifted).ReadsWithin ctx key s η) :
    ∃ folded, ctx.foldPhase key ct = .ok folded ∧ folded.Shaped q s.dimension ∧ ∃ e : ℤ, |e| ≤ η ∧
      folded.integerPhase s.coefficient ≡
        (if u < q.value / 2 then (u : ℤ) else u - (q.value / 2 : ℕ)) - e [ZMOD q.value] := by
  obtain ⟨w, hw⟩ := hfour
  have hmodulus := hct.modulus_eq
  obtain ⟨shifted, hshifted, hshift_shaped, hshift_phase⟩ :=
    Lwe.Ciphertext.exists_addConstant hct beta s.coefficient
  have hresidue : shifted.residuePhase s.coefficient = u := by
    exact_mod_cast hshift_shaped.residue_eq (Int.natCast_nonneg u) (by exact_mod_cast hu)
      (hshift_phase.trans hphase)
  obtain ⟨side, hside, hside_shaped, e, he, hside_phase⟩ :=
    h.exists_read (t := q) (hread shifted hshifted) hshift_shaped hdvd hmodulus
  obtain ⟨moved, hmoved, hmoved_shaped, hmoved_phase⟩ :=
    Lwe.Ciphertext.exists_sub hct hside_shaped s.coefficient
  obtain ⟨back, hback, hback_shaped, hback_phase⟩ :=
    Lwe.Ciphertext.exists_addConstant hmoved_shaped beta s.coefficient
  obtain ⟨folded, hfolded, hfolded_shaped, hfolded_phase⟩ :=
    Lwe.Ciphertext.exists_subConstant hback_shaped (ct.modulus / 4) s.coefficient
  refine ⟨folded, ?_, hfolded_shaped, e, he, ?_⟩
  · rw [foldPhase_eq (hmodulus ▸ q.pos) h.ringModulus_pos hshifted hside hmoved hback, hfolded]
  · rw [foldCall, TableCall.ideal, hresidue, hshift_shaped.modulus_eq, hmodulus] at hside_phase
    rw [hmodulus] at hfolded_phase
    rw [hw] at hphase hside_phase hmoved_phase hback_phase hfolded_phase ⊢
    exact (hfolded_phase.trans ((hback_phase.trans
      ((hmoved_phase.trans (hside_phase.sub_left _)).add_right _)).sub_right _)).trans
        (fold_modEq hphase)

/-- Where twice the modulus divides the number of places, a ciphertext is read modulo twice the modulus. -/
theorem exists_lifted {n : ℕ} (hdegree : 2 * ctx.ring.degree < ctx.ring.modulus.value)
    (hct : ct.Shaped q n) (hlift : 2 * q.value ∣ 2 * ctx.ring.degree) :
    ∃ (t : Modulus) (lifted : Lwe.Ciphertext), t.value = 2 * q.value ∧
      ct.lift (2 * ct.modulus) = .ok lifted ∧ lifted.Shaped t n ∧
        ∀ s, lifted.integerPhase s = ct.integerPhase s := by
  have hlt : 2 * q.value < 0x4000000000000000 := by
    have := Nat.le_of_dvd (by have := NeZero.pos ctx.ring.degree; omega) hlift
    have := ctx.ring.modulus.lt_bound
    omega
  obtain ⟨t, ht⟩ : ∃ t : Modulus, t.value = 2 * q.value :=
    ⟨⟨2 * q.value, by have := q.one_lt; omega, hlt⟩, rfl⟩
  obtain ⟨lifted, hlifted, hlift_shaped, hlift_phase⟩ :=
    Lwe.Ciphertext.exists_lift hct (t := t) (by rw [ht]; exact dvd_mul_left _ _)
  exact ⟨t, lifted, ht, by rw [hct.modulus_eq, ← ht, hlifted], hlift_shaped, hlift_phase⟩

end Fold

section Read

theorem bootstrapChecked_table {m : ℕ} (hm : 0 < m) (hring : 0 < ctx.params.lwe.ringModulus)
    (hcovers : ct.modulus ≤ 2 * table.size) :
    ctx.bootstrapChecked key ct 0 m (ctx.tableEntry table m) = (tableCall table m ct).run ctx key :=
  bootstrapChecked_eq fun _ _ => tableEntry_eq (by omega) hm hring

private theorem ideal_of_lt {m x : ℕ} (hx : x < ct.modulus / 2) :
    (tableCall table m ct).ideal x ≡ table.getD x 0 [ZMOD m] := by
  rw [tableCall, TableCall.ideal, if_pos hx, Int.natCast_mod]
  exact Int.mod_modEq _ _

private theorem ideal_of_negacyclic (heven : 2 ∣ ct.modulus) (hneg : IsNegacyclic table ct.modulus)
    {x : ℕ} (hx : x < ct.modulus) :
    (tableCall table ct.modulus ct).ideal x ≡ table.getD x 0 [ZMOD ct.modulus] := by
  by_cases hlow : x < ct.modulus / 2
  · exact ideal_of_lt hlow
  · have hdvd := hneg (x - ct.modulus / 2) (by omega)
    rw [Nat.sub_add_cancel (by omega)] at hdvd
    rw [tableCall, TableCall.ideal, if_neg hlow, Int.natCast_mod]
    refine (Int.mod_modEq _ _).neg.trans (Int.modEq_iff_dvd.2 ?_)
    rw [sub_neg_eq_add, add_comm]
    exact_mod_cast hdvd

end Read

private theorem exists_place {width p m : ℕ} {d : ℤ} (hwidth : 2 * beta ≤ width) (hm : m < p)
    (hd : |d| < beta) :
    ∃ x : ℕ, (x : ℤ) = m * width + d + beta ∧ x < p * width ∧ x / width = m := by
  obtain ⟨hlow, hhigh⟩ := abs_lt.1 hd
  obtain ⟨r, hr⟩ := Int.eq_ofNat_of_zero_le (show 0 ≤ d + beta by omega)
  have hr_lt : r < width := by omega
  have hdiv : (m * width + r) / width = m := by
    rw [mul_comm, Nat.mul_add_div (by omega), Nat.div_eq_of_lt hr_lt, add_zero]
  refine ⟨m * width + r, by push_cast; omega, ?_, hdiv⟩
  calc m * width + r < (m + 1) * width := by rw [add_one_mul]; omega
    _ ≤ p * width := Nat.mul_le_mul_right _ hm

private theorem exists_phase_double {u n : ℕ} {z : ℤ} (hu : u < n) (h : z ≡ u [ZMOD n]) :
    ∃ v < 2 * n, z ≡ v [ZMOD (2 * n : ℕ)] ∧ (if v < n then (v : ℤ) else v - n) = u := by
  obtain ⟨k, hk⟩ := h.symm.dvd
  obtain ⟨j, rfl | rfl⟩ := Int.even_or_odd' k
  · refine ⟨u, by omega, Int.modEq_iff_dvd.2 ⟨-j, ?_⟩, if_pos hu⟩
    push_cast
    linear_combination -hk
  · refine ⟨u + n, by omega, Int.modEq_iff_dvd.2 ⟨-j, ?_⟩, ?_⟩
    · push_cast
      linear_combination -hk
    · rw [if_neg (by omega)]
      push_cast
      ring

section Branches

/-- The evaluation gives the entry of the table at a phase, up to the error of one bootstrap. -/
def ReadsEntry (ctx : Context) (s : Lwe.Secret) (q : Modulus) (η : ℕ) (table : Array ℕ)
    (ct : Lwe.Ciphertext) (x : ℕ) : Prop :=
  ∃ out, ctx.evalFunction ct table = pure out ∧ out.Shaped q s.dimension ∧ ∃ e : ℤ, |e| ≤ η ∧
    out.integerPhase s.coefficient ≡ table.getD x 0 + e [ZMOD q.value]

variable {p m width : ℕ} {e : ℤ} (h : ctx.Operates key s) (hkey : ctx.keys.active = pure key)
  (hsmall : ctx.checkSmall ct = pure ()) (hct : ct.Shaped q s.dimension)
  (hdvd : q.value ∣ 2 * ctx.ring.degree) (hfour : 4 ∣ q.value) (hsize : table.size = q.value)
  (hreads : ∀ call, FunctionCall ctx key table ct call → call.ReadsWithin ctx key s η)
  (hq : q.value = p * width) (hwidth : 2 * beta ≤ width) (hm : m < p) (he : |e| + η < beta)
  (hphase : ct.integerPhase s.coefficient ≡ m * width + e [ZMOD q.value])

include h in
private theorem exists_readTable {input : Lwe.Ciphertext} {t : Modulus} {r x : ℕ}
    (hread : (tableCall table q.value input).ReadsWithin ctx key s η)
    (hinput : input.Shaped t s.dimension) (hdvd : t.value ∣ 2 * ctx.ring.degree) (hr : r < t.value)
    (hphase : input.integerPhase s.coefficient ≡ r [ZMOD t.value])
    (hideal : (tableCall table q.value input).ideal r ≡ table.getD x 0 [ZMOD q.value])
    (hsize : table.size = q.value) (hhalf : t.value ≤ 2 * q.value) :
    ∃ out, ctx.bootstrapChecked key input 0 q.value (ctx.tableEntry table q.value) = .ok out ∧
      out.Shaped q s.dimension ∧ ∃ e : ℤ, |e| ≤ η ∧
        out.integerPhase s.coefficient ≡ table.getD x 0 + e [ZMOD q.value] := by
  obtain ⟨out, hout, hshaped, e, he, hout_phase⟩ := h.exists_read (t := q) hread hinput hdvd rfl
  rw [← bootstrapChecked_table q.pos h.ringModulus_pos (by rw [hinput.modulus_eq, hsize]; exact hhalf)]
    at hout
  have hresidue : (tableCall table q.value input).input.residuePhase s.coefficient = r := by
    exact_mod_cast hinput.residue_eq (Int.natCast_nonneg r) (by exact_mod_cast hr) hphase
  rw [hresidue] at hout_phase
  exact ⟨out, hout, hshaped, e, he, hout_phase.trans (hideal.add_right _)⟩

include h hkey hsmall hct hdvd hfour hsize hreads hq hwidth hm he hphase

private theorem exists_readsEntry_of_negacyclic (hneg : IsNegacyclic table q.value)
    (hclass : TableClass.ofTable table q.value = .ok .negacyclic) :
    ∃ x < q.value, x / width = m ∧ ReadsEntry ctx s q η table ct x := by
  have hmodulus := hct.modulus_eq
  obtain ⟨x, hx, hxq, hxm⟩ := exists_place (d := e) hwidth hm (by omega)
  rw [← hq] at hxq
  obtain ⟨shifted, hshifted, hshift_shaped, hshift_phase⟩ :=
    Lwe.Ciphertext.exists_addConstant hct beta s.coefficient
  have hread := hreads _ (.direct (hmodulus ▸ hclass) hshifted)
  have heven : 2 ∣ shifted.modulus := hshift_shaped.modulus_eq ▸ (by decide : 2 ∣ 4).trans hfour
  have hideal := ideal_of_negacyclic heven (hshift_shaped.modulus_eq ▸ hneg)
    (hshift_shaped.modulus_eq ▸ hxq)
  rw [hmodulus] at hread
  rw [hshift_shaped.modulus_eq] at hideal
  have hx_phase : shifted.integerPhase s.coefficient ≡ x [ZMOD q.value] := by
    rw [hx]
    exact hshift_phase.trans (hphase.add_right _)
  obtain ⟨out, hout, hout_read⟩ :=
    exists_readTable h hread hshift_shaped hdvd hxq hx_phase hideal hsize (by omega)
  refine ⟨x, hxq, hxm, out, ?_, hout_read⟩
  simp [evalFunction, hsmall, hmodulus, hsize, hkey, hclass, hshifted, hout]

private theorem exists_readsEntry_of_periodic (hper : IsPeriodic table q.value)
    (hclass : TableClass.ofTable table q.value = .ok .periodic) (heven : 2 ∣ p) :
    ∃ x < q.value, x / width = m ∧ ReadsEntry ctx s q η table ct x := by
  have hmodulus := hct.modulus_eq
  have hclass' := hmodulus.symm ▸ hclass
  obtain ⟨u, hu, huq, hum⟩ := exists_place (d := e) hwidth hm (by omega)
  rw [← hq] at huq
  obtain ⟨folded, hfolded, hfolded_shaped, d, hd, hfolded_phase⟩ :=
    h.exists_foldPhase hct hdvd hfour huq (by rw [hu]; exact hphase.add_right _)
      fun shifted hshifted => hreads _ (.fold (.periodic hclass') hshifted)
  obtain ⟨x, hx, hxq, hxm⟩ := exists_place (d := e - d) hwidth hm
    ((abs_sub e d).trans_lt (by omega))
  rw [← hq] at hxq
  have hread := hreads _ (.folded (.periodic hclass') hfolded)
  rw [hmodulus] at hread
  obtain ⟨k, rfl⟩ := heven
  have hhalf : q.value / 2 = k * width := by rw [hq, mul_assoc, Nat.mul_div_cancel_left _ two_pos]
  have hside : ∀ y, y / width = m → (y < q.value / 2 ↔ m < k) := by
    intro y hy
    rw [hhalf, ← hy, Nat.div_lt_iff_lt_mul (by simp only [beta] at hwidth; omega)]
  refine ⟨x, hxq, hxm, ?_⟩
  obtain ⟨r, hr, hr_phase, hr_entry⟩ : ∃ r < q.value / 2,
      folded.integerPhase s.coefficient ≡ r [ZMOD q.value] ∧ table.getD r 0 = table.getD x 0 := by
    by_cases hlow : m < k
    · rw [if_pos ((hside u hum).2 hlow)] at hfolded_phase
      exact ⟨x, (hside x hxm).2 hlow, hfolded_phase.trans (congrArg (· % _) (by omega)), rfl⟩
    · have hxhigh := mt (hside x hxm).1 hlow
      rw [if_neg (mt (hside u hum).1 hlow)] at hfolded_phase
      refine ⟨x - q.value / 2, by omega, hfolded_phase.trans (congrArg (· % _) (by omega)), ?_⟩
      rw [hper _ (by omega), Nat.sub_add_cancel (by omega)]
  have hideal : (tableCall table q.value folded).ideal r ≡ table.getD x 0 [ZMOD q.value] := by
    rw [← hr_entry]
    exact ideal_of_lt (by rw [hfolded_shaped.modulus_eq]; exact hr)
  obtain ⟨out, hout, hout_read⟩ :=
    exists_readTable h hread hfolded_shaped hdvd (by omega) hr_phase hideal hsize (by omega)
  refine ⟨out, ?_, hout_read⟩
  simp [evalFunction, hsmall, hmodulus, hsize, hkey, hclass, hfolded, hout]

omit hdvd in
private theorem exists_readsEntry_of_arbitrary
    (hclass : TableClass.ofTable table q.value = .ok .arbitrary)
    (hle : q.value ≤ ctx.params.lwe.ringDimension) (hlift : 2 * q.value ∣ 2 * ctx.ring.degree) :
    ∃ x < q.value, x / width = m ∧ ReadsEntry ctx s q η table ct x := by
  have hmodulus := hct.modulus_eq
  have hclass' := hmodulus.symm ▸ hclass
  obtain ⟨t, lifted, ht, hlifted, hlift_shaped, hlift_phase⟩ := exists_lifted h.degree_lt hct hlift
  obtain ⟨u, hu, huq, hum⟩ := exists_place (d := e) hwidth hm (by omega)
  rw [← hq] at huq
  obtain ⟨v, hv, hv_phase, hv_fold⟩ := exists_phase_double huq
    (z := lifted.integerPhase s.coefficient + beta)
    (by rw [hlift_phase, hu]; exact hphase.add_right _)
  rw [← ht] at hv hv_phase
  obtain ⟨folded, hfolded, hfolded_shaped, d, hd, hfolded_phase⟩ :=
    h.exists_foldPhase hlift_shaped (by rw [ht]; exact hlift) (by rw [ht]; exact hfour.mul_left 2) hv
      hv_phase fun shifted hshifted => hreads _ (.fold (.arbitrary hclass' hlifted) hshifted)
  obtain ⟨x, hx, hxq, hxm⟩ := exists_place (d := e - d) hwidth hm
    ((abs_sub e d).trans_lt (by omega))
  rw [← hq] at hxq
  have hread := hreads _ (.folded (.arbitrary hclass' hlifted) hfolded)
  rw [hmodulus] at hread
  -- half a turn modulo `2 q` is a whole turn modulo `q`: the fold makes no difference to the entry
  have hturn : t.value / 2 = q.value := by omega
  rw [hturn, hv_fold] at hfolded_phase
  have hx_phase : folded.integerPhase s.coefficient ≡ x [ZMOD t.value] :=
    hfolded_phase.trans (congrArg (· % _) (by omega))
  have hideal : (tableCall table q.value folded).ideal x ≡ table.getD x 0 [ZMOD q.value] :=
    ideal_of_lt (by rw [hfolded_shaped.modulus_eq]; omega)
  obtain ⟨out, hout, hout_read⟩ :=
    exists_readTable h hread hfolded_shaped (by rw [ht]; exact hlift) (by omega) hx_phase hideal hsize
      ht.le
  refine ⟨x, hxq, hxm, out, ?_, hout_read⟩
  rw [hmodulus] at hlifted
  simp [evalFunction, hsmall, hmodulus, hsize, hkey, hclass, hle, hlifted, hfolded, hout]

end Branches

theorem Folds.exists_shaped {x : Lwe.Ciphertext} (hx : Folds table ct x) (h : ctx.Operates key s)
    (hct : ct.Shaped q s.dimension) (hdvd : 2 * q.value ∣ 2 * ctx.ring.degree) (hfour : 4 ∣ q.value) :
    ∃ m : Modulus, x.Shaped m s.dimension ∧ m.value ∣ 2 * ctx.ring.degree ∧ 4 ∣ m.value ∧
      m.value ≤ 2 * q.value := by
  cases hx with
  | periodic => exact ⟨q, hct, (dvd_mul_left _ 2).trans hdvd, hfour, by omega⟩
  | arbitrary _ hlifted =>
    obtain ⟨t, lifted, ht, hlifted', hshaped, -⟩ := exists_lifted h.degree_lt hct hdvd
    rw [hlifted] at hlifted'
    cases hlifted'
    exact ⟨t, hshaped, ht ▸ hdvd, ht ▸ hfour.mul_left 2, ht.le⟩

theorem FunctionCall.readsWithin {large : Lwe.Secret} {secrets : List Lwe.Secret}
    {rowError switchError : ℕ} {call : TableCall} (hcall : FunctionCall ctx key table ct call)
    (h : ctx.Operates key s) (hkey : key.Encrypts ctx.ring large secrets s rowError switchError)
    (hring : ctx.ring.modulus.value = ctx.params.lwe.ringModulus) (hct : ct.Shaped q s.dimension)
    (hdvd : 2 * q.value ∣ 2 * ctx.ring.degree) (hfour : 4 ∣ q.value)
    (hη : ∀ target ≤ 2 * q.value,
      key.error ctx.ring large secrets.length s rowError switchError target < η + 1) :
    call.ReadsWithin ctx key s η := by
  have hread {call : TableCall} {m t : Modulus} (hinput : call.input.Shaped m s.dimension)
      (hm : m.value ∣ 2 * ctx.ring.degree) (htarget : call.target = t.value) (hle : t.value ≤ 2 * q.value) :
      call.ReadsWithin ctx key s η :=
    h.readsWithin hkey hring hinput hm htarget (hη _ (htarget ▸ hle))
  cases hcall with
  | direct _ hshifted =>
    exact hread (t := q) (Lwe.Ciphertext.shaped_of_addConstant hct hshifted)
      ((dvd_mul_left _ 2).trans hdvd) hct.modulus_eq (by omega)
  | fold hx hshifted =>
    obtain ⟨m, hshaped, hm, -, hle⟩ := hx.exists_shaped h hct hdvd hfour
    exact hread (Lwe.Ciphertext.shaped_of_addConstant hshaped hshifted) hm hshaped.modulus_eq hle
  | folded hx hfolded =>
    obtain ⟨m, hshaped, hm, hm_four, hle⟩ := hx.exists_shaped h hct hdvd hfour
    obtain ⟨shifted, hshifted, hshift_shaped, hshift_phase⟩ :=
      Lwe.Ciphertext.exists_addConstant hshaped beta s.coefficient
    obtain ⟨folded', hfolded', hfolded_shaped, -⟩ := h.exists_foldPhase hshaped hm hm_four
      (hshift_shaped.residue_lt s.coefficient)
      (hshift_phase.symm.trans (hshift_shaped.residue_modEq s.coefficient).symm) fun shifted hshifted =>
        hread (Lwe.Ciphertext.shaped_of_addConstant hshaped hshifted) hm hshaped.modulus_eq hle
    rw [hfolded] at hfolded'
    cases hfolded'
    exact hread (t := q) hfolded_shaped hm hct.modulus_eq (by omega)

private theorem exists_readsEntry (h : ctx.Operates key s) (hkey : ctx.keys.active = pure key)
    (hsmall : ctx.checkSmall ct = pure ()) (hct : ct.Shaped q s.dimension)
    (hdvd : q.value ∣ 2 * ctx.ring.degree) (hfour : 4 ∣ q.value) (hsize : table.size = q.value)
    (hreads : ∀ call, FunctionCall ctx key table ct call → call.ReadsWithin ctx key s η)
    {p m width : ℕ} {e : ℤ} (hq : q.value = p * width) (hwidth : 2 * beta ≤ width) (hm : m < p)
    (he : |e| + η < beta)
    (hphase : ct.integerPhase s.coefficient ≡ m * width + e [ZMOD q.value])
    (hentry : ∀ x, table.getD x 0 < q.value) (heven : IsNegacyclic table q.value ∨ 2 ∣ p)
    (hdegree : ctx.ring.degree = ctx.params.lwe.ringDimension)
    (hclass : IsNegacyclic table q.value ∨ IsPeriodic table q.value ∨
      q.value ≤ ctx.params.lwe.ringDimension) :
    ∃ x < q.value, x / width = m ∧ ReadsEntry ctx s q η table ct x := by
  have hword : q.value + q.value ≤ Word.bound := by
    have := q.lt_bound
    simp only [Word.bound]
    omega
  obtain ⟨hneg, hof⟩ | ⟨hneg, hper, hof⟩ | ⟨hneg, hper, hof⟩ :=
    TableClass.ofTable_cases ((by decide : 2 ∣ 4).trans hfour) hword hsize hentry
  · exact exists_readsEntry_of_negacyclic h hkey hsmall hct hdvd hfour hsize hreads hq hwidth hm he
      hphase hneg hof
  · exact exists_readsEntry_of_periodic h hkey hsmall hct hdvd hfour hsize hreads hq hwidth hm he
      hphase hper hof (heven.resolve_left hneg)
  · have hle := (hclass.resolve_left hneg).resolve_left hper
    obtain ⟨j, hj⟩ := NegacyclicRing.exists_two_pow hdvd
    have hdegree_dvd : q.value ∣ ctx.ring.degree := by
      rw [hj]
      exact NegacyclicRing.two_pow_dvd (dvd_mul_left _ _) (by rwa [← hj, hdegree])
    exact exists_readsEntry_of_arbitrary h hkey hsmall hct hfour hsize hreads hq hwidth hm he
      hphase hof hle (mul_dvd_mul_left 2 hdegree_dvd)

/-- The evaluation of the table of a function gives an encryption of the output, with the error of the last
bootstrap. -/
theorem evalFunction_phase {secrets : List Lwe.Secret} {f : ℕ → ℕ → ℕ} {p m φ : ℕ} {e : ℤ}
    (hprime : ctx.params.lwe.ringModulus.Prime)
    (hring : NegacyclicRing.check ctx.params.lwe.ringDimension ctx.params.lwe.ringModulus = .ok ctx.ring)
    (hdvd : ctx.params.lwe.modulus ∣ 2 * ctx.params.lwe.ringDimension)
    (hkey : ctx.keys.active = pure key) (hfits : key.Fits ctx.ring ctx.params.lwe.dimension)
    (hsecret : ctx.JointSecret key secrets s) (hp : p ≤ ctx.params.lwe.modulus / 256)
    (htable : ctx.generateTable f p = pure table)
    (hclass : IsNegacyclic table ctx.params.lwe.modulus ∨ IsPeriodic table ctx.params.lwe.modulus ∨
      ctx.params.lwe.modulus ≤ ctx.params.lwe.ringDimension)
    (hshape : shapeOf ct = ctx.smallShape) (hwf : ct.WellFormed) (hm : m < p)
    (hphase : ct.phase s = .ok φ)
    (hmessage : φ ≡ m * (ctx.params.lwe.modulus / p : ℕ) + e [ZMOD ctx.params.lwe.modulus])
    (hsmall : |e| + η < 128)
    (hreads : ∀ call, FunctionCall ctx key table ct call → call.ReadsWithin ctx key s η) :
    ∃ out ψ, ∃ e' : ℤ, ctx.evalFunction ct table = pure out ∧ shapeOf out = ctx.smallShape ∧
      out.WellFormed ∧ out.phase s = .ok ψ ∧ |e'| ≤ η ∧
      ψ ≡ f m p * (ctx.params.lwe.modulus / p : ℕ) + e' [ZMOD ctx.params.lwe.modulus] := by
  obtain ⟨⟨k, hpow⟩, hsize, -, -⟩ := generateTable_eq_pure htable
  have hpos : 0 < p := Nat.zero_lt_of_lt hm
  have hdim := hsecret.dimension_eq
  rw [← hdim] at hfits
  have h := hsecret.operates hprime hring hfits
  obtain ⟨hdegree, -⟩ := NegacyclicRing.check_shape hring
  rw [← hdegree] at hdvd
  obtain ⟨q, hq⟩ : ∃ q : Modulus, q.value = ctx.params.lwe.modulus := by
    have hle := Nat.le_of_dvd (by have := NeZero.pos ctx.ring.degree; omega) hdvd
    have := h.degree_lt
    have := ctx.ring.modulus.lt_bound
    exact ⟨⟨ctx.params.lwe.modulus, by omega, by omega⟩, rfl⟩
  simp only [shapeOf, smallShape, Shape.mk.injEq] at hshape
  have hct : ct.Shaped q s.dimension := Lwe.Ciphertext.shaped_iff.2
    ⟨hshape.2.trans hq.symm, hshape.1.trans hdim.symm, hwf⟩
  rw [h.phase_eq hct, Except.ok.injEq] at hphase
  have hpq : p ∣ ctx.params.lwe.modulus := hpow ▸ NegacyclicRing.two_pow_dvd hdvd (hpow ▸ by omega)
  have hread := fun x (hx : x < ctx.params.lwe.modulus) => generateTable_entry htable hpos hpq hx
  have hentry := generateTable_entry_lt htable hpos (Nat.le_of_dvd (hq ▸ q.pos) hpq)
  have heven := generateTable_negacyclic_or_even htable hpos hpq
  rw [← hq] at hdvd hp hpq hclass hmessage hsize hread hentry heven ⊢
  have hle : 256 * p ≤ q.value := by omega
  have hsplit : q.value = p * (q.value / p) := (Nat.mul_div_cancel' hpq).symm
  have hwidth : 2 * beta ≤ q.value / p := (Nat.le_div_iff_mul_le hpos).2 hle
  obtain ⟨x, hx, hxm, out, hout, hshaped, e', he', hout_phase⟩ := exists_readsEntry h hkey
    (checkSmall_eq (by simp [shapeOf, smallShape, hshape])) hct hdvd
    (NegacyclicRing.two_pow_dvd (k := 2) hdvd (by omega)) hsize hreads hsplit hwidth hm hsmall
    (((hct.residue_modEq _).symm.trans (by rw [hphase])).trans hmessage) hentry heven hdegree hclass
  obtain ⟨hout_modulus, hout_dim, hout_wf⟩ := Lwe.Ciphertext.shaped_iff.1 hshaped
  refine ⟨out, _, e', hout, ?_, hout_wf, h.phase_eq hshaped, he', ?_⟩
  · rw [shapeOf, smallShape, hout_dim, hout_modulus, hdim, hq]
  · rw [hread x hx, hxm] at hout_phase
    push_cast at hout_phase ⊢
    exact (hshaped.residue_modEq _).trans hout_phase

section Sample

/-- The successor modulo 4 of three, with an error of 100. -/
theorem evalFunction_phase_successor : ∃ (ctx : Context) (table : Array ℕ) (out : Lwe.Ciphertext) (ψ : ℕ)
    (e : ℤ), ctx.generateTable (fun x p => (x + 1) % p) 4 = pure table ∧
      ctx.evalFunction ⟨#[3], 871, 1024⟩ table = pure out ∧ out.phase sampleSecret = .ok ψ ∧ |e| ≤ 1 ∧
      ψ ≡ 0 * 256 + e [ZMOD 1024] := by
  obtain ⟨ctx, key, h⟩ := exists_sample
  obtain ⟨table, htable⟩ : ∃ table, ctx.generateTable (fun x p => (x + 1) % p) 4 = pure table := by
    rw [generateTable, h.params_eq]
    exact ⟨_, rfl⟩
  have hct : Lwe.Ciphertext.Shaped ⟨1024, by decide, by decide⟩ sampleSecret.dimension
      ⟨#[3], 871, 1024⟩ := ⟨rfl, ⟨rfl, by decide⟩, by decide⟩
  have hphase : Lwe.Ciphertext.phase ⟨#[3], 871, 1024⟩ sampleSecret = .ok 868 := by decide
  have hmessage : ((868 : ℕ) : ℤ) ≡ (3 : ℕ) * (ctx.params.lwe.modulus / 4 : ℕ) + 100
      [ZMOD ctx.params.lwe.modulus] := by
    rw [h.params_eq]
    rfl
  obtain ⟨out, ψ, e, hout, -, -, hψ, he, hmod⟩ := evalFunction_phase (η := 1)
    (by rw [h.params_eq]; exact prime_sample) (by rw [h.params_eq]; exact h.ring)
    (by rw [h.params_eq]; exact ⟨2, rfl⟩) h.active (by rw [h.params_eq]; exact h.fits) h.secret
    (by rw [h.params_eq]; decide) htable (.inr (.inr (by rw [h.params_eq]; decide)))
    (by rw [smallShape, h.params_eq]; rfl) (by decide) (by decide) hphase hmessage (by decide)
    fun call hcall => hcall.readsWithin h.operates h.encrypts h.ringModulus_eq hct
      (by rw [h.degree_eq]) ⟨256, rfl⟩ fun target hle => h.error_lt target (hle.trans (by decide))
  rw [h.params_eq] at hmod
  exact ⟨ctx, table, out, ψ, e, htable, hout, hψ, he, hmod⟩

end Sample

end LatticeGates.Context
