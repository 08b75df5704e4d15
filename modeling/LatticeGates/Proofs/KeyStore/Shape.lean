import LatticeGates.Proofs.BlindRotation.Totality
import LatticeGates.Proofs.KeyStore.History
import LatticeGates.Proofs.Lwe.SwitchingShares

/-!
# The shape of generated keys

Main statement: after any calls of which the last success is a generation, the active key is there, and all
keys of the store go with the ring and the small dimension. Nothing is asked of the streams, and the modulus
of the ring need not be prime.
-/

namespace LatticeGates

variable {ring : NegacyclicRing} {g : Gadget}

namespace Rgsw

variable {x y : Rgsw}

theorem size_of_modifyRow {l : ℕ} {f : Rlwe.Ciphertext → Checked Rlwe.Ciphertext}
    (h : modifyRow x l f = .ok y) : y.rows.size = x.rows.size := by
  unfold modifyRow at h
  split at h
  · obtain ⟨row, -, h⟩ := Checked.bind_eq_ok.1 h
    cases h
    exact Array.size_set ‹_›
  · cases h

theorem size_of_addGadget {m : ℤ} (h : addGadget ring g m x = .ok y) : y.rows.size = x.rows.size := by
  refine foldM_eq_ok (fun _ z => z.rows.size = x.rows.size) rfl (fun l hl z z' hz hstep => ?_) h
  obtain ⟨w, hmask, hbody⟩ := Checked.bind_eq_ok.1 hstep
  exact (size_of_modifyRow hbody).trans ((size_of_modifyRow hmask).trans hz)

private theorem fits_of_rows {f : (l : ℕ) → l < (zero ring.degree g.digits).rows.size →
    Checked Rlwe.Ciphertext} {rows : Array Rlwe.Ciphertext} {m : ℤ} (hrows : tabulate _ f = .ok rows)
    (hgadget : addGadget ring g m ⟨rows⟩ = .ok x) : x.Fits g := by
  rw [Fits, size_of_addGadget hgadget, (tabulate_eq_ok hrows).1, zero, Array.size_replicate]

theorem fits_of_encrypt {z : Rlwe.Secret} {m : ℤ} {sigma : Float} {masks errors : Stream}
    {rest : Stream × Stream}
    (h : encrypt ring g (zero ring.degree g.digits) z m sigma masks errors = .ok (x, rest)) :
    x.Fits g := by
  obtain ⟨⟨a, _⟩, -, h⟩ := Checked.bind_eq_ok.1 h
  obtain ⟨⟨e, _⟩, -, h⟩ := Checked.bind_eq_ok.1 h
  obtain ⟨r, hassemble, h⟩ := Checked.bind_eq_ok.1 h
  cases h
  obtain ⟨rows, hrows, hgadget⟩ := Checked.bind_eq_ok.1 hassemble
  exact fits_of_rows hrows hgadget

theorem fits_of_encryptPublic {pk : Rgsw} {m : ℤ} {sigma : Float} {ternaries errors : Stream}
    {rest : Stream × Stream}
    (h : encryptPublic ring g (zero ring.degree g.digits) pk m sigma ternaries errors = .ok (x, rest)) :
    x.Fits g := by
  obtain ⟨_, -, h⟩ := Checked.bind_eq_ok.1 h
  obtain ⟨⟨u, _⟩, -, h⟩ := Checked.bind_eq_ok.1 h
  obtain ⟨⟨e, _⟩, -, h⟩ := Checked.bind_eq_ok.1 h
  obtain ⟨r, hrerandomise, h⟩ := Checked.bind_eq_ok.1 h
  cases h
  obtain ⟨rows, hrows, hgadget⟩ := Checked.bind_eq_ok.1 hrerandomise
  exact fits_of_rows hrows hgadget

end Rgsw

namespace BlindRotation

variable {sk : Lwe.Secret}

theorem pair_of_encryptBlock {P : Rgsw → Prop}
    {encrypt : ℤ → Stream → Stream → Checked (Rgsw × Stream × Stream)}
    (hencrypt : ∀ m x y r rest, encrypt m x y = .ok (r, rest) → P r) {x y : Stream}
    {block : Array Pair} {rest : Stream × Stream}
    (h : encryptBlock sk encrypt x y = .ok (block, rest)) :
    ∀ pair ∈ block, P pair.plus ∧ P pair.minus := by
  obtain ⟨ternary, -, h⟩ := Checked.bind_eq_ok.1 h
  obtain ⟨_, -, h⟩ := Checked.bind_eq_ok.1 h
  refine foldM_eq_ok (fun _ (acc : Array Pair × Stream × Stream) =>
    ∀ pair ∈ acc.1, P pair.plus ∧ P pair.minus) (by simp) (fun i hi acc acc' hacc hstep => ?_) h
  obtain ⟨⟨plus, x, y⟩, hplus, hstep⟩ := Checked.bind_eq_ok.1 hstep
  obtain ⟨⟨minus, x', y'⟩, hminus, hstep⟩ := Checked.bind_eq_ok.1 hstep
  cases hstep
  intro pair hpair
  rcases Array.mem_push.1 hpair with hpair | rfl
  · exact hacc pair hpair
  · exact ⟨hencrypt _ _ _ _ _ hplus, hencrypt _ _ _ _ _ hminus⟩

theorem Key.fits_of_generate {z : Rlwe.Secret} {sigma : Float} {masks errors : Stream} {key : Key}
    {rest : Stream × Stream} (hm : g.modulus = ring.modulus) (hg : 0 < g.logBase ∧ g.logBase < 63)
    (hdim : sk.dimension ≠ 0)
    (h : generate ring g z sk sigma masks errors = .ok (key, rest)) :
    key.Fits ring ∧ key.dimension = sk.dimension := by
  obtain ⟨⟨block, _⟩, hblock, h⟩ := Checked.bind_eq_ok.1 h
  cases h
  refine ⟨⟨hm, hg.1, hg.2, hdim, fun block' hmem => ?_⟩, rfl⟩
  obtain rfl := List.mem_singleton.1 (List.mem_toArray.1 hmem)
  exact pair_of_encryptBlock (P := Rgsw.Fits g) (fun _ _ _ _ _ => Rgsw.fits_of_encrypt) hblock

end BlindRotation

namespace Lwe.SwitchingKey

variable {q : Modulus} {z s : Secret} {key : SwitchingKey}

private theorem shaped_of_shareEntry {entry entry' : Sample} {message error : ℤ} {n : ℕ}
    (hentry : (entry.toCiphertext q).Shaped q n)
    (h : shareEntry entry s q message error = .ok entry') : (entry'.toCiphertext q).Shaped q n := by
  obtain ⟨wide, -, h⟩ := Checked.bind_eq_ok.1 h
  obtain ⟨d, hd, h⟩ := Checked.bind_eq_ok.1 h
  obtain ⟨b₁, hb₁, h⟩ := Checked.bind_eq_ok.1 h
  obtain ⟨b₂, hb₂, h⟩ := Checked.bind_eq_ok.1 h
  obtain ⟨b₃, hb₃, h⟩ := Checked.bind_eq_ok.1 h
  cases h
  have hadd {a b c : ℕ} (ha : a < q.value) (hb : b < q.value) (hc : q.add a b = .ok c) : c < q.value := by
    obtain ⟨r, hr, hlt, -⟩ := Modulus.exists_add ha hb
    rw [hc] at hr
    cases hr
    exact hlt
  have hd : d < q.value := Secret.dot_eq_ok hd ▸ Modulus.ofInt_lt _
  exact ⟨rfl, hentry.mask,
    hadd (hadd (hadd hentry.body_lt hd hb₁) (Modulus.ofInt_lt _) hb₂) (Modulus.ofInt_lt _) hb₃⟩

theorem Fits.accumulate {source target : ℕ} {sigma : Float} {errors rest : Stream} {key' : SwitchingKey}
    (hkey : key.Fits q source target) (h : key.accumulate z s sigma errors = .ok (key', rest)) :
    key'.Fits q source target := by
  obtain ⟨_, -, h⟩ := Checked.bind_eq_ok.1 h
  obtain ⟨r, hr, h⟩ := Checked.bind_eq_ok.1 h
  obtain ⟨⟨e, _⟩, -, h⟩ := Checked.bind_eq_ok.1 h
  obtain ⟨shared, hshared, h⟩ := Checked.bind_eq_ok.1 h
  cases h
  obtain ⟨entries, hentries, hshared⟩ := Checked.bind_eq_ok.1 hshared
  cases hshared
  obtain ⟨hsize, hentry⟩ := tabulate_eq_ok hentries
  rw [hkey.modulus_eq, Modulus.check_value] at hr
  cases hr
  refine ⟨hkey.modulus_eq, hkey.shape, hsize.trans hkey.size_eq, fun entry hmem => ?_⟩
  obtain ⟨k, hk, rfl⟩ := Array.mem_iff_getElem.1 hmem
  exact shaped_of_shareEntry (hkey.entry _ (Array.getElem_mem (hsize ▸ hk))) (hentry k (hsize ▸ hk))

theorem fits_of_generate {base modulus : ℕ} {sigma : Float} {masks errors : Stream}
    {rest : Stream × Stream} (h : generate z s base modulus sigma masks errors = .ok (key, rest)) :
    ∃ q : Modulus, key.Fits q z.dimension s.dimension := by
  obtain ⟨start, hstart, h⟩ := Checked.bind_eq_ok.1 h
  obtain ⟨q, hq, h⟩ := Checked.bind_eq_ok.1 h
  obtain ⟨⟨drawn, _⟩, hdrawn, h⟩ := Checked.bind_eq_ok.1 h
  obtain ⟨⟨key', _⟩, hkey, h⟩ := Checked.bind_eq_ok.1 h
  cases h
  obtain rfl := Modulus.check_eq_ok.1 hq
  obtain ⟨rfl, -, -⟩ := eq_of_zero hstart
  rw [Array.size_ofFn] at hdrawn
  obtain ⟨hsize, hbody⟩ := Stream.replicate_entries (fun _ _ _ => mask_of_drawEntry) hdrawn
  refine ⟨q, Fits.accumulate ⟨rfl, ⟨_, hstart⟩, hsize, fun entry hmem => ?_⟩ hkey⟩
  obtain ⟨hzero, hmask⟩ := hbody entry hmem
  refine ⟨rfl, hmask, ?_⟩
  rw [Sample.toCiphertext, hzero]
  exact q.pos

end Lwe.SwitchingKey

namespace KeyStore

variable {params params' : Params} {sk : Lwe.Secret} {mode : KeyMode} {source source' : Stream}
  {fresh : Fresh} {store store' : KeyStore}

theorem MadeFrom.fits (h : store.MadeFrom params ring sk fresh)
    (hfresh : Generates params' sk mode source fresh)
    (hring : ring.modulus.value = params.rgsw.ringModulus) (hdim : sk.dimension ≠ 0) {base : ℕ}
    {key : BootstrapKey} (hkey : store.get? base = some key) : key.Fits ring sk.dimension := by
  obtain ⟨rest, masks, errors, -, hswitching, -⟩ := hfresh
  obtain ⟨middle, hswitching⟩ := Lwe.SwitchingKey.fits_of_generate hswitching
  obtain ⟨z, masks, errors, hz, hmade⟩ := h.refresh base key hkey
  rw [Rlwe.Secret.dimension_of_ofLwe hz] at hswitching
  obtain ⟨-, hkey_switching, _, gadget, _, hgadget, hrotation⟩ := makeKey_eq_ok hmade
  rw [← hkey_switching] at hswitching
  have hmodulus := Modulus.value_injective ((Gadget.modulus_of_check hgadget).trans hring.symm)
  obtain ⟨hfits, hrotation_dim⟩ := BlindRotation.Key.fits_of_generate hmodulus
    (Gadget.logBase_of_check hgadget) hdim hrotation
  exact ⟨hfits, hrotation_dim, middle, hswitching⟩

end KeyStore

namespace KeyCall

open KeyStore

variable {start ctx : Context} {history rest : List (KeyCall × Except Error Unit)} {sk : Lwe.Secret}
  {mode : KeyMode} {fresh : Fresh} {base : ℕ}

theorem Reaches.of_suffix (h : Reaches start history ctx) (hrest : rest <:+ history) :
    ∃ before, Reaches start rest before := by
  induction h with
  | start =>
    obtain rfl := List.suffix_nil.1 hrest
    exact ⟨start, .start⟩
  | call before run ih =>
    rcases List.suffix_cons_iff.1 hrest with rfl | hrest
    · exact ⟨_, .call before run⟩
    · exact ih hrest

theorem Generated.dimension_eq (h : Generated start history sk fresh) (hstart : start.keys = .empty base)
    (hreaches : Reaches start history ctx) : sk.dimension = start.params.lwe.dimension := by
  obtain ⟨mode, earlier, _, hsuffix, -, -⟩ := h
  obtain ⟨after, hafter⟩ := hreaches.of_suffix hsuffix
  cases hafter with
  | call before run =>
    obtain ⟨keys, source, hgenerate, -⟩ := step_generate (step_eq_some.2 run)
    rw [← (before.explained hstart).params_eq]
    exact (admits_of_generate hgenerate).dimension_eq

/-- After a generation that succeeded, and calls that did not, the active key is there and all keys go with
the ring and the small dimension. -/
theorem Reaches.fits (h : Reaches start history ctx) (hstart : start.keys = .empty base)
    (hring : start.ring.modulus.value = start.params.rgsw.ringModulus)
    (hdim : start.params.lwe.dimension ≠ 0) (hdone : lastDone history = some (.generate sk mode)) :
    (∃ key, ctx.keys.active = pure key) ∧
      ∀ b key, ctx.keys.get? b = some key → key.Fits ctx.ring ctx.params.lwe.dimension := by
  obtain ⟨hparams, hring_eq, hholds⟩ := h.explained hstart
  rw [hparams, hring_eq]
  rw [hdone] at hholds
  generalize ctx.keys = store at hholds
  cases hholds with
  | @generated _ _ made _ fresh origin same fingerprint_eq activeBase_eq madeFrom bases =>
    constructor
    · obtain ⟨key, hkey⟩ := Option.isSome_iff_exists.1 ((bases store.activeBase).2 (.inr activeBase_eq))
      exact ⟨key, by rw [active, hkey]⟩
    · intro b key hkey
      have hmade := origin.dimension_eq hstart h
      obtain ⟨_, _, ctx', -, -, hfresh⟩ := origin
      rw [← hmade] at hdim ⊢
      exact madeFrom.fits hfresh hring hdim hkey

end KeyCall

end LatticeGates
