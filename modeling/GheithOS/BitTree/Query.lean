import Mathlib.Tactic.IntervalCases
import GheithOS.Lib.Nearest
import GheithOS.BitTree.Model

/-!
# GheithOS.BitTree.Query — lookups read an ordered map

`contents S level n k` is the address stored under the key `k` in the subtree at `n`: one slot per
level, chosen by the digits of `k` in base 32.  `Tidy` is what the tree keeps of its presence bits:
they agree with the slots, and no subtree is empty.  On tidy trees `run_query` finds the nearest key
(`runQuery_spec`), and `get_entry_ref` of a lookup reads `contents` (`getEntryRef_lookup`).
-/

namespace GheithOS.BitTree

open Lib Store

universe u

variable {T : Type u} {S : Store T} {n : ℕ} {b : Bool}

/-! ### Digits and bits -/

theorem getLevelIndex_val (k level : ℕ) : (getLevelIndex k (level + 1)).val = k / 32 ^ level % 32 := by
  simp only [getLevelIndex, Nat.add_sub_cancel]
  rw [show 31 = 2 ^ 5 - 1 from rfl, Nat.and_two_pow_sub_one_eq_mod, Nat.shiftRight_eq_div_pow, Nat.pow_mul]

theorem maskBits_getLsbD (bits : BitVec 32) {i j : ℕ} (hi : i < 32) (hj : j < 32) :
    (maskBits bits i b).getLsbD j = true ↔ Side b j i ∧ bits.getLsbD j = true := by
  cases b with
  | true =>
    simp only [maskBits, Side, ite_true, BitVec.getLsbD_ushiftRight, BitVec.getLsbD_shiftLeft,
      Nat.add_sub_cancel_left, Bool.and_eq_true, Bool.not_eq_true', decide_eq_true_eq,
        decide_eq_false_iff_not]
    refine and_congr_left fun _ => ?_
    omega
  | false =>
    simp only [maskBits, Side, Bool.false_eq_true, ite_false, BitVec.getLsbD_ushiftRight,
      BitVec.getLsbD_shiftLeft, Bool.and_eq_true, Bool.not_eq_true', decide_eq_true_eq,
        decide_eq_false_iff_not, hj, true_and, not_lt]
    refine and_congr_right fun h => ?_
    rw [Nat.add_sub_cancel' h]

theorem getLsbD_lt_of_clz {x : BitVec 32} {j : ℕ} (hx : x ≠ 0) (h : x.getLsbD j = true) :
    j ≤ 31 - x.clz.toNat := by
  by_contra hc
  have hlt := BitVec.toNat_lt_two_pow_sub_clz (x := x)
  have hle : x.clz.toNat ≤ 31 := by
    have := BitVec.clz_lt_iff_ne_zero.mpr hx
    rw [BitVec.lt_def] at this
    have h32 : ((32 : ℕ) : BitVec 32).toNat = 32 := by decide
    omega
  have : x.toNat < 2 ^ j := lt_of_lt_of_le hlt (Nat.pow_le_pow_right (by decide) (by omega))
  rw [BitVec.getLsbD, Nat.testBit_lt_two_pow this] at h
  exact absurd h (by decide)

/-- **`compute_index`** finds the nearest present position. -/
theorem computeIndex_spec (bits : BitVec 32) {i : ℕ} (hi : i < 32) (b : Bool) :
    (computeIndex bits i b = 32 ∧ ∀ j < 32, Side b j i → bits.getLsbD j = false) ∨
    (computeIndex bits i b < 32 ∧ Side b (computeIndex bits i b) i ∧
      bits.getLsbD (computeIndex bits i b) = true ∧
      ∀ j < 32, Side b j i → bits.getLsbD j = true → Side b j (computeIndex bits i b)) := by
  have hmask := fun j (hj : j < 32) => @maskBits_getLsbD b bits i j hi hj
  unfold computeIndex
  rw [if_neg (by omega)]
  dsimp only
  by_cases h0 : maskBits bits i b = 0
  · rw [if_pos h0]
    refine .inl ⟨rfl, fun j hj hs => ?_⟩
    by_contra hc
    have := (hmask j hj).mpr ⟨hs, by simpa using hc⟩
    simp [h0] at this
  · rw [if_neg h0]
    right
    generalize maskBits bits i b = m at h0 hmask
    -- the position found is one that the mask keeps, and an extreme one
    have key : ∀ q, q < 32 → m.getLsbD q = true → (∀ j < 32, m.getLsbD j = true → Side b j q) →
        q < 32 ∧ Side b q i ∧ bits.getLsbD q = true ∧
          ∀ j < 32, Side b j i → bits.getLsbD j = true → Side b j q := by
      intro q hq hm hext
      obtain ⟨h1, h2⟩ := (hmask q hq).mp hm
      exact ⟨hq, h1, h2, fun j hj hs hb => hext j hj ((hmask j hj).mpr ⟨hs, hb⟩)⟩
    cases b with
    | true =>
      simp only [ite_true]
      refine key _ (by omega) (BitVec.getLsbD_true_clz_of_ne_zero (by decide) h0) fun j _ hb => ?_
      simpa [Side] using getLsbD_lt_of_clz h0 hb
    | false =>
      simp only [Bool.false_eq_true, ite_false]
      have hlt : m.ctz.toNat < 32 := by
        have := BitVec.ctz_lt_iff_ne_zero.mpr h0
        rwa [BitVec.lt_def, show ((32 : ℕ) : BitVec 32).toNat = 32 by decide] at this
      refine key _ hlt (BitVec.getLsbD_true_ctz_of_ne_zero h0) fun j _ hb => ?_
      simp only [Side, Bool.false_eq_true, ite_false]
      by_contra hc
      rw [BitVec.getLsbD_false_of_lt_ctz (by omega)] at hb
      exact absurd hb (by decide)

/-- The second search of `run_query` starts strictly beyond the first position. -/
theorem retryIndex_spec (bits : BitVec 32) {q : ℕ} (hq : q < 32) (b : Bool) (r : ℕ)
    (hr : r = computeIndex bits ((q + if b then 0xFFFFFFFF else 1) % 2 ^ 32) b) :
    (r = 32 ∧ ∀ j < 32, Beyond b j q → bits.getLsbD j = false) ∨
    (r < 32 ∧ Beyond b r q ∧ bits.getLsbD r = true ∧
      ∀ j < 32, Beyond b j q → bits.getLsbD j = true → Side b j r) := by
  -- the start, when it is a position at all
  have hnext : (∃ i < 32, (q + if b then 0xFFFFFFFF else 1) % 2 ^ 32 = i ∧ ∀ j < 32, Beyond b j q ↔
      Side b j i) ∨
      (31 < (q + if b then 0xFFFFFFFF else 1) % 2 ^ 32 ∧ ∀ j < 32, ¬ Beyond b j q) := by
    cases b with
    | true =>
      simp only [ite_true, Beyond, Side]
      by_cases h0 : q = 0
      · exact .inr ⟨by omega, by omega⟩
      · exact .inl ⟨q - 1, by omega, by omega, by omega⟩
    | false =>
      simp only [Bool.false_eq_true, ite_false, Beyond, Side]
      by_cases h31 : q = 31
      · exact .inr ⟨by omega, by omega⟩
      · exact .inl ⟨q + 1, by omega, by omega, by omega⟩
  rcases hnext with ⟨i, hi, he, hiff⟩ | ⟨hbig, hno⟩
  · rw [he] at hr
    rcases computeIndex_spec bits hi b with ⟨h1, h2⟩ | ⟨h1, h2, h3, h4⟩
    · exact .inl ⟨hr.trans h1, fun j hj hb => h2 j hj ((hiff j hj).mp hb)⟩
    · rw [← hr] at h1 h2 h3 h4
      exact .inr ⟨h1, (hiff r h1).mpr h2, h3, fun j hj hb => h4 j hj ((hiff j hj).mp hb)⟩
  · refine .inl ⟨?_, fun j hj hb => absurd hb (hno j hj)⟩
    rw [hr, computeIndex, if_pos hbig]

/-! ### The map a tree stores -/

/-- The address stored under the key `k` below the node `n`. -/
def contents (S : Store T) : ℕ → ℕ → ℕ → Option ℕ
  | 0, _, _ => none
  | level + 1, n, k =>
    ((S.node n).pointers (getLevelIndex k (level + 1))).bind fun c => if level = 0 then some c
      else contents S level c k

theorem contents_node (S : Store T) (level n k : ℕ) :
    contents S (level + 2) n k =
      ((S.node n).pointers (getLevelIndex k (level + 2))).bind fun c => contents S (level + 1) c k := by
  rw [contents]
  simp only [Nat.add_eq_zero_iff, one_ne_zero, and_false, ite_false]

theorem contents_leaf (S : Store T) (n k : ℕ) :
    contents S 1 n k = (S.node n).pointers (getLevelIndex k 1) := by
  simp [contents]

/-- The presence bits agree with the slots, and no subtree is empty. -/
def Tidy (S : Store T) : ℕ → ℕ → Prop
  | 0, _ => True
  | level + 1, n =>
    (∀ i : Fin 32, (S.node n).presentBits.getLsbD i = ((S.node n).pointers i).isSome) ∧
    (level ≠ 0 → ∀ i c, (S.node n).pointers i = some c → (S.node c).presentBits ≠ 0 ∧ Tidy S level c)

theorem getLevelIndex_digit {level d e : ℕ} (hd : d < 32) (he : e < 32 ^ level) :
    getLevelIndex (d * 32 ^ level + e) (level + 1) = ⟨d, hd⟩ := by
  apply Fin.ext
  rw [getLevelIndex_val, Nat.add_comm, Nat.add_mul_div_right _ _ (by positivity),
    Nat.div_eq_of_lt he, Nat.zero_add, Nat.mod_eq_of_lt hd]

theorem contents_add_mul :
    ∀ (level n d e : ℕ), contents S level n (d * 32 ^ level + e) = contents S level n e
  | 0, _, _, _ => rfl
  | level + 1, n, d, e => by
    have hi : getLevelIndex (d * 32 ^ (level + 1) + e) (level + 1) = getLevelIndex e (level + 1) := by
      apply Fin.ext
      rw [getLevelIndex_val, getLevelIndex_val, Nat.pow_succ, Nat.mul_comm (32 ^ level),
        ← Nat.mul_assoc, Nat.add_comm, Nat.add_mul_div_right _ _ (by positivity), Nat.mul_comm d,
          Nat.add_mul_mod_self_left]
    simp only [contents, hi]
    refine congrArg _ (funext fun c => ?_)
    rw [Nat.pow_succ, Nat.mul_comm (32 ^ level), ← Nat.mul_assoc, contents_add_mul level c (d * 32) e]

theorem contents_digit {level d e : ℕ} (hl : level ≠ 0) (hd : d < 32) (he : e < 32 ^ level) :
    contents S (level + 1) n (d * 32 ^ level + e) =
      ((S.node n).pointers ⟨d, hd⟩).bind fun c => contents S level c e := by
  simp only [contents, getLevelIndex_digit hd he, hl, ite_false, contents_add_mul]

theorem exists_present {x : BitVec 32} (hx : x ≠ 0) : ∃ i : Fin 32, x.getLsbD i = true := by
  by_contra hc
  refine hx (BitVec.eq_of_getLsbD_eq fun i hi => ?_)
  have := not_exists.mp hc ⟨i, hi⟩
  simpa using this

theorem Tidy.exists_key : ∀ {level n : ℕ}, Tidy S (level + 1) n → (S.node n).presentBits ≠ 0 →
    ∃ k < 32 ^ (level + 1), contents S (level + 1) n k ≠ none
  | 0, n, ht, hb => by
    obtain ⟨i, hi⟩ := exists_present hb
    rw [ht.1 i] at hi
    obtain ⟨c, hc⟩ := Option.isSome_iff_exists.mp hi
    refine ⟨i.val, i.isLt, ?_⟩
    have hidx : getLevelIndex i.val 1 = i := by
      apply Fin.ext
      rw [getLevelIndex_val]
      omega
    simp [contents, hidx, hc]
  | level + 1, n, ht, hb => by
    obtain ⟨i, hi⟩ := exists_present hb
    rw [ht.1 i] at hi
    obtain ⟨c, hc⟩ := Option.isSome_iff_exists.mp hi
    obtain ⟨hcb, hct⟩ := ht.2 (by omega) i c hc
    obtain ⟨k, hk, hne⟩ := hct.exists_key hcb
    refine ⟨i.val * 32 ^ (level + 1) + k, ?_, ?_⟩
    · rw [Nat.pow_succ 32 (level + 1), Nat.mul_comm (32 ^ (level + 1))]
      exact digit_lt i.isLt hk
    · rw [contents_digit (by omega) i.isLt hk]
      simpa [hc] using hne

/-! ### `run_query` -/

theorem moveIndex_far {level : ℕ} (hl : level ≤ 6) :
    (if b then 0xFFFFFFFF else 0) % 32 ^ level = far b (32 ^ level) := by
  cases b with
  | false => simp [far]
  | true =>
    simp only [ite_true, far]
    interval_cases level <;> decide

theorem runQuery_leaf (ht : Tidy S 1 n) (index : ℕ) :
    Nearest b (contents S 1 n) 32 (index % 32) (S.runQuery b 1 index (some n)) := by
  have hval := getLevelIndex_val index 0
  rw [Nat.pow_zero, Nat.div_one] at hval
  have hidx : ∀ j (hj : j < 32), contents S 1 n j = (S.node n).pointers ⟨j, hj⟩ := by
    intro j hj
    have : getLevelIndex j 1 = ⟨j, hj⟩ := by
      apply Fin.ext
      rw [getLevelIndex_val]
      simp only
      omega
    rw [contents_leaf, this]
  have hbit : ∀ j (hj : j < 32), (S.node n).presentBits.getLsbD j = ((S.node n).pointers ⟨j, hj⟩).isSome :=
    fun j hj => ht.1 ⟨j, hj⟩
  simp only [runQuery, Nat.zero_add, ite_true, hval]
  rcases computeIndex_spec (S.node n).presentBits (Nat.mod_lt index (by decide : 0 < 32))
      b with ⟨h1, h2⟩ | ⟨h1, h2, h3, h4⟩
  · rw [if_pos h1]
    refine .none fun j hj hs => ?_
    have := h2 j hj hs
    rw [hbit j hj] at this
    rw [hidx j hj]
    simpa using this
  · rw [if_neg (by omega)]
    generalize computeIndex (S.node n).presentBits (index % 32) b = q at *
    have hq : Fin.ofNat 32 q = ⟨q, h1⟩ := Fin.ext (Nat.mod_eq_of_lt h1)
    rw [hbit q h1] at h3
    obtain ⟨x, hx⟩ := Option.isSome_iff_exists.mp h3
    rw [hq, hx]
    refine .found h1 h2 ((hidx q h1).trans hx) fun j hj hs hne => h4 j hj hs ?_
    rw [hbit j hj]
    rw [hidx j hj] at hne
    exact Option.isSome_iff_ne_none.mpr hne

/-- **`run_query`** finds the nearest key in every tidy subtree. -/
theorem runQuery_spec : ∀ (level index n : ℕ), Tidy S (level + 1) n → level + 1 ≤ 6 →
    Nearest b (contents S (level + 1) n) (32 ^ (level + 1)) (index % 32 ^ (level + 1))
      (S.runQuery b (level + 1) index (some n))
  | 0, index, n, ht, _ => by simpa using runQuery_leaf ht index
  | level + 1, index, n, ht, hl => by
    have ih := fun index c hc => runQuery_spec level index c hc (by omega)
    have hval := getLevelIndex_val index (level + 1)
    have hM : 0 < 32 ^ (level + 1) := by positivity
    have hmod : index % 32 ^ (level + 1 + 1) =
        index / 32 ^ (level + 1) % 32 * 32 ^ (level + 1) + index % 32 ^ (level + 1) := by
      rw [Nat.pow_succ, Nat.mod_mul, Nat.add_comm, Nat.mul_comm]
    have hB : 32 ^ (level + 1 + 1) = 32 * 32 ^ (level + 1) := by rw [Nat.pow_succ, Nat.mul_comm]
    rw [hmod, hB]
    have hdig := fun d e (hd : d < 32) (he : e < 32 ^ (level + 1)) =>
      @contents_digit T S n (level + 1) d e (by omega) hd he
    have hbit : ∀ j (hj : j < 32),
        (S.node n).presentBits.getLsbD j = ((S.node n).pointers ⟨j, hj⟩).isSome :=
      fun j hj => ht.1 ⟨j, hj⟩
    -- a position that the search skipped is not present
    have hskip : ∀ {d r : ℕ}, ((S.node n).presentBits.getLsbD d = true → Side b d r) → Beyond b r d →
        (S.node n).presentBits.getLsbD d = false := fun h hb => by
      by_contra hc
      exact not_side hb (h (by simpa using hc))
    -- a position that is not present has no keys
    have hempty : ∀ d < 32, (S.node n).presentBits.getLsbD d = false → ∀ e < 32 ^ (level + 1),
        contents S (level + 1 + 1) n (d * 32 ^ (level + 1) + e) = none := by
      intro d hd hb e he
      rw [hdig d e hd he]
      rw [hbit d hd] at hb
      have : (S.node n).pointers ⟨d, hd⟩ = none := by simpa using hb
      rw [this, Option.bind_none]
    -- a position that is present has a subtree with keys
    have hsub : ∀ d (hd : d < 32), (S.node n).presentBits.getLsbD d = true →
        ∃ c, (S.node n).pointers ⟨d, hd⟩ = some c ∧ Tidy S (level + 1) c ∧ (S.node c).presentBits ≠ 0 ∧
          ∀ e < 32 ^ (level + 1), contents S (level + 1 + 1) n (d * 32 ^ (level + 1) + e) =
            contents S (level + 1) c e := by
      intro d hd hb
      rw [hbit d hd] at hb
      obtain ⟨c, hc⟩ := Option.isSome_iff_exists.mp hb
      obtain ⟨h1, h2⟩ := ht.2 (by omega) _ c hc
      refine ⟨c, hc, h2, h1, fun e he => ?_⟩
      rw [hdig d e hd he, hc, Option.bind_some]
    -- a search from the far end of such a subtree succeeds
    have hfar : ∀ d (hd : d < 32), (S.node n).presentBits.getLsbD d = true → ∃ x,
        S.runQuery b (level + 1) (if b then 0xFFFFFFFF else 0) ((S.node n).pointers ⟨d, hd⟩) = some x ∧
          Nearest b (fun e => contents S (level + 1 + 1) n (d * 32 ^ (level + 1) + e)) (32 ^ (level + 1))
            (far b (32 ^ (level + 1))) (some x) := by
      intro d hd hb
      obtain ⟨c, hc, hct, hcb, hkeys⟩ := hsub d hd hb
      have h := ih (if b then 0xFFFFFFFF else 0) c hct
      rw [moveIndex_far (by omega)] at h
      obtain ⟨k, hk, hne⟩ := hct.exists_key hcb
      rw [hc]
      obtain ⟨x, hx⟩ := Option.ne_none_iff_exists'.mp (h.ne_none hk (side_far hk) hne)
      rw [hx] at h ⊢
      exact ⟨x, rfl, h.congr hkeys⟩
    have hd₀ : index / 32 ^ (level + 1) % 32 < 32 := Nat.mod_lt _ (by decide)
    have he₀ : index % 32 ^ (level + 1) < 32 ^ (level + 1) := Nat.mod_lt _ hM
    simp only [runQuery, hval, Nat.add_eq_zero_iff, one_ne_zero, and_false, ite_false]
    generalize index / 32 ^ (level + 1) % 32 = d₀ at *
    rcases computeIndex_spec (S.node n).presentBits hd₀ b with ⟨h1, h2⟩ | ⟨h1, h2, h3, h4⟩
    · rw [if_pos h1]
      refine Nearest.none_of hM he₀ (.none fun e he _ => hempty d₀ hd₀ (h2 d₀ hd₀ (side_refl b d₀)) e he) ?_
      exact fun d hd hb e he => hempty d hd (h2 d hd (side_iff.mpr (.inr hb))) e he
    · rw [if_neg (by omega)]
      generalize hq : computeIndex (S.node n).presentBits d₀ b = q at *
      have hqf : Fin.ofNat 32 q = ⟨q, h1⟩ := Fin.ext (Nat.mod_eq_of_lt h1)
      rw [hqf]
      by_cases hdq : d₀ = q
      · subst hdq
        rw [if_pos rfl]
        obtain ⟨c, hc, hct, -, hkeys⟩ := hsub d₀ h1 h3
        have h := (ih index c hct).congr hkeys
        rw [hc]
        cases hres : S.runQuery b (level + 1) index (some c) with
        | some x =>
          rw [hres] at h
          exact h.of_block hd₀ he₀
        | none =>
          rw [hres] at h
          simp only
          generalize hr : computeIndex (S.node n).presentBits
              ((d₀ + if b then 0xFFFFFFFF else 1) % 2 ^ 32) b = r
          rcases retryIndex_spec _ h1 b r hr.symm with ⟨g1, g2⟩ | ⟨g1, g2, g3, g4⟩
          · rw [if_pos g1]
            exact h.none_of hM he₀ fun d hd hb e he => hempty d hd (g2 d hd hb) e he
          · rw [if_neg (by omega)]
            have hrf : Fin.ofNat 32 r = ⟨r, g1⟩ := Fin.ext (Nat.mod_eq_of_lt g1)
            obtain ⟨x, hx, hn⟩ := hfar r g1 g3
            rw [hrf, hx]
            exact h.of_next g1 he₀ g2 (fun d hd hb hgap => hempty d hd (hskip (g4 d hd hb) hgap)) hn
      · rw [if_neg hdq]
        obtain ⟨x, hx, hn⟩ := hfar q h1 h3
        rw [hx]
        have hb : Beyond b q d₀ := (side_iff.mp h2).resolve_left fun h => hdq h.symm
        refine Nearest.of_next h1 he₀ (.none fun e he _ => hempty d₀ hd₀ ?_ e he) hb
          (fun d hd hb hgap => hempty d hd (hskip (h4 d hd (side_iff.mpr (.inr hb))) hgap)) hn
        exact hskip (h4 d₀ hd₀ (side_refl b d₀)) hb

end GheithOS.BitTree
