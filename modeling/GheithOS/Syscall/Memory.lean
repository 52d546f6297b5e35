import GheithOS.Syscall.Model

/-!
# GheithOS.Syscall.Memory — what a handler knows after it has checked a pointer

`Reads m w Q`: the program `m` only reads.  From `w` it returns a value as `Q` says, or a page is
not mapped; either way the state is still `w`.  A checked pointer makes a load such a program
(`load_reads`), and a counted string can be read again to its end (`scan_reads`).
-/

namespace GheithOS.Syscall

open Lib MemoryMapping Files

/-! ### The checks -/

section Checks

variable {p n : ℕ}

/-- `check_bounds` is exact: the sum is taken without overflow. -/
theorem checkBounds_eq_true {base scale : ℕ} (index lower upper : ℕ) (hb : base < 2 ^ 32) (hs : 0 < scale) :
    checkBounds base index scale lower upper = true ↔
      base + index * scale < 2 ^ 32 ∧ lower ≤ base + index * scale ∧ base + index * scale < upper := by
  unfold checkBounds
  dsimp only
  by_cases hm : index * scale < 2 ^ 32
  · rw [Nat.mod_eq_of_lt hm, Nat.mul_div_cancel _ hs, if_neg (by simp)]
    generalize index * scale = m at hm
    split_ifs with hw
    · simp
      omega
    · rw [decide_eq_true_iff]
      omega
  · have hne : index * scale % 2 ^ 32 / scale ≠ index := by
      intro h
      have hle := Nat.div_mul_le_self (index * scale % 2 ^ 32) scale
      rw [h] at hle
      exact hm (Nat.lt_of_le_of_lt hle (Nat.mod_lt _ (by decide)))
    rw [if_pos hne]
    simp
    omega

theorem validateAddress_eq_true {address offset scale : ℕ} (ha : address < 2 ^ 32) (hs : 0 < scale) :
    validateAddress address offset scale = true ↔
      (0 < offset → userMemStart ≤ address ∧ address < userMemEnd) ∧
        userMemStart ≤ address + offset * scale ∧ address + offset * scale < userMemEnd := by
  have hself := checkBounds_eq_true 0 userMemStart userMemEnd ha Nat.one_pos
  have hlast := checkBounds_eq_true offset userMemStart userMemEnd ha hs
  have hend : userMemEnd < 2 ^ 32 := by decide
  rw [Nat.zero_mul, Nat.add_zero] at hself
  unfold validateAddress
  split_ifs with h
  · rw [← Bool.not_eq_true, hself] at h
    exact iff_of_false id fun h' => h.2 ⟨ha, h'.1 h.1⟩
  · rw [← Bool.not_eq_true, hself, not_and, not_not] at h
    rw [hlast]
    exact ⟨fun h' => ⟨fun ho => (h ho).2, h'.2⟩, fun h' => ⟨by omega, h'.2⟩⟩

/-- A checked pointer to values of less than 64 KiB: all of them lie in user memory. -/
theorem validatePointer_iff {size : ℕ} (hp : p < 2 ^ 32) (hs : 0 < size) (hs16 : size < 2 ^ 16)
    (hn : 0 < n) : validatePointer size p n = true ↔ InUser p (size * n) := by
  obtain ⟨m, rfl⟩ : ∃ m, n = m + 1 := ⟨n - 1, by omega⟩
  have hend : userMemEnd + 2 ^ 16 < 2 ^ 32 := by decide
  rw [validatePointer, Bool.and_eq_true, validateAddress_eq_true hp Nat.one_pos, InUser,
    show size * (m + 1) = size * m + size from rfl, Nat.add_sub_cancel, Bool.or_eq_true,
      or_iff_right (by simp)]
  by_cases hlt : p < userMemEnd
  · rw [Nat.mod_eq_of_lt (by omega), validateAddress_eq_true (by omega) hs, Nat.mul_comm m size]
    generalize size * m = k
    omega
  · exact iff_of_false (by omega) (by omega)

/-- A checked pointer: all the values lie in user memory. -/
theorem validatePointer_eq_true {size : ℕ} (hp : p < 2 ^ 32) (hs : 0 < size) (hs4 : size ≤ 4)
    (hn : 0 < n) : validatePointer size p n = true ↔ InUser p (size * n) :=
  validatePointer_iff hp hs (by omega) hn

/-- The bytes of a range are in user memory one by one. -/
theorem inUser_iff_forall {a : ℕ} (hn : 0 < n) :
    InUser a n ↔ ∀ b, a ≤ b → b < a + n → userMemStart ≤ b ∧ b < userMemEnd := by
  unfold InUser
  constructor
  · intro h b hab hbn
    omega
  · intro h
    have hfirst := h a (Nat.le_refl a) (by omega)
    have hlast := h (a + n - 1) (by omega) (by omega)
    omega

/-- **The checks of addresses are exact**: `check_bounds` sees every overflow of the product and of
the sum, and `validate_address<T>` accepts `n` values exactly if every byte of them lies in user
memory. -/
theorem validation_exact :
    (∀ base index scale lower upper : Word, 1 ≤ scale.toNat →
      (checkBounds base.toNat index.toNat scale.toNat lower.toNat upper.toNat = true ↔
        base.toNat + index.toNat * scale.toNat < 2 ^ 32 ∧
        lower.toNat ≤ base.toNat + index.toNat * scale.toNat ∧
          base.toNat + index.toNat * scale.toNat < upper.toNat)) ∧
    ∀ (pointer n : Word) (size : ℕ), 1 ≤ size → size < 2 ^ 16 → 1 ≤ n.toNat →
      (validatePointer size pointer.toNat n.toNat = true ↔
        ∀ b, pointer.toNat ≤ b → b < pointer.toNat + n.toNat * size → userMemStart ≤ b ∧
          b < userMemEnd) := by
  constructor
  · intro base index scale lower upper hs
    exact checkBounds_eq_true index.toNat lower.toNat upper.toNat base.isLt hs
  · intro pointer n size hs hs16 hn
    rw [validatePointer_iff pointer.isLt hs hs16 hn, Nat.mul_comm size]
    exact inUser_iff_forall (Nat.mul_pos hn hs)

theorem InUser.lt {a n : ℕ} (h : InUser a n) : a + n < 2 ^ 32 := by
  have hend : userMemEnd < 2 ^ 32 := by decide
  exact Nat.lt_of_le_of_lt h.2 hend

theorem InUser.mono {a n b m : ℕ} (h : InUser a n) (hab : a ≤ b) (hbm : b + m ≤ a + n) : InUser b m :=
  ⟨h.1.trans hab, hbm.trans h.2⟩

theorem littleEndian_lt (bs : List Byte) : littleEndian bs < 256 ^ bs.length := by
  induction bs with
  | nil => simp [littleEndian]
  | cons b bs ih =>
    rw [littleEndian, List.length_cons, Nat.pow_succ]
    have hb : b.toNat < 256 := b.isLt
    omega

theorem word_lt (mem : ℕ → Byte) (a : ℕ) : word mem a < 2 ^ 32 := by
  have h := littleEndian_lt (window mem a 4)
  rw [length_window] at h
  exact h

end Checks

/-! ### Programs that only read -/

/-- From `w` the program returns a value as `Q` says, or a page is not mapped; the state is still
`w`. -/
def Reads {α : Type} (m : Sys α) (w : World) (Q : α → Prop) : Prop :=
  Runs m w (fun a w' => w' = w ∧ Q a) fun e w' => e = .fault ∧ w' = w

section Reads

variable {α β : Type} {m : Sys α} {f : α → Sys β} {w : World} {Q Q' : α → Prop}

theorem Reads.mono (h : Reads m w Q) (hQ : ∀ a, Q a → Q' a) : Reads m w Q' :=
  Runs.mono h (fun a _ h' => ⟨h'.1, hQ a h'.2⟩) fun _ _ h' => h'

theorem reads_pure {a : α} (h : Q a) : Reads (pure a) w Q := runs_pure ⟨rfl, h⟩

theorem reads_of_ok {a : α} (h : m w = .ok a w) (hQ : Q a) : Reads m w Q := runs_of_ok h ⟨rfl, hQ⟩

theorem reads_done {a : α} (h : m w = .ok a w) : Reads m w fun _ => True := reads_of_ok h trivial

theorem reads_get : Reads (get : Sys World) w (· = w) := ⟨rfl, rfl⟩

/-- What follows a program that only reads starts from the same state. -/
theorem Reads.runs_bind {N : β → World → Prop} {A : Stop → World → Prop} (hm : Reads m w Q)
    (hA : A .fault w) (hf : ∀ a, Q a → Runs (f a) w N A) : Runs (m >>= f) w N A := by
  refine Lib.runs_bind (Runs.mono hm ?_ ?_)
  · rintro a w' ⟨rfl, ha⟩
    exact hf a ha
  · rintro e w' ⟨rfl, rfl⟩
    exact hA

theorem Reads.bind {R : β → Prop} (hm : Reads m w Q) (hf : ∀ a, Q a → Reads (f a) w R) :
    Reads (m >>= f) w R :=
  Reads.runs_bind hm ⟨rfl, rfl⟩ hf

end Reads

section Loads

variable {env : Env} {w : World} {a size n : ℕ}

theorem touch_of_mapped (h : InUser a n) (hm : Mapped env a n) : touch env a n w = .ok () w := by
  unfold touch
  rw [if_pos h, if_pos hm]
  rfl

theorem touch_of_not_mapped (h : InUser a n) (hm : ¬ Mapped env a n) :
    touch env a n w = .error .fault w := by
  unfold touch
  rw [if_pos h, if_neg hm]
  rfl

theorem touch_of_not_inUser (h : ¬ InUser a n) : touch env a n w = .error .outside w := by
  unfold touch
  rw [if_neg h]
  rfl

/-- The value of `size` bytes. -/
def value (mem : ℕ → Byte) (size a : ℕ) : ℕ := littleEndian (window mem a size)

theorem load_of_mapped (h : InUser a size) (hm : Mapped env a size) :
    load env size a w = .ok (value w.mem size a) w := by
  unfold load
  rw [bind_ok (touch_of_mapped h hm)]
  rfl

theorem load_of_not_mapped (h : InUser a size) (hm : ¬ Mapped env a size) :
    load env size a w = .error .fault w :=
  bind_error (touch_of_not_mapped h hm)

theorem load_reads (h : InUser a size) :
    Reads (load env size a) w fun x => x = value w.mem size a ∧ Mapped env a size := by
  by_cases hm : Mapped env a size
  · exact reads_of_ok (load_of_mapped h hm) ⟨rfl, hm⟩
  · unfold Reads Runs
    rw [load_of_not_mapped h hm]
    exact ⟨rfl, rfl⟩

/-- An argument among those that were checked. -/
theorem arg_reads {sysArgs k : ℕ} (h : InUser sysArgs (4 * n)) (hk : k < n) :
    Reads (arg env sysArgs k) w fun x => x = word w.mem (sysArgs + 4 * k) ∧
      Mapped env (sysArgs + 4 * k) 4 := by
  have hlt := h.lt
  unfold arg argAddress
  rw [Nat.mod_eq_of_lt (by omega)]
  exact load_reads (h.mono (by omega) (by omega))

end Loads

/-! ### Counted strings -/

/-- From element `k` of `arr` on, all elements up to the `n`-th can be read, and the `n`-th is the
first that is zero. -/
structure Terminated (env : Env) (mem : ℕ → Byte) (size arr k n : ℕ) : Prop where
  le : k ≤ n
  inUser : ∀ j, k ≤ j → j ≤ n → InUser (arr + j * size) size
  mapped : ∀ j, k ≤ j → j ≤ n → Mapped env (arr + j * size) size
  nonzero : ∀ j, k ≤ j → j < n → value mem size (arr + j * size) ≠ 0
  zero : value mem size (arr + n * size) = 0

namespace Terminated

variable {env : Env} {mem : ℕ → Byte} {size arr k n : ℕ}

theorem last (hu : InUser (arr + k * size) size) (hm : Mapped env (arr + k * size) size)
    (hz : value mem size (arr + k * size) = 0) : Terminated env mem size arr k k where
  le := Nat.le_refl k
  inUser j hkj hjk := by rwa [Nat.le_antisymm hjk hkj]
  mapped j hkj hjk := by rwa [Nat.le_antisymm hjk hkj]
  nonzero j hkj hjk := absurd hjk (by omega)
  zero := hz

theorem step (hu : InUser (arr + k * size) size) (hm : Mapped env (arr + k * size) size)
    (hz : value mem size (arr + k * size) ≠ 0) (h : Terminated env mem size arr (k + 1) n) :
    Terminated env mem size arr k n where
  le := Nat.le_of_succ_le h.le
  inUser j hkj hjn := by
    rcases Nat.eq_or_lt_of_le hkj with rfl | hlt
    · exact hu
    · exact h.inUser j hlt hjn
  mapped j hkj hjn := by
    rcases Nat.eq_or_lt_of_le hkj with rfl | hlt
    · exact hm
    · exact h.mapped j hlt hjn
  nonzero j hkj hjn := by
    rcases Nat.eq_or_lt_of_le hkj with rfl | hlt
    · exact hz
    · exact h.nonzero j hlt hjn
  zero := h.zero

theorem tail (h : Terminated env mem size arr k n) (hlt : k < n) :
    Terminated env mem size arr (k + 1) n where
  le := hlt
  inUser j hkj := h.inUser j (by omega)
  mapped j hkj := h.mapped j (by omega)
  nonzero j hkj := h.nonzero j (by omega)
  zero := h.zero

end Terminated

section Strings

variable {env : Env} {w : World} {size arr p : ℕ}

theorem next_valid (hs : 0 < size) (hs4 : size ≤ 4) {count : ℕ} (hu : InUser (arr + count * size) size) :
    validatePointer size ((arr + (count + 1) * size) % 2 ^ 32) 1 = true ↔
    InUser (arr + (count + 1) * size) size := by
  have hlt := hu.lt
  have hnext : arr + (count + 1) * size = arr + count * size + size := by rw [Nat.succ_mul, Nat.add_assoc]
  rw [hnext, Nat.mod_eq_of_lt hlt, validatePointer_eq_true hlt hs hs4 Nat.one_pos, Nat.mul_one]

theorem countLoop_eq (fuel count : ℕ) : countLoop env size arr (fuel + 1) count = (do
    let x ← load env size ((arr + count * size) % 2 ^ 32)
    if x = 0 then return some count
    else if validatePointer size ((arr + (count + 1) * size) % 2 ^ 32) 1
        then countLoop env size arr fuel (count + 1)
    else return none) := rfl

theorem countLoop_reads (hs : 0 < size) (hs4 : size ≤ 4) (fuel count : ℕ)
    (hu : InUser (arr + count * size) size) :
    Reads (countLoop env size arr fuel count) w fun r => ∀ n, r = some n →
      Terminated env w.mem size arr count n := by
  induction fuel generalizing count with
  | zero => exact reads_pure (by simp)
  | succ fuel ih =>
    rw [countLoop_eq, Nat.mod_eq_of_lt (by have := hu.lt; omega)]
    refine (load_reads hu).bind ?_
    rintro _ ⟨rfl, hm⟩
    split_ifs with hz hv
    · refine reads_pure ?_
      rintro n ⟨⟩
      exact .last hu hm hz
    · exact (ih (count + 1) ((next_valid hs hs4 hu).mp hv)).mono fun r hr n hn => .step hu hm hz (hr n hn)
    · exact reads_pure (by simp)

theorem validateAndCount_reads (hs : 0 < size) (hs4 : size ≤ 4) (harr : arr < 2 ^ 32) :
    Reads (validateAndCount env size arr) w fun r => ∀ n, r = some n →
      Terminated env w.mem size arr 0 n := by
  unfold validateAndCount
  split_ifs with hv
  · rw [validatePointer_eq_true harr hs hs4 Nat.one_pos, Nat.mul_one] at hv
    exact countLoop_reads hs hs4 rounds 0 (by rwa [Nat.zero_mul])
  · exact reads_pure (by simp)

/-- A vector or a string that can be read is counted. -/
theorem countLoop_of_terminated (hs : 0 < size) (hs4 : size ≤ 4) {n : ℕ} (fuel j : ℕ)
    (h : Terminated env w.mem size arr j n) (hfuel : n < j + fuel) :
    countLoop env size arr fuel j w = .ok (some n) w := by
  have hle := h.le
  induction fuel generalizing j with
  | zero => omega
  | succ fuel ih =>
    have hu := h.inUser j (Nat.le_refl j) hle
    rw [countLoop_eq, Nat.mod_eq_of_lt (by have := hu.lt; omega),
      bind_ok (load_of_mapped hu (h.mapped j (Nat.le_refl j) hle))]
    rcases Nat.eq_or_lt_of_le hle with rfl | hlt
    · rw [if_pos h.zero]
      rfl
    · have hnext := (next_valid hs hs4 hu).mpr (h.inUser (j + 1) (Nat.le_succ j) hlt)
      rw [if_neg (h.nonzero j (Nat.le_refl j) hlt), if_pos hnext]
      exact ih (j + 1) (h.tail hlt) (by omega) hlt

theorem validateAndCount_of_terminated (hs : 0 < size) (hs4 : size ≤ 4) {n : ℕ}
    (h : Terminated env w.mem size arr 0 n) : validateAndCount env size arr w = .ok (some n) w := by
  have hu := h.inUser 0 (Nat.le_refl 0) (Nat.zero_le n)
  rw [Nat.zero_mul, Nat.add_zero] at hu
  have hend := (h.inUser n (Nat.zero_le n) (Nat.le_refl n)).2
  have hspan : userMemEnd ≤ userMemStart + rounds := by decide
  have hmul : n ≤ n * size := Nat.le_mul_of_pos_right n hs
  have hstart := hu.1
  rw [validateAndCount, if_pos ((validatePointer_eq_true (by have := hu.lt; omega) hs hs4 Nat.one_pos).mpr
    (by rwa [Nat.mul_one]))]
  exact countLoop_of_terminated hs hs4 rounds 0 h (by omega)

/-- A string that was counted is read again to its end. -/
theorem scanLoop_of_terminated {n : ℕ} (fuel j : ℕ) (h : Terminated env w.mem 1 p j n)
    (hfuel : n < j + fuel) : scanLoop env p fuel j w = .ok (window w.mem (p + j) (n - j)) w := by
  have hle := h.le
  induction fuel generalizing j with
  | zero => omega
  | succ fuel ih =>
    have hu := h.inUser j (Nat.le_refl j) hle
    have hm := h.mapped j (Nat.le_refl j) hle
    rw [Nat.mul_one] at hu hm
    have hbyte : value w.mem 1 (p + j) = (w.mem (p + j)).toNat := by simp [value, window, littleEndian]
    unfold scanLoop
    rw [Nat.mod_eq_of_lt (by have := hu.lt; omega), bind_ok (load_of_mapped hu hm)]
    rcases Nat.eq_or_lt_of_le hle with rfl | hlt
    · have hz := h.zero
      rw [Nat.mul_one] at hz
      rw [if_pos hz, Nat.sub_self]
      rfl
    · have hz := h.nonzero j (Nat.le_refl j) hlt
      rw [Nat.mul_one] at hz
      rw [if_neg hz, bind_ok (ih (j + 1) (h.tail hlt) (by omega) hlt), hbyte]
      have hlen : n - j = (n - (j + 1)) + 1 := by omega
      rw [hlen]
      simp [window, List.range'_succ, Nat.add_assoc]
      rfl

theorem scan_of_terminated {n : ℕ} (h : Terminated env w.mem 1 p 0 n) :
    scan env p w = .ok (window w.mem p n) w := by
  have hend := (h.inUser n (Nat.zero_le n) (Nat.le_refl n)).2
  have hstart := (h.inUser 0 (Nat.le_refl 0) (Nat.zero_le n)).1
  have hspan : userMemEnd ≤ userMemStart + rounds := by decide
  exact scanLoop_of_terminated rounds 0 h (by omega)

end Strings

end GheithOS.Syscall
