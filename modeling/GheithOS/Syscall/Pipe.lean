import GheithOS.Syscall.Specs

/-!
# GheithOS.Syscall.Pipe — `pipe` puts its descriptors into the table before it stores their numbers

`sys_args[k] = sys_args[k]` was to make sure that the two targets are mapped, but it touches the
pointers and not what they point to.  Once `pipe` has come to its two assignments (`Commits`) it
does not go back: if a target is not mapped the caller gets `-EFAULT` and the descriptors stay in
the table.  And the first store may hit `sys_args[1]`, the pointer that the second assignment reads.
-/

namespace GheithOS.Syscall

open Lib MemoryMapping Files

/-! ### Stores -/

section Stores

variable {mem : ℕ → Byte} {a b v : ℕ}

theorem word_eq (mem : ℕ → Byte) (a : ℕ) :
    word mem a = (mem a).toNat + 256 * (mem (a + 1)).toNat + 65536 * (mem (a + 2)).toNat +
      16777216 * (mem (a + 3)).toNat := by
  rw [word, window, show List.range' a 4 = [a, a + 1, a + 2, a + 3] from rfl]
  simp only [List.map_cons, List.map_nil, littleEndian]
  omega

theorem putWord_inside (h : a ≤ b) (h' : b < a + 4) :
    putWord mem a v b = BitVec.ofNat 8 (v / 256 ^ (b - a)) :=
  if_pos ⟨h, h'⟩

theorem putWord_outside (h : b < a ∨ a + 4 ≤ b) : putWord mem a v b = mem b := if_neg (by omega)

theorem putWord_word (mem : ℕ → Byte) (a : ℕ) : putWord mem a (word mem a) = mem := by
  funext b
  by_cases h : a ≤ b ∧ b < a + 4
  · rw [putWord_inside h.1 h.2]
    apply BitVec.eq_of_toNat_eq
    rw [BitVec.toNat_ofNat, word_eq]
    have h0 := (mem a).isLt
    have h1 := (mem (a + 1)).isLt
    have h2 := (mem (a + 2)).isLt
    have h3 := (mem (a + 3)).isLt
    obtain rfl | rfl | rfl | rfl : b = a ∨ b = a + 1 ∨ b = a + 2 ∨ b = a + 3 := by omega
    · rw [Nat.sub_self]
      omega
    · rw [Nat.add_sub_cancel_left]
      omega
    · rw [Nat.add_sub_cancel_left]
      omega
    · rw [Nat.add_sub_cancel_left]
      omega
  · exact putWord_outside (by omega)

end Stores

section Pipe

variable {env : Env} {sysArgs : ℕ} {w : World}

theorem arg_ok {n k : ℕ} (h : InUser sysArgs (4 * n)) (hk : k < n) (hm : Mapped env (sysArgs + 4 * k) 4) :
    arg env sysArgs k w = .ok (word w.mem (sysArgs + 4 * k)) w := by
  have hlt := h.lt
  unfold arg argAddress
  rw [Nat.mod_eq_of_lt (by omega)]
  exact load_of_mapped (h.mono (by omega) (by omega)) hm

theorem rewriteArg_ok {n k : ℕ} (h : InUser sysArgs (4 * n)) (hk : k < n)
    (hm : Mapped env (sysArgs + 4 * k) 4) : rewriteArg env sysArgs k w = .ok () w := by
  have hlt := h.lt
  have haddr : argAddress sysArgs k = sysArgs + 4 * k := Nat.mod_eq_of_lt (by omega)
  have hu : InUser (sysArgs + 4 * k) 4 := h.mono (by omega) (by omega)
  refine (bind_ok (arg_ok h hk hm)).trans ?_
  rw [haddr]
  refine (bind_ok (touch_of_mapped hu hm)).trans ?_
  have hsame : { w with mem := putWord w.mem (sysArgs + 4 * k) (word w.mem (sysArgs + 4 * k)) } = w := by
    rw [putWord_word]
  exact congrArg (EStateM.Result.ok ()) hsame

/-- `pipe` comes to its assignments. -/
structure Commits (env : Env) (sysArgs : ℕ) (w : World) : Prop where
  args : InUser sysArgs (4 * 2)
  mapped : Mapped env sysArgs 4
  mapped' : Mapped env (sysArgs + 4) 4
  first : InUser (word w.mem sysArgs) 4
  second : InUser (word w.mem (sysArgs + 4)) 4
  room : 2 ≤ w.files.openSlots

/-- The number of the first descriptor. -/
def slot (w : World) : ℕ := (w.files.firstEmpty.map Fin.val).getD 0

/-- Where the second number is stored: the pointer is read after the first store. -/
def secondTarget (sysArgs : ℕ) (w : World) : ℕ :=
  word (putWord w.mem (word w.mem sysArgs) (slot w)) (sysArgs + 4)

theorem makeFile_ok (kind : Kind) :
    ∃ w', makeFile kind w = .ok w.openedCount w' ∧ w'.mem = w.mem ∧ w'.files = w.files := ⟨_, rfl, rfl, rfl⟩

/-- With room the table takes the descriptor. -/
theorem allocFile_ok (hroom : w.files.canAlloc 1 = true) (id : ℕ) :
    ∃ w', allocFile id w = .ok (slot w) w' ∧ w'.mem = w.mem ∧
      w'.files.openSlots = w.files.openSlots - 1 := by
  obtain ⟨i, hi, halloc⟩ := DescriptorList.alloc_of_canAlloc hroom id
  have hslot : slot w = i := by
    unfold slot
    rw [hi]
    rfl
  refine ⟨{ w with files := w.files.set i (some id) }, (get_bind _ w).trans ?_, rfl,
    DescriptorList.openSlots_set_firstEmpty hi id⟩
  rw [halloc, hslot]
  rfl

theorem assignDescriptor_runs {n k : ℕ} (h : InUser sysArgs (4 * n)) (hk : k < n)
    (hm : Mapped env (sysArgs + 4 * k) 4) (hroom : w.files.canAlloc 1 = true) (kind : Kind) :
    Runs (assignDescriptor env sysArgs k kind) w
      (fun _ w' => w'.files.openSlots = w.files.openSlots - 1 ∧
        w'.mem = putWord w.mem (word w.mem (sysArgs + 4 * k)) (slot w) ∧
        InUser (word w.mem (sysArgs + 4 * k)) 4 ∧ Mapped env (word w.mem (sysArgs + 4 * k)) 4)
      (fun e w' => w'.files.openSlots = w.files.openSlots - 1 ∧
        (e = .outside ∧ ¬ InUser (word w.mem (sysArgs + 4 * k)) 4 ∨
          e = .fault ∧ InUser (word w.mem (sysArgs + 4 * k)) 4 ∧
          ¬ Mapped env (word w.mem (sysArgs + 4 * k)) 4)) := by
  obtain ⟨w₁, hmake, hmem₁, hfiles₁⟩ := makeFile_ok (w := w) kind
  obtain ⟨w₂, halloc, hmem₂, hopen⟩ := allocFile_ok (w := w₁) (by rwa [hfiles₁]) w.openedCount
  have hslot : slot w₁ = slot w := by rw [slot, slot, hfiles₁]
  rw [hfiles₁] at hopen
  rw [hmem₁] at hmem₂
  refine runs_bind (runs_of_ok hmake
    (runs_bind (runs_of_ok halloc (runs_bind (runs_of_ok (arg_ok h hk hm) ?_)))))
  rw [hmem₂, hslot]
  refine (store32_runs _ _).mono ?_ ?_
  · rintro _ _ ⟨hu, hm', rfl⟩
    exact ⟨hopen, by rw [hmem₂], hu, hm'⟩
  · rintro e _ ⟨rfl, he⟩
    exact ⟨hopen, he⟩

theorem validated_of_inUser {p n : ℕ} (h : InUser p (4 * n)) (hn : 0 < n) : validatePointer 4 p n = true :=
  (validatePointer_eq_true (Nat.lt_of_le_of_lt (Nat.le_add_right _ _) h.lt) (by decide)
    (by decide) hn).mpr h

theorem sysPipe_of_not_commits (hs : sysArgs < 2 ^ 32) (hc : ¬ Commits env sysArgs w) :
    Reads (sysPipe env sysArgs) w fun r => ∃ e, r = .error e := by
  unfold sysPipe
  split_ifs with hv
  · have hu := (validatePointer_eq_true hs (by decide) (by decide) (by decide)).mp hv
    refine (arg_reads hu (by decide)).bind ?_
    rintro first ⟨rfl, hm₀⟩
    split_ifs with hv₀
    · refine (arg_reads hu (by decide)).bind ?_
      rintro second ⟨rfl, hm₁⟩
      split_ifs with hv₁
      · refine (reads_done (rewriteArg_ok hu (by decide) hm₀)).bind fun _ _ => ?_
        refine (reads_done (rewriteArg_ok hu (by decide) hm₁)).bind fun _ _ => ?_
        refine reads_get.bind ?_
        rintro _ rfl
        split_ifs with hroom
        · -- all the conditions were met
          refine absurd ⟨hu, hm₀, hm₁, ?_, ?_, of_decide_eq_true hroom⟩ hc
          · exact (validatePointer_eq_true (word_lt _ _) (by decide) (by decide) Nat.one_pos).mp hv₀
          · exact (validatePointer_eq_true (word_lt _ _) (by decide) (by decide) Nat.one_pos).mp hv₁
        · exact reads_pure ⟨_, rfl⟩
      · exact reads_pure ⟨_, rfl⟩
    · exact reads_pure ⟨_, rfl⟩
  · exact reads_pure ⟨_, rfl⟩

theorem sysPipe_of_commits (hc : Commits env sysArgs w) :
    Runs (sysPipe env sysArgs) w
      (fun r _ => r = .ok 0 ∧ Mapped env (word w.mem sysArgs) 4 ∧ InUser (secondTarget sysArgs w) 4 ∧
        Mapped env (secondTarget sysArgs w) 4)
      (fun e w' => w'.files.openSlots < w.files.openSlots ∧
        (e = .fault ∧ ¬ Mapped env (word w.mem sysArgs) 4 ∨
          Mapped env (word w.mem sysArgs) 4 ∧
            (e = .outside ∧ ¬ InUser (secondTarget sysArgs w) 4 ∨
              e = .fault ∧ InUser (secondTarget sysArgs w) 4 ∧
              ¬ Mapped env (secondTarget sysArgs w) 4))) := by
  obtain ⟨hu, hm₀, hm₁, hfirst, hsecond, hroom⟩ := hc
  unfold sysPipe
  rw [if_pos (validated_of_inUser hu (by decide))]
  refine runs_bind (runs_of_ok (arg_ok hu (by decide) hm₀) ?_)
  have hv₀ : validatePointer 4 (word w.mem (sysArgs + 4 * 0)) 1 = true :=
    validated_of_inUser hfirst Nat.one_pos
  rw [if_pos hv₀]
  refine runs_bind (runs_of_ok (arg_ok hu (by decide) hm₁) ?_)
  have hv₁ : validatePointer 4 (word w.mem (sysArgs + 4 * 1)) 1 = true :=
    validated_of_inUser hsecond Nat.one_pos
  rw [if_pos hv₁]
  refine runs_bind (runs_of_ok (rewriteArg_ok hu (by decide) hm₀) ?_)
  refine runs_bind (runs_of_ok (rewriteArg_ok hu (by decide) hm₁) ?_)
  refine runs_get ?_
  rw [if_pos (show w.files.canAlloc 2 = true from decide_eq_true hroom)]
  have hroom₁ : w.files.canAlloc 1 = true := decide_eq_true (by omega)
  refine runs_bind ((assignDescriptor_runs (k := 0) hu (by decide) hm₀ hroom₁ .pipeWrite).mono ?_ ?_)
  · rintro _ w₁ ⟨hopen₁, hmem₁, -, hmapped⟩
    have htarget : word w₁.mem (sysArgs + 4 * 1) = secondTarget sysArgs w := by rw [hmem₁]; rfl
    have hroom₂ : w₁.files.canAlloc 1 = true := decide_eq_true (by omega)
    have h₂ := assignDescriptor_runs (w := w₁) (k := 1) hu (by decide) hm₁ hroom₂ .pipeRead
    rw [htarget] at h₂
    refine runs_bind (h₂.mono ?_ ?_)
    · rintro _ _ ⟨-, -, hu₂, hm₂⟩
      exact ⟨rfl, hmapped, hu₂, hm₂⟩
    · rintro e w₂ ⟨hopen₂, he⟩
      exact ⟨by omega, .inr ⟨hmapped, he⟩⟩
  · rintro e w₁ ⟨hopen₁, ⟨-, hnot⟩ | ⟨he, -, hnot⟩⟩
    · exact absurd hfirst hnot
    · exact ⟨by omega, .inl ⟨he, hnot⟩⟩

end Pipe

end GheithOS.Syscall
